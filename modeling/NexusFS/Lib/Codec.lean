/- GID: NexusFS/Lib/Codec
   layer: library
   digest: Self-delimiting byte formats that carry the proof that they read back what they wrote. -/

import NexusFS.Lib.Bytes
import Mathlib.Data.Nat.Log

set_option autoImplicit false
set_option relaxedAutoImplicit false

namespace NexusFS.Lib

/-- A self-delimiting format: what was encoded is read back, and what follows it is left over. -/
structure Codec (α : Type) where
  encode : α → Bytes
  decode : Bytes → Option (α × Bytes)
  roundTrip : ∀ a rest, decode (encode a ++ rest) = some (a, rest)

namespace Codec

variable {α β : Type}

def cover (c : Codec α) (f : α → β) (g : β → α) (inverse : ∀ b, f (g b) = b) : Codec β where
  encode := fun b => c.encode (g b)
  decode := fun bytes => (c.decode bytes).map fun p => (f p.1, p.2)
  roundTrip := by
    intro b rest
    rw [c.roundTrip, Option.map_some, inverse]

def pair (c : Codec α) (d : Codec β) : Codec (α × β) where
  encode := fun p => c.encode p.1 ++ d.encode p.2
  decode := fun bytes =>
    (c.decode bytes).bind fun first =>
      (d.decode first.2).map fun second => ((first.1, second.1), second.2)
  roundTrip := by
    rintro ⟨a, b⟩ rest
    rw [List.append_assoc, c.roundTrip, Option.bind_some, d.roundTrip, Option.map_some]

def option (c : Codec α) : Codec (Option α) where
  encode
    | none => [0]
    | some a => 1 :: c.encode a
  decode
    | [] => none
    | tag :: bytes =>
        if tag = 0 then some (none, bytes)
        else if tag = 1 then (c.decode bytes).map fun p => (some p.1, p.2)
        else none
  roundTrip := by
    rintro (_ | a) rest
    · rfl
    · simp [c.roundTrip]

/-- The groups of seven bits of a number, least significant first, each but the last flagged. -/
def varintBytes : Nat → Nat → Bytes
  | 0, n => [UInt8.ofNat n]
  | fuel + 1, n =>
      if n < 128 then [UInt8.ofNat n]
      else UInt8.ofNat (n % 128 + 128) :: varintBytes fuel (n / 128)

def readVarint : Bytes → Option (Nat × Bytes)
  | [] => none
  | byte :: bytes =>
      if byte.toNat < 128 then some (byte.toNat, bytes)
      else (readVarint bytes).map fun p => (p.1 * 128 + (byte.toNat - 128), p.2)

private theorem readVarint_varintBytes (fuel n : Nat) (bound : n < 128 ^ (fuel + 1))
    (rest : Bytes) : readVarint (varintBytes fuel n ++ rest) = some (n, rest) := by
  have last : ∀ m, m < 128 → readVarint (UInt8.ofNat m :: rest) = some (m, rest) := by
    intro m small
    have value : (UInt8.ofNat m).toNat = m := by
      rw [UInt8.toNat_ofNat']
      exact Nat.mod_eq_of_lt (by omega)
    rw [readVarint, value, if_pos small]
  induction fuel generalizing n with
  | zero => exact last n (by simpa using bound)
  | succ fuel ih =>
      unfold varintBytes
      split
      · rename_i small
        exact last n small
      · have smaller : n / 128 < 128 ^ (fuel + 1) := by
          rw [Nat.div_lt_iff_lt_mul (by omega), ← pow_succ]
          exact bound
        have value : (UInt8.ofNat (n % 128 + 128)).toNat = n % 128 + 128 := by
          rw [UInt8.toNat_ofNat']
          exact Nat.mod_eq_of_lt (by omega)
        rw [List.cons_append, readVarint, value, if_neg (by omega), ih _ smaller, Option.map_some,
          Option.some.injEq, Prod.mk.injEq]
        exact ⟨by omega, rfl⟩

def varint : Codec Nat where
  encode := fun n => varintBytes n.log2 n
  decode := readVarint
  roundTrip := by
    intro n rest
    refine readVarint_varintBytes _ n ?_ rest
    calc n < 2 ^ (n.log2 + 1) := Nat.lt_log2_self
      _ ≤ 128 ^ (n.log2 + 1) := Nat.pow_le_pow_left (by omega) _

def word (n : Nat) [NeZero n] : Codec (Fin n) :=
  varint.cover (Fin.ofNat n) Fin.val fun x => Fin.ofNat_val_eq_self x

def array (n m : Nat) [NeZero m] (range : m = 256 ^ n) : Codec (Fin m) where
  encode := fun x => beBytes n x.val
  decode := fun bytes =>
    if n ≤ bytes.length then some (Fin.ofNat m (ofBytes (bytes.take n)), bytes.drop n) else none
  roundTrip := by
    intro x rest
    have size : (beBytes n x.val).length = n := beBytes_length n x.val
    rw [List.length_append, size, if_pos (Nat.le_add_right n _), List.take_left' size,
      List.drop_left' size, ofBytes_beBytes, ← range, Nat.mod_eq_of_lt x.isLt,
      Fin.ofNat_val_eq_self]

def byte : Codec UInt8 where
  encode := fun b => [b]
  decode
    | [] => none
    | b :: bytes => some (b, bytes)
  roundTrip := fun _ _ => rfl

def readMany (c : Codec α) : Nat → Bytes → Option (List α × Bytes)
  | 0, bytes => some ([], bytes)
  | n + 1, bytes =>
      (c.decode bytes).bind fun first =>
        (readMany c n first.2).map fun later => (first.1 :: later.1, later.2)

private theorem readMany_flatMap (c : Codec α) (l : List α) (rest : Bytes) :
    readMany c l.length (l.flatMap c.encode ++ rest) = some (l, rest) := by
  induction l with
  | nil => rfl
  | cons a l ih =>
      rw [List.flatMap_cons, List.append_assoc, List.length_cons, readMany, c.roundTrip,
        Option.bind_some, ih, Option.map_some]

def list (c : Codec α) : Codec (List α) where
  encode := fun l => varint.encode l.length ++ l.flatMap c.encode
  decode := fun bytes => (varint.decode bytes).bind fun count => readMany c count.1 count.2
  roundTrip := by
    intro l rest
    rw [List.append_assoc, varint.roundTrip, Option.bind_some, readMany_flatMap]

def utf8 : Codec String where
  encode := fun s => (list byte).encode s.toByteArray.data.toList
  decode := fun bytes =>
    ((list byte).decode bytes).bind fun p =>
      (String.fromUTF8? p.1.toByteArray).map fun s => (s, p.2)
  roundTrip := by
    intro s rest
    have same : s.toByteArray.data.toList.toByteArray = s.toByteArray := by
      apply ByteArray.ext
      rw [List.data_toByteArray, Array.toArray_toList]
    have valid : String.fromUTF8? s.toByteArray = some s := dif_pos s.isValidUTF8
    rw [(list byte).roundTrip, Option.bind_some, same, valid, Option.map_some]

def bool : Codec Bool where
  encode := fun b => [if b then 1 else 0]
  decode
    | [] => none
    | tag :: bytes => if tag = 0 then some (false, bytes) else if tag = 1 then some (true, bytes) else none
  roundTrip := by
    rintro (_ | _) rest <;> rfl

theorem encode_append_inj (c : Codec α) {a b : α} {rest rest' : Bytes}
    (same : c.encode a ++ rest = c.encode b ++ rest') : a = b ∧ rest = rest' := by
  have read := c.roundTrip a rest
  rw [same, c.roundTrip] at read
  obtain ⟨rfl, rfl⟩ := Prod.mk.inj (Option.some.inj read)
  exact ⟨rfl, rfl⟩

theorem encode_injective (c : Codec α) : Function.Injective c.encode := by
  intro a b same
  exact (c.encode_append_inj (congrArg (· ++ []) same)).1

def groups (n : Nat) : Nat := n.log2 / 7 + 1

theorem groups_small {n : Nat} (small : n < 128) : groups n = 1 := by
  have bits : n.log2 < 7 := by
    by_cases zero : n = 0
    · rw [zero]
      decide
    · exact (Nat.log2_lt zero).mpr small
  unfold groups
  omega

theorem groups_large {n : Nat} (large : 128 ≤ n) : groups n = groups (n / 128) + 1 := by
  have bits : 7 ≤ n.log2 := (Nat.le_log2 (by omega)).mpr large
  have shifted : (n / 2 ^ 7).log2 = n.log2 - 7 := by
    rw [Nat.log2_eq_log_two, Nat.log2_eq_log_two, Nat.log_div_base_pow]
  have quotient : (n / 128).log2 = n.log2 - 7 := shifted
  unfold groups
  rw [quotient]
  omega

private theorem varintBytes_length (fuel n : Nat) (bound : n < 128 ^ (fuel + 1)) :
    (varintBytes fuel n).length = groups n := by
  induction fuel generalizing n with
  | zero => exact (groups_small (by simpa using bound)).symm
  | succ fuel ih =>
      unfold varintBytes
      split
      · rename_i small
        exact (groups_small small).symm
      · rename_i large
        have smaller : n / 128 < 128 ^ (fuel + 1) := by
          rw [Nat.div_lt_iff_lt_mul (by omega), ← pow_succ]
          exact bound
        rw [List.length_cons, ih _ smaller]
        exact (groups_large (by omega)).symm

theorem varint_length (n : Nat) : (varint.encode n).length = groups n := by
  refine varintBytes_length _ n ?_
  calc n < 2 ^ (n.log2 + 1) := Nat.lt_log2_self
    _ ≤ 128 ^ (n.log2 + 1) := Nat.pow_le_pow_left (by omega) _

/-- A number below `2 ^ (7 * k)` takes at most `k` groups. -/
theorem groups_le {n k : Nat} (bound : n < 2 ^ (7 * k)) (some_group : 0 < k) : groups n ≤ k := by
  have bits : n.log2 < 7 * k := by
    by_cases zero : n = 0
    · rw [zero, Nat.log2_zero]
      omega
    · exact (Nat.log2_lt zero).mpr bound
  unfold groups
  omega

theorem groups_mono {n m : Nat} (le : n ≤ m) : groups n ≤ groups m := by
  have bits : n.log2 ≤ m.log2 := by
    rw [Nat.log2_eq_log_two, Nat.log2_eq_log_two]
    exact Nat.log_mono_right le
  unfold groups
  omega

@[simp] theorem word_length (n : Nat) [NeZero n] (x : Fin n) :
    ((word n).encode x).length = groups x.val := varint_length x.val

@[simp] theorem cover_encode (c : Codec α) (f : α → β) (g : β → α) (inverse : ∀ b, f (g b) = b)
    (b : β) : (c.cover f g inverse).encode b = c.encode (g b) := rfl

@[simp] theorem pair_length (c : Codec α) (d : Codec β) (p : α × β) :
    ((c.pair d).encode p).length = (c.encode p.1).length + (d.encode p.2).length :=
  List.length_append

@[simp] theorem list_length (c : Codec α) (l : List α) :
    (c.list.encode l).length = groups l.length + (l.map fun a => (c.encode a).length).sum := by
  have both : c.list.encode l = varint.encode l.length ++ l.flatMap c.encode := rfl
  rw [both, List.length_append, varint_length, List.length_flatMap]

theorem option_length (c : Codec α) (o : Option α) :
    (c.option.encode o).length = o.elim 1 fun a => 1 + (c.encode a).length := by
  cases o with
  | none => rfl
  | some a => exact (List.length_cons ..).trans (Nat.add_comm _ _)

@[simp] theorem byte_length (b : UInt8) : (byte.encode b).length = 1 := rfl

@[simp] theorem utf8_length (s : String) :
    (utf8.encode s).length = groups s.utf8ByteSize + s.utf8ByteSize := by
  have bytes : utf8.encode s = (list byte).encode s.toByteArray.data.toList := rfl
  have size : s.toByteArray.data.toList.length = s.utf8ByteSize := rfl
  rw [bytes, list_length, size]
  simp [size]

@[simp] theorem bool_length (b : Bool) : (bool.encode b).length = 1 := rfl

def read (c : Codec α) (bytes : Bytes) : Option α := (c.decode bytes).map Prod.fst

theorem read_encode (c : Codec α) (a : α) : c.read (c.encode a) = some a := by
  have whole := c.roundTrip a []
  rw [List.append_nil] at whole
  rw [read, whole, Option.map_some]

end Codec

end NexusFS.Lib
