/- GID: NexusFS/Lib/Bytes
   layer: library
   digest: Fixed-width big-endian byte strings determine the numbers they encode. -/

import Mathlib.Data.Nat.ModEq
import Mathlib.Data.List.Basic
import Mathlib.Tactic.Ring

set_option autoImplicit false
set_option relaxedAutoImplicit false

namespace NexusFS.Lib

/-- A byte string, as `Vec<u8>` and `&[u8]`. -/
abbrev Bytes := List UInt8

instance neZeroTwoPow32 : NeZero (2 ^ 32) := ⟨by norm_num⟩

instance neZeroTwoPow64 : NeZero (2 ^ 64) := ⟨by norm_num⟩

instance neZeroTwoPow128 : NeZero (2 ^ 128) := ⟨by norm_num⟩

instance neZeroTwoPow192 : NeZero (2 ^ 192) := ⟨by norm_num⟩

instance neZeroTwoPow256 : NeZero (2 ^ 256) := ⟨by norm_num⟩

def ascii (text : String) : Bytes := text.toList.map fun c => UInt8.ofNat c.toNat

def beBytes : Nat → Nat → Bytes
  | 0, _ => []
  | n + 1, x => UInt8.ofNat (x / 256 ^ n) :: beBytes n x

@[simp] theorem beBytes_length (n x : Nat) : (beBytes n x).length = n := by
  induction n with
  | zero => rfl
  | succ n ih => simp [beBytes, ih]

/-- Equal encodings agree on every digit, hence modulo the encoded range. -/
theorem beBytes_mod {n x y : Nat} (same : beBytes n x = beBytes n y) :
    x % 256 ^ n = y % 256 ^ n := by
  induction n with
  | zero => simp [Nat.mod_one]
  | succ n ih =>
      simp only [beBytes, List.cons.injEq] at same
      have digit : x / 256 ^ n % 256 = y / 256 ^ n % 256 := by
        simpa using congrArg UInt8.toNat same.1
      have rest := ih same.2
      rw [pow_succ, Nat.mod_mul, Nat.mod_mul, digit, rest]

theorem beBytes_injective {n x y : Nat} (hx : x < 256 ^ n) (hy : y < 256 ^ n)
    (same : beBytes n x = beBytes n y) : x = y := by
  have residue := beBytes_mod same
  rwa [Nat.mod_eq_of_lt hx, Nat.mod_eq_of_lt hy] at residue

theorem beBytes_append_inj {n x y : Nat} {s t : Bytes}
    (same : beBytes n x ++ s = beBytes n y ++ t) : beBytes n x = beBytes n y ∧ s = t :=
  List.append_inj same (by simp)

def ofBytes (bytes : Bytes) : Nat := bytes.foldl (fun n byte => n * 256 + byte.toNat) 0

private theorem foldl_beBytes (n x start : Nat) :
    (beBytes n x).foldl (fun m byte => m * 256 + byte.toNat) start =
      start * 256 ^ n + x % 256 ^ n := by
  induction n generalizing start with
  | zero => simp [beBytes, Nat.mod_one]
  | succ n ih =>
      have digit : (UInt8.ofNat (x / 256 ^ n)).toNat = x / 256 ^ n % 256 := by simp
      rw [beBytes, List.foldl_cons, ih, digit, pow_succ, Nat.mod_mul]
      ring

theorem ofBytes_beBytes (n x : Nat) : ofBytes (beBytes n x) = x % 256 ^ n := by
  rw [ofBytes, foldl_beBytes, Nat.zero_mul, Nat.zero_add]

end NexusFS.Lib
