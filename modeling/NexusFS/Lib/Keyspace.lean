/- GID: NexusFS/Lib/Keyspace
   layer: library
   digest: Record families of an ordered byte store: tagged fixed-width keys, in their own order. -/

import NexusFS.Lib.BTree
import NexusFS.Lib.Bytes
import Mathlib.Data.List.Lex
import Mathlib.Data.Prod.Lex
import Mathlib.Data.String.Basic
import Mathlib.Tactic.Linarith

set_option autoImplicit false
set_option relaxedAutoImplicit false

namespace NexusFS.Lib

universe u v

instance linearOrderUInt8 : LinearOrder UInt8 where
  le_refl := UInt8.le_refl
  le_trans _ _ _ := UInt8.le_trans
  le_antisymm _ _ := UInt8.le_antisymm
  le_total := UInt8.le_total
  lt_iff_le_not_ge a b := by
    rw [UInt8.not_le]
    exact ⟨fun less => ⟨UInt8.le_of_lt less, less⟩, And.right⟩
  toDecidableLE := inferInstance
  toDecidableEq := inferInstance
  toDecidableLT := inferInstance

namespace Bytes

variable {a b c d p q : Bytes}

theorem append_lt_append_left_iff : p ++ a < p ++ b ↔ a < b := by
  induction p with
  | nil => rfl
  | cons byte p ih => simp [ih]

theorem append_lt_append_iff (length : a.length = b.length) :
    a ++ c < b ++ d ↔ a < b ∨ a = b ∧ c < d := by
  induction a generalizing b with
  | nil =>
      obtain rfl := List.eq_nil_of_length_eq_zero length.symm
      simp
  | cons byte a ih =>
      cases b with
      | nil => cases length
      | cons byte' b =>
          have rest := ih (Nat.succ_inj.mp length)
          simp only [List.cons_append, List.cons_lt_cons_iff, rest, List.cons.injEq]
          tauto

/-- What begins a string behind `p` begins `p`, or is begun by it. -/
theorem comparable_of_isPrefix_append (begins : q <+: p ++ a) : q <+: p ∨ p <+: q :=
  List.prefix_or_prefix_of_prefix begins (List.prefix_append p a)

end Bytes

theorem digits_lt_iff {base q r q' r' : Nat} (low : r < base) (low' : r' < base) :
    r + base * q < r' + base * q' ↔ q < q' ∨ q = q' ∧ r < r' := by
  rcases lt_trichotomy q q' with less | rfl | more
  · have step : base * (q + 1) ≤ base * q' := Nat.mul_le_mul_left base less
    rw [Nat.mul_succ] at step
    exact iff_of_true (by omega) (.inl less)
  · omega
  · have step : base * (q' + 1) ≤ base * q := Nat.mul_le_mul_left base more
    rw [Nat.mul_succ] at step
    exact iff_of_false (by omega) (by omega)

theorem beBytes_lt_iff_mod (n x y : Nat) :
    beBytes n x < beBytes n y ↔ x % 256 ^ n < y % 256 ^ n := by
  induction n with
  | zero => simp [beBytes, Nat.mod_one]
  | succ n ih =>
      have byte : ∀ z : Nat, (UInt8.ofNat (z / 256 ^ n)).toNat = z / 256 ^ n % 256 := fun z => by simp
      rw [beBytes, beBytes, List.cons_lt_cons_iff, ih, UInt8.lt_iff_toNat_lt, ← UInt8.toNat_inj,
        byte, byte, pow_succ, Nat.mod_mul, Nat.mod_mul]
      have base : 0 < 256 ^ n := Nat.pow_pos (by decide)
      exact (digits_lt_iff (Nat.mod_lt x base) (Nat.mod_lt y base)).symm

theorem beBytes_lt_iff {n x y : Nat} (hx : x < 256 ^ n) (hy : y < 256 ^ n) :
    beBytes n x < beBytes n y ↔ x < y := by
  rw [beBytes_lt_iff_mod, Nat.mod_eq_of_lt hx, Nat.mod_eq_of_lt hy]

theorem beBytes_congr {n x y : Nat} (same : x % 256 ^ n = y % 256 ^ n) : beBytes n x = beBytes n y := by
  apply le_antisymm
  · exact not_lt.mp fun less => (((beBytes_lt_iff_mod n y x).mp less).ne same.symm)
  · exact not_lt.mp fun less => (((beBytes_lt_iff_mod n x y).mp less).ne same)

theorem ofBytes_cons (byte : UInt8) (bytes : Bytes) :
    ofBytes (byte :: bytes) = byte.toNat * 256 ^ bytes.length + ofBytes bytes := by
  have shifted : ∀ (bytes : Bytes) (start : Nat),
      bytes.foldl (fun n byte => n * 256 + byte.toNat) start =
        start * 256 ^ bytes.length + ofBytes bytes := by
    intro bytes
    induction bytes with
    | nil => simp [ofBytes]
    | cons byte bytes ih =>
        intro start
        rw [ofBytes, List.foldl_cons, List.foldl_cons, ih, ih (0 * 256 + byte.toNat),
          List.length_cons, pow_succ]
        ring
  rw [ofBytes, List.foldl_cons, Nat.zero_mul, Nat.zero_add]
  exact shifted bytes byte.toNat

theorem ofBytes_lt (bytes : Bytes) : ofBytes bytes < 256 ^ bytes.length := by
  induction bytes with
  | nil => decide
  | cons byte bytes ih =>
      have digit : byte.toNat + 1 ≤ 256 := byte.toNat_lt
      have scaled := Nat.mul_le_mul_right (256 ^ bytes.length) digit
      rw [ofBytes_cons, List.length_cons, pow_succ]
      linarith

theorem beBytes_ofBytes (bytes : Bytes) : beBytes bytes.length (ofBytes bytes) = bytes := by
  induction bytes with
  | nil => rfl
  | cons byte bytes ih =>
      have small := ofBytes_lt bytes
      have head : (byte.toNat * 256 ^ bytes.length + ofBytes bytes) / 256 ^ bytes.length =
          byte.toNat := by
        rw [Nat.add_comm, Nat.add_mul_div_right _ _ (Nat.pow_pos (by decide)), Nat.div_eq_of_lt small,
          Nat.zero_add]
      have tail : beBytes bytes.length (byte.toNat * 256 ^ bytes.length + ofBytes bytes) =
          beBytes bytes.length (ofBytes bytes) := beBytes_congr (by simp)
      rw [List.length_cons, ofBytes_cons, beBytes, head, tail, ih, UInt8.ofNat_toNat]

/-- A family of keys: a tag, and a body of fixed width whose byte order is the order of what it names. -/
structure KeyFamily (α : Type u) [LinearOrder α] where
  tag : Bytes
  width : Nat
  body : α → Bytes
  read : Bytes → α
  body_length : ∀ a, (body a).length = width
  read_body : ∀ a, read (body a) = a
  body_read : ∀ bytes, bytes.length = width → body (read bytes) = bytes
  body_lt : ∀ a b, body a < body b ↔ a < b

namespace KeyFamily

variable {α : Type u} {β : Type v} [LinearOrder α] [LinearOrder β]

def key (f : KeyFamily α) (a : α) : Bytes := f.tag ++ f.body a

def parse (f : KeyFamily α) (key : Bytes) : Option α :=
  if !f.tag.isPrefixOf key || key.length ≠ f.tag.length + f.width then none
  else some (f.read (key.drop f.tag.length))

variable (f : KeyFamily α) (g : KeyFamily β)

@[simp] theorem parse_key (a : α) : f.parse (f.key a) = some a := by
  simp [parse, key, f.body_length, f.read_body]

theorem parse_eq_some {key : Bytes} {a : α} : f.parse key = some a ↔ key = f.key a := by
  constructor
  · intro parsed
    unfold parse at parsed
    split at parsed
    · cases parsed
    · rename_i well_formed
      obtain ⟨begins, length⟩ : f.tag <+: key ∧ key.length = f.tag.length + f.width := by
        simpa [List.isPrefixOf_iff_prefix] using well_formed
      obtain ⟨body, rfl⟩ := begins
      have width : body.length = f.width := by simpa using length
      rw [List.drop_left] at parsed
      rw [← Option.some.inj parsed, KeyFamily.key, f.body_read body width]
  · rintro rfl
    exact f.parse_key a

theorem key_injective : Function.Injective f.key := fun a b same =>
  Option.some.inj ((f.parse_key a).symm.trans ((congrArg f.parse same).trans (f.parse_key b)))

theorem key_lt_key {a b : α} : f.key a < f.key b ↔ a < b :=
  Bytes.append_lt_append_left_iff.trans (f.body_lt a b)

theorem tag_prefix_key (a : α) : f.tag <+: f.key a := List.prefix_append _ _

theorem not_tag_prefix_key (apart : ¬f.tag <+: g.tag ∧ ¬g.tag <+: f.tag) (b : β) :
    ¬f.tag <+: g.key b := fun begins =>
  (Bytes.comparable_of_isPrefix_append begins).elim apart.1 apart.2

end KeyFamily

abbrev KvMap := BTreeMap (String ×ₗ Bytes) Bytes

instance transCmpKvKey : Std.TransCmp (@compare (String ×ₗ Bytes) LinearOrder.toOrd) := inferInstance

namespace KvMap

variable (kv : KvMap) (cf : String)

def getKv (key : Bytes) : Option Bytes := kv[toLex (cf, key)]?

def putKv (key value : Bytes) : KvMap := kv.insert (toLex (cf, key)) value

def deleteKv (key : Bytes) : KvMap := kv.erase (toLex (cf, key))

def scanPrefix (tag : Bytes) : List (Bytes × Bytes) :=
  (kv.toList.filter fun row => (ofLex row.1).1 == cf && tag.isPrefixOf (ofLex row.1).2).map
    fun row => ((ofLex row.1).2, row.2)

theorem mem_scanPrefix {tag key value : Bytes} :
    (key, value) ∈ kv.scanPrefix cf tag ↔ kv.getKv cf key = some value ∧ tag <+: key := by
  unfold scanPrefix getKv
  rw [List.mem_map]
  constructor
  · rintro ⟨⟨id, bytes⟩, member, same⟩
    obtain ⟨rfl, rfl⟩ := Prod.mk.inj same
    obtain ⟨listed, kept⟩ := List.mem_filter.mp member
    obtain ⟨rfl, begins⟩ : (ofLex id).1 = cf ∧ tag <+: (ofLex id).2 := by
      simpa [List.isPrefixOf_iff_prefix] using kept
    exact ⟨(kv.mem_toList _ _).mp listed, begins⟩
  · rintro ⟨here, begins⟩
    refine ⟨(toLex (cf, key), value), List.mem_filter.mpr ⟨(kv.mem_toList _ _).mpr here, ?_⟩, rfl⟩
    simpa [List.isPrefixOf_iff_prefix] using begins

theorem scanPrefix_sorted (tag : Bytes) : (kv.scanPrefix cf tag).Pairwise fun a b => a.1 < b.1 := by
  unfold scanPrefix
  rw [List.pairwise_map]
  refine ((BTreeMap.sorted_toList kv).filter _).imp_of_mem ?_
  rintro ⟨id, value⟩ ⟨id', value'⟩ here there order
  have column : (ofLex id).1 = cf := by
    have kept := (List.mem_filter.mp here).2
    simp only [Bool.and_eq_true, beq_iff_eq] at kept
    exact kept.1
  have column' : (ofLex id').1 = cf := by
    have kept := (List.mem_filter.mp there).2
    simp only [Bool.and_eq_true, beq_iff_eq] at kept
    exact kept.1
  rcases Prod.Lex.lt_iff.mp order with less | ⟨-, less⟩
  · rw [column, column'] at less
    exact absurd less (lt_irrefl _)
  · exact less

theorem getKv_putKv (cf' : String) (key key' value : Bytes) :
    (kv.putKv cf key value).getKv cf' key' =
      if cf = cf' ∧ key = key' then some value else kv.getKv cf' key' := by
  unfold putKv getKv
  rw [BTreeMap.get_insert]
  simp only [EmbeddingLike.apply_eq_iff_eq, Prod.mk.injEq]

theorem getKv_deleteKv (cf' : String) (key key' : Bytes) :
    (kv.deleteKv cf key).getKv cf' key' =
      if cf = cf' ∧ key = key' then none else kv.getKv cf' key' := by
  unfold deleteKv getKv
  rw [BTreeMap.get_erase]
  simp only [EmbeddingLike.apply_eq_iff_eq, Prod.mk.injEq]

def setKv (key : Bytes) : Option Bytes → KvMap
  | some value => kv.putKv cf key value
  | none => kv.deleteKv cf key

theorem getKv_setKv (cf' : String) (key key' : Bytes) (value : Option Bytes) :
    (kv.setKv cf key value).getKv cf' key' =
      if cf = cf' ∧ key = key' then value else kv.getKv cf' key' := by
  cases value with
  | some value => exact getKv_putKv kv cf cf' key key' value
  | none => exact getKv_deleteKv kv cf cf' key key'

end KvMap

section Holds

variable {α : Type u} {V : Type v} [LinearOrder α] {kv : KvMap} {cf cf' : String} {f : KeyFamily α}
  {rows : α → Option Bytes}

def Holds (kv : KvMap) (cf : String) (f : KeyFamily α) (rows : α → Option Bytes) : Prop :=
  ∀ key, f.tag <+: key → kv.getKv cf key = (f.parse key).bind rows

theorem Holds.empty (cf : String) (f : KeyFamily α) : Holds ∅ cf f fun _ => none := by
  intro key _
  rw [Option.bind_fun_none]
  exact Std.ExtTreeMap.getElem?_empty

theorem Holds.set (holds : Holds kv cf f rows) {rows' : α → Option Bytes} {a : α}
    {value : Option Bytes} (own : rows' a = value) (others : ∀ b, b ≠ a → rows' b = rows b) :
    Holds (kv.setKv cf (f.key a) value) cf f rows' := by
  intro key begins
  rw [KvMap.getKv_setKv]
  by_cases same : f.key a = key
  · subst same
    rw [if_pos ⟨rfl, rfl⟩, f.parse_key, Option.bind_some, own]
  · rw [if_neg fun both => same both.2, holds key begins]
    refine Option.bind_congr fun b parsed => (others b ?_).symm
    rintro rfl
    exact same (f.parse_eq_some.mp parsed).symm

theorem Holds.set_apart (holds : Holds kv cf f rows) {key : Bytes} (apart : cf' ≠ cf ∨ ¬f.tag <+: key)
    (value : Option Bytes) : Holds (kv.setKv cf' key value) cf f rows := by
  intro key' begins
  rw [KvMap.getKv_setKv, if_neg, holds key' begins]
  rintro ⟨rfl, rfl⟩
  exact apart.elim (absurd rfl) (absurd begins)

theorem Holds.scanPrefix {m : BTreeMap α V} {enc : V → Bytes}
    (holds : Holds kv cf f fun a => m[a]?.map enc) :
    kv.scanPrefix cf f.tag = m.toList.map fun row => (f.key row.1, enc row.2) := by
  have sorted : (m.toList.map fun row => (f.key row.1, enc row.2)).Pairwise fun a b => a.1 < b.1 :=
    List.pairwise_map.mpr (m.sorted_toList.imp fun order => f.key_lt_key.mpr order)
  have irreflexive : Std.Irrefl fun a b : Bytes × Bytes => a.1 < b.1 := ⟨fun a => lt_irrefl a.1⟩
  have antisymmetric : Std.Antisymm fun a b : Bytes × Bytes => a.1 < b.1 :=
    ⟨fun a b less more => absurd (less.trans more) (lt_irrefl a.1)⟩
  refine (kv.scanPrefix_sorted cf f.tag).eq_of_mem_iff sorted ?_
  rintro ⟨key, value⟩
  rw [KvMap.mem_scanPrefix, List.mem_map]
  constructor
  · rintro ⟨here, begins⟩
    rw [holds key begins] at here
    obtain ⟨a, parsed, row⟩ := Option.bind_eq_some_iff.mp here
    obtain ⟨v, stored, rfl⟩ := Option.map_eq_some_iff.mp row
    exact ⟨(a, v), (m.mem_toList a v).mpr stored, by rw [f.parse_eq_some.mp parsed]⟩
  · rintro ⟨⟨a, v⟩, member, same⟩
    obtain ⟨rfl, rfl⟩ := Prod.mk.inj same
    refine ⟨?_, f.tag_prefix_key a⟩
    rw [holds _ (f.tag_prefix_key a), f.parse_key, Option.bind_some, (m.mem_toList a v).mp member]
    rfl

end Holds

end NexusFS.Lib
