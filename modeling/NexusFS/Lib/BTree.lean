/- GID: NexusFS/Lib/BTree
   layer: library
   digest: Ordered maps and sets with extensional equality, read in ascending key order. -/

import Mathlib.Data.List.Perm.Subperm
import Mathlib.Data.List.Sort
import Mathlib.Order.Compare
import Mathlib.Order.Defs.LinearOrder
import Std.Data.ExtTreeMap
import Std.Data.ExtTreeSet

set_option autoImplicit false
set_option relaxedAutoImplicit false

namespace NexusFS.Lib

universe u v w

/-- `BTreeMap<K, V>`: a finite map whose iteration order is the key order. -/
abbrev BTreeMap (K : Type u) (V : Type v) [LinearOrder K] := Std.ExtTreeMap K V compare

/-- `BTreeSet<K>`. -/
abbrev BTreeSet (K : Type u) [LinearOrder K] := Std.ExtTreeSet K compare

namespace BTreeMap

variable {K : Type u} {V : Type v} [LinearOrder K]

theorem get_insert (m : BTreeMap K V) (k a : K) (v : V) :
    (m.insert k v)[a]? = if k = a then some v else m[a]? := by
  rw [Std.ExtTreeMap.getElem?_insert]
  simp only [compare_eq_iff_eq]

theorem get_erase (m : BTreeMap K V) (k a : K) :
    (m.erase k)[a]? = if k = a then none else m[a]? := by
  rw [Std.ExtTreeMap.getElem?_erase]
  simp only [compare_eq_iff_eq]

theorem mem_toList (m : BTreeMap K V) (k : K) (v : V) : (k, v) ∈ m.toList ↔ m[k]? = some v := by
  constructor
  · intro member
    exact Std.ExtTreeMap.mem_toList_iff_getElem?_eq_some.mp member
  · intro here
    exact Std.ExtTreeMap.mem_toList_iff_getElem?_eq_some.mpr here

theorem mem_keys (m : BTreeMap K V) (k : K) : k ∈ m.keys ↔ ∃ v, m[k]? = some v := by
  rw [Std.ExtTreeMap.mem_keys, Std.ExtTreeMap.mem_iff_isSome_getElem?, Option.isSome_iff_exists]

theorem mem_keys_iff (m : BTreeMap K V) (k : K) : k ∈ m.keys ↔ k ∈ m :=
  Std.ExtTreeMap.mem_keys

theorem mem_iff_get (m : BTreeMap K V) (k : K) : k ∈ m ↔ ∃ v, m[k]? = some v := by
  rw [Std.ExtTreeMap.mem_iff_isSome_getElem?, Option.isSome_iff_exists]

theorem ext_get {m n : BTreeMap K V} (same : ∀ k : K, m[k]? = n[k]?) : m = n :=
  Std.ExtTreeMap.ext_getElem? fun {k} => same k

theorem insert_eq_self_iff (m : BTreeMap K V) (k : K) (v : V) :
    m.insert k v = m ↔ m[k]? = some v := by
  constructor
  · intro same
    rw [← same, get_insert, if_pos rfl]
  · intro here
    apply Std.ExtTreeMap.ext_getElem?
    intro a
    rw [get_insert]
    split
    · rename_i equal
      rw [← equal, here]
    · rfl

/-- A step that changes a map at its row's own key only, from what was there. -/
structure Touches {W : Type w} (step : BTreeMap K V → K × W → BTreeMap K V)
    (act : Option V → W → V) : Prop where
  own : ∀ m row, (step m row)[row.1]? = some (act m[row.1]? row.2)
  other : ∀ m row a, row.1 ≠ a → (step m row)[a]? = m[a]?

namespace Touches

variable {W : Type w} {step : BTreeMap K V → K × W → BTreeMap K V} {act : Option V → W → V}

theorem insert : Touches (fun (m : BTreeMap K V) (row : K × V) => m.insert row.1 row.2) fun _ v => v :=
  ⟨fun m row => by rw [get_insert, if_pos rfl], fun m row a apart => by rw [get_insert, if_neg apart]⟩

theorem get_foldl_of_not_mem (touches : Touches step act) (l : List (K × W)) (m : BTreeMap K V) {a : K}
    (absent : ∀ row ∈ l, row.1 ≠ a) : (l.foldl step m)[a]? = m[a]? := by
  induction l generalizing m with
  | nil => rfl
  | cons row l ih =>
      rw [List.foldl_cons, ih _ fun other member => absent other (List.mem_cons_of_mem row member),
        touches.other m row a (absent row List.mem_cons_self)]

theorem get_foldl_of_mem (touches : Touches step act) (l : List (K × W)) (m : BTreeMap K V)
    (distinct : l.Pairwise fun a b => a.1 ≠ b.1) {a : K} {w : W} (member : (a, w) ∈ l) :
    (l.foldl step m)[a]? = some (act m[a]? w) := by
  induction l generalizing m with
  | nil => cases member
  | cons row l ih =>
      rw [List.pairwise_cons] at distinct
      rw [List.foldl_cons]
      rcases List.mem_cons.mp member with same | later
      · subst same
        rw [touches.get_foldl_of_not_mem l _ fun other inside => (distinct.1 other inside).symm]
        exact touches.own m (a, w)
      · rw [ih _ distinct.2 later, touches.other m row a (distinct.1 _ later)]

end Touches

theorem get_foldl_insert_of_not_mem (l : List (K × V)) (m : BTreeMap K V) {a : K}
    (absent : ∀ row ∈ l, row.1 ≠ a) :
    (l.foldl (fun m row => m.insert row.1 row.2) m)[a]? = m[a]? :=
  Touches.insert.get_foldl_of_not_mem l m absent

theorem get_foldl_insert_of_mem (l : List (K × V)) (m : BTreeMap K V)
    (distinct : l.Pairwise fun a b => a.1 ≠ b.1) {a : K} {v : V} (member : (a, v) ∈ l) :
    (l.foldl (fun m row => m.insert row.1 row.2) m)[a]? = some v :=
  Touches.insert.get_foldl_of_mem l m distinct member

theorem sorted_toList (m : BTreeMap K V) : m.toList.Pairwise fun a b => a.1 < b.1 := by
  refine Std.ExtTreeMap.ordered_keys_toList.imp ?_
  intro a b h
  exact compare_lt_iff_lt.mp h

theorem Touches.get_foldl_toList {W : Type w} {step : BTreeMap K V → K × W → BTreeMap K V}
    {act : Option V → W → V} (touches : Touches step act) (n : BTreeMap K W) (m : BTreeMap K V) (a : K) :
    (n.toList.foldl step m)[a]? = n[a]?.elim m[a]? fun w => some (act m[a]? w) := by
  cases here : n[a]? with
  | none =>
      refine touches.get_foldl_of_not_mem _ _ ?_
      rintro ⟨b, w⟩ member rfl
      rw [(n.mem_toList _ _).mp member] at here
      cases here
  | some w =>
      exact touches.get_foldl_of_mem _ _ (n.sorted_toList.imp fun order => order.ne)
        ((n.mem_toList _ _).mpr here)

theorem get_foldl_filterMap {W : Type v} (m : BTreeMap K V) (f : V → Option W) (k : K) :
    ((m.toList.filterMap fun row => (f row.2).map (Prod.mk row.1)).foldl
      (fun n row => n.insert row.1 row.2) (∅ : BTreeMap K W))[k]? = m[k]?.bind f := by
  have kept : ∀ row : K × W, row ∈ m.toList.filterMap
      (fun row => (f row.2).map (Prod.mk row.1)) ↔ ∃ v, m[row.1]? = some v ∧ f v = some row.2 := by
    rintro ⟨a, w⟩
    rw [List.mem_filterMap]
    constructor
    · rintro ⟨⟨b, v⟩, member, same⟩
      obtain ⟨x, value, pair⟩ := Option.map_eq_some_iff.mp same
      obtain ⟨rfl, rfl⟩ := Prod.mk.inj pair
      exact ⟨v, (m.mem_toList _ _).mp member, value⟩
    · rintro ⟨v, here, value⟩
      exact ⟨(a, v), (m.mem_toList _ _).mpr here, Option.map_eq_some_iff.mpr ⟨w, value, rfl⟩⟩
  cases value : m[k]?.bind f with
  | some w =>
      obtain ⟨v, here, image⟩ := Option.bind_eq_some_iff.mp value
      refine get_foldl_insert_of_mem _ _ ?_ ((kept (k, w)).mpr ⟨v, here, image⟩)
      rw [List.pairwise_filterMap]
      refine m.sorted_toList.imp ?_
      rintro ⟨a, x⟩ ⟨b, y⟩ order row left row' right
      obtain ⟨_, _, rfl⟩ := Option.map_eq_some_iff.mp left
      obtain ⟨_, _, rfl⟩ := Option.map_eq_some_iff.mp right
      exact order.ne
  | none =>
      rw [get_foldl_insert_of_not_mem]
      · rw [Std.ExtTreeMap.getElem?_empty]
      · rintro ⟨a, w⟩ member rfl
        obtain ⟨v, here, image⟩ := (kept (a, w)).mp member
        rw [Option.bind_eq_some_iff.mpr ⟨v, here, image⟩] at value
        cases value

theorem keys_eq_of_mem_iff {W : Type v} {m : BTreeMap K V} {n : BTreeMap K W}
    (same : ∀ k, k ∈ m ↔ k ∈ n) : m.keys = n.keys := by
  have sorted : ∀ {U : Type v} (m : BTreeMap K U), m.keys.Pairwise (· < ·) := fun m =>
    Std.ExtTreeMap.ordered_keys.imp fun order => compare_lt_iff_lt.mp order
  refine (sorted m).eq_of_mem_iff (sorted n) fun k => ?_
  rw [Std.ExtTreeMap.mem_keys, Std.ExtTreeMap.mem_keys, same]

end BTreeMap

namespace BTreeSet

variable {K : Type u} [LinearOrder K]

@[simp] theorem mem_insert (s : BTreeSet K) (k a : K) : a ∈ s.insert k ↔ k = a ∨ a ∈ s := by
  rw [Std.ExtTreeSet.mem_insert]
  simp only [compare_eq_iff_eq]

theorem ext_mem {s t : BTreeSet K} (same : ∀ a, a ∈ s ↔ a ∈ t) : s = t :=
  Std.ExtTreeSet.ext_mem same

theorem mem_toList (s : BTreeSet K) (a : K) : a ∈ s.toList ↔ a ∈ s := by
  rw [← List.contains_iff_mem, Std.ExtTreeSet.contains_toList, Std.ExtTreeSet.contains_iff_mem]

theorem nodup_toList (s : BTreeSet K) : s.toList.Nodup :=
  Std.ExtTreeSet.ordered_toList.imp fun order => (compare_lt_iff_lt.mp order).ne

theorem mem_foldl_insert {C : Type u} (f : C → K) (l : List C) (s : BTreeSet K) (a : K) :
    a ∈ l.foldl (fun s c => s.insert (f c)) s ↔ a ∈ s ∨ ∃ c ∈ l, f c = a := by
  induction l generalizing s with
  | nil => simp
  | cons c l ih =>
      rw [List.foldl_cons, ih, mem_insert, List.exists_mem_cons_iff, or_comm (a := f c = a), or_assoc]

theorem size_le_of_subset {s t : BTreeSet K} (inside : ∀ a ∈ s, a ∈ t) : s.size ≤ t.size := by
  rw [← Std.ExtTreeSet.length_toList, ← Std.ExtTreeSet.length_toList]
  have subset : s.toList ⊆ t.toList := fun a listed =>
    (mem_toList t a).mpr (inside a ((mem_toList s a).mp listed))
  exact (List.subperm_of_subset (nodup_toList s) subset).length_le

theorem size_lt_of_subset {s t : BTreeSet K} (inside : ∀ a, a ∈ s → a ∈ t) {k : K} (here : k ∈ t)
    (gone : k ∉ s) : s.size < t.size := by
  rw [← Std.ExtTreeSet.length_toList, ← Std.ExtTreeSet.length_toList]
  have subset : k :: s.toList ⊆ t.toList := by
    intro a member
    rw [mem_toList]
    rcases List.mem_cons.mp member with rfl | listed
    · exact here
    · exact inside a ((mem_toList s a).mp listed)
  have distinct : (k :: s.toList).Nodup :=
    List.nodup_cons.mpr ⟨fun listed => gone ((mem_toList s k).mp listed), nodup_toList s⟩
  exact (List.subperm_of_subset distinct subset).length_le

end BTreeSet

end NexusFS.Lib
