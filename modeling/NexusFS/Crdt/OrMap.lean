/- GID: NexusFS/Crdt/OrMap
   source: crates/crdt/src/or_map.rs, crates/crdt/src/conflicts.rs
   digest: The observed-remove map, its surviving values, and conflict names. -/

import NexusFS.Lib.BTree
import NexusFS.Proto.Types
import Mathlib.Data.List.Sort
import Mathlib.Data.String.Basic

set_option autoImplicit false
set_option relaxedAutoImplicit false

namespace NexusFS.Crdt

open NexusFS.Lib NexusFS.Proto

universe u v

instance transCmpString : Std.TransCmp (@compare String LinearOrder.toOrd) := inferInstance

/-- A dot is the `(device, counter)` pair of the operation that made an addition. -/
abbrev Dot := OpId

/-- An observed-remove map: tagged additions, and the tags removals have observed. -/
structure OrMap (K : Type u) (V : Type v) [LinearOrder K] where
  adds : BTreeMap K (BTreeMap Dot V)
  removes : BTreeMap K (BTreeSet Dot)

namespace OrMap

variable {K : Type u} {V : Type v} [LinearOrder K]

def empty : OrMap K V := ⟨∅, ∅⟩

instance : EmptyCollection (OrMap K V) := ⟨empty⟩

def addsAt (m : OrMap K V) (key : K) : BTreeMap Dot V := m.adds[key]?.getD ∅

def removesAt (m : OrMap K V) (key : K) : BTreeSet Dot := m.removes[key]?.getD ∅

def add (m : OrMap K V) (key : K) (dot : Dot) (value : V) : OrMap K V :=
  { m with adds := m.adds.insert key ((m.addsAt key).insert dot value) }

def removeDots (m : OrMap K V) (key : K) (dots : List Dot) : OrMap K V :=
  if dots.isEmpty then m
  else { m with removes := m.removes.insert key (dots.foldl (fun s d => s.insert d) (m.removesAt key)) }

/-- The additions of `vmap` beside those of `entry`, which stay where both have the dot. -/
def orInsert (entry vmap : BTreeMap Dot V) : BTreeMap Dot V :=
  vmap.toList.foldl (fun entry p => entry.insertIfNew p.1 p.2) entry

def extend (seen rset : BTreeSet Dot) : BTreeSet Dot :=
  rset.toList.foldl (fun seen dot => seen.insert dot) seen

def merge (m other : OrMap K V) : OrMap K V where
  adds := other.adds.toList.foldl
    (fun adds row => adds.insert row.1 (orInsert (adds[row.1]?.getD ∅) row.2)) m.adds
  removes := other.removes.toList.foldl
    (fun removes row => removes.insert row.1 (extend (removes[row.1]?.getD ∅) row.2)) m.removes

def getAll (m : OrMap K V) (key : K) : List (Dot × V) :=
  match m.adds[key]? with
  | none => []
  | some adds =>
      (adds.toList.filter fun p =>
        match m.removes[key]? with
        | some removed => !removed.contains p.1
        | none => true).insertionSort fun a b => a.1 ≤ b.1

def liveKeys (m : OrMap K V) : List K :=
  m.adds.keys.filter fun k => !(m.getAll k).isEmpty

def Live (m : OrMap K V) (key : K) (dot : Dot) (value : V) : Prop :=
  (m.addsAt key)[dot]? = some value ∧ dot ∉ m.removesAt key

@[simp] theorem addsAt_empty (key : K) : (∅ : OrMap K V).addsAt key = ∅ := by
  show ((∅ : BTreeMap K (BTreeMap Dot V))[key]?).getD ∅ = ∅
  rw [Std.ExtTreeMap.getElem?_empty]
  rfl

@[simp] theorem removesAt_empty (key : K) : (∅ : OrMap K V).removesAt key = ∅ := by
  show ((∅ : BTreeMap K (BTreeSet Dot))[key]?).getD ∅ = ∅
  rw [Std.ExtTreeMap.getElem?_empty]
  rfl

theorem addsAt_add (m : OrMap K V) (key k : K) (dot : Dot) (value : V) :
    (m.add key dot value).addsAt k =
      if key = k then (m.addsAt k).insert dot value else m.addsAt k := by
  unfold add
  simp only [addsAt, BTreeMap.get_insert]
  split
  · rename_i equal
    simp [equal]
  · rfl

@[simp] theorem removesAt_add (m : OrMap K V) (key k : K) (dot : Dot) (value : V) :
    (m.add key dot value).removesAt k = m.removesAt k := rfl

@[simp] theorem addsAt_removeDots (m : OrMap K V) (key k : K) (dots : List Dot) :
    (m.removeDots key dots).addsAt k = m.addsAt k := by
  unfold removeDots
  split <;> rfl

theorem mem_removesAt_removeDots (m : OrMap K V) (key k : K) (dots : List Dot) (d : Dot) :
    d ∈ (m.removeDots key dots).removesAt k ↔
      (key = k ∧ d ∈ dots) ∨ d ∈ m.removesAt k := by
  unfold removeDots
  split
  · rename_i empty
    simp [List.isEmpty_iff.mp empty]
  · simp only [removesAt, BTreeMap.get_insert]
    split
    · rename_i equal
      subst equal
      rw [Option.getD_some, BTreeSet.mem_foldl_insert fun dot => dot]
      simp [or_comm]
    · rename_i different
      simp [different]

theorem mem_getAll (m : OrMap K V) (key : K) (dot : Dot) (value : V) :
    (dot, value) ∈ m.getAll key ↔ m.Live key dot value := by
  unfold getAll Live addsAt removesAt
  cases m.adds[key]? with
  | none => simp
  | some adds =>
      cases m.removes[key]? with
      | none => simp only [List.mem_insertionSort, List.mem_filter, BTreeMap.mem_toList]; simp
      | some removed =>
          simp only [List.mem_insertionSort, List.mem_filter, BTreeMap.mem_toList,
            Bool.not_eq_true', Option.getD_some, ← Bool.not_eq_true, Std.ExtTreeSet.contains_iff_mem]

theorem mem_liveKeys (m : OrMap K V) (key : K) :
    key ∈ m.liveKeys ↔ ∃ dot value, m.Live key dot value := by
  simp only [liveKeys, List.mem_filter, Bool.not_eq_true', List.isEmpty_eq_false_iff_exists_mem]
  constructor
  · rintro ⟨-, ⟨dot, value⟩, member⟩
    exact ⟨dot, value, (m.mem_getAll key dot value).mp member⟩
  · rintro ⟨dot, value, live⟩
    refine ⟨?_, (dot, value), (m.mem_getAll key dot value).mpr live⟩
    rw [BTreeMap.mem_keys]
    by_contra missing
    have absent : m.adds[key]? = none := by
      cases here : m.adds[key]? with
      | none => rfl
      | some inner => exact absurd ⟨inner, here⟩ missing
    have added := live.1
    simp [addsAt, absent] at added

theorem getAll_sorted (m : OrMap K V) (key : K) :
    (m.getAll key).Pairwise fun a b => a.1 ≤ b.1 := by
  unfold getAll
  split
  · exact List.Pairwise.nil
  · have total : Std.Total fun a b : Dot × V => a.1 ≤ b.1 := ⟨fun a b => le_total a.1 b.1⟩
    have trans : IsTrans (Dot × V) fun a b => a.1 ≤ b.1 := ⟨fun _ _ _ => le_trans⟩
    exact List.pairwise_insertionSort (fun a b : Dot × V => a.1 ≤ b.1) _

theorem getAll_nodup (m : OrMap K V) (key : K) : (m.getAll key).Nodup := by
  unfold getAll
  split
  · exact List.nodup_nil
  · rename_i adds _
    rw [(List.perm_insertionSort _ _).nodup_iff]
    refine List.Nodup.filter _ ?_
    refine List.Pairwise.imp ?_ (BTreeMap.sorted_toList adds)
    rintro a b order rfl
    exact lt_irrefl _ order

theorem liveKeys_nodup (m : OrMap K V) : m.liveKeys.Nodup :=
  List.Nodup.filter _ Std.ExtTreeMap.nodup_keys

theorem live_add (m : OrMap K V) (key k : K) (dot d : Dot) (value v : V)
    (fresh : ∀ w, (m.addsAt key)[dot]? ≠ some w) :
    (m.add key dot value).Live k d v ↔
      (key = k ∧ dot = d ∧ value = v ∧ d ∉ m.removesAt k) ∨ m.Live k d v := by
  unfold Live
  rw [addsAt_add, removesAt_add]
  by_cases same : key = k
  · subst same
    rw [if_pos rfl, BTreeMap.get_insert]
    by_cases equal : dot = d
    · subst equal
      simp [fresh]
    · simp [equal]
  · simp [same]

theorem live_removeDots (m : OrMap K V) (key k : K) (dots : List Dot) (d : Dot) (v : V) :
    (m.removeDots key dots).Live k d v ↔ m.Live k d v ∧ ¬(key = k ∧ d ∈ dots) := by
  unfold Live
  rw [addsAt_removeDots, mem_removesAt_removeDots]
  tauto

/-- No key carries an empty inner map: both operations only ever insert. -/
structure Tidy (m : OrMap K V) : Prop where
  adds : ∀ {key : K} {inner}, m.adds[key]? = some inner → inner ≠ ∅
  removes : ∀ {key : K} {inner}, m.removes[key]? = some inner → inner ≠ ∅

theorem tidy_empty : Tidy (∅ : OrMap K V) := by
  constructor
  · intro key inner here
    have none_here : (∅ : BTreeMap K (BTreeMap Dot V))[key]? = some inner := here
    rw [Std.ExtTreeMap.getElem?_empty] at none_here
    cases none_here
  · intro key inner here
    have none_here : (∅ : BTreeMap K (BTreeSet Dot))[key]? = some inner := here
    rw [Std.ExtTreeMap.getElem?_empty] at none_here
    cases none_here

namespace Tidy

variable {m n : OrMap K V}

protected theorem add (tidy : Tidy m) (key : K) (dot : Dot) (value : V) :
    Tidy (m.add key dot value) := by
  refine ⟨?_, tidy.removes⟩
  intro k inner here
  have stored : (m.adds.insert key ((m.addsAt key).insert dot value))[k]? = some inner := here
  rw [BTreeMap.get_insert] at stored
  split at stored
  · rw [← Option.some.inj stored]
    exact Std.ExtTreeMap.insert_ne_empty
  · exact tidy.adds stored

protected theorem removeDots (tidy : Tidy m) (key : K) (dots : List Dot) :
    Tidy (m.removeDots key dots) := by
  unfold OrMap.removeDots
  split
  · exact tidy
  · rename_i some_seen
    refine ⟨tidy.adds, ?_⟩
    intro k inner here
    have stored : (m.removes.insert key
        (dots.foldl (fun s d => s.insert d) (m.removesAt key)))[k]? = some inner := here
    rw [BTreeMap.get_insert] at stored
    split at stored
    · obtain ⟨dot, seen⟩ := List.exists_mem_of_ne_nil dots (by simpa using some_seen)
      rw [← Option.some.inj stored]
      intro empty
      have member := 
        (BTreeSet.mem_foldl_insert (fun dot => dot) dots (m.removesAt key) dot).mpr (.inr ⟨dot, seen, rfl⟩)
      rw [empty] at member
      exact Std.ExtTreeSet.not_mem_empty member
    · exact tidy.removes stored

private theorem rows_eq {W : Type v} [EmptyCollection W] {a b : BTreeMap K W}
    (left : ∀ {k : K} {w}, a[k]? = some w → w ≠ ∅) (right : ∀ {k : K} {w}, b[k]? = some w → w ≠ ∅)
    (same : ∀ k : K, a[k]?.getD ∅ = b[k]?.getD ∅) : a = b := by
  refine BTreeMap.ext_get fun k => ?_
  have here := same k
  cases inA : a[k]? with
  | none =>
      cases inB : b[k]? with
      | none => rfl
      | some w =>
          rw [inA, inB] at here
          exact absurd here.symm (right inB)
  | some w =>
      cases inB : b[k]? with
      | none =>
          rw [inA, inB] at here
          exact absurd here (left inA)
      | some w' =>
          rw [inA, inB] at here
          exact congrArg some here

theorem ext (left : Tidy m) (right : Tidy n)
    (added : ∀ (key : K) (dot : Dot), (m.addsAt key)[dot]? = (n.addsAt key)[dot]?)
    (removed : ∀ (key : K) (dot : Dot), dot ∈ m.removesAt key ↔ dot ∈ n.removesAt key) : m = n := by
  have adds : m.adds = n.adds := by
    refine rows_eq left.adds right.adds fun key => ?_
    have rows : m.addsAt key = n.addsAt key := BTreeMap.ext_get (added key)
    exact rows
  have removes : m.removes = n.removes := by
    refine rows_eq left.removes right.removes fun key => ?_
    have rows : m.removesAt key = n.removesAt key := BTreeSet.ext_mem (removed key)
    exact rows
  cases m
  cases n
  cases adds
  cases removes
  rfl

end Tidy

end OrMap

def hexPadded (width n : Nat) : String :=
  let digits := Nat.toDigits 16 n
  String.ofList (List.replicate (width - digits.length) '0' ++ digits)

/-- Deterministic conflict naming: `<base>~conflict-<low 64 bits of the device>-<time>`. -/
def conflictName (base : String) (device_id : U128) (time_ms : U64) : String :=
  base ++ "~conflict-" ++ hexPadded 16 (device_id.val % 2 ^ 64) ++ "-" ++
    String.ofList (Nat.toDigits 10 time_ms.val)

end NexusFS.Crdt
