/- GID: NexusFS/Core/Listing
   source: crates/core/src/namespace.rs, crates/crdt/src/conflicts.rs, crates/crdt/src/or_map.rs
   digest: When the names of a listing are distinct, and when the fast lookup agrees with it. -/

import NexusFS.Core.Names
import NexusFS.Core.Reachable
import Mathlib.Data.List.Nodup
import Mathlib.Data.List.Pairwise

set_option autoImplicit false
set_option relaxedAutoImplicit false

namespace NexusFS.Core

open NexusFS.Lib NexusFS.Proto NexusFS.Crdt CoreState

section Conflict

private theorem toList_conflictName (base : String) (device : U128) (time : U64) :
    (conflictName base device time).toList =
      (base.toList ++ "~conflict-".toList ++ (hexPadded 16 (device.val % 2 ^ 64)).toList) ++
        '-' :: Nat.toDigits 10 time.val := by
  have dash : "-".toList = ['-'] := rfl
  simp only [conflictName, String.toList_append, String.toList_ofList, dash, List.append_assoc,
    List.singleton_append]

private theorem hexPadded_length {n : Nat} (small : n < 2 ^ 64) : (hexPadded 16 n).toList.length = 16 := by
  have short : (Nat.toDigits 16 n).length ≤ 16 :=
    (Nat.length_toDigits_le_iff (by decide) (by decide)).mpr small
  simp only [hexPadded, String.toList_ofList, List.length_append, List.length_replicate]
  omega

private theorem hexPadded_injective {n m : Nat} (same : hexPadded 16 n = hexPadded 16 m) : n = m := by
  have read := congrArg (fun name => readDigits 16 name.toList) same
  simp only [hexPadded, String.toList_ofList, readDigits_zeros] at read
  rwa [readDigits_toDigits (by decide) le_rfl, readDigits_toDigits (by decide) le_rfl] at read

theorem conflictName_injective {base base' : String} {device device' : U128} {time time' : U64}
    (same : conflictName base device time = conflictName base' device' time') :
    base = base' ∧ device.val % 2 ^ 64 = device'.val % 2 ^ 64 ∧ time = time' := by
  have dash : ∀ d < 16, Nat.digitChar d ≠ '-' := by decide
  have chars := congrArg String.toList same
  rw [toList_conflictName, toList_conflictName] at chars
  obtain ⟨front, digits⟩ := eq_of_last_mark (notMem_toDigits (by decide) dash (by decide) _)
    (notMem_toDigits (by decide) dash (by decide) _) chars
  have below : ∀ device : U128, device.val % 2 ^ 64 < 2 ^ 64 := fun device =>
    Nat.mod_lt _ (by decide)
  obtain ⟨start, hex⟩ := List.append_inj' front
    ((hexPadded_length (below device)).trans (hexPadded_length (below device')).symm)
  refine ⟨String.toList_injective (List.append_cancel_right start),
    hexPadded_injective (String.toList_injective hex), Fin.ext ?_⟩
  exact toDigits_injective (by decide) (by decide) digits

end Conflict

section Distinct

variable {map : DirMap}

/-- Every surviving link has one entry, under a name that no other has and that finds it. -/
structure Unambiguous (map : DirMap) : Prop where
  each : (listing map).length = (map.liveKeys.flatMap map.getAll).length
  distinct : ((listing map).map DirEntry.name).Nodup
  found : ∀ e ∈ listing map, findEntry map e.name = some e

/-- No two survivors that lost one name agree on the time and the low half of the device, and none of
their conflict names is a name of its own. -/
structure Distinguishable (map : DirMap) : Prop where
  losers : ∀ {key i j d v e w}, (map.getAll key)[i + 1]? = some (d, v) →
    (map.getAll key)[j + 1]? = some (e, w) → d.device_id.val % 2 ^ 64 = e.device_id.val % 2 ^ 64 →
      v.created_unix_ms = w.created_unix_ms → i = j
  literal : ∀ {key i d v}, (map.getAll key)[i + 1]? = some (d, v) →
    map.getAll (conflictName key d.device_id v.created_unix_ms) = []

private theorem entriesFor_length (name : String) (survivors : List (Dot × DirEntryValue)) :
    (entriesFor name survivors).length = survivors.length := by
  simp [entriesFor]

private theorem listing_length (map : DirMap) :
    (listing map).length = (map.liveKeys.flatMap map.getAll).length := by
  unfold listing sortDirEntries
  rw [List.length_insertionSort, List.length_flatMap, List.length_flatMap]
  simp only [entriesFor_length]

private theorem names_perm (map : DirMap) : ((listing map).map DirEntry.name).Perm
    (map.liveKeys.flatMap fun key => (entriesFor key (map.getAll key)).map DirEntry.name) := by
  unfold listing sortDirEntries
  rw [← List.map_flatMap]
  exact (List.perm_insertionSort _ _).map _

private theorem mem_names {key name : String} :
    name ∈ (entriesFor key (map.getAll key)).map DirEntry.name ↔
      ∃ i d v, (map.getAll key)[i]? = some (d, v) ∧ name = (shownEntry key i d v).name := by
  simp only [entriesFor, List.map_map, List.mem_map, Prod.exists, List.mem_zipIdx_iff_getElem?,
    Function.comp_apply, shownEntry]
  constructor
  · rintro ⟨d, v, i, here, rfl⟩
    exact ⟨i, d, v, here, rfl⟩
  · rintro ⟨i, d, v, here, rfl⟩
    exact ⟨d, v, i, here, rfl⟩

private theorem names_getElem {key : String} {i : Nat} {d : Dot} {v : DirEntryValue}
    (here : (map.getAll key)[i]? = some (d, v)) :
    ((entriesFor key (map.getAll key)).map DirEntry.name)[i]? = some (shownEntry key i d v).name := by
  simp only [entriesFor, List.map_map, List.getElem?_map, List.getElem?_zipIdx, here, Option.map_some,
    Function.comp_apply, shownEntry, Nat.zero_add]

private theorem mem_liveKeys_of_getElem {key : String} {i : Nat} {d : Dot} {v : DirEntryValue}
    (here : (map.getAll key)[i]? = some (d, v)) : key ∈ map.liveKeys :=
  (map.mem_liveKeys key).mpr ⟨d, v, live_of_getElem here⟩

private theorem names_nodup (apart : Distinguishable map) (key : String) :
    ((entriesFor key (map.getAll key)).map DirEntry.name).Nodup := by
  rw [List.nodup_iff_getElem?_ne_getElem?]
  intro i j before bound same
  have size : j < (map.getAll key).length := by
    rwa [List.length_map, entriesFor_length] at bound
  obtain ⟨⟨e, w⟩, there⟩ : ∃ x, (map.getAll key)[j]? = some x := ⟨_, List.getElem?_eq_getElem size⟩
  obtain ⟨⟨d, v⟩, here⟩ : ∃ x, (map.getAll key)[i]? = some x :=
    ⟨_, List.getElem?_eq_getElem (before.trans size)⟩
  rw [names_getElem here, names_getElem there] at same
  cases j with
  | zero => omega
  | succ j =>
      cases i with
      | zero => exact shownEntry_name_ne j.succ_ne_zero (Option.some.inj same).symm
      | succ i =>
          obtain ⟨-, low, time⟩ := conflictName_injective (Option.some.inj same)
          have index := apart.losers here there low time
          omega

private theorem names_disjoint (apart : Distinguishable map) {key key' : String} (other : key ≠ key') :
    ((entriesFor key (map.getAll key)).map DirEntry.name).Disjoint
      ((entriesFor key' (map.getAll key')).map DirEntry.name) := by
  intro name here there
  obtain ⟨i, d, v, at_i, rfl⟩ := mem_names.mp here
  obtain ⟨j, e, w, at_j, same⟩ := mem_names.mp there
  cases i with
  | zero =>
      cases j with
      | zero => exact other same
      | succ j =>
          have literal : key = conflictName key' e.device_id w.created_unix_ms := same
          rw [literal, apart.literal at_j] at at_i
          cases at_i
  | succ i =>
      cases j with
      | zero =>
          have literal : conflictName key d.device_id v.created_unix_ms = key' := same
          rw [← literal, apart.literal at_i] at at_j
          cases at_j
      | succ j => exact other (conflictName_injective same).1

private theorem distinguishable_of_nodup (nodup : ((listing map).map DirEntry.name).Nodup) :
    Distinguishable map := by
  rw [(names_perm map).nodup_iff, List.nodup_flatMap] at nodup
  obtain ⟨within, across⟩ := nodup
  refine ⟨?_, ?_⟩
  · intro key i j d v e w here there low time
    have same : (shownEntry key (i + 1) d v).name = (shownEntry key (j + 1) e w).name := by
      show conflictName key d.device_id v.created_unix_ms =
        conflictName key e.device_id w.created_unix_ms
      unfold conflictName
      rw [low, time]
    have bound : i + 1 < ((entriesFor key (map.getAll key)).map DirEntry.name).length := by
      rw [List.length_map, entriesFor_length]
      exact (List.getElem?_eq_some_iff.mp here).1
    have index := (List.getElem?_inj bound (within key (mem_liveKeys_of_getElem here))).mp
      ((names_getElem here).trans ((congrArg some same).trans (names_getElem there).symm))
    omega
  · intro key i d v here
    cases all : map.getAll (conflictName key d.device_id v.created_unix_ms) with
    | nil => rfl
    | cons x rest =>
        obtain ⟨e, w⟩ := x
        have there : (map.getAll (conflictName key d.device_id v.created_unix_ms))[0]? = some (e, w) := by
          rw [all]
          rfl
        have symmetric : Std.Symm (Function.onFun List.Disjoint fun key =>
          (entriesFor key (map.getAll key)).map DirEntry.name) := ⟨fun _ _ one _ left right => one right left⟩
        have apart := across.forall (mem_liveKeys_of_getElem here) (mem_liveKeys_of_getElem there)
          (conflictName_ne key _ _).symm
        exact (apart (mem_names.mpr ⟨i + 1, d, v, here, rfl⟩)
          (mem_names.mpr ⟨0, e, w, there, rfl⟩)).elim

/-- A listing is unambiguous if and only if the survivors that lost their names can be told apart by
time and low device half, and no name is spelled like one of their conflict names. -/
theorem unambiguous_iff : Unambiguous map ↔ Distinguishable map := by
  constructor
  · exact fun clear => distinguishable_of_nodup clear.distinct
  · intro apart
    have nodup : ((listing map).map DirEntry.name).Nodup := by
      rw [(names_perm map).nodup_iff, List.nodup_flatMap]
      exact ⟨fun key _ => names_nodup apart key,
        map.liveKeys_nodup.imp fun other => names_disjoint apart other⟩
    refine ⟨listing_length map, nodup, fun e member => ?_⟩
    cases found : findEntry map e.name with
    | none => exact absurd rfl (findEntry_eq_none.mp found e member)
    | some e' =>
        obtain ⟨member', same⟩ := mem_of_findEntry found
        rw [List.inj_on_of_nodup_map nodup member' member same]

def twinState : CoreState :=
  (Event.apply (sampleOp 2 (.createFile rootInode "a" 0))).run .plain
    ((Event.apply (sampleOp 1 (.createFile rootInode "a" 0))).run .plain
      (booted .plain (CoreState.new 7)))

theorem twinState_run : Run .plain (fun _ _ => True) twinState :=
  .step (.step (.boot (blank_new 7)) trivial) trivial

def crowdedState : CoreState :=
  (Event.apply (sampleOp 3 (.createFile rootInode "a" 0))).run .plain twinState

/-- Two of the three are listed under one conflict name, and one of the two is never found. -/
theorem listing_ambiguous : Run .plain (fun _ _ => True) crowdedState ∧
    (crowdedState.materializeDir rootInode).map DirEntry.name =
      ["a", conflictName "a" 7 0, conflictName "a" 7 0] ∧
    ¬Unambiguous (crowdedState.dirAt rootInode) := by
  have names : (listing (crowdedState.dirAt rootInode)).map DirEntry.name =
      ["a", conflictName "a" 7 0, conflictName "a" 7 0] := by decide +kernel
  refine ⟨.step twinState_run trivial, by decide +kernel, fun clear => ?_⟩
  have distinct := clear.distinct
  rw [names] at distinct
  simp at distinct

end Distinct

section Fast

variable {s : CoreState} {p : U128} {name : String}

/-- The fast lookup gives the first listed entry of a name if and only if no derived name spelled the
same sorts before the only survivor of the key. -/
theorem lookup_eq_first_iff : s.lookup p name = (s.materializeDir p).find? (fun e => e.name = name) ↔
    ∀ d v, (s.dirAt p).getAll name = [(d, v)] → ∀ e ∈ s.materializeDir p, e.name = name →
      (compareDirEntries ⟨name, v.inode_id, v.entry_type⟩ e).isLE := by
  have listed : s.materializeDir p = listing (s.dirAt p) := by
    unfold CoreState.materializeDir dirAt
    cases s.loadDir p with
    | none => rfl
    | some map => rfl
  rw [listed, lookup_eq_findEntry]
  constructor
  · intro same d v only e member named
    rw [findEntry_single only] at same
    exact first_least same.symm e member named
  · intro least
    by_cases single : ∃ x, (s.dirAt p).getAll name = [x]
    · obtain ⟨⟨d, v⟩, only⟩ := single
      have member : shownEntry name 0 d v ∈ listing (s.dirAt p) :=
        mem_listing.mpr ⟨name, 0, d, v, by rw [only]; rfl, rfl⟩
      rw [findEntry_single only]
      exact (first_of_least member rfl (least d v only)).symm
    · exact findEntry_shared fun x only => single ⟨x, only⟩

def spelledAlike : CoreState :=
  (Event.apply (sampleOp 3 (.mkdir rootInode (conflictName "a" 7 0) 0))).run .plain twinState

/-- The listing shows the file first, and the lookup finds the directory. -/
theorem lookup_skips_derived : Run .plain (fun _ _ => True) spelledAlike ∧
    spelledAlike.lookup rootInode (conflictName "a" 7 0) =
      some ⟨conflictName "a" 7 0, inodeForOp .plain ⟨7, 3⟩, .dir⟩ ∧
    (spelledAlike.materializeDir rootInode).find? (fun e => e.name = conflictName "a" 7 0) =
      some ⟨conflictName "a" 7 0, inodeForOp .plain ⟨7, 2⟩, .file⟩ :=
  ⟨.step twinState_run trivial, by decide +kernel, by decide +kernel⟩

end Fast

end NexusFS.Core
