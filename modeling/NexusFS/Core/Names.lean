/- GID: NexusFS/Core/Names
   source: crates/core/src/namespace.rs, crates/crdt/src/conflicts.rs
   digest: Which names a directory shows once an entry is added to it. -/

import NexusFS.Core.Relink
import NexusFS.Lib.Digits

set_option autoImplicit false
set_option relaxedAutoImplicit false

namespace NexusFS.Core

open NexusFS.Lib NexusFS.Proto NexusFS.Crdt CoreState

section Conflict

theorem valid_conflictName {base : String} (valid : ValidName base) (device : U128) (time : U64) :
    ValidName (conflictName base device time) := by
  obtain ⟨-, whole, -, -⟩ := validName_iff.mp valid
  have long : 10 ≤ (conflictName base device time).length := by
    have tail : "~conflict-".length = 10 := rfl
    unfold conflictName
    simp only [String.length_append]
    omega
  refine validName_iff.mpr ⟨?_, ?_, ?_, ?_⟩
  · intro same
    rw [same] at long
    exact absurd long (by decide)
  · have slash : ∀ d < 16, Nat.digitChar d ≠ '/' := by decide
    have hex := @notMem_toDigits 16 (by decide) _ slash (by decide) (device.val % 2 ^ 64)
    have decimal := @notMem_toDigits 10 (by decide) _ slash (by decide) time.val
    simp only [conflictName, hexPadded, String.toList_append, String.toList_ofList, List.mem_append,
      List.mem_replicate]
    rintro ((((inside | inside) | inside | inside) | inside) | inside)
    · exact whole inside
    · revert inside
      decide
    · exact absurd inside.2 (by decide)
    · exact hex inside
    · revert inside
      decide
    · exact decimal inside
  · intro same
    rw [same] at long
    exact absurd long (by decide)
  · intro same
    rw [same] at long
    exact absurd long (by decide)

end Conflict

section Added

variable {before rest after : DirMap} {name : String} {dot : Dot} {value : DirEntryValue}

theorem shownEntry_name_ne {key : String} {idx : Nat} {d : Dot} {v : DirEntryValue}
    (later : idx ≠ 0) : (shownEntry key idx d v).name ≠ key := by
  unfold shownEntry
  rw [if_neg later]
  exact conflictName_ne _ _ _

/-- `after` is `rest` with one fresh entry, and `rest` is `before` without that entry's inode. -/
structure Added (before rest after : DirMap) (name : String) (dot : Dot) (value : DirEntryValue) :
    Prop where
  live : ∀ k d v, after.Live k d v ↔ (k = name ∧ d = dot ∧ v = value) ∨ rest.Live k d v
  fresh : ∀ k v, ¬rest.Live k dot v
  alone : ∀ k d v, rest.Live k d v → v.inode_id ≠ value.inode_id
  single : ∀ {k d v k' d' v'}, rest.Live k d v → rest.Live k' d' v' → v.inode_id = v'.inode_id →
    k = k' ∧ d = d'
  found : ∀ k e, findEntry before k = some e → e.inode_id ≠ value.inode_id →
    findEntry rest k = some e
  same : findEntry before name = findEntry rest name
  sole : ∀ k x, rest.getAll k = [x] → findEntry before k = findEntry rest k

/-- The new entry gets its name: nothing was shown under it, or the entry comes before the lowest
survivor there, which was shown and finds its conflict name free. -/
inductive Arrives (before rest : DirMap) (name : String) (dot : Dot) (value : DirEntryValue) : Prop
  | free (vacant : findEntry before name = none)
  | ahead {first : Dot} {kept : DirEntryValue}
      (lowest : (rest.getAll name)[0]? = some (first, kept)) (lower : dot < first)
      (shown : findEntry before name = some (shownEntry name 0 first kept))
      (least : ∀ e ∈ listing rest, e.name = name → e ≠ shownEntry name 0 first kept →
        (compareDirEntries (shownEntry name 0 dot value) e).isLE)
      (yields : ∀ e ∈ listing rest, e.name = (shownEntry name 1 first kept).name →
        findEntry before e.name ≠ some e ∧
          (compareDirEntries (shownEntry name 1 first kept) e).isLE)

namespace Added

variable (added : Added before rest after name dot value)

include added

theorem getAll_other {k : String} (other : k ≠ name) : after.getAll k = rest.getAll k := by
  refine getAll_eq_of_live fun d v => ?_
  rw [added.live]
  constructor
  · rintro (⟨same, -⟩ | old)
    · exact absurd same other
    · exact old
  · exact .inr

theorem getAll_name (lower : ∀ d v, rest.Live name d v → dot < d) :
    after.getAll name = (dot, value) :: rest.getAll name := by
  have absent : (dot, value) ∉ rest.getAll name := fun member =>
    added.fresh name value ((rest.mem_getAll name dot value).mp member)
  have members : ∀ x, x ∈ after.getAll name ↔ x ∈ (dot, value) :: rest.getAll name := by
    rintro ⟨d, v⟩
    rw [OrMap.mem_getAll, added.live, List.mem_cons, OrMap.mem_getAll, Prod.mk.injEq]
    simp only [true_and]
  have sorted : ((dot, value) :: rest.getAll name).Pairwise fun a b => a.1 ≤ b.1 := by
    refine List.pairwise_cons.mpr ⟨?_, rest.getAll_sorted name⟩
    rintro ⟨d, v⟩ member
    exact (lower d v ((rest.mem_getAll name d v).mp member)).le
  refine List.Perm.eq_of_pairwise ?_ (after.getAll_sorted name) sorted
    ((List.perm_ext_iff_of_nodup (after.getAll_nodup name)
      (List.nodup_cons.mpr ⟨absent, rest.getAll_nodup name⟩)).mpr members)
  rintro ⟨d, v⟩ ⟨e, w⟩ here there le ge
  obtain rfl : d = e := le_antisymm le ge
  have one := ((after.mem_getAll name d v).mp here).1
  have two := ((after.mem_getAll name d w).mp ((members _).mpr there)).1
  rw [Option.some.inj (one.symm.trans two)]

theorem mem_listing (lower : ∀ d v, rest.Live name d v → dot < d) {e : DirEntry} :
    e ∈ listing after ↔ e = shownEntry name 0 dot value ∨
      (∃ k idx d v, k ≠ name ∧ (rest.getAll k)[idx]? = some (d, v) ∧ e = shownEntry k idx d v) ∨
      ∃ idx d v, (rest.getAll name)[idx]? = some (d, v) ∧ e = shownEntry name (idx + 1) d v := by
  rw [Core.mem_listing]
  constructor
  · rintro ⟨k, idx, d, v, here, rfl⟩
    by_cases own : k = name
    · subst own
      rw [added.getAll_name lower] at here
      cases idx with
      | zero =>
          obtain ⟨rfl, rfl⟩ := Prod.mk.inj (Option.some.inj here)
          exact .inl rfl
      | succ idx => exact .inr (.inr ⟨idx, d, v, here, rfl⟩)
    · rw [added.getAll_other own] at here
      exact .inr (.inl ⟨k, idx, d, v, own, here, rfl⟩)
  · rintro (rfl | ⟨k, idx, d, v, other, here, rfl⟩ | ⟨idx, d, v, here, rfl⟩)
    · exact ⟨name, 0, dot, value, by rw [added.getAll_name lower]; rfl, rfl⟩
    · exact ⟨k, idx, d, v, by rw [added.getAll_other other]; exact here, rfl⟩
    · exact ⟨name, idx + 1, d, v, by rw [added.getAll_name lower]; exact here, rfl⟩

private theorem survivor_eq {k k' : String} {i i' : Nat} {d d' : Dot} {v v' : DirEntryValue}
    (here : (rest.getAll k)[i]? = some (d, v)) (there : (rest.getAll k')[i']? = some (d', v'))
    (same : v.inode_id = v'.inode_id) : k = k' ∧ i = i' ∧ d = d' ∧ v = v' := by
  have live := live_of_getElem here
  have live' := live_of_getElem there
  obtain ⟨rfl, rfl⟩ := added.single live live' same
  obtain rfl : v = v' := Option.some.inj (live.1.symm.trans live'.1)
  have bound := (List.getElem?_eq_some_iff.mp here).1
  have index := (List.getElem?_inj bound (rest.getAll_nodup k)).mp (here.trans there.symm)
  exact ⟨rfl, index, rfl, rfl⟩

private theorem lower_of_found {y : DirEntry} (arrived : findEntry after name = some y)
    (inode : y.inode_id = value.inode_id) : ∀ d v, rest.Live name d v → dot < d := by
  obtain ⟨member, named⟩ := mem_of_findEntry arrived
  obtain ⟨k, idx, d, v, here, rfl⟩ := Core.mem_listing.mp member
  rcases (added.live k d v).mp (live_of_getElem here) with ⟨rfl, rfl, rfl⟩ | old
  · have first : idx = 0 := by
      by_contra later
      exact shownEntry_name_ne later named
    subst first
    intro e w live
    refine lt_of_le_of_ne (lowest_of_first here ((added.live k e w).mpr (.inr live))) ?_
    rintro rfl
    exact added.fresh k w live
  · exact absurd inode (added.alone k d v old)

private theorem listed_eq {e e' : DirEntry} (here : e ∈ listing after) (there : e' ∈ listing after)
    (same : e.inode_id = e'.inode_id) : e = e' := by
  obtain ⟨k, i, d, v, at_i, rfl⟩ := Core.mem_listing.mp here
  obtain ⟨k', i', d', v', at_i', rfl⟩ := Core.mem_listing.mp there
  have unique : k = k' ∧ d = d' ∧ v = v' := by
    rcases (added.live k d v).mp (live_of_getElem at_i) with ⟨rfl, rfl, rfl⟩ | old <;>
      rcases (added.live k' d' v').mp (live_of_getElem at_i') with ⟨rfl, rfl, rfl⟩ | old'
    · exact ⟨rfl, rfl, rfl⟩
    · exact absurd same.symm (added.alone k' d' v' old')
    · exact absurd same (added.alone k d v old)
    · obtain ⟨rfl, rfl⟩ := added.single old old' same
      exact ⟨rfl, rfl, Option.some.inj (old.1.symm.trans old'.1)⟩
  obtain ⟨rfl, rfl, rfl⟩ := unique
  have bound := (List.getElem?_eq_some_iff.mp at_i).1
  rw [(List.getElem?_inj bound (after.getAll_nodup k)).mp (at_i.trans at_i'.symm)]

private theorem yields_of_shown {first : Dot} {kept : DirEntryValue} {x : DirEntry}
    (valid : ValidName name) (lower : ∀ d v, rest.Live name d v → dot < d)
    (shown : StillShown before after value.inode_id)
    (lowest : (rest.getAll name)[0]? = some (first, kept))
    (moved : findEntry after (shownEntry name 1 first kept).name = some (shownEntry name 1 first kept))
    (inside : x ∈ listing rest) (own : x.name = (shownEntry name 1 first kept).name) :
    findEntry before x.name ≠ some x ∧
      (compareDirEntries (shownEntry name 1 first kept) x).isLE := by
  obtain ⟨k, i, d, v, here, rfl⟩ := Core.mem_listing.mp inside
  have away : (shownEntry k i d v).name ≠ name := own ▸ shownEntry_name_ne one_ne_zero
  have listed : shownEntry k i d v ∈ listing after := by
    by_cases equal : k = name
    · subst equal
      cases i with
      | zero => exact absurd rfl away
      | succ i => exact (added.mem_listing lower).mpr (.inr (.inr ⟨i + 1, d, v, here, rfl⟩))
    · exact (added.mem_listing lower).mpr (.inr (.inl ⟨k, i, d, v, equal, here, rfl⟩))
  have different : v.inode_id ≠ kept.inode_id := by
    intro same
    obtain ⟨rfl, rfl, -⟩ := added.survivor_eq here lowest same
    exact away rfl
  rw [← own] at moved
  refine ⟨?_, ?_⟩
  · intro also
    have valid' : ValidName (shownEntry k i d v).name := own ▸ valid_conflictName valid _ _
    obtain ⟨name', e', -, found, same⟩ :=
      shown _ _ valid' also (added.alone k d v (live_of_getElem here))
    obtain ⟨member, named⟩ := mem_of_findEntry found
    obtain rfl := added.listed_eq member listed same
    rw [← named, moved] at found
    exact different (congrArg DirEntry.inode_id (Option.some.inj found)).symm
  · refine findEntry_least (fun z only => ?_) moved _ listed rfl
    obtain ⟨d', v'⟩ := z
    rw [findEntry_single only] at moved
    rw [added.getAll_other away] at only
    have alike : v'.inode_id = kept.inode_id :=
      congrArg DirEntry.inode_id (Option.some.inj moved)
    have there : (rest.getAll (shownEntry k i d v).name)[0]? = some (d', v') := by rw [only]; rfl
    exact away (added.survivor_eq there lowest alike).1

private theorem lands_of_shown {y : DirEntry} (arrived : findEntry after name = some y)
    (inode : y.inode_id = value.inode_id) (shown : StillShown before after value.inode_id)
    (valid : ValidName name) : Arrives before rest name dot value := by
  have lower := added.lower_of_found arrived inode
  have fresh : shownEntry name 0 dot value ∈ listing after := (added.mem_listing lower).mpr (.inl rfl)
  obtain rfl := added.listed_eq (mem_of_findEntry arrived).1 fresh inode
  cases under : findEntry before name with
  | none => exact .free under
  | some e =>
      obtain ⟨member, named⟩ := mem_of_findEntry (added.same.symm.trans under)
      obtain ⟨key, idx, d, v, here, rfl⟩ := Core.mem_listing.mp member
      have other := added.alone key d v (live_of_getElem here)
      obtain ⟨name', e', -, moved, inodes⟩ := shown name _ valid under other
      obtain ⟨member', rfl⟩ := mem_of_findEntry moved
      by_cases own : key = name
      · subst own
        have first : idx = 0 := by
          by_contra later
          exact shownEntry_name_ne later named
        subst first
        obtain rfl := added.listed_eq member'
          ((added.mem_listing lower).mpr (.inr (.inr ⟨0, d, v, here, rfl⟩))) inodes
        refine .ahead here (lower d v (live_of_getElem here)) under ?_
          fun x inside same => added.yields_of_shown valid lower shown here moved inside same
        intro x inside same different
        have crowd : ∀ z, after.getAll key ≠ [z] := by
          intro z only
          rw [added.getAll_name lower, List.cons.injEq] at only
          rw [only.2] at here
          cases here
        refine findEntry_least crowd arrived x ?_ same
        obtain ⟨k, i, d', v', there, rfl⟩ := Core.mem_listing.mp inside
        by_cases equal : k = key
        · subst equal
          cases i with
          | zero =>
              cases here.symm.trans there
              exact absurd rfl different
          | succ i => exact absurd same (shownEntry_name_ne i.succ_ne_zero)
        · exact (added.mem_listing lower).mpr (.inr (.inl ⟨k, i, d', v', equal, there, rfl⟩))
      · -- it would still be shown under the name that the new entry has
        obtain rfl := added.listed_eq member'
          ((added.mem_listing lower).mpr (.inr (.inl ⟨key, idx, d, v, own, here, rfl⟩))) inodes
        rw [named, arrived] at moved
        exact absurd (congrArg DirEntry.inode_id (Option.some.inj moved)).symm other

private theorem findEntry_other {k : String} (lower : ∀ d v, rest.Live name d v → dot < d)
    (other : k ≠ name) (aside : ∀ d v, (rest.getAll name)[0]? = some (d, v) →
      k ≠ (shownEntry name 1 d v).name) : findEntry after k = findEntry rest k := by
  have all := added.getAll_other other
  refine findEntry_congr (fun _ => all) (fun _ => all) fun e named => ?_
  constructor
  · intro inside
    rcases (added.mem_listing lower).mp inside with
      rfl | ⟨key, i, d, v, -, here, rfl⟩ | ⟨i, d, v, here, rfl⟩
    · exact absurd named.symm other
    · exact Core.mem_listing.mpr ⟨key, i, d, v, here, rfl⟩
    · cases i with
      | zero => exact absurd named.symm (aside d v here)
      | succ i => exact Core.mem_listing.mpr ⟨name, i + 1, d, v, here, rfl⟩
  · intro inside
    obtain ⟨key, i, d, v, here, rfl⟩ := Core.mem_listing.mp inside
    by_cases own : key = name
    · subst own
      cases i with
      | zero => exact absurd named.symm other
      | succ i => exact (added.mem_listing lower).mpr (.inr (.inr ⟨i + 1, d, v, here, rfl⟩))
    · exact (added.mem_listing lower).mpr (.inr (.inl ⟨key, i, d, v, own, here, rfl⟩))

private theorem shown_of_free (vacant : findEntry before name = none) :
    (∃ y, findEntry after name = some y ∧ y.inode_id = value.inode_id) ∧
      StillShown before after value.inode_id := by
  have hidden := findEntry_eq_none.mp (added.same.symm.trans vacant)
  have empty : rest.getAll name = [] := by
    cases all : rest.getAll name with
    | nil => rfl
    | cons x more =>
        obtain ⟨d, v⟩ := x
        exact absurd rfl (hidden _ (Core.mem_listing.mpr ⟨name, 0, d, v, by rw [all]; rfl, rfl⟩))
  have lower : ∀ d v, rest.Live name d v → dot < d := by
    intro d v live
    have member := (rest.mem_getAll name d v).mpr live
    rw [empty] at member
    cases member
  have only := added.getAll_name lower
  rw [empty] at only
  refine ⟨⟨_, findEntry_single only, rfl⟩, ?_⟩
  intro k e valid found other
  have away : k ≠ name := by
    rintro rfl
    rw [vacant] at found
    cases found
  refine ⟨k, e, valid, ?_, rfl⟩
  rw [added.findEntry_other lower away (by simp [empty])]
  exact added.found k e found other

private theorem shown_of_ahead {first : Dot} {kept : DirEntryValue} (valid : ValidName name)
    (lowest : (rest.getAll name)[0]? = some (first, kept)) (before_first : dot < first)
    (shown : findEntry before name = some (shownEntry name 0 first kept))
    (least : ∀ e ∈ listing rest, e.name = name → e ≠ shownEntry name 0 first kept →
      (compareDirEntries (shownEntry name 0 dot value) e).isLE)
    (yields : ∀ e ∈ listing rest, e.name = (shownEntry name 1 first kept).name →
      findEntry before e.name ≠ some e ∧
        (compareDirEntries (shownEntry name 1 first kept) e).isLE) :
    (∃ y, findEntry after name = some y ∧ y.inode_id = value.inode_id) ∧
      StillShown before after value.inode_id := by
  have lower : ∀ d v, rest.Live name d v → dot < d := fun d v live =>
    lt_of_lt_of_le before_first (lowest_of_first lowest live)
  have displaced : (shownEntry name 1 first kept).name ≠ name := shownEntry_name_ne one_ne_zero
  refine ⟨⟨shownEntry name 0 dot value, ?_, rfl⟩, ?_⟩
  · refine findEntry_of_least (fun z only => ?_) ((added.mem_listing lower).mpr (.inl rfl)) rfl ?_
    · rw [added.getAll_name lower, List.cons.injEq] at only
      rw [only.2] at lowest
      cases lowest
    · intro e inside named
      rcases (added.mem_listing lower).mp inside with
        rfl | ⟨k, i, d, v, apart, here, rfl⟩ | ⟨i, d, v, here, rfl⟩
      · exact compareDirEntries_self _
      · refine least _ (Core.mem_listing.mpr ⟨k, i, d, v, here, rfl⟩) named fun same => ?_
        exact apart (added.survivor_eq here lowest (congrArg DirEntry.inode_id same)).1
      · exact absurd named (shownEntry_name_ne i.succ_ne_zero)
  · intro k e valid' found other
    have found_rest := added.found k e found other
    by_cases own : k = name
    · subst own
      obtain rfl := Option.some.inj (shown.symm.trans found)
      refine ⟨(shownEntry k 1 first kept).name, shownEntry k 1 first kept,
        valid_conflictName valid first.device_id kept.created_unix_ms, ?_, rfl⟩
      refine findEntry_of_least (fun z only => ?_)
        ((added.mem_listing lower).mpr (.inr (.inr ⟨0, first, kept, lowest, rfl⟩))) rfl ?_
      · obtain ⟨d, v⟩ := z
        rw [added.getAll_other displaced] at only
        have alone := (added.sole _ _ only).trans (findEntry_single only)
        have listed := Core.mem_listing.mpr ⟨_, 0, d, v, by rw [only]; rfl, rfl⟩
        exact (yields _ listed rfl).1 alone
      · intro x inside named
        rcases (added.mem_listing lower).mp inside with
          rfl | ⟨k', i, d, v, -, here, rfl⟩ | ⟨i, d, v, here, rfl⟩
        · exact absurd named.symm displaced
        · exact (yields _ (Core.mem_listing.mpr ⟨k', i, d, v, here, rfl⟩) named).2
        · cases i with
          | zero =>
              cases lowest.symm.trans here
              exact compareDirEntries_self _
          | succ i => exact (yields _ (Core.mem_listing.mpr ⟨k, i + 1, d, v, here, rfl⟩) named).2
    · refine ⟨k, e, valid', ?_, rfl⟩
      obtain ⟨listed, rfl⟩ := mem_of_findEntry found_rest
      rw [added.findEntry_other lower own fun d v here => ?_]
      · exact found_rest
      · cases lowest.symm.trans here
        exact fun same => (yields e listed same).1 found

theorem shown_iff_lands (valid : ValidName name) :
    ((∃ y, findEntry after name = some y ∧ y.inode_id = value.inode_id) ∧
      StillShown before after value.inode_id) ↔ Arrives before rest name dot value := by
  constructor
  · rintro ⟨⟨y, arrived, inode⟩, shown⟩
    exact added.lands_of_shown arrived inode shown valid
  · intro lands
    cases lands with
    | free vacant => exact added.shown_of_free vacant
    | ahead lowest lower shown least yields =>
        exact added.shown_of_ahead valid lowest lower shown least yields

end Added

end Added

section Moves

variable {env : Env} {ids : Set OpId} {s t : CoreState} {p p' : U128} {n n' : String} {id : OpId}
  {value entry : DirEntryValue} {dot : Dot} {rest : DirMap}

theorem relinked_moveEntry (before : Shape env ids s) {op : FsOp} {observed : List OpId}
    (seen : ∀ d v, s.Live p n d v → d ∈ observed) (fresh : op.id ∉ s.applied)
    (free : ¬Relation.ReflTransGen s.Linked entry.inode_id p') (apart : ¬(p = p' ∧ n = n'))
    (same : t.dirs = (moveEntry op entry p n p' n' observed s).dirs) :
    Relinked s t p n p' n' op.id (movedValue op entry) := by
  have dirs : ∀ q, t.dirAt q = (moveEntry op entry p n p' n' observed s).dirAt q := by
    intro q
    unfold dirAt CoreState.loadDir
    rw [same]
  have added : ∀ q m d, t.added q m d = if p' = q ∧ n' = m ∧ op.id = d then some (movedValue op entry)
      else s.added q m d := by
    intro q m d
    rw [← @added_moveEntry op entry p p' n n' observed s]
    unfold CoreState.added
    rw [dirs]
  have removed : ∀ q m d, t.Removed q m d ↔ (p = q ∧ n = m ∧ d ∈ observed) ∨ s.Removed q m d := by
    intro q m d
    rw [← @removed_moveEntry op entry p p' n n' observed s]
    unfold Removed
    rw [dirs]
  refine ⟨fun q m d v => ?_, apart, free⟩
  unfold Live
  rw [added, removed]
  constructor
  · rintro ⟨here, kept⟩
    split at here
    · rename_i new
      obtain ⟨rfl, rfl, rfl⟩ := new
      exact .inl ⟨rfl, rfl, rfl, (Option.some.inj here).symm, fun gone => kept (.inr gone)⟩
    · refine .inr ⟨⟨here, fun gone => kept (.inr gone)⟩, ?_⟩
      rintro ⟨rfl, rfl⟩
      exact kept (.inl ⟨rfl, rfl, seen d v ⟨here, fun gone => kept (.inr gone)⟩⟩)
  · rintro (⟨rfl, rfl, rfl, rfl, kept⟩ | ⟨old, other⟩)
    · rw [if_pos ⟨rfl, rfl, rfl⟩]
      refine ⟨rfl, ?_⟩
      rintro (⟨rfl, rfl, -⟩ | gone)
      · exact apart ⟨rfl, rfl⟩
      · exact kept gone
    · rw [if_neg]
      · refine ⟨old.1, ?_⟩
        rintro (⟨rfl, rfl, -⟩ | gone)
        · exact other ⟨rfl, rfl⟩
        · exact old.2 gone
      · rintro ⟨rfl, rfl, rfl⟩
        exact fresh (before.dotApplied old.1)

private theorem Relinked.added (relinked : Relinked s t p n p' n' id value) (before : Shape env ids s)
    (fresh : id ∉ s.applied) (kept : ¬s.Removed p' n' id) (moved : value.inode_id = entry.inode_id)
    (only : (s.dirAt p).getAll n = [(dot, entry)])
    (left : ∀ k d v, rest.Live k d v ↔ s.Live p' k d v ∧ ¬(p' = p ∧ k = n)) :
    Added (s.dirAt p') rest (t.dirAt p') n' id value := by
  have origin : s.Live p n dot entry := ((s.dirAt p).mem_getAll n dot entry).mp (by rw [only]; simp)
  -- a name other than the old one finds the same in what is left
  have others : ∀ k, ¬(p' = p ∧ k = n) → findEntry (s.dirAt p') k = findEntry rest k := by
    intro k apart
    by_cases same : p' = p
    · subst same
      refine (findEntry_without only (fun k d v => (left k d v).trans ?_)
        fun equal => apart ⟨rfl, equal⟩).symm
      exact and_congr_right fun _ => ⟨fun free equal => free ⟨rfl, equal⟩, fun free both => free both.2⟩
    · refine (findEntry_eq_of_live fun k d v => (left k d v).trans ?_).symm
      exact and_iff_left fun both => same both.1
  refine ⟨?_, ?_, ?_, ?_, ?_, ?_, ?_⟩
  · intro k d v
    refine (relinked.live p' k d v).trans (or_congr ?_ (left k d v).symm)
    simp only [kept, true_and, not_false_eq_true, and_true]
  · intro k v live
    exact fresh (before.dotApplied ((left k id v).mp live).1.1)
  · intro k d v live same
    obtain ⟨old, apart⟩ := (left k d v).mp live
    obtain ⟨equal, name, -⟩ := before.single old origin (same.trans moved)
    exact apart ⟨equal, name⟩
  · intro k d v k' d' v' live live' same
    exact (before.single ((left k d v).mp live).1 ((left k' d' v').mp live').1 same).2
  · intro k e found other
    rw [← others k, found]
    rintro ⟨rfl, rfl⟩
    rw [findEntry_single only] at found
    exact other ((congrArg DirEntry.inode_id (Option.some.inj found)).symm.trans moved.symm)
  · exact others n' fun both => relinked.apart ⟨both.1.symm, both.2.symm⟩
  · intro k x one
    refine others k fun both => ?_
    have live : rest.Live k x.1 x.2 := (rest.mem_getAll k x.1 x.2).mp (by rw [one]; simp)
    exact ((left k x.1 x.2).mp live).2 both

theorem Relinked.movesOne_iff_lands (relinked : Relinked s t p n p' n' id value)
    (before : Shape env ids s) (after : Shape env ids t) (fresh : id ∉ s.applied)
    (origin : s.Live p n dot entry) (highest : ∀ d v, s.Live p n d v → d ≤ dot)
    (moved : value.inode_id = entry.inode_id) {source target : String}
    (from_parent : resolveParent s source = .ok (some (p, n)))
    (to_parent : resolveParent s target = .ok (some (p', n'))) {e : DirEntry}
    (found : s.lookup p n = some e)
    (left : ∀ k d v, rest.Live k d v ↔ s.Live p' k d v ∧ ¬(p' = p ∧ k = n)) :
    MovesOne s t source target e.inode_id ↔ ¬s.Removed p' n' id ∧
      (∃ x, (s.dirAt p).getAll n = [x]) ∧ Arrives (s.dirAt p') rest n' id value := by
  obtain ⟨dirs, source_parts, source_leads⟩ := resolveParent_eq_some.mp from_parent
  obtain ⟨dirs', target_parts, target_leads⟩ := resolveParent_eq_some.mp to_parent
  have valid : ValidName n' := valid_of_splitPath target_parts n' (by simp)
  rw [relinked.movesOne_iff before after origin highest moved source_parts source_leads target_parts
    target_leads found]
  -- a single survivor is the one that moves and the one that is found
  have facts : ∀ {x}, (s.dirAt p).getAll n = [x] →
      (s.dirAt p).getAll n = [(dot, entry)] ∧ e.inode_id = value.inode_id := by
    intro x only
    have member := ((s.dirAt p).mem_getAll n dot entry).mpr origin
    rw [only, List.mem_singleton] at member
    rw [← member] at only
    rw [lookup_eq_findEntry, findEntry_single only] at found
    exact ⟨only, (congrArg DirEntry.inode_id (Option.some.inj found)).symm.trans moved.symm⟩
  constructor
  · rintro ⟨⟨x, one⟩, ⟨y, arrived, same⟩, shown⟩
    obtain ⟨only, inode⟩ := facts one
    have kept : ¬s.Removed p' n' id := by
      intro gone
      obtain ⟨member, -⟩ := mem_of_findEntry arrived
      obtain ⟨k, i, d, v, here, rfl⟩ := mem_listing.mp member
      rcases (relinked.live p' k d v).mp (live_of_getElem here) with ⟨-, -, -, -, free⟩ | ⟨old, apart⟩
      · exact free gone
      · obtain ⟨equal, name, -⟩ := before.single old origin (same.trans (inode.trans moved))
        exact apart ⟨equal, name⟩
    refine ⟨kept, ⟨x, one⟩, ?_⟩
    rw [inode] at same shown
    exact ((relinked.added before fresh kept moved only left).shown_iff_lands valid).mp
      ⟨⟨y, arrived, same⟩, shown⟩
  · rintro ⟨kept, ⟨x, one⟩, lands⟩
    obtain ⟨only, inode⟩ := facts one
    rw [inode]
    exact ⟨⟨x, one⟩,
      ((relinked.added before fresh kept moved only left).shown_iff_lands valid).mpr lands⟩

end Moves

end NexusFS.Core
