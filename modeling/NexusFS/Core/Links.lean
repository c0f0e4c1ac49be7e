/- GID: NexusFS/Core/Links
   source: crates/core/src/namespace.rs, crates/core/src/apply.rs
   digest: The additions, removals and live links of a state, and how each effect changes them. -/

import NexusFS.Core.Mutation
import NexusFS.Lib.Forest

set_option autoImplicit false
set_option relaxedAutoImplicit false

namespace NexusFS.Core

open NexusFS.Lib NexusFS.Proto NexusFS.Crdt

namespace CoreState

variable (s : CoreState)

def added (parent : U128) (name : String) (dot : Dot) : Option DirEntryValue :=
  ((s.dirAt parent).addsAt name)[dot]?

def Removed (parent : U128) (name : String) (dot : Dot) : Prop :=
  dot ∈ (s.dirAt parent).removesAt name

def Live (parent : U128) (name : String) (dot : Dot) (value : DirEntryValue) : Prop :=
  s.added parent name dot = some value ∧ ¬s.Removed parent name dot

def Linked (parent child : U128) : Prop :=
  ∃ name dot value, s.Live parent name dot value ∧ value.inode_id = child

def LinkedAs (kind : EntryType) (parent child : U128) : Prop :=
  ∃ name dot value, s.Live parent name dot value ∧ value.inode_id = child ∧
    value.entry_type = kind

theorem LinkedAs.linked {s : CoreState} {kind : EntryType} {parent child : U128}
    (link : s.LinkedAs kind parent child) : s.Linked parent child := by
  obtain ⟨name, dot, value, live, target, -⟩ := link
  exact ⟨name, dot, value, live, target⟩

theorem dirAt_eq_empty {inode : U128} (missing : s.loadDir inode = none) :
    s.dirAt inode = ∅ := by
  simp [dirAt, missing]

theorem mem_materializeDir (parent child : U128) (kind : EntryType) :
    (∃ e ∈ s.materializeDir parent, e.inode_id = child ∧ e.entry_type = kind) ↔
      s.LinkedAs kind parent child := by
  unfold materializeDir LinkedAs Live added Removed dirAt
  cases s.loadDir parent with
  | none => simp
  | some map => exact mem_listing_target map child kind

theorem exists_mem_materializeDir (parent child : U128) :
    (∃ e ∈ s.materializeDir parent, e.inode_id = child) ↔ s.Linked parent child := by
  constructor
  · rintro ⟨e, member, rfl⟩
    exact ((s.mem_materializeDir parent e.inode_id e.entry_type).mp ⟨e, member, rfl, rfl⟩).linked
  · rintro ⟨name, dot, value, live, rfl⟩
    obtain ⟨e, member, target, -⟩ := (s.mem_materializeDir parent _ value.entry_type).mpr
      ⟨name, dot, value, live, rfl, rfl⟩
    exact ⟨e, member, target⟩

theorem dirLists_iff (parent child : U128) :
    s.dirLists parent child = true ↔ s.Linked parent child := by
  unfold dirLists
  rw [List.any_eq_true, ← exists_mem_materializeDir]
  simp only [decide_eq_true_eq]

theorem loadDir_of_linked {parent child : U128} (link : s.Linked parent child) :
    (s.loadDir parent).isSome := by
  obtain ⟨name, dot, value, ⟨here, -⟩, -⟩ := link
  cases found : s.loadDir parent with
  | some map => rfl
  | none => simp [added, s.dirAt_eq_empty found] at here

theorem isDir_iff (inode : U128) :
    s.isDir inode = true ↔ ∃ record, s.loadInode inode = some record ∧ record.kind = .dir := by
  unfold isDir
  cases s.loadInode inode with
  | none => simp
  | some record => simp

@[simp] theorem loadDir_storeDir (inode p : U128) (map : DirMap) :
    (s.storeDir inode map).loadDir p = if inode = p then some map else s.loadDir p :=
  BTreeMap.get_insert s.dirs inode p map

@[simp] theorem dirAt_storeDir (inode p : U128) (map : DirMap) :
    (s.storeDir inode map).dirAt p = if inode = p then map else s.dirAt p := by
  unfold dirAt
  rw [loadDir_storeDir]
  split <;> rfl

@[simp] theorem loadInode_storeInode (inode i : U128) (record : InodeRecord) :
    (s.storeInode inode record).loadInode i = if inode = i then some record else s.loadInode i :=
  BTreeMap.get_insert s.inodes inode i record

theorem loadInode_noteApplied (op : FsOp) (i : U128) :
    (s.noteApplied op).loadInode i = s.loadInode i := rfl

theorem dirAt_noteApplied (op : FsOp) (p : U128) : (s.noteApplied op).dirAt p = s.dirAt p := rfl

theorem added_noteApplied (op : FsOp) (p : U128) (n : String) (d : Dot) :
    (s.noteApplied op).added p n d = s.added p n d := rfl

theorem removed_noteApplied (op : FsOp) (p : U128) (n : String) (d : Dot) :
    (s.noteApplied op).Removed p n d ↔ s.Removed p n d := Iff.rfl

variable {s} in
theorem dirAt_congr {t : CoreState} (dirs : t.dirs = s.dirs) (p : U128) :
    t.dirAt p = s.dirAt p := by
  simp only [dirAt, loadDir, dirs]

variable {s} in
theorem added_congr {t : CoreState} (dirs : t.dirs = s.dirs) (p : U128) (n : String) (d : Dot) :
    t.added p n d = s.added p n d := by
  simp only [added, dirAt_congr dirs]

variable {s} in
theorem removed_congr {t : CoreState} (dirs : t.dirs = s.dirs) (p : U128) (n : String) (d : Dot) :
    t.Removed p n d ↔ s.Removed p n d := by
  simp only [Removed, dirAt_congr dirs]

end CoreState

open CoreState

section Created

variable {env : Env} {op : FsOp} {parent : U128} {name : String} {mode : U32} {kind : EntryType}
  {s : CoreState}

def createdValue (env : Env) (op : FsOp) (kind : EntryType) : DirEntryValue :=
  ⟨inodeForOp env op.id, kind, op.time_unix_ms⟩

theorem dirAt_linkCreated (other : inodeForOp env op.id ≠ parent)
    (fresh : s.loadDir (inodeForOp env op.id) = none) (p : U128) :
    (linkCreated env op parent name mode kind s).dirAt p =
      if parent = p then (s.dirAt p).add name op.id (createdValue env op kind) else s.dirAt p := by
  have empty : s.dirAt (inodeForOp env op.id) = ∅ := s.dirAt_eq_empty fresh
  unfold linkCreated
  simp only [dirAt_storeDir]
  by_cases here : parent = p
  · subst here
    cases kind with
    | file => rfl
    | dir =>
        simp only [if_true, dirAt_storeDir, if_neg other]
        rfl
  · simp only [if_neg here]
    cases kind with
    | file => rfl
    | dir =>
        simp only [if_true, dirAt_storeDir]
        split
        · rename_i same
          rw [← same, empty]
        · rfl

theorem added_linkCreated (other : inodeForOp env op.id ≠ parent)
    (fresh : s.loadDir (inodeForOp env op.id) = none) (p : U128) (n : String) (d : Dot) :
    (linkCreated env op parent name mode kind s).added p n d =
      if parent = p ∧ name = n ∧ op.id = d then some (createdValue env op kind)
      else s.added p n d := by
  unfold added
  rw [dirAt_linkCreated other fresh]
  by_cases here : parent = p
  · rw [if_pos here, OrMap.addsAt_add]
    by_cases same : name = n
    · rw [if_pos same, BTreeMap.get_insert]
      simp [here, same]
    · simp [same]
  · simp [here]

theorem removed_linkCreated (other : inodeForOp env op.id ≠ parent)
    (fresh : s.loadDir (inodeForOp env op.id) = none) (p : U128) (n : String) (d : Dot) :
    (linkCreated env op parent name mode kind s).Removed p n d ↔ s.Removed p n d := by
  unfold Removed
  rw [dirAt_linkCreated other fresh]
  split
  · rw [OrMap.removesAt_add]
  · rfl

theorem loadInode_linkCreated (i : U128) :
    (linkCreated env op parent name mode kind s).loadInode i =
      if inodeForOp env op.id = i then
        some (InodeRecord.new kind mode op.time_unix_ms op.id.device_id op.id.counter)
      else s.loadInode i := by
  cases kind <;> exact loadInode_storeInode s _ i _

theorem parentOf_linkCreated (i : U128) :
    (linkCreated env op parent name mode kind s).parentOf i =
      if inodeForOp env op.id = i then some parent else s.parentOf i := by
  cases kind <;> exact BTreeMap.get_insert s.parents _ i _

theorem loadDir_linkCreated (p : U128) :
    ((linkCreated env op parent name mode kind s).loadDir p).isSome ↔
      parent = p ∨ (kind = .dir ∧ inodeForOp env op.id = p) ∨ (s.loadDir p).isSome := by
  unfold linkCreated
  rw [loadDir_storeDir]
  by_cases here : parent = p
  · simp [here]
  · rw [if_neg here]
    cases kind with
    | file =>
        simp only [here, false_or, reduceCtorEq, if_false, false_and]
        rfl
    | dir =>
        rw [if_pos rfl, loadDir_storeDir]
        by_cases new : inodeForOp env op.id = p
        · simp [new]
        · rw [if_neg new]
          simp only [here, new, and_false, false_or]
          rfl

theorem loadDir_linkCreated_of_ne {p : U128} (apart : parent ≠ p)
    (old : inodeForOp env op.id ≠ p) :
    (linkCreated env op parent name mode kind s).loadDir p = s.loadDir p := by
  unfold linkCreated
  rw [loadDir_storeDir, if_neg apart]
  cases kind with
  | file => rfl
  | dir =>
      rw [if_pos rfl, loadDir_storeDir, if_neg old]
      rfl

end Created

section Removal

variable {s : CoreState}

theorem added_removeDots (parent : U128) (name : String) (dots : List Dot) (p : U128)
    (n : String) (d : Dot) :
    (s.storeDir parent ((s.dirAt parent).removeDots name dots)).added p n d = s.added p n d := by
  unfold added
  rw [dirAt_storeDir]
  split
  · rename_i same
    rw [OrMap.addsAt_removeDots, same]
  · rfl

theorem removed_removeDots (parent : U128) (name : String) (dots : List Dot) (p : U128)
    (n : String) (d : Dot) :
    (s.storeDir parent ((s.dirAt parent).removeDots name dots)).Removed p n d ↔
      (parent = p ∧ name = n ∧ d ∈ dots) ∨ s.Removed p n d := by
  unfold Removed
  rw [dirAt_storeDir]
  by_cases here : parent = p
  · rw [if_pos here, OrMap.mem_removesAt_removeDots, here]
    simp
  · simp [here]

end Removal

section Moved

variable {op : FsOp} {entry : DirEntryValue} {old_parent new_parent : U128}
  {old_name new_name : String} {observed : List OpId} {s : CoreState}

def movedValue (op : FsOp) (entry : DirEntryValue) : DirEntryValue :=
  ⟨entry.inode_id, entry.entry_type, op.time_unix_ms⟩

theorem dirAt_moveEntry (p : U128) :
    (moveEntry op entry old_parent old_name new_parent new_name observed s).dirAt p =
      if new_parent = p then
        ((s.storeDir old_parent ((s.dirAt old_parent).removeDots old_name observed)).dirAt p).add
          new_name op.id (movedValue op entry)
      else (s.storeDir old_parent ((s.dirAt old_parent).removeDots old_name observed)).dirAt p := by
  unfold moveEntry
  dsimp only
  split
  · rename_i same
    subst same
    simp only [dirAt_storeDir]
    split <;> rfl
  · simp only [dirAt_storeDir]
    split
    · rename_i different same
      subst same
      rw [if_neg different]
      rfl
    · rfl

theorem added_moveEntry (p : U128) (n : String) (d : Dot) :
    (moveEntry op entry old_parent old_name new_parent new_name observed s).added p n d =
      if new_parent = p ∧ new_name = n ∧ op.id = d then some (movedValue op entry)
      else s.added p n d := by
  rw [← @added_removeDots s old_parent old_name observed p n d]
  unfold added
  rw [dirAt_moveEntry]
  by_cases here : new_parent = p
  · rw [if_pos here, OrMap.addsAt_add]
    by_cases same : new_name = n
    · rw [if_pos same, BTreeMap.get_insert]
      simp [here, same]
    · simp [same]
  · simp [here]

theorem removed_moveEntry (p : U128) (n : String) (d : Dot) :
    (moveEntry op entry old_parent old_name new_parent new_name observed s).Removed p n d ↔
      (old_parent = p ∧ old_name = n ∧ d ∈ observed) ∨ s.Removed p n d := by
  rw [← @removed_removeDots s old_parent old_name observed p n d]
  unfold Removed
  rw [dirAt_moveEntry]
  split
  · rw [OrMap.removesAt_add]
  · rfl

theorem loadInode_moveEntry (i : U128) :
    (moveEntry op entry old_parent old_name new_parent new_name observed s).loadInode i =
      s.loadInode i := by
  unfold moveEntry
  dsimp only
  split <;> rfl

theorem parentOf_moveEntry (i : U128) :
    (moveEntry op entry old_parent old_name new_parent new_name observed s).parentOf i =
      if entry.inode_id = i then some new_parent else s.parentOf i := by
  unfold moveEntry
  dsimp only
  split <;> exact BTreeMap.get_insert s.parents _ i _

theorem loadDir_moveEntry (p : U128) :
    ((moveEntry op entry old_parent old_name new_parent new_name observed s).loadDir p).isSome ↔
      old_parent = p ∨ new_parent = p ∨ (s.loadDir p).isSome := by
  unfold moveEntry
  dsimp only
  split
  · rename_i same
    subst same
    rw [loadDir_storeDir]
    split
    · simp [*]
    · simp only [*, false_or]
      rfl
  · rw [loadDir_storeDir]
    split
    · simp [*]
    · rw [loadDir_storeDir]
      split
      · simp [*]
      · simp only [*, false_or]
        rfl

end Moved

end NexusFS.Core
