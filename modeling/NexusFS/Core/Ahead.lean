/- GID: NexusFS/Core/Ahead
   source: crates/core/src/apply.rs
   digest: The inodes and the entries that a drain can bring about, read off the queue beforehand. -/

import NexusFS.Core.Poison
import NexusFS.Core.Room
import Mathlib.Data.Set.Card

/-!
A drain tries the parked operations in the order of their ids, over and over. What
is here is said of the state before it and holds of every state that it passes,
whatever that order is.
-/

set_option autoImplicit false
set_option relaxedAutoImplicit false

namespace NexusFS.Core

open NexusFS.Lib NexusFS.Lib.Effect NexusFS.Proto NexusFS.Crdt CoreState Relation

section Foresight

variable (env : Env) (s : CoreState)

def Parked (op : FsOp) : Prop := ∃ id : OpId, s.pending[id]? = some op

/-- There is an inode of this kind, or a parked creation can come to make it. -/
inductive Ahead : U128 → EntryType → Prop
  | here {i : U128} {record : InodeRecord} (found : s.loadInode i = some record) :
      Ahead i record.kind
  | made {op : FsOp} {kind : EntryType} {parent : U128} {name : String} {mode : U32}
      (parked : Parked s op) (shape : op.kind = creation kind parent name mode)
      (under : Ahead parent .dir) : Ahead (inodeForOp env op.id) kind

/-- A directory has this entry, or a parked operation can come to enter it. -/
inductive MayHold : U128 → String → Dot → DirEntryValue → Prop
  | here {p : U128} {n : String} {d : Dot} {v : DirEntryValue} (live : s.Live p n d v) :
      MayHold p n d v
  | created {op : FsOp} {kind : EntryType} {parent : U128} {name : String} {mode : U32}
      (parked : Parked s op) (shape : op.kind = creation kind parent name mode)
      (under : Ahead env s parent .dir) : MayHold parent name op.id (createdValue env op kind)
  | moved {op : FsOp} {old_parent new_parent : U128} {old_name new_name : String}
      {observed : List OpId} {dot : Dot} {value : DirEntryValue} (parked : Parked s op)
      (shape : op.kind = .rename old_parent old_name new_parent new_name observed)
      (seen : dot ∈ observed) (source : MayHold old_parent old_name dot value)
      (under : Ahead env s new_parent .dir) : MayHold new_parent new_name op.id (movedValue op value)

def MayLink (parent child : U128) : Prop :=
  ∃ name dot value, MayHold env s parent name dot value ∧ value.inode_id = child ∧
    value.entry_type = .dir

def dirsAhead : Set U128 := {i | Ahead env s i .dir ∨ ∃ p, MayLink env s p i}

def MovesClear (op : FsOp) : Prop :=
  ∀ ⦃old_parent old_name new_parent new_name observed⦄,
    op.kind = .rename old_parent old_name new_parent new_name observed →
      ∀ dot ∈ observed, ∀ value, MayHold env s old_parent old_name dot value →
        value.entry_type = .dir → ¬ReflTransGen (MayLink env s) value.inode_id new_parent

/-- Every record and every entry of `t` was foreseen in `s`. -/
structure Foreseen (t : CoreState) : Prop where
  records : ∀ {i record}, t.loadInode i = some record → Ahead env s i record.kind
  entries : ∀ {p n d v}, t.Live p n d v → MayHold env s p n d v

end Foresight

section Steps

variable {env : Env} {ids : Set OpId} {s t u : CoreState} {op : FsOp}

theorem Ahead.source {i : U128} {kind : EntryType} (ahead : Ahead env s i kind) :
    (∃ record, s.loadInode i = some record ∧ record.kind = kind) ∨
      ∃ op parent name mode, Parked s op ∧ op.kind = creation kind parent name mode ∧
        inodeForOp env op.id = i := by
  cases ahead with
  | here found => exact .inl ⟨_, found, rfl⟩
  | made parked shape => exact .inr ⟨_, _, _, _, parked, shape, rfl⟩

theorem loadInode_listed {i : U128} {record : InodeRecord} (found : s.loadInode i = some record) :
    i ∈ s.inodes.toList.map Prod.fst :=
  List.mem_map.mpr ⟨(i, record), (BTreeMap.mem_toList _ _ _).mpr found, rfl⟩

theorem Foreseen.refl (env : Env) (s : CoreState) : Foreseen env s s := ⟨.here, .here⟩

theorem Foreseen.congr (foreseen : Foreseen env s t) (dirs : u.dirs = t.dirs)
    (inodes : u.inodes = t.inodes) : Foreseen env s u := by
  refine ⟨fun {i record} found => foreseen.records ?_, fun {p n d v} live => foreseen.entries ?_⟩
  · unfold CoreState.loadInode at found ⊢
    rwa [← inodes]
  · exact ⟨(added_congr dirs p n d).symm.trans live.1, fun gone =>
      live.2 ((removed_congr dirs p n d).mpr gone)⟩

theorem Foreseen.dir (foreseen : Foreseen env s t) {i : U128} (dir : t.isDir i = true) :
    Ahead env s i .dir := by
  obtain ⟨record, found, kind⟩ := (t.isDir_iff i).mp dir
  exact kind ▸ foreseen.records found

theorem Foreseen.linked (foreseen : Foreseen env s t) {p i : U128} (link : t.LinkedAs .dir p i) :
    MayLink env s p i := by
  obtain ⟨name, dot, value, live, target, dir⟩ := link
  exact ⟨name, dot, value, foreseen.entries live, target, dir⟩

theorem Foreseen.roomy (foreseen : Foreseen env s t)
    (few : (dirsAhead env s).encard ≤ maxTreeNodes) : Roomy t := by
  intro dirs nodup listed
  have inside : (↑dirs.toFinset : Set U128) ⊆ dirsAhead env s := by
    intro i member
    rcases listed i (List.mem_toFinset.mp (Finset.mem_coe.mp member)) with dir | ⟨p, link⟩
    · exact .inl (foreseen.dir dir)
    · exact .inr ⟨p, foreseen.linked link⟩
  have bound := (Set.encard_le_encard inside).trans few
  rw [Set.encard_coe_eq_coe_finsetCard, List.toFinset_card_of_nodup nodup] at bound
  exact_mod_cast bound

private theorem Foreseen.created (foreseen : Foreseen env s t) (parked : Parked s op)
    (other : t.loadDir (inodeForOp env op.id) = none) {kind : EntryType} {parent : U128}
    {name : String} {mode : U32} (shape : op.kind = creation kind parent name mode)
    (dir : t.isDir parent = true) (apart : inodeForOp env op.id ≠ parent) :
    Foreseen env s (linkCreated env op parent name mode kind t) := by
  have under := foreseen.dir dir
  refine ⟨fun {i record} found => ?_, fun {p n d v} live => ?_⟩
  · rw [loadInode_linkCreated] at found
    split at found
    · rename_i same
      obtain rfl := Option.some.inj found
      exact same ▸ .made parked shape under
    · exact foreseen.records found
  · obtain ⟨here, kept⟩ := live
    rw [added_linkCreated apart other] at here
    split at here
    · rename_i same
      obtain ⟨rfl, rfl, rfl⟩ := same
      exact Option.some.inj here ▸ .created parked shape under
    · exact foreseen.entries ⟨here, fun gone => kept ((removed_linkCreated apart other p n d).mpr gone)⟩

private theorem Foreseen.moved (foreseen : Foreseen env s t) (parked : Parked s op)
    {old_parent new_parent : U128} {old_name new_name : String} {observed : List OpId} {dot : Dot}
    {entry : DirEntryValue}
    (shape : op.kind = .rename old_parent old_name new_parent new_name observed)
    (target : t.isDir new_parent = true) (live : t.Live old_parent old_name dot entry)
    (seen : dot ∈ observed) :
    Foreseen env s (moveEntry op entry old_parent old_name new_parent new_name observed t) := by
  refine ⟨fun {i record} found => foreseen.records ((loadInode_moveEntry i).symm.trans found),
    fun {p n d v} after => ?_⟩
  obtain ⟨here, kept⟩ := after
  rw [added_moveEntry] at here
  split at here
  · rename_i same
    obtain ⟨rfl, rfl, rfl⟩ := same
    exact Option.some.inj here ▸
      .moved parked shape seen (foreseen.entries live) (foreseen.dir target)
  · exact foreseen.entries
      ⟨here, fun gone => kept ((removed_moveEntry p n d).mpr (.inr gone))⟩

private theorem Foreseen.rerecorded (foreseen : Foreseen env s t) {inode : U128}
    {record after : InodeRecord} (found : t.loadInode inode = some record)
    (kind : after.kind = record.kind) : Foreseen env s (t.storeInode inode after) := by
  refine ⟨fun {i other} here => ?_, fun live => foreseen.entries live⟩
  rw [loadInode_storeInode] at here
  split at here
  · rename_i same
    obtain rfl := Option.some.inj here
    rw [kind, ← same]
    exact foreseen.records found
  · exact foreseen.records here

theorem Foreseen.effect (foreseen : Foreseen env s t) (shape : Shape env ids t)
    (inj : Set.InjOn (inodeForOp env) ids) (member : op.id ∈ ids) (new : op.id ∉ t.applied)
    (parked : Parked s op) (effect : Effect env op t u) : Foreseen env s u := by
  cases effect with
  | @created parent name mode kind kindIs _ dir =>
      refine foreseen.created parked (shape.loadDir_fresh inj member new) kindIs dir ?_
      rintro rfl
      obtain ⟨record, found, -⟩ := (t.isDir_iff _).mp dir
      rw [shape.loadInode_fresh inj member new] at found
      cases found
  | superseded => exact foreseen
  | wrote _ found _ _ content =>
      obtain ⟨blobs, draws, -, rfl⟩ := content
      have stored : Foreseen env s { t with blobs := blobs, draws := draws } :=
        foreseen.congr rfl rfl
      exact @Foreseen.rerecorded env s _ stored _ _ _ found rfl
  | movedNothing => exact foreseen
  | moved kindIs _ _ target found =>
      obtain ⟨inside, seen, -⟩ := renameSource_eq_some found
      exact foreseen.moved parked kindIs target ((OrMap.mem_getAll _ _ _ _).mp inside) seen
  | @unlinked parent name observed =>
      refine ⟨foreseen.records, fun {p n d v} live => foreseen.entries ⟨?_, fun gone => live.2 ?_⟩⟩
      · exact (added_removeDots parent name observed p n d).symm.trans live.1
      · exact (removed_removeDots parent name observed p n d).mpr (.inr gone)
  | changedAttrs _ found => exact foreseen.rerecorded found rfl

theorem Foreseen.outside (foreseen : Foreseen env s t) (shape : Shape env ids t)
    (clear : MovesClear env s op) {old_parent new_parent : U128} {old_name new_name : String}
    {observed : List OpId} {dot : Dot} {entry : DirEntryValue}
    (kindIs : op.kind = .rename old_parent old_name new_parent new_name observed)
    (target : t.isDir new_parent = true)
    (found : renameSource ((t.dirAt old_parent).getAll old_name) observed = some (dot, entry))
    (dir : entry.entry_type = .dir) : subtreeContains t entry.inode_id new_parent ≠ .ok true := by
  intro inside
  obtain ⟨listed, seen, -⟩ := renameSource_eq_some found
  have held := foreseen.entries ((OrMap.mem_getAll _ _ _ _).mp listed)
  refine clear kindIs dot seen entry held dir ?_
  rcases below_of_subtree inside with same | ⟨i, path, link⟩
  · exact same ▸ .refl
  · have last : t.LinkedAs .dir i new_parent := by
      obtain ⟨name, d, value, live, same⟩ := link
      obtain ⟨record, there, kind⟩ := (t.isDir_iff new_parent).mp target
      exact ⟨name, d, value, live, same, (shape.kinds live (same ▸ there)).symm.trans kind⟩
    have lifts : ∀ p i, t.LinkedAs .dir p i → MayLink env s p i := fun _ _ => foreseen.linked
    exact (ReflTransGen.mono lifts _ _ path).tail (lifts _ _ last)

end Steps

end NexusFS.Core
