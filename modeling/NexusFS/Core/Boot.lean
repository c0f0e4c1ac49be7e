/- GID: NexusFS/Core/Boot
   source: crates/core/src/snapshot.rs
   digest: The state a bootstrap leaves: the root directory, the exact map and its snapshot. -/

import NexusFS.Core.Run
import Mathlib.Data.List.Perm.Subperm

set_option autoImplicit false
set_option relaxedAutoImplicit false

namespace NexusFS.Core

open NexusFS.Lib NexusFS.Lib.Effect NexusFS.Proto NexusFS.Crdt CoreState Relation

def SmallTree (s : CoreState) : Prop :=
  ∀ dirs : List U128, dirs.Nodup → (∀ i ∈ dirs, DirBelow s rootInode i) →
    dirs.length ≤ maxTreeNodes

theorem SmallTree.not_overfull {s : CoreState} (small : SmallTree s) (w : Walk) :
    ¬Overfull s w := by
  rintro ⟨more, below⟩
  have distinct : w.visited.toList.Nodup := by
    refine Std.ExtTreeSet.distinct_toList.imp ?_
    intro a b apart same
    exact apart (compare_eq_iff_eq.mpr same)
  have bound := small w.visited.toList distinct
    fun i member => below i ((BTreeSet.mem_toList _ _).mp member)
  rw [Std.ExtTreeSet.length_toList] at bound
  omega

theorem Shape.walkRoot_small {env : Env} {ids : Set OpId} {s : CoreState}
    (shape : Shape env ids s) (small : SmallTree s) (store : Bool) :
    ∃ hash w, walkRoot env s store = .ok hash w ∧
      ∀ k x, w.inode_map[k]? = some x ↔ TreeEntry env s k x := by
  have spec := shape.walkRoot_spec store
  cases run : walkRoot env s store with
  | error e w =>
      rw [run] at spec
      exact absurd spec.2 (small.not_overfull w)
  | ok hash w =>
      rw [run] at spec
      exact ⟨hash, w, rfl, spec.1⟩

theorem Shape.walkRoot_returns_iff {env : Env} {ids : Set OpId} {s : CoreState}
    (shape : Shape env ids s) (store : Bool) :
    (∃ hash w, walkRoot env s store = .ok hash w) ↔ SmallTree s := by
  constructor
  · rintro ⟨hash, w, run⟩ dirs distinct below
    have spec := shape.walkRoot_spec store
    rw [run] at spec
    have visited : dirs ⊆ w.visited.toList := fun i member =>
      (BTreeSet.mem_toList _ _).mpr ((spec.2 i).mpr (below i member))
    have bound := (distinct.subperm visited).length_le
    rw [Std.ExtTreeSet.length_toList] at bound
    exact bound.trans (walkRoot_size run)
  · intro small
    obtain ⟨hash, w, run, -⟩ := shape.walkRoot_small small store
    exact ⟨hash, w, run⟩

theorem Shape.linked_allocated {env : Env} {ids : Set OpId} {s : CoreState} (shape : Shape env ids s)
    {p i : U128} (link : s.Linked p i) : i ∈ s.applied.toList.map (inodeForOp env) := by
  obtain ⟨n, d, v, ⟨here, -⟩, rfl⟩ := link
  obtain ⟨id, applied, from_id⟩ := shape.targetApplied here
  exact List.mem_map.mpr ⟨id, (BTreeSet.mem_toList _ _).mpr applied, from_id.symm⟩

theorem Shape.smallTree_of_applied {env : Env} {ids : Set OpId} {s : CoreState}
    (shape : Shape env ids s) (few : s.applied.size < maxTreeNodes) : SmallTree s := by
  intro dirs distinct below
  have allocated : dirs ⊆ rootInode :: s.applied.toList.map (inodeForOp env) := by
    intro i member
    rcases (below i member).cases_tail with same | ⟨p, -, link⟩
    · exact same ▸ List.mem_cons_self
    · exact List.mem_cons_of_mem _ (shape.linked_allocated link.linked)
  have bound := (distinct.subperm allocated).length_le
  rw [List.length_cons, List.length_map, Std.ExtTreeSet.length_toList] at bound
  omega

theorem Shape.smallListing_of_applied {env : Env} {ids : Set OpId} {s : CoreState}
    (shape : Shape env ids s) (few : s.applied.size ≤ maxWalkEntries) (inode : U128) :
    SmallListing s inode := by
  intro l distinct listed
  have allocated : l ⊆ s.applied.toList.map (inodeForOp env) := by
    intro i member
    obtain ⟨p, -, link⟩ := listed i member
    exact shape.linked_allocated link
  have bound := (distinct.subperm allocated).length_le
  rw [List.length_map, Std.ExtTreeSet.length_toList] at bound
  exact bound.trans few

section Genesis

variable {env : Env} {ids : Set OpId} {s : CoreState}

def genesis (s : CoreState) : CoreState :=
  (s.storeInode rootInode genesisRecord).storeDir rootInode ∅

theorem dirAt_genesis (blank : Blank s) (p : U128) : (genesis s).dirAt p = ∅ := by
  unfold genesis
  rw [dirAt_storeDir]
  split
  · rfl
  · simp only [dirAt, loadDir, storeInode, blank.dirs, Std.ExtTreeMap.getElem?_empty]
    rfl

theorem added_genesis (blank : Blank s) (p : U128) (n : String) (d : Dot) :
    (genesis s).added p n d = none := by
  simp [added, dirAt_genesis blank]

theorem loadInode_genesis (blank : Blank s) (i : U128) :
    (genesis s).loadInode i = if rootInode = i then some genesisRecord else none := by
  have stored := loadInode_storeInode s rootInode i genesisRecord
  have empty : s.loadInode i = none := by
    simp only [loadInode, blank.inodes, Std.ExtTreeMap.getElem?_empty]
  rw [empty] at stored
  exact stored

private theorem not_live_genesis (blank : Blank s) {p : U128} {n : String} {d : Dot}
    {v : DirEntryValue} : ¬(genesis s).Live p n d v := by
  rintro ⟨here, -⟩
  rw [added_genesis blank] at here
  cases here

private theorem not_linked_genesis (blank : Blank s) (p i : U128) : ¬(genesis s).Linked p i := by
  rintro ⟨n, d, v, live, -⟩
  exact not_live_genesis blank live

theorem shape_genesis (env : Env) (ids : Set OpId) (blank : Blank s) :
    Shape env ids (genesis s) := by
  have applied : (genesis s).applied = ∅ := blank.applied
  have pending : (genesis s).pending = ∅ := blank.pending
  have isDir : ∀ p, (genesis s).isDir p = true ↔ rootInode = p := by
    intro p
    rw [isDir_iff, loadInode_genesis blank]
    constructor
    · rintro ⟨record, found, -⟩
      by_contra other
      rw [if_neg other] at found
      cases found
    · intro same
      exact ⟨genesisRecord, if_pos same, rfl⟩
  refine ⟨?_, ?_, ?_, ?_, ?_, ?_, (isDir _).mpr rfl, ?_, ⟨?_, ?_⟩, ?_, ?_⟩
  · intro id here
    rw [applied] at here
    exact absurd here Std.ExtTreeSet.not_mem_empty
  · intro id op here
    rw [pending, Std.ExtTreeMap.getElem?_empty] at here
    cases here
  · intro p n d v here
    rw [added_genesis blank] at here
    cases here
  · intro p n d v here
    rw [added_genesis blank] at here
    cases here
  · intro i r found
    rw [loadInode_genesis blank] at found
    split at found
    · rename_i same
      exact .inl same.symm
    · cases found
  · intro p
    rw [isDir]
    unfold genesis
    rw [loadDir_storeDir]
    have empty : (s.storeInode rootInode genesisRecord).loadDir p = none := by
      simp only [loadDir, storeInode, blank.dirs, Std.ExtTreeMap.getElem?_empty]
    by_cases same : rootInode = p <;> simp [same, empty]
  · intro p n d v q m e w left
    exact absurd left (not_live_genesis blank)
  · intro a b c left
    exact absurd left (not_linked_genesis blank a c)
  · intro a cycle
    obtain ⟨b, link, -⟩ := TransGen.head'_iff.mp cycle
    exact not_linked_genesis blank a b link
  · intro p n d v r live
    exact absurd live (not_live_genesis blank)
  · intro p n d v r live
    exact absurd live (not_live_genesis blank)

theorem smallTree_genesis (blank : Blank s) : SmallTree (genesis s) := by
  intro dirs distinct below
  have all : ∀ i ∈ dirs, i = rootInode := by
    intro i member
    rcases (below i member).cases_tail with same | ⟨p, -, link⟩
    · exact same
    · exact absurd link.linked (not_linked_genesis blank p i)
  have short : dirs.length ≤ [rootInode].length :=
    (distinct.subperm fun i member => by simp [all i member]).length_le
  exact short.trans (by decide)

/-- What a bootstrap leaves. -/
structure Fresh (env : Env) (s t : CoreState) : Prop where
  records : ∃ blobs imap head root version kv blob, (∀ hash, s.hasBlob hash → blobs.contains hash) ∧
    t = { genesis s with
      blobs := blobs, imap := imap, head := head, state_root := root, format_version := version,
      kv_flushes := kv, blob_flushes := blob }
  exact : MapExact env t
  root : t.state_root = some (computeStateRoot env t)
  head : t.head = some
    (objectHash env (newSnapshotRoot (computeStateRoot env t) t.device_id t.state_time))

theorem bootstrapIfNeeded_run (blank : Blank s) :
    bootstrapIfNeeded env s =
      (do
        let _ ← rebuildInodeMap env
        let _ ← buildSnapshot env
        modify fun s => { s with format_version := some currentFormatVersion }
        modify fun s => s.flush
        modify fun s => s.flush : M Unit) (genesis s) := by
  unfold bootstrapIfNeeded
  simp only [bind_run, get_run, blank.head, Option.isSome_none, Bool.false_eq_true, if_false, modify_run]
  rfl

theorem booted_spec (env : Env) (blank : Blank s) : Fresh env s (booted env s) := by
  have shape := shape_genesis env ∅ blank
  have small := smallTree_genesis blank
  have spec := shape.rebuildInodeMap_spec
  unfold booted
  rw [bootstrapIfNeeded_run blank, bind_run]
  cases rebuilt : rebuildInodeMap env (genesis s) with
  | error e t =>
      rw [rebuilt] at spec
      obtain ⟨w, more⟩ := spec.2.2.2
      exact absurd more (small.not_overfull w)
  | ok rows t =>
      rw [rebuilt] at spec
      obtain ⟨only, exact⟩ := spec
      obtain ⟨blobs, snapshot_keeps, snapshot⟩ := buildSnapshot_run env t
      simp only [bind_run, snapshot, modify_run, finalState_ok]
      obtain ⟨stored, imap, keeps, rfl⟩ := only
      exact ⟨⟨blobs, imap, _, _, _, _, _,
        fun hash here => snapshot_keeps hash (keeps hash here), rfl⟩, exact, rfl, rfl⟩

theorem Fresh.shape {t : CoreState} (fresh : Fresh env s t) (blank : Blank s) :
    Shape env ids t := by
  obtain ⟨blobs, imap, head, root, version, kv, blob, -, rfl⟩ := fresh.records
  have shape := shape_genesis env ids blank
  exact shape.congr rfl rfl (fun _ => rfl) (fun here => here) shape.known shape.parked

theorem Fresh.smallTree {t : CoreState} (fresh : Fresh env s t) (blank : Blank s) :
    SmallTree t := by
  obtain ⟨blobs, imap, head, root, version, kv, blob, -, rfl⟩ := fresh.records
  exact smallTree_genesis blank

end Genesis

end NexusFS.Core
