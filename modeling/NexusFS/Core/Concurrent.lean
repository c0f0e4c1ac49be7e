/- GID: NexusFS/Core/Concurrent
   source: crates/core/src/apply.rs, crates/core/src/ops.rs, docs/ops_semantics.md
   digest: Replicas whose renames are all safe agree on listings, queue and root; others may not. -/

import NexusFS.Core.Convergence
import NexusFS.Core.Ops

set_option autoImplicit false
set_option relaxedAutoImplicit false

namespace NexusFS.Core

open NexusFS.Lib NexusFS.Lib.Effect NexusFS.Proto NexusFS.Crdt CoreState

variable {env : Env} {ops : Finset FsOp} {s t : CoreState} {first second : List FsOp}

/-- Two states with the same live directory listings, the same queue and the same root. -/
structure ListsAlike (s t : CoreState) : Prop where
  listings : ∀ inode, s.materializeDir inode = t.materializeDir inode
  pending : s.pending = t.pending
  root : s.state_root = t.state_root

/-- Two replicas that receive the same operations in any two orders end with the same listings,
queue and root, if every attempt at a rename was safe in the state it met. -/
theorem listsAlike_of_safe (batch : Batch env ops) (few : FewDirs ops) (left : Replica ops s)
    (right : Replica ops t) (coversLeft : Covers ops first) (coversRight : Covers ops second)
    (safeLeft : ∀ x ∈ deliverAttempts env (booted env s) first, RenameSafe x.1 x.2)
    (safeRight : ∀ x ∈ deliverAttempts env (booted env t) second, RenameSafe x.1 x.2) :
    ListsAlike (deliver env (booted env s) first) (deliver env (booted env t) second) := by
  have one := complete_deliver batch few left.blank left.stocked left.policy coversLeft
    fun x inside _ => safeLeft x inside
  have two := complete_deliver batch few right.blank right.stocked right.policy coversRight
    fun x inside _ => safeRight x inside
  refine ⟨fun inode => ?_, one.pending_eq two batch, one.state_root_eq two batch⟩
  simp only [materializeDir, loadDir, one.dirs_eq two batch]

def renameSafe (s : CoreState) (op : FsOp) : Bool :=
  match op.kind with
  | .rename old_parent old_name new_parent _ observed =>
      let survivors := (s.dirAt old_parent).getAll old_name
      !s.isDir old_parent || !s.isDir new_parent ||
        observed.all fun top =>
          (survivors.any fun p => p.1 = top &&
            (p.2.entry_type = .file || subtreeContains s p.2.inode_id new_parent = .ok false)) ||
          (!((s.dirAt old_parent).removesAt old_name).contains top &&
            survivors.all fun p => !observed.contains p.1)
  | _ => true

theorem renameSafe_sound {op : FsOp} (checked : renameSafe s op = true) : RenameSafe s op := by
  intro old_parent old_name new_parent new_name observed kindIs source target top highest
  have live : ∀ {dot value}, (dot, value) ∈ (s.dirAt old_parent).getAll old_name ↔
      s.Live old_parent old_name dot value := (s.dirAt old_parent).mem_getAll old_name _ _
  simp only [renameSafe, kindIs, source, target, Bool.not_true, Bool.false_or, List.all_eq_true,
    Bool.or_eq_true, List.any_eq_true, Bool.and_eq_true, decide_eq_true_eq] at checked
  rcases checked top highest.1 with ⟨⟨dot, value⟩, member, rfl, moves⟩ | ⟨kept, gone⟩
  · refine .inl ⟨value, live.mp member, fun dir => moves.resolve_left ?_⟩
    simp [dir]
  · refine .inr ⟨?_, fun dot seen value here => ?_⟩
    · intro removed
      have held := Std.ExtTreeSet.contains_iff_mem.mpr removed
      rw [held] at kept
      cases kept
    · have unseen := gone (dot, value) (live.mpr here)
      simp [seen] at unseen

/-- An operation as a node authors it through the local API, with the keys of `Env.plain`. -/
def authored (device : U64) (counter now : U64) (kind : FsOpKind) : FsOp where
  id := ⟨device.castLE (by decide), counter⟩
  time_unix_ms := now
  ctx := ⟨[]⟩
  kind := kind
  author_pubkey := device.castLE (by decide)
  sig := List.replicate 64 0
  proof := none

def mkdirF : FsOp := authored 1 1 10 (.mkdir rootInode "f" 0o40755)

def renameFG : FsOp := authored 1 2 20 (.rename rootInode "f" rootInode "g" [mkdirF.id])

def renameGH : FsOp := authored 1 3 30 (.rename rootInode "g" rootInode "h" [renameFG.id])

def chainBatch : Finset FsOp := [mkdirF, renameFG, renameGH].toFinset

theorem chainBatch_batch : Batch .plain chainBatch := by
  have ids : ∀ a ∈ chainBatch, ∀ b ∈ chainBatch,
      inodeForOp .plain a.id = inodeForOp .plain b.id → a.id = b.id := by decide +kernel
  refine ⟨by decide +kernel, fun left right => ?_, ?_, ?_⟩
  · have distinct : ∀ a ∈ chainBatch, ∀ b ∈ chainBatch, a.id = b.id → a = b := by decide +kernel
    exact distinct _ left _ right
  · rintro _ ⟨a, left, rfl⟩ _ ⟨b, right, rfl⟩ same
    exact ids a left b right same
  · intro op member
    simp only [chainBatch, List.mem_toFinset, List.mem_cons, List.not_mem_nil, or_false] at member
    rcases member with rfl | rfl | rfl <;> exact trivial

theorem chainBatch_replica (device_id : DeviceId) : Replica chainBatch (CoreState.new device_id) := by
  refine ⟨blank_new device_id, ?_, rfl⟩
  intro op member inode offset chunks new_size encryption kindIs
  simp only [chainBatch, List.mem_toFinset, List.mem_cons, List.not_mem_nil, or_false] at member
  rcases member with rfl | rfl | rfl <;> cases kindIs

theorem listsAlike_of_safe_chain :
    ((deliver .plain (booted .plain (CoreState.new 3)) [renameGH, renameFG, mkdirF]).materializeDir
      rootInode).map DirEntry.name = ["h"] ∧
    ListsAlike (deliver .plain (booted .plain (CoreState.new 2)) [mkdirF, renameFG, renameGH])
      (deliver .plain (booted .plain (CoreState.new 3)) [renameGH, renameFG, mkdirF]) := by
  have safe : ∀ {trace : List (CoreState × FsOp)},
      (trace.all fun x => renameSafe x.1 x.2) = true → ∀ x ∈ trace, RenameSafe x.1 x.2 :=
    fun checked x inside => renameSafe_sound (List.all_eq_true.mp checked x inside)
  refine ⟨by decide +kernel, listsAlike_of_safe chainBatch_batch (by decide +kernel)
    (chainBatch_replica 2) (chainBatch_replica 3) ?_ ?_ (safe (by decide +kernel))
    (safe (by decide +kernel))⟩
  · intro op
    rw [chainBatch, List.mem_toFinset]
  · intro op
    simp only [chainBatch, List.mem_toFinset, List.mem_cons, List.not_mem_nil, or_false]
    tauto

def nodeOne : CoreState :=
  finalState (renamePath .plain ⟨1⟩ "/f" "/g" 20
    (finalState (mkdirP .plain ⟨1⟩ "/f" 10 (booted .plain (CoreState.new 1)))))

def nodeTwo : CoreState :=
  finalState (renamePath .plain ⟨2⟩ "/f" "/h" 20
    (deliver .plain (booted .plain (CoreState.new 2)) [mkdirF]))

def renameFH : FsOp := authored 2 1 20 (.rename rootInode "f" rootInode "h" [mkdirF.id])

/-- Two concurrent renames of one directory, authored through the local API: the one that arrives
first wins, and the other stays parked. -/
theorem concurrent_renames_split :
    nodeOne.oplog[mkdirF.id]? = some mkdirF ∧ nodeOne.oplog[renameFG.id]? = some renameFG ∧
      nodeTwo.oplog[renameFH.id]? = some renameFH ∧
      ¬ListsAlike (deliver .plain (booted .plain (CoreState.new 3)) [mkdirF, renameFG, renameFH])
        (deliver .plain (booted .plain (CoreState.new 4)) [mkdirF, renameFH, renameFG]) := by
  refine ⟨by decide +kernel, by decide +kernel, by decide +kernel, fun alike => ?_⟩
  have same := alike.listings rootInode
  revert same
  decide +kernel

end NexusFS.Core
