/- GID: NexusFS/Net/Coherent
   source: crates/core/src/apply.rs, crates/core/src/snapshot.rs, crates/zk/src/merkle.rs
   digest: The stored root and head commit to the inode map in every state of a node. -/

import NexusFS.Core.Benign
import NexusFS.Core.Postcard
import NexusFS.Net.Calls
import NexusFS.Zk.MerkleAbsent

set_option autoImplicit false
set_option relaxedAutoImplicit false

namespace NexusFS.Net

open NexusFS.Lib NexusFS.Lib.Effect NexusFS.Proto NexusFS.Core

section Coherent

variable {env : Env} {identity : Identity} {ids : Set OpId} {s : CoreState}

/-- The stored root commits to the inode map, the stored head object names it, and every inode has
a proof of exactly one kind, which checks against it. -/
structure Coherent (env : Env) (s : CoreState) (root : Hash) : Prop where
  stored : s.state_root = some root
  commits : root = computeStateRoot env s
  head : ∃ hash node, s.head = some hash ∧ getObject env s hash = .ok (some (.snapshotRoot node)) ∧
    node.inode_map_root = some root
  proofs : ∀ inode,
    ((∃ p, inclusionProof env s inode = some p ∧ p.inode = inode ∧
        Zk.Merkle.check env.blake3 p root = .ok ()) ∧ absenceProof env s inode = none) ∨
      (inclusionProof env s inode = none ∧ ∃ p, absenceProof env s inode = some p ∧
        p.inode = inode ∧ Zk.Merkle.checkAbsent env.blake3 p root = .ok ())

/-- No stored blob collides with a snapshot this node can have taken of its current root. -/
def SnapshotsApart (env : Env) (s : CoreState) : Prop :=
  ∀ time ≤ s.state_time, ∀ (hash : Hash) bytes, s.blobs[hash]? = some bytes →
    env.blake3 bytes =
      objectHash env (newSnapshotRoot (computeStateRoot env s) s.device_id time) →
    bytes = encodeObject env (newSnapshotRoot (computeStateRoot env s) s.device_id time)

private theorem coherent_of_committed (committed : Committed env s) (stored : HeadStored s)
    (keyed : Keyed env s) (decodes : ∀ object, env.decodeObject (env.encodeObject object) = some object)
    (apart : SnapshotsApart env s) (bound : (inodeMap s).length < 2 ^ 64) :
    Coherent env s (computeStateRoot env s) := by
  refine ⟨committed.root, rfl, ?_, fun inode => ?_⟩
  · obtain ⟨time, early, named⟩ := committed.head
    obtain ⟨hash, same, here⟩ := stored
    obtain ⟨bytes, found⟩ := Option.isSome_iff_exists.mp (hasBlob_iff_get.mp here)
    obtain rfl := Option.some.inj (named.symm.trans same)
    have sound := apart time early _ bytes found (keyed _ bytes found)
    refine ⟨_, ⟨⟨3, 1⟩, rootInode, some (computeStateRoot env s), time, s.device_id⟩, named, ?_, rfl⟩
    unfold getObject
    rw [found, sound]
    simp only [encodeObject, decodes]
    rfl
  · exact Zk.Merkle.one_kind_of_proof s.imap.sorted_toList bound inode

def Timely (env : Env) (ids : Set OpId) (s : CoreState) (call : Call) : Prop :=
  call.Within ids ∧ FailsEarly env s call

theorem NodeRun.committed (run : NodeRun env identity (EachCall env identity (Timely env ids)) s)
    (inj : Set.InjOn (inodeForOp env) ids) : Orderly env ids s ∧ Committed env s :=
  run.carry (I := fun s => Orderly env ids s ∧ Committed env s)
    (fun blank => ⟨orderly_booted env ids blank, (current_booted env blank).committed⟩)
    (fun held still => ⟨held.1.quiet still, held.2.quiet still⟩)
    fun held met => ⟨held.1.call inj met.1, held.2.call held.1 inj met.1 met.2⟩

/-- In every state of a node whose calls fail, if at all, before they changed the inode map, the
stored root and head commit to that map, and proofs check against them. -/
theorem commitment_coherent (inj : Set.InjOn (inodeForOp env) ids)
    (decodes : ∀ object, env.decodeObject (env.encodeObject object) = some object)
    (run : NodeRun env identity (EachCall env identity (Timely env ids)) s)
    (apart : SnapshotsApart env s) (bound : (inodeMap s).length < 2 ^ 64) :
    Coherent env s (computeStateRoot env s) := by
  obtain ⟨orderly, committed⟩ := run.committed inj
  exact coherent_of_committed committed orderly.stored run.keyed decodes apart bound

private theorem timely_receive {op : FsOp} (member : op.id ∈ ids)
    (returns : ((applyAttempts env op true s).all fun x => returned (attempt env x.2 x.1)) = true) :
    EachCall env identity (Timely env ids) s (.receive op) := by
  intro x here
  obtain rfl := List.mem_singleton.mp here
  exact ⟨member, fun y tried poisoned => absurd poisoned (clean_of_returned returns y tried)⟩

def childFirst : CoreState :=
  (Act.receive (sampleOp 1 (.mkdir rootInode "a" 0))).run .stored sampleIdentity
    ((Act.receive (sampleOp 2 (.mkdir sampleParent "b" 0))).run .stored sampleIdentity
      (booted .stored (CoreState.new 7)))

theorem commitment_coherent_sample :
    (inodeMap childFirst).length = 3 ∧
      Coherent .stored childFirst (computeStateRoot .stored childFirst) := by
  have start : NodeRun .stored sampleIdentity
      (EachCall .stored sampleIdentity (Timely .stored sampleIds))
      (booted .stored (CoreState.new 7)) := .boot (blank_new 7) rfl rfl
  have run := (start.step (a := .receive (sampleOp 2 (.mkdir sampleParent "b" 0)))
    (timely_receive (Or.inr rfl) (by decide +kernel))).step
    (a := .receive (sampleOp 1 (.mkdir rootInode "a" 0)))
    (timely_receive (Or.inl rfl) (by decide +kernel))
  have length : (inodeMap childFirst).length = 3 := by decide +kernel
  have timeless : childFirst.state_time = 0 := by decide +kernel
  have rows : ∀ row ∈ childFirst.blobs.toList,
      Env.stored.blake3 row.2 = objectHash .stored
        (newSnapshotRoot (computeStateRoot .stored childFirst) childFirst.device_id 0) →
      row.2 = encodeObject .stored
        (newSnapshotRoot (computeStateRoot .stored childFirst) childFirst.device_id 0) := by
    decide +kernel
  refine ⟨length,
    @commitment_coherent .stored sampleIdentity sampleIds _ sampleIds_injOn Env.stored_decode run ?_ ?_⟩
  · intro time early hash bytes here collides
    rw [timeless] at early
    obtain rfl : time = 0 := le_antisymm early (Fin.zero_le _)
    exact rows (hash, bytes) ((childFirst.blobs.mem_toList hash bytes).mpr here) collides
  · rw [length]
    decide

/-- A parked write to the inode that the sample parent becomes; then the parent, whose creation
takes effect before the retried write is refused. -/
def failedCall : CoreState :=
  (Act.receive (sampleOp 1 (.mkdir rootInode "a" 0))).run .plain sampleIdentity
    ((Act.receive poisonWrite).run .plain sampleIdentity (booted .plain (CoreState.new 7)))

/-- A failed call changes the map and leaves the root of the map before it. -/
theorem failed_call_leaves_root :
    AnyRun .plain sampleIdentity failedCall ∧ failedCall.imap.contains sampleParent = true ∧
      ∀ root, ¬Coherent .plain failedCall root := by
  refine ⟨.step (.step (.boot (blank_new 7) rfl rfl) trivial) trivial, by decide +kernel, ?_⟩
  intro root coherent
  have stale : failedCall.state_root ≠ some (computeStateRoot .plain failedCall) := by
    decide +kernel
  exact stale (coherent.commits ▸ coherent.stored)

end Coherent

end NexusFS.Net
