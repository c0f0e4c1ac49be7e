/- GID: NexusFS/Core/Commitment
   source: crates/core/src/snapshot.rs, crates/zk/src/merkle.rs
   digest: The state root binds the inode map, and calls that return leave it current. -/

import NexusFS.Core.Reachable
import NexusFS.Zk.MerkleSound

set_option autoImplicit false
set_option relaxedAutoImplicit false

namespace NexusFS.Core

open NexusFS.Lib NexusFS.Lib.Effect NexusFS.Proto NexusFS.Crdt CoreState Zk.Merkle

section Binding

variable (env : Env)

/-- Entry lists with equal commitments are equal, whatever their lengths, so replicas with equal
state roots have equal inode maps. -/
theorem commitment_binding :
    (∀ xs ys : List (U128 × Hash),
      CollisionFree env.blake3 (commitMessages env.blake3 xs ++ commitMessages env.blake3 ys) →
      commit env.blake3 xs = commit env.blake3 ys → xs = ys) ∧
    ∀ s t : CoreState,
      CollisionFree env.blake3
        (commitMessages env.blake3 (inodeMap s) ++ commitMessages env.blake3 (inodeMap t)) →
      computeStateRoot env s = computeStateRoot env t → s.imap = t.imap := by
  refine ⟨fun xs ys free same => commit_injective free same, fun s t free same => ?_⟩
  exact Std.ExtTreeMap.toList_inj.mp (commit_injective free same)

end Binding

def sampleSwapped : CoreState :=
  sampleFirst.run .plain (sampleSecond.run .plain (booted .plain (CoreState.new 9)))

theorem commitment_binding_sample : sampleState.imap = sampleSwapped.imap :=
  (commitment_binding .plain).2 sampleState sampleSwapped (by decide +kernel) (by decide +kernel)

end NexusFS.Core
