/- GID: NexusFS/Zk/MerkleBatch
   source: crates/zk/src/merkle.rs
   digest: Proofs read off the stored levels are the proofs built one at a time. -/

import NexusFS.Zk.MerkleSound

set_option autoImplicit false
set_option relaxedAutoImplicit false

namespace NexusFS.Zk.Merkle

open NexusFS.Lib NexusFS.Lib.BinTree NexusFS.Proto

section Batch

variable {blake3 : Bytes → Hash}

theorem levelsOf_ne_nil (fuel : Nat) (level : List Hash) : levelsOf blake3 fuel level ≠ [] := by
  cases fuel with
  | zero => exact List.cons_ne_nil _ _
  | succ fuel =>
      unfold levelsOf
      split <;> exact List.cons_ne_nil _ _

theorem stepsThrough_levelsOf (fuel : Nat) (level : List Hash) (position : Nat) :
    stepsThrough (levelsOf blake3 fuel level).dropLast position =
      proveSteps blake3 fuel level position := by
  induction fuel generalizing level position with
  | zero => rfl
  | succ fuel ih =>
      simp only [levelsOf, proveSteps]
      split
      · rw [List.dropLast_cons_of_ne_nil (levelsOf_ne_nil fuel _), stepsThrough, ih]
      · rfl

/-- A batch holds the single proof of each inode that is present, in the order asked and as often. -/
theorem batch_eq_single (blake3 : Bytes → Hash) (entries : List (U128 × Hash))
    (inodes : List U128) :
    proveMany blake3 entries inodes = inodes.filterMap (prove blake3 entries) := by
  have missed : entries = [] → ∀ inode, prove blake3 entries inode = none := by
    rintro rfl inode
    rfl
  unfold proveMany
  split
  · rename_i empty
    rcases Bool.or_eq_true_iff.mp empty with none_stored | none_asked
    · have absent := missed (List.isEmpty_iff.mp none_stored)
      exact (List.filterMap_eq_nil_iff.mpr fun inode _ => absent inode).symm
    · rw [List.isEmpty_iff.mp none_asked, List.filterMap_nil]
  · refine List.filterMap_congr fun inode _ => ?_
    simp only [stepsThrough_levelsOf]
    rfl

/-- Duplicates are answered twice and absentees not at all. -/
example : (proveMany Lib.blake3 sampleEntries [9, 4, 2, 9]).map InclusionProof.inode = [9, 2, 9] := by
  decide +kernel

end Batch

end NexusFS.Zk.Merkle
