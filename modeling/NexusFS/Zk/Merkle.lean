/- GID: NexusFS/Zk/Merkle
   source: crates/zk/src/merkle.rs
   digest: The inode-map commitment, inclusion proofs, absence proofs and their checkers. -/

import NexusFS.Lib.BinTree
import NexusFS.Proto.Types

/-!
BLAKE3 is a third-party function and stays a parameter. Everything else follows
the source: the tagged preimages, the level-by-level fold that promotes a lone
trailing node, the path a proof records, and every refusal of the two checkers.
-/

set_option autoImplicit false
set_option relaxedAutoImplicit false

namespace NexusFS.Zk.Merkle

open NexusFS.Lib NexusFS.Lib.BinTree NexusFS.Proto

def leafTag : UInt8 := 0x00

def nodeTag : UInt8 := 0x01

def domain : Bytes :=
  [110, 101, 120, 117, 115, 102, 115, 47, 105, 110, 111, 100, 101, 45, 109, 101, 114, 107, 108,
    101, 47, 118, 49]

def emptyLabel : Bytes := [101, 109, 112, 116, 121]

def emptyPreimage : Bytes := domain ++ emptyLabel

def leafPreimage (inode : U128) (value : Hash) : Bytes :=
  leafTag :: (domain ++ (be128 inode ++ be256 value))

def nodePreimage (left right : Hash) : Bytes :=
  nodeTag :: (domain ++ (be256 left ++ be256 right))

/-- One step up the tree: a sibling and which side it sits on. -/
structure PathStep where
  sibling : Hash
  sibling_is_left : Bool
  deriving DecidableEq

/-- Everything needed to check that one entry is in a committed map. -/
structure InclusionProof where
  inode : U128
  value : Hash
  steps : List PathStep
  deriving DecidableEq

/-- A neighbour in an absence proof: an inclusion proof plus where it sits. -/
structure Neighbour where
  index : Nat
  proof : InclusionProof
  deriving DecidableEq

/-- Evidence that an inode is not in a committed map. The length is the prover's claim. -/
structure AbsenceProof where
  inode : U128
  len : Nat
  left : Option Neighbour
  right : Option Neighbour
  deriving DecidableEq

/-- The refusals of `check`, `check_neighbour` and `check_absent`, with what they report. -/
inductive CheckError where
  | tooManySteps (steps : Nat)
  | rootMismatch (computed root : Hash)
  | indexOutside (index len : Nat)
  | wrongShape (index len : Nat)
  | notTheEmptyRoot
  | notBracketing (inode : U128)
  | notAdjacent
  | notBelow (inode : U128)
  | notTheLast
  | notAbove (inode : U128)
  | notTheFirst
  | noNeighbour
  deriving DecidableEq

section Commitment

variable (blake3 : Bytes → Hash)

def emptyRoot : Hash := blake3 emptyPreimage

def leafHash (inode : U128) (value : Hash) : Hash := blake3 (leafPreimage inode value)

def nodeHash (left right : Hash) : Hash := blake3 (nodePreimage left right)

def fold (level : List Hash) : List Hash := pairUp (nodeHash blake3) level

def leafLevel (entries : List (U128 × Hash)) : List Hash :=
  entries.map fun e => leafHash blake3 e.1 e.2

def commit (entries : List (U128 × Hash)) : Hash :=
  if entries.isEmpty then emptyRoot blake3
  else
    match climb (nodeHash blake3) entries.length (leafLevel blake3 entries) with
    | top :: _ => top
    | [] => emptyRoot blake3

def siblingStep (level : List Hash) (position : Nat) : Option PathStep :=
  if position % 2 = 0 then level[position + 1]?.map fun h => ⟨h, false⟩
  else level[position - 1]?.map fun h => ⟨h, true⟩

def proveSteps : Nat → List Hash → Nat → List PathStep
  | 0, _, _ => []
  | fuel + 1, level, position =>
      if 1 < level.length then
        (siblingStep level position).toList ++ proveSteps fuel (fold blake3 level) (position / 2)
      else []

def prove (entries : List (U128 × Hash)) (inode : U128) : Option InclusionProof := do
  let index ← entries.findIdx? fun e => e.1 == inode
  let entry ← entries[index]?
  return ⟨inode, entry.2, proveSteps blake3 entries.length (leafLevel blake3 entries) index⟩

def climbStep (running : Hash) (step : PathStep) : Hash :=
  if step.sibling_is_left then nodeHash blake3 step.sibling running
  else nodeHash blake3 running step.sibling

def InclusionProof.computeRoot (p : InclusionProof) : Hash :=
  p.steps.foldl (climbStep blake3) (leafHash blake3 p.inode p.value)

def InclusionProof.verify (p : InclusionProof) (root : Hash) : Bool :=
  p.computeRoot blake3 == root

def maxSteps : Nat := 64

def check (p : InclusionProof) (root : Hash) : Except CheckError Unit :=
  if p.steps.length > maxSteps then throw (.tooManySteps p.steps.length)
  else
    let computed := p.computeRoot blake3
    if computed ≠ root then throw (.rootMismatch computed root) else pure ()

/-- The loop of `expected_shape`: `n` nodes in the level and the node's position in it. -/
def shapeLoop : Nat → Nat → Nat → List Bool
  | 0, _, _ => []
  | fuel + 1, n, pos =>
      if 1 < n then
        (if pos % 2 = 1 then [true] else if pos + 1 < n then [false] else []) ++
          shapeLoop fuel ((n + 1) / 2) (pos / 2)
      else []

def expectedShape (len index : Nat) : Option (List Bool) :=
  if len ≤ index then none else some (shapeLoop len len index)

def InclusionProof.sides (p : InclusionProof) : List Bool :=
  p.steps.map PathStep.sibling_is_left

def proveAbsent (entries : List (U128 × Hash)) (inode : U128) : Option AbsenceProof :=
  if entries.any fun e => e.1 == inode then none
  else
    let below := (entries.zipIdx.reverse.find? fun e => e.1.1 < inode).map Prod.snd
    let above := entries.findIdx? fun e => inode < e.1
    let neighbour := fun index => do
      let entry ← entries[index]?
      let proof ← prove blake3 entries entry.1
      return (⟨index, proof⟩ : Neighbour)
    some ⟨inode, entries.length, below.bind neighbour, above.bind neighbour⟩

/-- Check one neighbour: its path must reach the root and match the position claimed. -/
def checkNeighbour (n : Neighbour) (root : Hash) (len : Nat) : Except CheckError Unit := do
  check blake3 n.proof root
  match expectedShape len n.index with
  | none => throw (.indexOutside n.index len)
  | some expected =>
      if expected ≠ n.proof.sides then throw (.wrongShape n.index len) else pure ()

def checkAbsent (p : AbsenceProof) (root : Hash) : Except CheckError Unit :=
  if p.len = 0 then
    if root ≠ emptyRoot blake3 then throw .notTheEmptyRoot else pure ()
  else
    match p.left, p.right with
    | some left, some right => do
        checkNeighbour blake3 left root p.len
        checkNeighbour blake3 right root p.len
        if ¬(left.proof.inode < p.inode ∧ p.inode < right.proof.inode) then
          throw (.notBracketing p.inode)
        else if right.index ≠ left.index + 1 then throw .notAdjacent
        else pure ()
    | some left, none => do
        checkNeighbour blake3 left root p.len
        if p.inode ≤ left.proof.inode then throw (.notBelow p.inode)
        else if left.index + 1 ≠ p.len then throw .notTheLast
        else pure ()
    | none, some right => do
        checkNeighbour blake3 right root p.len
        if right.proof.inode ≤ p.inode then throw (.notAbove p.inode)
        else if right.index ≠ 0 then throw .notTheFirst
        else pure ()
    | none, none => throw .noNeighbour

def levelsOf : Nat → List Hash → List (List Hash)
  | 0, level => [level]
  | fuel + 1, level =>
      if 1 < level.length then level :: levelsOf fuel (fold blake3 level) else [level]

def stepsThrough : List (List Hash) → Nat → List PathStep
  | [], _ => []
  | level :: rest, position =>
      (siblingStep level position).toList ++ stepsThrough rest (position / 2)

def proveMany (entries : List (U128 × Hash)) (inodes : List U128) : List InclusionProof :=
  if entries.isEmpty || inodes.isEmpty then []
  else
    let levels := levelsOf blake3 entries.length (leafLevel blake3 entries)
    inodes.filterMap fun inode => do
      let index ← entries.findIdx? fun e => e.1 == inode
      let entry ← entries[index]?
      return ⟨inode, entry.2, stepsThrough levels.dropLast index⟩

end Commitment

end NexusFS.Zk.Merkle
