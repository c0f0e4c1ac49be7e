/- GID: NexusFS/Zk/MerkleTree
   source: crates/zk/src/merkle.rs
   digest: The commitment is the hash of one tree over the entries, and paths descend that tree. -/

import NexusFS.Zk.Merkle
import Mathlib.Data.List.Induction

/-!
The source folds lists of digests. Behind every digest stands a tree whose leaves
are the entries in order; the lemmas here connect the two and say which byte
strings are hashed on the way, so that collision freedom is only ever assumed of
those strings.
-/

set_option autoImplicit false
set_option relaxedAutoImplicit false

namespace NexusFS.Zk.Merkle

open NexusFS.Lib NexusFS.Lib.BinTree NexusFS.Proto

theorem leafPreimage_injective {i j : U128} {v w : Hash}
    (same : leafPreimage i v = leafPreimage j w) : i = j ∧ v = w := by
  simp only [leafPreimage, List.cons.injEq, List.append_cancel_left_eq, true_and] at same
  obtain ⟨inode, value⟩ := beBytes_append_inj same
  exact ⟨be128_injective inode, be256_injective value⟩

theorem nodePreimage_injective {a b c d : Hash}
    (same : nodePreimage a b = nodePreimage c d) : a = c ∧ b = d := by
  simp only [nodePreimage, List.cons.injEq, List.append_cancel_left_eq, true_and] at same
  obtain ⟨left, right⟩ := beBytes_append_inj same
  exact ⟨be256_injective left, be256_injective right⟩

theorem leafPreimage_ne_nodePreimage (i : U128) (v a b : Hash) :
    leafPreimage i v ≠ nodePreimage a b := by
  simp [leafPreimage, nodePreimage, leafTag, nodeTag]

theorem emptyPreimage_ne_leafPreimage (i : U128) (v : Hash) :
    emptyPreimage ≠ leafPreimage i v := by
  simp [emptyPreimage, domain, leafPreimage, leafTag]

theorem emptyPreimage_ne_nodePreimage (a b : Hash) : emptyPreimage ≠ nodePreimage a b := by
  simp [emptyPreimage, domain, nodePreimage, nodeTag]

abbrev EntryTree := BinTree (U128 × Hash)

section Trees

variable (blake3 : Bytes → Hash)

def CollisionFree (messages : List Bytes) : Prop :=
  ∀ a ∈ messages, ∀ b ∈ messages, blake3 a = blake3 b → a = b

instance (messages : List Bytes) : Decidable (CollisionFree blake3 messages) :=
  inferInstanceAs (Decidable (∀ a ∈ messages, ∀ b ∈ messages, blake3 a = blake3 b → a = b))

def treeHash : EntryTree → Hash
  | .leaf e => leafHash blake3 e.1 e.2
  | .node left right => nodeHash blake3 (treeHash left) (treeHash right)

def treePreimage : EntryTree → Bytes
  | .leaf e => leafPreimage e.1 e.2
  | .node left right => nodePreimage (treeHash blake3 left) (treeHash blake3 right)

def treeMessages : EntryTree → List Bytes
  | .leaf e => [leafPreimage e.1 e.2]
  | .node left right =>
      nodePreimage (treeHash blake3 left) (treeHash blake3 right) ::
        (treeMessages left ++ treeMessages right)

theorem treeHash_eq (t : EntryTree) : treeHash blake3 t = blake3 (treePreimage blake3 t) := by
  cases t <;> rfl

theorem treePreimage_mem (t : EntryTree) : treePreimage blake3 t ∈ treeMessages blake3 t := by
  cases t <;> simp [treePreimage, treeMessages]

def foldMessages : List Hash → List Bytes
  | a :: b :: rest => nodePreimage a b :: foldMessages rest
  | [_] => []
  | [] => []

def climbMessages : Nat → List Hash → List Bytes
  | 0, _ => []
  | fuel + 1, level =>
      if 1 < level.length then foldMessages level ++ climbMessages fuel (fold blake3 level) else []

def commitMessages (entries : List (U128 × Hash)) : List Bytes :=
  if entries.isEmpty then [emptyPreimage]
  else
    entries.map (fun e => leafPreimage e.1 e.2) ++
      climbMessages blake3 entries.length (leafLevel blake3 entries)

def stepPreimage (running : Hash) (step : PathStep) : Bytes :=
  if step.sibling_is_left then nodePreimage step.sibling running
  else nodePreimage running step.sibling

def pathMessages : Hash → List PathStep → List Bytes
  | _, [] => []
  | running, step :: rest =>
      stepPreimage running step :: pathMessages (climbStep blake3 running step) rest

/-- Every string `compute_root` hashes. -/
def proofMessages (p : InclusionProof) : List Bytes :=
  leafPreimage p.inode p.value :: pathMessages blake3 (leafHash blake3 p.inode p.value) p.steps

variable {blake3}

theorem climbStep_eq (running : Hash) (step : PathStep) :
    climbStep blake3 running step = blake3 (stepPreimage running step) := by
  unfold climbStep stepPreimage
  split <;> rfl

theorem pathMessages_append (running : Hash) (s t : List PathStep) :
    pathMessages blake3 running (s ++ t) =
      pathMessages blake3 running s ++
        pathMessages blake3 (s.foldl (climbStep blake3) running) t := by
  induction s generalizing running with
  | nil => rfl
  | cons step s ih => simp [pathMessages, ih]

theorem CollisionFree.mono {small large : List Bytes} (free : CollisionFree blake3 large)
    (sub : small ⊆ large) : CollisionFree blake3 small :=
  fun a ha b hb same => free a (sub ha) b (sub hb) same

private theorem pairUp_messages (ts : List EntryTree) :
    (pairUp BinTree.node ts).flatMap (treeMessages blake3) ⊆
      foldMessages (ts.map (treeHash blake3)) ++ ts.flatMap (treeMessages blake3) := by
  induction ts using pairUp.induct with
  | case1 => simp [pairUp]
  | case2 t => simp [pairUp]
  | case3 a b rest ih =>
      intro m member
      simp only [pairUp, List.flatMap_cons, List.mem_append, treeMessages, List.mem_cons] at member
      rcases member with (rfl | ha | hb) | later
      · simp [foldMessages]
      · simp [ha]
      · simp [hb]
      · have := ih later
        simp only [List.mem_append] at this
        rcases this with here | there
        · simp [foldMessages, here]
        · simp only [List.map_cons, List.flatMap_cons, List.mem_append]
          exact .inr (.inr (.inr there))

private theorem climb_messages (fuel : Nat) (ts : List EntryTree) :
    (climb BinTree.node fuel ts).flatMap (treeMessages blake3) ⊆
      climbMessages blake3 fuel (ts.map (treeHash blake3)) ++
        ts.flatMap (treeMessages blake3) := by
  induction fuel generalizing ts with
  | zero => simp [climb, climbMessages]
  | succ fuel ih =>
      simp only [climb, climbMessages, List.length_map]
      split
      · intro m member
        have next : fold blake3 (ts.map (treeHash blake3)) =
            (pairUp BinTree.node ts).map (treeHash blake3) :=
          pairUp_map (treeHash blake3) (fun _ _ => rfl) ts
        have := ih (pairUp BinTree.node ts) member
        rw [← next, List.mem_append] at this
        rcases this with later | below
        · simp [later]
        · have := pairUp_messages ts below
          simp only [List.mem_append] at this ⊢
          tauto
      · simp

/-- A nonempty map commits to one tree: its leaves are the entries in order, its digest is the
commitment, and hashing it uses only the strings of `commit`. -/
theorem commit_tree (entries : List (U128 × Hash)) (nonempty : entries ≠ []) :
    ∃ t : EntryTree, t.leaves = entries ∧ commit blake3 entries = treeHash blake3 t ∧
      treeMessages blake3 t ⊆ commitMessages blake3 entries := by
  have start : entries.map BinTree.leaf ≠ [] := by simpa using nonempty
  obtain ⟨t, top⟩ := climb_singleton BinTree.node entries.length (entries.map BinTree.leaf)
    start (by simp)
  have level : leafLevel blake3 entries = (entries.map BinTree.leaf).map (treeHash blake3) := by
    simp [leafLevel, Function.comp_def, treeHash]
  refine ⟨t, ?_, ?_, ?_⟩
  · have kept := climb_leaves entries.length (entries.map BinTree.leaf)
    rw [top] at kept
    simpa [List.flatMap_map, BinTree.leaves] using kept
  · have image : climb (nodeHash blake3) entries.length
        ((entries.map BinTree.leaf).map (treeHash blake3)) =
          (climb BinTree.node entries.length (entries.map BinTree.leaf)).map (treeHash blake3) :=
      climb_map (treeHash blake3) (fun _ _ => rfl) _ _
    rw [top, ← level] at image
    simp [commit, nonempty, image]
  · intro m member
    have hashed : m ∈ climbMessages blake3 entries.length
        ((entries.map BinTree.leaf).map (treeHash blake3)) ++
          (entries.map BinTree.leaf).flatMap (treeMessages blake3) :=
      climb_messages _ _ (by simpa [top] using member)
    rw [← level] at hashed
    simp only [commitMessages, List.isEmpty_iff, nonempty, if_false, List.mem_append,
      List.flatMap_map, List.mem_flatMap, treeMessages, List.mem_singleton] at hashed ⊢
    rcases hashed with climbing | ⟨e, he, rfl⟩
    · exact .inr climbing
    · exact .inl (List.mem_map_of_mem he)

theorem treeHash_injective {s t : EntryTree}
    (free : CollisionFree blake3 (treeMessages blake3 s ++ treeMessages blake3 t))
    (same : treeHash blake3 s = treeHash blake3 t) : s = t := by
  induction s generalizing t with
  | leaf e =>
      have pre := free _ (List.mem_append_left _ (treePreimage_mem blake3 _)) _
        (List.mem_append_right _ (treePreimage_mem blake3 _))
        ((treeHash_eq blake3 _).symm.trans (same.trans (treeHash_eq blake3 _)))
      cases t with
      | leaf f =>
          obtain ⟨inode, value⟩ := leafPreimage_injective pre
          rw [Prod.ext inode value]
      | node c d => exact absurd pre (leafPreimage_ne_nodePreimage _ _ _ _)
  | node a b iha ihb =>
      have pre := free _ (List.mem_append_left _ (treePreimage_mem blake3 _)) _
        (List.mem_append_right _ (treePreimage_mem blake3 _))
        ((treeHash_eq blake3 _).symm.trans (same.trans (treeHash_eq blake3 _)))
      cases t with
      | leaf f => exact absurd pre.symm (leafPreimage_ne_nodePreimage _ _ _ _)
      | node c d =>
          obtain ⟨left, right⟩ := nodePreimage_injective pre
          have freeLeft : CollisionFree blake3
              (treeMessages blake3 a ++ treeMessages blake3 c) :=
            free.mono (by
              intro m hm
              simp only [treeMessages, List.mem_append, List.mem_cons] at hm ⊢
              tauto)
          have freeRight : CollisionFree blake3
              (treeMessages blake3 b ++ treeMessages blake3 d) :=
            free.mono (by
              intro m hm
              simp only [treeMessages, List.mem_append, List.mem_cons] at hm ⊢
              tauto)
          rw [iha freeLeft left, ihb freeRight right]

theorem descend_of_path {t : EntryTree} {inode : U128} {value : Hash} (steps : List PathStep)
    (free : CollisionFree blake3 (treeMessages blake3 t ++
      leafPreimage inode value :: pathMessages blake3 (leafHash blake3 inode value) steps))
    (reach : steps.foldl (climbStep blake3) (leafHash blake3 inode value) = treeHash blake3 t) :
    t.descend (steps.map PathStep.sibling_is_left).reverse = some (.leaf (inode, value)) := by
  induction steps using List.reverseRecOn generalizing t with
  | nil =>
      have pre : leafPreimage inode value = treePreimage blake3 t :=
        free _ (by simp) _ (List.mem_append_left _ (treePreimage_mem blake3 t))
          (reach.trans (treeHash_eq blake3 t))
      cases t with
      | leaf e =>
          obtain ⟨rfl, rfl⟩ := leafPreimage_injective pre
          rfl
      | node a b => exact absurd pre (leafPreimage_ne_nodePreimage _ _ _ _)
  | append_singleton init step ih =>
      rw [List.foldl_append, List.foldl_cons, List.foldl_nil, climbStep_eq] at reach
      rw [pathMessages_append] at free
      have pre : stepPreimage (init.foldl (climbStep blake3) (leafHash blake3 inode value)) step =
          treePreimage blake3 t :=
        free _ (by simp [pathMessages]) _ (List.mem_append_left _ (treePreimage_mem blake3 t))
          (reach.trans (treeHash_eq blake3 t))
      cases t with
      | leaf e =>
          unfold stepPreimage at pre
          split at pre <;> exact absurd pre.symm (leafPreimage_ne_nodePreimage _ _ _ _)
      | node a b =>
          have freeLeft : CollisionFree blake3 (treeMessages blake3 a ++
              leafPreimage inode value ::
                pathMessages blake3 (leafHash blake3 inode value) init) :=
            free.mono (by
              intro m hm
              simp only [treeMessages, List.mem_append, List.mem_cons] at hm ⊢
              tauto)
          have freeRight : CollisionFree blake3 (treeMessages blake3 b ++
              leafPreimage inode value ::
                pathMessages blake3 (leafHash blake3 inode value) init) :=
            free.mono (by
              intro m hm
              simp only [treeMessages, List.mem_append, List.mem_cons] at hm ⊢
              tauto)
          unfold stepPreimage at pre
          cases side : step.sibling_is_left with
          | true =>
              rw [side, if_pos rfl] at pre
              obtain ⟨_, right⟩ := nodePreimage_injective pre
              simpa [BinTree.descend, side] using ih freeRight right
          | false =>
              simp only [side, Bool.false_eq_true, if_false] at pre
              obtain ⟨left, _⟩ := nodePreimage_injective pre
              simpa [BinTree.descend, side] using ih freeLeft left

end Trees

end NexusFS.Zk.Merkle
