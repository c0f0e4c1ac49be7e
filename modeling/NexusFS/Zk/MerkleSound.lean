/- GID: NexusFS/Zk/MerkleSound
   source: crates/zk/src/merkle.rs
   digest: Binding, completeness and soundness of the inode-map commitment and its proofs. -/

import NexusFS.Lib.Blake3
import NexusFS.Lib.Effect
import NexusFS.Zk.MerkleTree

set_option autoImplicit false
set_option relaxedAutoImplicit false

namespace NexusFS.Zk.Merkle

open NexusFS.Lib NexusFS.Lib.BinTree NexusFS.Lib.Effect NexusFS.Proto

variable {blake3 : Bytes → Hash}

/-! ### What the checkers accept -/

theorem check_eq_ok (p : InclusionProof) (root : Hash) :
    check blake3 p root = .ok () ↔
      p.steps.length ≤ maxSteps ∧ p.computeRoot blake3 = root := by
  by_cases long : p.steps.length > maxSteps
  · simp [check, long, throw, throwThe, MonadExceptOf.throw]
  · have short : p.steps.length ≤ maxSteps := Nat.le_of_not_gt long
    by_cases same : p.computeRoot blake3 = root
    · simp [check, long, short, same, pure, Except.pure]
    · simp [check, long, same, throw, throwThe, MonadExceptOf.throw]

theorem checkNeighbour_eq_ok (n : Neighbour) (root : Hash) (len : Nat) :
    checkNeighbour blake3 n root len = .ok () ↔
      check blake3 n.proof root = .ok () ∧ n.index < len ∧
        shapeLoop len len n.index = n.proof.sides := by
  unfold checkNeighbour
  cases accepted : check blake3 n.proof root with
  | error e => simp [bind, Except.bind]
  | ok u =>
      cases u
      by_cases outside : len ≤ n.index
      · simp [expectedShape, outside, bind, Except.bind, throw, throwThe, MonadExceptOf.throw]
      · have inside : n.index < len := Nat.lt_of_not_le outside
        by_cases shape : shapeLoop len len n.index = n.proof.sides
        · simp [expectedShape, outside, inside, shape, bind, Except.bind, pure, Except.pure]
        · simp [expectedShape, outside, shape, bind, Except.bind, throw, throwThe,
            MonadExceptOf.throw]

/-! ### Binding -/

theorem eq_nil_of_commit_eq_emptyRoot {entries : List (U128 × Hash)}
    (free : CollisionFree blake3 (emptyPreimage :: commitMessages blake3 entries))
    (same : commit blake3 entries = emptyRoot blake3) : entries = [] := by
  by_contra nonempty
  obtain ⟨t, -, root, sub⟩ := @commit_tree blake3 entries nonempty
  have pre : emptyPreimage = treePreimage blake3 t :=
    free _ (by simp) _ (List.mem_cons_of_mem _ (sub (treePreimage_mem blake3 t)))
      (same.symm.trans (root.trans (treeHash_eq blake3 t)))
  cases t with
  | leaf e => exact emptyPreimage_ne_leafPreimage _ _ pre
  | node a b => exact emptyPreimage_ne_nodePreimage _ _ pre

theorem commit_injective {xs ys : List (U128 × Hash)}
    (free : CollisionFree blake3 (commitMessages blake3 xs ++ commitMessages blake3 ys))
    (same : commit blake3 xs = commit blake3 ys) : xs = ys := by
  by_cases hx : xs = []
  · subst hx
    refine (eq_nil_of_commit_eq_emptyRoot (free.mono ?_) same.symm).symm
    intro m member
    rcases List.mem_cons.mp member with rfl | later
    · simp [commitMessages]
    · exact List.mem_append_right _ later
  by_cases hy : ys = []
  · subst hy
    refine eq_nil_of_commit_eq_emptyRoot (free.mono ?_) same
    intro m member
    rcases List.mem_cons.mp member with rfl | later
    · simp [commitMessages]
    · exact List.mem_append_left _ later
  obtain ⟨s, leavesX, rootX, subX⟩ := @commit_tree blake3 xs hx
  obtain ⟨t, leavesY, rootY, subY⟩ := @commit_tree blake3 ys hy
  have trees : s = t := by
    apply treeHash_injective (free.mono _) (rootX.symm.trans (same.trans rootY))
    intro m member
    rcases List.mem_append.mp member with left | right
    · exact List.mem_append_left _ (subX left)
    · exact List.mem_append_right _ (subY right)
  rw [← leavesX, ← leavesY, trees]

/-! ### Inclusion -/

private theorem fold_getElem? {level : List Hash} {position : Nat} {running : Hash}
    (here : level[position]? = some running) :
    (fold blake3 level)[position / 2]? =
      some ((siblingStep level position).toList.foldl (climbStep blake3) running) := by
  unfold fold
  rw [pairUp_getElem?]
  by_cases even : position % 2 = 0
  · have back : 2 * (position / 2) = position := by omega
    rw [back, here]
    cases sibling : level[position + 1]? with
    | none => simp [siblingStep, even, sibling]
    | some h => simp [siblingStep, even, sibling, climbStep]
  · have back : 2 * (position / 2) = position - 1 := by omega
    have forth : position - 1 + 1 = position := by omega
    have before : position - 1 < level.length := by
      have := (List.getElem?_eq_some_iff.mp here).1
      omega
    rw [back, forth, here, List.getElem?_eq_getElem before]
    simp [siblingStep, even, List.getElem?_eq_getElem before, climbStep]

/-- The steps `prove` records lead from a node of a level to the top of the climb. -/
private theorem proveSteps_reach (fuel : Nat) {level : List Hash} {position : Nat}
    {running top : Hash} (here : level[position]? = some running)
    (climbed : climb (nodeHash blake3) fuel level = [top]) :
    (proveSteps blake3 fuel level position).foldl (climbStep blake3) running = top := by
  induction fuel generalizing level position running with
  | zero =>
      have first : level = [top] := climbed
      subst first
      have zero : position = 0 := by
        have := (List.getElem?_eq_some_iff.mp here).1
        simpa using this
      subst zero
      simpa [proveSteps] using here.symm
  | succ fuel ih =>
      simp only [climb] at climbed
      simp only [proveSteps]
      split
      · rename_i long
        rw [if_pos long] at climbed
        rw [List.foldl_append]
        exact ih (fold_getElem? here) climbed
      · rename_i short
        rw [if_neg short] at climbed
        subst climbed
        have zero : position = 0 := by
          have := (List.getElem?_eq_some_iff.mp here).1
          simpa using this
        subst zero
        simpa using here.symm

/-- A level of at most `2 ^ k` nodes needs at most `k` steps. -/
private theorem proveSteps_length (fuel k : Nat) {level : List Hash} {position : Nat}
    (small : level.length ≤ 2 ^ k) :
    (proveSteps blake3 fuel level position).length ≤ k := by
  induction fuel generalizing k level position with
  | zero => simp [proveSteps]
  | succ fuel ih =>
      simp only [proveSteps]
      split
      · rename_i long
        cases k with
        | zero => simp only [pow_zero] at small; omega
        | succ k =>
            have half : (fold blake3 level).length ≤ 2 ^ k := by
              have := pairUp_length (nodeHash blake3) level
              rw [pow_succ] at small
              unfold fold
              omega
            have one : (siblingStep level position).toList.length ≤ 1 := by
              cases siblingStep level position <;> simp
            have rest : (proveSteps blake3 fuel (fold blake3 level) (position / 2)).length ≤ k :=
              ih k half
            rw [List.length_append]
            omega
      · simp

theorem eq_of_mem_of_inode_eq {entries : List (U128 × Hash)} {d e : U128 × Hash}
    (sorted : entries.Pairwise fun a b => a.1 < b.1) (hd : d ∈ entries) (he : e ∈ entries)
    (same : d.1 = e.1) : d = e := by
  induction entries with
  | nil => simp at hd
  | cons x rest ih =>
      obtain ⟨head, tail⟩ := List.pairwise_cons.mp sorted
      rcases List.mem_cons.mp hd with hd | hd <;> rcases List.mem_cons.mp he with he | he
      · rw [hd, he]
      · rw [hd] at same
        exact absurd same (head e he).ne
      · rw [he] at same
        exact absurd same (head d hd).ne'
      · exact ih tail hd he

theorem prove_complete {entries : List (U128 × Hash)} {e : U128 × Hash}
    (sorted : entries.Pairwise fun a b => a.1 < b.1) (bound : entries.length < 2 ^ 64)
    (member : e ∈ entries) :
    ∃ p, prove blake3 entries e.1 = some p ∧ p.inode = e.1 ∧ p.value = e.2 ∧
      check blake3 p (commit blake3 entries) = .ok () := by
  have nonempty : entries ≠ [] := List.ne_nil_of_mem member
  obtain ⟨index, found⟩ : ∃ index, entries.findIdx? (fun x => x.1 == e.1) = some index := by
    rw [← Option.isSome_iff_exists, List.findIdx?_isSome]
    exact List.any_eq_true.mpr ⟨e, member, by simp⟩
  obtain ⟨inRange, isIt, -⟩ := List.findIdx?_eq_some_iff_getElem.mp found
  have entry : entries[index] = e :=
    eq_of_mem_of_inode_eq sorted (List.getElem_mem inRange) member (by simpa using isIt)
  have start : (leafLevel blake3 entries)[index]? = some (leafHash blake3 e.1 e.2) := by
    simp [leafLevel, List.getElem?_eq_getElem inRange, entry]
  obtain ⟨top, climbed⟩ := climb_singleton (nodeHash blake3) entries.length
    (leafLevel blake3 entries) (by simpa [leafLevel] using nonempty) (by simp [leafLevel])
  have root : commit blake3 entries = top := by
    simp [commit, nonempty, climbed]
  have short : (proveSteps blake3 entries.length (leafLevel blake3 entries) index).length ≤ 64 :=
    proveSteps_length _ 64 (by simp only [leafLevel, List.length_map]; omega)
  refine ⟨⟨e.1, e.2, proveSteps blake3 entries.length (leafLevel blake3 entries) index⟩,
    ?_, rfl, rfl, ?_⟩
  · simp [prove, found, List.getElem?_eq_getElem inRange, entry]
  · rw [check_eq_ok]
    exact ⟨short, (proveSteps_reach entries.length start climbed).trans root.symm⟩

private theorem computeRoot_preimage (p : InclusionProof) :
    ∃ m ∈ proofMessages blake3 p, p.computeRoot blake3 = blake3 m ∧ m ≠ emptyPreimage := by
  unfold InclusionProof.computeRoot proofMessages
  rcases List.eq_nil_or_concat p.steps with empty | ⟨init, step, last⟩
  · refine ⟨leafPreimage p.inode p.value, by simp, by simp [empty, leafHash], ?_⟩
    exact (emptyPreimage_ne_leafPreimage _ _).symm
  · refine ⟨stepPreimage (init.foldl (climbStep blake3) (leafHash blake3 p.inode p.value)) step,
      ?_, ?_, ?_⟩
    · simp [last, pathMessages_append, pathMessages]
    · simp [last, climbStep_eq]
    · unfold stepPreimage
      split <;> exact (emptyPreimage_ne_nodePreimage _ _).symm

theorem ne_nil_of_check {entries : List (U128 × Hash)} {p : InclusionProof}
    (free : CollisionFree blake3 (commitMessages blake3 entries ++ proofMessages blake3 p))
    (accepted : check blake3 p (commit blake3 entries) = .ok ()) : entries ≠ [] := by
  rintro rfl
  obtain ⟨m, member, hashed, different⟩ := @computeRoot_preimage blake3 p
  have reach := ((check_eq_ok p _).mp accepted).2
  exact different (free _ (List.mem_append_right _ member) _
    (List.mem_append_left _ (by simp [commitMessages])) (hashed.symm.trans reach))

theorem descend_of_check {entries : List (U128 × Hash)} {p : InclusionProof} {t : EntryTree}
    (root : commit blake3 entries = treeHash blake3 t)
    (sub : treeMessages blake3 t ⊆ commitMessages blake3 entries)
    (free : CollisionFree blake3 (commitMessages blake3 entries ++ proofMessages blake3 p))
    (accepted : check blake3 p (commit blake3 entries) = .ok ()) :
    t.descend p.sides.reverse = some (.leaf (p.inode, p.value)) := by
  have reach := ((check_eq_ok p _).mp accepted).2
  refine descend_of_path p.steps (free.mono ?_) (reach.trans root)
  intro m member
  rcases List.mem_append.mp member with inTree | onPath
  · exact List.mem_append_left _ (sub inTree)
  · exact List.mem_append_right _ onPath

/-- Inclusion proofs are complete for the entries of a sorted map and sound for arbitrary
steps: an accepted proof names an entry, and nothing is accepted against the empty root. -/
theorem inclusion_sound_complete (blake3 : Bytes → Hash) (entries : List (U128 × Hash))
    (sorted : entries.Pairwise fun a b => a.1 < b.1) (bound : entries.length < 2 ^ 64) :
    (∀ e ∈ entries, ∃ p, prove blake3 entries e.1 = some p ∧ p.inode = e.1 ∧ p.value = e.2 ∧
      check blake3 p (commit blake3 entries) = .ok ()) ∧
    (∀ p : InclusionProof,
      CollisionFree blake3 (commitMessages blake3 entries ++ proofMessages blake3 p) →
      check blake3 p (commit blake3 entries) = .ok () → (p.inode, p.value) ∈ entries) := by
  refine ⟨fun e member => prove_complete sorted bound member, ?_⟩
  intro p free accepted
  obtain ⟨t, leaves, root, sub⟩ :=
    @commit_tree blake3 entries (ne_nil_of_check free accepted)
  rw [← leaves]
  exact mem_leaves_of_descend (descend_of_check root sub free accepted)

/-- A map of three entries, so that the last leaf is promoted. -/
def sampleEntries : List (U128 × Hash) := [(2, 10), (5, 11), (9, 12)]

theorem inclusion_sound_complete_sample :
    ∃ p, prove Lib.blake3 sampleEntries 9 = some p ∧ p.steps.length = 1 ∧
      check Lib.blake3 p (commit Lib.blake3 sampleEntries) = .ok () ∧
      (p.inode, p.value) ∈ sampleEntries := by
  obtain ⟨complete, sound⟩ :=
    inclusion_sound_complete Lib.blake3 sampleEntries (by decide) (by decide)
  obtain ⟨p, proved, inode, value, accepted⟩ := complete (9, 12) (by decide)
  have same : p = ⟨9, 12,
      [⟨nodeHash Lib.blake3 (leafHash Lib.blake3 2 10) (leafHash Lib.blake3 5 11), true⟩]⟩ := by
    refine Option.some.inj (proved.symm.trans ?_)
    decide +kernel
  refine ⟨p, proved, by rw [same]; rfl, accepted, sound p ?_ accepted⟩
  rw [same]
  decide +kernel

/-! ### Absence -/

theorem shapeLoop_neighbours (fuel n i : Nat) (enough : n ≤ fuel) (inside : i + 1 < n) :
    Neighbours (shapeLoop fuel n i).reverse (shapeLoop fuel n (i + 1)).reverse := by
  induction fuel generalizing n i with
  | zero => omega
  | succ fuel ih =>
      have long : 1 < n := by omega
      simp only [shapeLoop, if_pos long]
      by_cases even : i % 2 = 0
      · have odd : (i + 1) % 2 = 1 := by omega
        have half : (i + 1) / 2 = i / 2 := by omega
        have right : ¬(i % 2 = 1) := by omega
        simp only [odd, half, right, inside, if_true, if_false]
        exact ⟨(shapeLoop fuel ((n + 1) / 2) (i / 2)).reverse, 0, 0, by simp, by simp⟩
      · have odd : i % 2 = 1 := by omega
        have next : ¬((i + 1) % 2 = 1) := by omega
        have half : (i + 1) / 2 = i / 2 + 1 := by omega
        obtain ⟨stem, a, b, hp, hq⟩ := ih ((n + 1) / 2) (i / 2) (by omega) (by omega)
        simp only [odd, next, half, if_true, if_false]
        by_cases last : i + 1 + 1 < n
        · refine ⟨stem, a + 1, b + 1, ?_, ?_⟩
          · simp [hp, List.replicate_succ']
          · simp [last, hq, List.replicate_succ']
        · refine ⟨stem, a + 1, b, ?_, ?_⟩
          · simp [hp, List.replicate_succ']
          · simp [last, hq]

private theorem shapeLoop_last (fuel n i : Nat) (last : i + 1 = n) :
    ∃ k, shapeLoop fuel n i = List.replicate k true := by
  induction fuel generalizing n i with
  | zero => exact ⟨0, rfl⟩
  | succ fuel ih =>
      simp only [shapeLoop]
      split
      · by_cases odd : i % 2 = 1
        · obtain ⟨k, rest⟩ := ih ((n + 1) / 2) (i / 2) (by omega)
          exact ⟨k + 1, by simp [odd, rest, List.replicate_succ]⟩
        · have none : ¬(i + 1 < n) := by omega
          obtain ⟨k, rest⟩ := ih ((n + 1) / 2) (i / 2) (by omega)
          exact ⟨k, by simp [odd, none, rest]⟩
      · exact ⟨0, rfl⟩

private theorem shapeLoop_first (fuel n : Nat) :
    ∃ k, shapeLoop fuel n 0 = List.replicate k false := by
  induction fuel generalizing n with
  | zero => exact ⟨0, rfl⟩
  | succ fuel ih =>
      simp only [shapeLoop]
      split
      · obtain ⟨k, rest⟩ := ih ((n + 1) / 2)
        exact ⟨k + 1, by simp [rest, List.replicate_succ]⟩
      · exact ⟨0, rfl⟩

def absenceMessages (blake3 : Bytes → Hash) (p : AbsenceProof) : List Bytes :=
  emptyPreimage :: ((p.left.elim [] fun n => proofMessages blake3 n.proof) ++
    (p.right.elim [] fun n => proofMessages blake3 n.proof))

private theorem not_between {before after : List (U128 × Hash)} {a b : U128 × Hash} {i : U128}
    (sorted : (before ++ a :: b :: after).Pairwise fun x y => x.1 < y.1)
    (above : a.1 < i) (below : i < b.1) : ∀ e ∈ before ++ a :: b :: after, e.1 ≠ i := by
  intro e member same
  rw [List.pairwise_append] at sorted
  obtain ⟨-, tail, cross⟩ := sorted
  obtain ⟨-, rest⟩ := List.pairwise_cons.mp tail
  obtain ⟨later, -⟩ := List.pairwise_cons.mp rest
  simp only [List.mem_append, List.mem_cons] at member
  rcases member with early | rfl | rfl | late
  · have := cross e early a (by simp)
    rw [same] at this
    exact absurd (above.trans this) (lt_irrefl _)
  · exact absurd same above.ne
  · exact absurd same below.ne'
  · have := later e late
    rw [same] at this
    exact absurd (below.trans this) (lt_irrefl _)

private theorem not_past_last {before : List (U128 × Hash)} {a : U128 × Hash} {i : U128}
    (sorted : (before ++ [a]).Pairwise fun x y => x.1 < y.1) (above : a.1 < i) :
    ∀ e ∈ before ++ [a], e.1 ≠ i := by
  intro e member same
  obtain ⟨-, -, cross⟩ := List.pairwise_append.mp sorted
  rcases List.mem_append.mp member with early | last
  · have := cross e early a (by simp)
    rw [same] at this
    exact absurd (above.trans this) (lt_irrefl _)
  · obtain rfl := List.mem_singleton.mp last
    exact absurd same above.ne

private theorem not_before_first {after : List (U128 × Hash)} {b : U128 × Hash} {i : U128}
    (sorted : (b :: after).Pairwise fun x y => x.1 < y.1) (below : i < b.1) :
    ∀ e ∈ b :: after, e.1 ≠ i := by
  intro e member same
  obtain ⟨later, -⟩ := List.pairwise_cons.mp sorted
  rcases List.mem_cons.mp member with rfl | late
  · exact absurd same below.ne'
  · have := later e late
    rw [same] at this
    exact absurd (below.trans this) (lt_irrefl _)

private theorem descend_of_checkNeighbour {entries : List (U128 × Hash)} {n : Neighbour}
    {len : Nat} {messages : List Bytes} {t : EntryTree}
    (root : commit blake3 entries = treeHash blake3 t)
    (sub : treeMessages blake3 t ⊆ commitMessages blake3 entries)
    (free : CollisionFree blake3 (commitMessages blake3 entries ++ messages))
    (inProof : proofMessages blake3 n.proof ⊆ messages)
    (accepted : checkNeighbour blake3 n (commit blake3 entries) len = .ok ()) :
    n.index < len ∧ t.descend (shapeLoop len len n.index).reverse =
      some (.leaf (n.proof.inode, n.proof.value)) := by
  obtain ⟨checked, inside, shape⟩ := (checkNeighbour_eq_ok _ _ _).mp accepted
  rw [shape]
  refine ⟨inside, descend_of_check root sub (free.mono ?_) checked⟩
  intro m member
  rcases List.mem_append.mp member with left | right
  · exact List.mem_append_left _ left
  · exact List.mem_append_right _ (inProof right)

private theorem guard_eq_ok {ε : Type} {c : Prop} [Decidable c] {e : ε} {x : Except ε Unit} :
    (if c then throw e else x) = .ok () ↔ ¬c ∧ x = .ok () := by
  split <;> simp [*, throw, throwThe, MonadExceptOf.throw]

/-- An accepted absence proof is about an inode that no entry carries, whatever length,
positions, neighbours and paths the prover chose. -/
theorem absence_sound (blake3 : Bytes → Hash) (entries : List (U128 × Hash)) (p : AbsenceProof)
    (sorted : entries.Pairwise fun a b => a.1 < b.1)
    (free : CollisionFree blake3 (commitMessages blake3 entries ++ absenceMessages blake3 p))
    (accepted : checkAbsent blake3 p (commit blake3 entries) = .ok ()) :
    ∀ e ∈ entries, e.1 ≠ p.inode := by
  unfold checkAbsent at accepted
  split at accepted
  · have same : commit blake3 entries = emptyRoot blake3 := by
      simpa using (guard_eq_ok.mp accepted).1
    have empty : entries = [] := by
      refine eq_nil_of_commit_eq_emptyRoot (free.mono ?_) same
      intro m member
      rcases List.mem_cons.mp member with rfl | later
      · exact List.mem_append_right _ (by simp [absenceMessages])
      · exact List.mem_append_left _ later
    simp [empty]
  · by_cases nonempty : entries = []
    · simp [nonempty]
    obtain ⟨t, rfl, root, sub⟩ := @commit_tree blake3 entries nonempty
    have leftSub : ∀ n, p.left = some n →
        proofMessages blake3 n.proof ⊆ absenceMessages blake3 p := by
      intro n here m member
      simp [absenceMessages, here, member]
    have rightSub : ∀ n, p.right = some n →
        proofMessages blake3 n.proof ⊆ absenceMessages blake3 p := by
      intro n here m member
      simp [absenceMessages, here, member]
    split at accepted
    case h_1 left right hl hr =>
      obtain ⟨⟨⟩, okLeft, accepted⟩ := bind_eq_ok.mp accepted
      obtain ⟨⟨⟩, okRight, accepted⟩ := bind_eq_ok.mp accepted
      obtain ⟨bracket, accepted⟩ := guard_eq_ok.mp accepted
      have bracketed := not_not.mp bracket
      have adjacent : right.index = left.index + 1 := by simpa using (guard_eq_ok.mp accepted).1
      obtain ⟨-, atLeft⟩ := descend_of_checkNeighbour root sub free (leftSub left hl) okLeft
      obtain ⟨inside, atRight⟩ :=
        descend_of_checkNeighbour root sub free (rightSub right hr) okRight
      rw [adjacent] at atRight inside
      obtain ⟨before, after, split⟩ := leaves_of_neighbours
        (shapeLoop_neighbours p.len p.len left.index le_rfl inside) atLeft atRight
      rw [split] at sorted ⊢
      exact not_between sorted bracketed.1 bracketed.2
    case h_2 left hl hr =>
      obtain ⟨⟨⟩, okLeft, accepted⟩ := bind_eq_ok.mp accepted
      obtain ⟨below, accepted⟩ := guard_eq_ok.mp accepted
      have above := lt_of_not_ge below
      have last : left.index + 1 = p.len := by simpa using (guard_eq_ok.mp accepted).1
      obtain ⟨-, atLeft⟩ := descend_of_checkNeighbour root sub free (leftSub left hl) okLeft
      obtain ⟨k, shape⟩ := shapeLoop_last p.len p.len left.index last
      rw [shape, List.reverse_replicate] at atLeft
      obtain ⟨before, split⟩ := leaves_of_rightmost atLeft
      rw [split] at sorted ⊢
      exact not_past_last sorted above
    case h_3 right hl hr =>
      obtain ⟨⟨⟩, okRight, accepted⟩ := bind_eq_ok.mp accepted
      obtain ⟨above, accepted⟩ := guard_eq_ok.mp accepted
      have below := lt_of_not_ge above
      have first : right.index = 0 := by simpa using (guard_eq_ok.mp accepted).1
      obtain ⟨-, atRight⟩ :=
        descend_of_checkNeighbour root sub free (rightSub right hr) okRight
      obtain ⟨k, shape⟩ := shapeLoop_first p.len p.len
      rw [first, shape, List.reverse_replicate] at atRight
      obtain ⟨after, split⟩ := leaves_of_leftmost atRight
      rw [split] at sorted ⊢
      exact not_before_first sorted below
    case h_4 =>
      simp [throw, throwThe, MonadExceptOf.throw] at accepted

/-- Evidence that inode six is absent: its neighbours five and nine, adjacent leaves of the
sample map. -/
def sampleAbsence : AbsenceProof where
  inode := 6
  len := 3
  left := some ⟨1, 5, 11, [⟨leafHash Lib.blake3 2 10, true⟩, ⟨leafHash Lib.blake3 9 12, false⟩]⟩
  right := some ⟨2, 9, 12,
    [⟨nodeHash Lib.blake3 (leafHash Lib.blake3 2 10) (leafHash Lib.blake3 5 11), true⟩]⟩

theorem absence_sound_sample :
    checkAbsent Lib.blake3 sampleAbsence (commit Lib.blake3 sampleEntries) = .ok () ∧
      ∀ e ∈ sampleEntries, e.1 ≠ 6 :=
  have accepted : checkAbsent Lib.blake3 sampleAbsence (commit Lib.blake3 sampleEntries) = .ok () := by
    decide +kernel
  ⟨accepted,
    absence_sound Lib.blake3 sampleEntries sampleAbsence (by decide) (by decide +kernel) accepted⟩

end NexusFS.Zk.Merkle
