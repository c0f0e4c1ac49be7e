/- GID: NexusFS/Zk/MerkleAbsent
   source: crates/zk/src/merkle.rs
   digest: Absence proofs are complete: every inode has a proof of exactly one kind. -/

import NexusFS.Zk.MerkleSound

set_option autoImplicit false
set_option relaxedAutoImplicit false

namespace NexusFS.Zk.Merkle

open NexusFS.Lib NexusFS.Lib.BinTree NexusFS.Proto

variable {blake3 : Bytes → Hash}

theorem proveSteps_sides (fuel : Nat) {level : List Hash} {position : Nat}
    (inside : position < level.length) :
    (proveSteps blake3 fuel level position).map PathStep.sibling_is_left =
      shapeLoop fuel level.length position := by
  induction fuel generalizing level position with
  | zero => rfl
  | succ fuel ih =>
      simp only [proveSteps, shapeLoop]
      split
      · have half : (fold blake3 level).length = (level.length + 1) / 2 := pairUp_length _ level
        have rest := @ih (fold blake3 level) (position / 2) (by omega)
        rw [List.map_append, rest, half]
        congr 1
        unfold siblingStep
        by_cases even : position % 2 = 0
        · have odd : ¬position % 2 = 1 := by omega
          rw [if_pos even, if_neg odd]
          by_cases more : position + 1 < level.length
          · simp [more]
          · simp [more]
        · have odd : position % 2 = 1 := by omega
          have before : position - 1 < level.length := by omega
          simp [odd, List.getElem?_eq_getElem before]
      · rfl

section Sorted

variable {entries before after : List (U128 × Hash)} {inode : U128}

/-- The neighbour `prove_absent` builds at a position checks against the commitment. -/
private theorem neighbour_complete (sorted : entries.Pairwise fun a b => a.1 < b.1)
    (bound : entries.length < 2 ^ 64) {index : Nat} {e : U128 × Hash}
    (here : entries[index]? = some e) :
    ∃ p, prove blake3 entries e.1 = some p ∧ p.inode = e.1 ∧
      checkNeighbour blake3 ⟨index, p⟩ (commit blake3 entries) entries.length = .ok () := by
  obtain ⟨inside, at_index⟩ := List.getElem?_eq_some_iff.mp here
  obtain ⟨p, proved, inode, -, checked⟩ :=
    @prove_complete blake3 entries e sorted bound (at_index ▸ List.getElem_mem inside)
  obtain ⟨found, located⟩ : ∃ found, entries.findIdx? (fun x => x.1 == e.1) = some found := by
    rw [← Option.isSome_iff_exists, List.findIdx?_isSome]
    exact List.any_eq_true.mpr ⟨e, at_index ▸ List.getElem_mem inside, by simp⟩
  obtain ⟨inRange, isIt, -⟩ := List.findIdx?_eq_some_iff_getElem.mp located
  have unique : found = index := by
    have strict := List.pairwise_iff_getElem.mp sorted
    have same : entries[found].1 = entries[index].1 := by simpa [at_index] using isIt
    rcases lt_trichotomy found index with less | equal | more
    · exact absurd same (strict found index inRange inside less).ne
    · exact equal
    · exact absurd same (strict index found inside inRange more).ne'
  subst unique
  refine ⟨p, proved, inode, (checkNeighbour_eq_ok _ _ _).mpr ⟨checked, inside, ?_⟩⟩
  have steps : p.steps = proveSteps blake3 entries.length (leafLevel blake3 entries) found := by
    simp only [prove, located, here, Option.bind_eq_bind, Option.bind_some, Option.pure_def,
      Option.some.injEq] at proved
    rw [← proved]
  have length : (leafLevel blake3 entries).length = entries.length := by simp [leafLevel]
  have sides := @proveSteps_sides blake3 entries.length (leafLevel blake3 entries) found
    (by omega)
  rw [length] at sides
  simp only [InclusionProof.sides, steps, sides]

private theorem parted (sorted : entries.Pairwise fun a b => a.1 < b.1)
    (absent : ∀ e ∈ entries, e.1 ≠ inode) :
    ∃ before after, entries = before ++ after ∧ (∀ e ∈ before, e.1 < inode) ∧
      ∀ e ∈ after, inode < e.1 := by
  induction entries with
  | nil => exact ⟨[], [], rfl, by simp, by simp⟩
  | cons e rest ih =>
      obtain ⟨head, tail⟩ := List.pairwise_cons.mp sorted
      rcases lt_or_gt_of_ne (absent e List.mem_cons_self) with below | above
      · obtain ⟨before, after, rfl, low, high⟩ :=
          ih tail fun x member => absent x (List.mem_cons_of_mem _ member)
        exact ⟨e :: before, after, rfl, List.forall_mem_cons.mpr ⟨below, low⟩, high⟩
      · refine ⟨[], e :: rest, rfl, by simp, List.forall_mem_cons.mpr ⟨above, ?_⟩⟩
        exact fun x member => above.trans (head x member)

/-- The position `prove_absent` takes for the left neighbour is the last one below. -/
private theorem below_eq (low : ∀ e ∈ before, e.1 < inode) (high : ∀ e ∈ after, inode < e.1) :
    (((before ++ after).zipIdx.reverse.find? fun e => decide (e.1.1 < inode)).map Prod.snd) =
      if before = [] then none else some (before.length - 1) := by
  have none_above : ((after.zipIdx before.length).reverse.find? fun e =>
      decide (e.1.1 < inode)) = none := by
    rw [List.find?_eq_none]
    rintro ⟨e, index⟩ member
    have inside : e ∈ after := by
      have pair := List.mem_reverse.mp member
      exact List.fst_mem_of_mem_zipIdx pair
    simpa using (high e inside).le
  rw [List.zipIdx_append, List.reverse_append, List.find?_append, Nat.zero_add, none_above,
    Option.none_or]
  rcases List.eq_nil_or_concat before with rfl | ⟨init, last, rfl⟩
  · rfl
  · have under : last.1 < inode := low last (by simp)
    simp [List.zipIdx_append, under]

private theorem above_eq (low : ∀ e ∈ before, e.1 < inode) (high : ∀ e ∈ after, inode < e.1) :
    ((before ++ after).findIdx? fun e => decide (inode < e.1)) =
      if after = [] then none else some before.length := by
  have none_below : (before.findIdx? fun e => decide (inode < e.1)) = none := by
    rw [List.findIdx?_eq_none_iff]
    intro e member
    simpa using (low e member).le
  rw [List.findIdx?_append, none_below, Option.none_or]
  cases after with
  | nil => rfl
  | cons b rest =>
      have higher : inode < b.1 := high b List.mem_cons_self
      simp [List.findIdx?_cons, higher]

private theorem checkAbsent_parted {root : Hash} {len : Nat} {below above : Option Neighbour}
    (length : len = before.length + after.length)
    (left : if before = [] then below = none else ∃ p, below = some ⟨before.length - 1, p⟩ ∧
      p.inode < inode ∧ checkNeighbour blake3 ⟨before.length - 1, p⟩ root len = .ok ())
    (right : if after = [] then above = none else ∃ p, above = some ⟨before.length, p⟩ ∧
      inode < p.inode ∧ checkNeighbour blake3 ⟨before.length, p⟩ root len = .ok ())
    (empty : before = [] → after = [] → root = emptyRoot blake3) :
    checkAbsent blake3 ⟨inode, len, below, above⟩ root = .ok () := by
  unfold checkAbsent
  by_cases low : before = []
  · rw [if_pos low] at left
    by_cases high : after = []
    · have zero : len = 0 := by simp [length, low, high]
      simp [zero, empty low high, pure, Except.pure]
    · rw [if_neg high] at right
      obtain ⟨p, rfl, higher, checked⟩ := right
      have positive := List.length_pos_iff.mpr high
      have some_leaf : len ≠ 0 := by omega
      have first : before.length = 0 := by simp [low]
      rw [first] at checked ⊢
      simp [left, some_leaf, checked, higher, bind, Except.bind, pure, Except.pure]
  · rw [if_neg low] at left
    obtain ⟨p, rfl, under, checked⟩ := left
    have positive : 0 < before.length := List.length_pos_iff.mpr low
    have adjacent : before.length - 1 + 1 = before.length := by omega
    have some_leaf : len ≠ 0 := by omega
    by_cases high : after = []
    · rw [if_pos high] at right
      have last : before.length - 1 + 1 = len := by simp [length, high, adjacent]
      simp [right, some_leaf, checked, under, last, bind, Except.bind, pure, Except.pure]
    · rw [if_neg high] at right
      obtain ⟨q, rfl, higher, accepted⟩ := right
      simp [some_leaf, checked, accepted, under, higher, adjacent, bind, Except.bind, pure,
        Except.pure]

theorem proveAbsent_complete (sorted : entries.Pairwise fun a b => a.1 < b.1)
    (bound : entries.length < 2 ^ 64) (absent : ∀ e ∈ entries, e.1 ≠ inode) :
    ∃ p, proveAbsent blake3 entries inode = some p ∧ p.inode = inode ∧
      checkAbsent blake3 p (commit blake3 entries) = .ok () := by
  have none_here : (entries.any fun e => e.1 == inode) = false := by
    simpa [List.any_eq_false] using absent
  obtain ⟨before, after, rfl, low, high⟩ := parted sorted absent
  unfold proveAbsent
  rw [none_here]
  refine ⟨_, rfl, rfl, ?_⟩
  refine checkAbsent_parted List.length_append ?_ ?_ ?_
  · rw [below_eq low high]
    split
    · rfl
    · rename_i some_below
      obtain ⟨init, last, joined⟩ := (List.eq_nil_or_concat before).resolve_left some_below
      rw [List.concat_eq_append] at joined
      subst joined
      have here : (init ++ [last] ++ after)[init.length]? = some last := by simp
      obtain ⟨p, proved, inode, checked⟩ := @neighbour_complete blake3 _ sorted bound _ _ here
      have place : (init ++ [last]).length - 1 = init.length := by simp
      rw [place]
      refine ⟨p, ?_, inode ▸ low last (by simp), checked⟩
      simp only [Option.bind_some, here, proved, Option.bind_eq_bind, Option.pure_def]
  · rw [above_eq low high]
    split
    · rfl
    · rename_i some_above
      obtain ⟨first, rest, rfl⟩ := List.exists_cons_of_ne_nil some_above
      have here : (before ++ first :: rest)[before.length]? = some first := by simp
      obtain ⟨p, proved, inode, checked⟩ := @neighbour_complete blake3 _ sorted bound _ _ here
      refine ⟨p, ?_, inode ▸ high first (by simp), checked⟩
      simp only [Option.bind_some, here, proved, Option.bind_eq_bind, Option.pure_def]
  · rintro rfl rfl
    rfl

theorem proveAbsent_present {e : U128 × Hash} (member : e ∈ entries) :
    proveAbsent blake3 entries e.1 = none := by
  have found : (entries.any fun x => x.1 == e.1) = true :=
    List.any_eq_true.mpr ⟨e, member, by simp⟩
  simp only [proveAbsent, found, if_true]

theorem one_kind_of_proof (sorted : entries.Pairwise fun a b => a.1 < b.1)
    (bound : entries.length < 2 ^ 64) (inode : U128) :
    ((∃ p, prove blake3 entries inode = some p ∧ p.inode = inode ∧
        check blake3 p (commit blake3 entries) = .ok ()) ∧
      proveAbsent blake3 entries inode = none) ∨
    (prove blake3 entries inode = none ∧
      ∃ p, proveAbsent blake3 entries inode = some p ∧ p.inode = inode ∧
        checkAbsent blake3 p (commit blake3 entries) = .ok ()) := by
  by_cases here : ∃ e ∈ entries, e.1 = inode
  · obtain ⟨e, member, rfl⟩ := here
    obtain ⟨p, proved, same, -, checked⟩ := @prove_complete blake3 _ _ sorted bound member
    exact .inl ⟨⟨p, proved, same, checked⟩, proveAbsent_present member⟩
  · have absent : ∀ e ∈ entries, e.1 ≠ inode := fun e member same => here ⟨e, member, same⟩
    refine .inr ⟨?_, proveAbsent_complete sorted bound absent⟩
    have missed : (entries.findIdx? fun e => e.1 == inode) = none := by
      rw [List.findIdx?_eq_none_iff]
      intro e member
      simpa using absent e member
    simp [prove, missed]

/-- `prove_absent` refuses an inode that is present, and proves the absence of every other, wherever
the gap is and whatever the size of the tree. -/
theorem absence_complete (blake3 : Bytes → Hash) (entries : List (U128 × Hash))
    (sorted : entries.Pairwise fun a b => a.1 < b.1) (bound : entries.length < 2 ^ 64)
    (inode : U128) :
    ((∃ e ∈ entries, e.1 = inode) → proveAbsent blake3 entries inode = none) ∧
      ((∀ e ∈ entries, e.1 ≠ inode) → ∃ p, proveAbsent blake3 entries inode = some p ∧
        p.inode = inode ∧ checkAbsent blake3 p (commit blake3 entries) = .ok ()) := by
  constructor
  · rintro ⟨e, member, rfl⟩
    exact proveAbsent_present member
  · intro absent
    exact proveAbsent_complete sorted bound absent

theorem absence_complete_sample :
    (∃ p, proveAbsent Lib.blake3 sampleEntries 7 = some p ∧ p.inode = 7 ∧
      checkAbsent Lib.blake3 p (commit Lib.blake3 sampleEntries) = .ok ()) ∧
    proveAbsent Lib.blake3 sampleEntries 9 = none := by
  have absent : ∀ e ∈ sampleEntries, e.1 ≠ 7 :=
    List.forall_mem_cons.mpr ⟨by decide, List.forall_mem_cons.mpr ⟨by decide,
      List.forall_mem_cons.mpr ⟨by decide, fun _ none_left => nomatch none_left⟩⟩⟩
  exact ⟨(absence_complete Lib.blake3 sampleEntries (by decide) (by decide) 7).2 absent,
    (absence_complete Lib.blake3 sampleEntries (by decide) (by decide) 9).1
      ⟨(9, 12), by decide, rfl⟩⟩

end Sorted

end NexusFS.Zk.Merkle
