/- GID: NexusFS/Zk/MerkleShape
   source: crates/zk/src/merkle.rs
   digest: The shape of a path characterises the position of its leaf. -/

import NexusFS.Zk.MerkleAbsent

set_option autoImplicit false
set_option relaxedAutoImplicit false

namespace NexusFS.Zk.Merkle

open NexusFS.Lib NexusFS.Lib.BinTree NexusFS.Proto

section Shapes

variable {α : Type} {m n i j k : Nat}

theorem descend_shapeLoop (fuel : Nat) {level : List (BinTree α)} {position : Nat}
    {here top : BinTree α} (stands : level[position]? = some here)
    (climbed : climb BinTree.node fuel level = [top]) :
    top.descend (shapeLoop fuel level.length position).reverse = some here := by
  induction fuel generalizing level position here with
  | zero =>
      have first : level = [top] := climbed
      subst first
      obtain ⟨inside, is_it⟩ := List.getElem?_eq_some_iff.mp stands
      obtain rfl : position = 0 := by simpa using inside
      exact (descend_nil top).trans (congrArg some is_it)
  | succ fuel ih =>
      simp only [climb] at climbed
      simp only [shapeLoop]
      by_cases long : 1 < level.length
      · rw [if_pos long] at climbed ⊢
        have half : (pairUp BinTree.node level).length = (level.length + 1) / 2 := pairUp_length _ level
        have above := pairUp_getElem? BinTree.node level (position / 2)
        -- the parent is a pair, or the node itself where it has no partner
        by_cases odd : position % 2 = 1
        · have back : 2 * (position / 2) = position - 1 := by omega
          have forth : position - 1 + 1 = position := by omega
          have before : position - 1 < level.length := by
            have inside := (List.getElem?_eq_some_iff.mp stands).1
            omega
          rw [back, forth, stands, List.getElem?_eq_getElem before] at above
          have parent := ih above climbed
          rw [half] at parent
          rw [if_pos odd, List.reverse_append, descend_append, parent]
          exact descend_nil here
        · have back : 2 * (position / 2) = position := by omega
          rw [back, stands] at above
          rw [if_neg odd, List.reverse_append, descend_append]
          by_cases more : position + 1 < level.length
          · rw [List.getElem?_eq_getElem more] at above
            have parent := ih above climbed
            rw [half] at parent
            rw [if_pos more, parent]
            exact descend_nil here
          · rw [List.getElem?_eq_none (not_lt.mp more)] at above
            have parent := ih above climbed
            rw [half] at parent
            rw [if_neg more, parent]
            exact descend_nil here
      · rw [if_neg long] at climbed ⊢
        subst climbed
        obtain ⟨inside, is_it⟩ := List.getElem?_eq_some_iff.mp stands
        obtain rfl : position = 0 := by simpa using inside
        exact (descend_nil _).trans (congrArg some is_it)

theorem expectedShape_eq_some {len index : Nat} {shape : List Bool} :
    expectedShape len index = some shape ↔ index < len ∧ shapeLoop len len index = shape := by
  unfold expectedShape
  split
  · rename_i outside
    exact iff_of_false (by simp) fun both => absurd both.1 (not_lt.mpr outside)
  · rename_i inside
    rw [Option.some.injEq]
    exact (and_iff_right (not_le.mp inside)).symm

/-- The tree over the numbers below `n`, in which every shape leads to its own position. -/
theorem exists_numbered_tree (positive : 0 < n) : ∃ t : BinTree Nat, t.leaves = List.range n ∧
    ∀ i < n, t.descend (shapeLoop n n i).reverse = some (.leaf i) := by
  have length : ((List.range n).map BinTree.leaf).length = n := by simp
  obtain ⟨t, top⟩ := climb_singleton BinTree.node n ((List.range n).map BinTree.leaf)
    (List.ne_nil_of_length_pos (by rw [length]; exact positive)) (by omega)
  refine ⟨t, ?_, fun i inside => ?_⟩
  · have kept := climb_leaves n ((List.range n).map BinTree.leaf)
    rw [top] at kept
    simpa [List.flatMap_map, BinTree.leaves] using kept
  · have stands : ((List.range n).map BinTree.leaf)[i]? = some (.leaf i) := by
      simp [List.getElem?_range inside]
    have reach := descend_shapeLoop n stands top
    rwa [length] at reach

theorem expectedShape_injective (inside : i < n) (inside' : j < n)
    (same : expectedShape n i = expectedShape n j) : i = j := by
  obtain ⟨t, -, reach⟩ := exists_numbered_tree (Nat.zero_lt_of_lt inside)
  have loops := (expectedShape_eq_some.mp (same.trans (expectedShape_eq_some.mpr ⟨inside', rfl⟩))).2
  have ends := reach i inside
  rw [loops, reach j inside'] at ends
  injection Option.some.inj ends with equal
  exact equal.symm

theorem expectedShape_adjacent (inside : i + 1 < m) (first : expectedShape m i = expectedShape n j)
    (second : expectedShape m (i + 1) = expectedShape n k) : k = j + 1 := by
  have below : i < m := by omega
  have next := shapeLoop_neighbours m m i le_rfl inside
  obtain ⟨inside_j, shape_j⟩ := expectedShape_eq_some.mp
    (first.symm.trans (expectedShape_eq_some.mpr ⟨below, rfl⟩))
  obtain ⟨inside_k, shape_k⟩ := expectedShape_eq_some.mp
    (second.symm.trans (expectedShape_eq_some.mpr ⟨inside, rfl⟩))
  obtain ⟨t, leaves, reach⟩ := exists_numbered_tree (Nat.zero_lt_of_lt inside_j)
  rw [← shape_j, ← shape_k] at next
  obtain ⟨before, after, split⟩ := leaves_of_neighbours next (reach j inside_j) (reach k inside_k)
  rw [leaves] at split
  have at_j : (List.range n)[before.length]? = some j := by simp [split]
  have at_k : (List.range n)[before.length + 1]? = some k := by
    rw [split, List.getElem?_append_right (Nat.le_add_right _ _), Nat.add_sub_cancel_left]
    rfl
  obtain ⟨_, is_j⟩ := List.getElem?_eq_some_iff.mp at_j
  obtain ⟨_, is_k⟩ := List.getElem?_eq_some_iff.mp at_k
  rw [List.getElem_range] at is_j is_k
  rw [← is_k, is_j]

end Shapes

section Proofs

variable {blake3 : Bytes → Hash} {entries : List (U128 × Hash)} {e : U128 × Hash} {index : Nat}

theorem prove_shape (distinct : (entries.map Prod.fst).Nodup) (here : entries[index]? = some e) :
    ∃ p, prove blake3 entries e.1 = some p ∧ expectedShape entries.length index = some p.sides := by
  obtain ⟨inside, is_it⟩ := List.getElem?_eq_some_iff.mp here
  have located : entries.findIdx? (fun x => x.1 == e.1) = some index := by
    refine List.findIdx?_eq_some_iff_getElem.mpr ⟨inside, by simp [is_it], fun other before => ?_⟩
    have apart : entries[other].1 ≠ entries[index].1 := fun same => by
      have short : other < (entries.map Prod.fst).length := by simp only [List.length_map]; omega
      have long : index < (entries.map Prod.fst).length := by simpa using inside
      have fields : (entries.map Prod.fst)[other] = (entries.map Prod.fst)[index] := by
        simpa using same
      have equal := (List.getElem_inj distinct).mp fields
      omega
    rw [is_it] at apart
    simpa using apart
  have level : (leafLevel blake3 entries).length = entries.length := by simp [leafLevel]
  have sides := @proveSteps_sides blake3 entries.length (leafLevel blake3 entries) index
    (by rwa [level])
  rw [level] at sides
  refine ⟨⟨e.1, e.2, proveSteps blake3 entries.length (leafLevel blake3 entries) index⟩, ?_, ?_⟩
  · simp [prove, located, here]
  · exact expectedShape_eq_some.mpr ⟨inside, sides.symm⟩

/-- Path shapes characterise positions: they are the sides of the built proofs, no two positions of one
size share one, and neighbouring shapes are at neighbouring positions of a tree of any size. -/
theorem shapes_characterise (blake3 : Bytes → Hash) :
    (∀ (entries : List (U128 × Hash)) (index : Nat) (e : U128 × Hash),
      (entries.map Prod.fst).Nodup → entries[index]? = some e →
        ∃ p, prove blake3 entries e.1 = some p ∧
          expectedShape entries.length index = some p.sides) ∧
    (∀ len i j, i < len → j < len → expectedShape len i = expectedShape len j → i = j) ∧
    ∀ m n i j k, i + 1 < m → expectedShape m i = expectedShape n j →
      expectedShape m (i + 1) = expectedShape n k → k = j + 1 :=
  ⟨fun _ _ _ distinct here => prove_shape distinct here,
    fun _ _ _ inside inside' same => expectedShape_injective inside inside' same,
    fun _ _ _ _ _ inside first second => expectedShape_adjacent inside first second⟩

theorem shapes_characterise_sample :
    (∃ p, prove Lib.blake3 sampleEntries 5 = some p ∧ expectedShape 3 1 = some p.sides) ∧
    (expectedShape 3 1 = expectedShape 3 1 → (1 : Nat) = 1) ∧
    expectedShape 5 1 = expectedShape 6 1 ∧ expectedShape 5 2 = expectedShape 6 2 ∧ 2 = 1 + 1 := by
  obtain ⟨built, apart, adjacent⟩ := shapes_characterise Lib.blake3
  exact ⟨built sampleEntries 1 (5, 11) (by decide) rfl, apart 3 1 1 (by decide) (by decide),
    by decide, by decide, adjacent 5 6 1 1 2 (by decide) (by decide) (by decide)⟩

end Proofs

end NexusFS.Zk.Merkle
