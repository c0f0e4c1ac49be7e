/- GID: NexusFS/Lib/Forest
   layer: library
   digest: Relations with one parent per node and no cycle, and how moving an edge keeps them so. -/

import Mathlib.Logic.Relation

set_option autoImplicit false
set_option relaxedAutoImplicit false

namespace NexusFS.Lib

open Relation

universe u

variable {α : Type u}

/-- A parent relation without sharing and without cycles. -/
structure Forest (link : α → α → Prop) : Prop where
  unique : ∀ {a b c}, link a c → link b c → a = b
  acyclic : ∀ a, ¬TransGen link a a

namespace Forest

variable {link moved : α → α → Prop}

theorem subrelation (forest : Forest link) (sub : ∀ a b, moved a b → link a b) : Forest moved where
  unique := fun left right => forest.unique (sub _ _ left) (sub _ _ right)
  acyclic := fun a cycle => forest.acyclic a (TransGen.mono sub _ _ cycle)

theorem not_below_of_link (forest : Forest link) {a b : α} (edge : link a b) :
    ¬ReflTransGen link b a := by
  intro back
  exact forest.acyclic a (TransGen.head' edge back)

/-- Paths that leave a node which cannot reach `p` never take the new edge out of `p`. -/
private theorem old_of_path {c p : α} (free : ¬ReflTransGen link c p)
    (steps : ∀ a b, moved a b → (link a b ∧ b ≠ c) ∨ (a = p ∧ b = c)) {a b : α}
    (start : ReflTransGen link c a) (path : TransGen moved a b) :
    TransGen link a b ∧ ReflTransGen link c b := by
  induction path with
  | single edge =>
      rcases steps _ _ edge with ⟨old, -⟩ | ⟨rfl, -⟩
      · exact ⟨TransGen.single old, start.tail old⟩
      · exact absurd start free
  | tail _ edge ih =>
      obtain ⟨done, reach⟩ := ih
      rcases steps _ _ edge with ⟨old, -⟩ | ⟨rfl, -⟩
      · exact ⟨done.tail old, reach.tail old⟩
      · exact absurd reach free

private theorem old_or_through {c p : α}
    (steps : ∀ a b, moved a b → (link a b ∧ b ≠ c) ∨ (a = p ∧ b = c)) {a b : α}
    (path : TransGen moved a b) : TransGen link a b ∨ ReflTransGen moved c b := by
  induction path with
  | single edge =>
      rcases steps _ _ edge with ⟨old, -⟩ | ⟨-, rfl⟩
      · exact .inl (TransGen.single old)
      · exact .inr .refl
  | tail _ edge ih =>
      rcases ih with done | reach
      · rcases steps _ _ edge with ⟨old, -⟩ | ⟨-, rfl⟩
        · exact .inl (done.tail old)
        · exact .inr .refl
      · exact .inr (reach.tail edge)

theorem move (forest : Forest link) {c p : α} (free : ¬ReflTransGen link c p)
    (steps : ∀ a b, moved a b → (link a b ∧ b ≠ c) ∨ (a = p ∧ b = c)) : Forest moved where
  unique := by
    intro a b d left right
    rcases steps _ _ left with ⟨oldLeft, notMoved⟩ | ⟨rfl, rfl⟩
    · rcases steps _ _ right with ⟨oldRight, -⟩ | ⟨-, rfl⟩
      · exact forest.unique oldLeft oldRight
      · exact absurd rfl notMoved
    · rcases steps _ _ right with ⟨-, notMoved⟩ | ⟨rfl, -⟩
      · exact absurd rfl notMoved
      · rfl
  acyclic := by
    intro a cycle
    rcases old_or_through steps cycle with old | through
    · exact forest.acyclic a old
    · have reach : ReflTransGen link c a := by
        rcases through.cases_head with rfl | ⟨b, edge, rest⟩
        · exact .refl
        · exact (old_of_path free steps .refl (TransGen.head' edge rest)).2
      exact forest.acyclic a (old_of_path free steps reach cycle).1

theorem comparable (forest : Forest link) {a b x : α} (fromA : ReflTransGen link a x)
    (fromB : ReflTransGen link b x) : ReflTransGen link a b ∨ ReflTransGen link b a := by
  induction fromA with
  | refl => exact .inr fromB
  | tail path edge ih =>
      rcases fromB.cases_tail with rfl | ⟨y, pathB, edgeB⟩
      · exact .inl (path.tail edge)
      · have same := forest.unique edgeB edge
        subst same
        exact ih pathB

theorem siblings_disjoint (forest : Forest link) {a b c x : α} (toB : link a b) (toC : link a c)
    (different : b ≠ c) (belowB : ReflTransGen link b x) : ¬ReflTransGen link c x := by
  intro belowC
  have strict : ∀ {d e}, link a d → link a e → d ≠ e → ¬ReflTransGen link d e := by
    intro d e toD toE distinct path
    rcases path.cases_tail with rfl | ⟨y, front, edge⟩
    · exact distinct rfl
    · have parent := forest.unique edge toE
      subst parent
      exact forest.not_below_of_link toD front
  rcases forest.comparable belowB belowC with path | path
  · exact strict toB toC different path
  · exact strict toC toB different.symm path

end Forest

end NexusFS.Lib
