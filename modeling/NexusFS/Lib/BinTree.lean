/- GID: NexusFS/Lib/BinTree
   layer: library
   digest: Binary trees built by pairing adjacent nodes, and the order their leaf paths carry. -/

import Mathlib.Data.List.Basic
import Mathlib.Tactic.Common

set_option autoImplicit false
set_option relaxedAutoImplicit false

namespace NexusFS.Lib.BinTree

universe u v

variable {α : Type u} {β : Type v}

/-- One level up: adjacent elements are combined and a lone trailing one is promoted. -/
def pairUp (combine : α → α → α) : List α → List α
  | [] => []
  | [a] => [a]
  | a :: b :: rest => combine a b :: pairUp combine rest

/-- Repeat `pairUp` while more than one element is left, at most `fuel` times. -/
def climb (combine : α → α → α) : Nat → List α → List α
  | 0, level => level
  | fuel + 1, level =>
      if 1 < level.length then climb combine fuel (pairUp combine level) else level

theorem pairUp_length (combine : α → α → α) (level : List α) :
    (pairUp combine level).length = (level.length + 1) / 2 := by
  induction level using pairUp.induct with
  | case1 => simp [pairUp]
  | case2 a => simp [pairUp]
  | case3 a b rest ih =>
      simp only [pairUp, List.length_cons, ih]
      omega

theorem pairUp_map {combine : α → α → α} {combine' : β → β → β} (f : α → β)
    (hom : ∀ a b, f (combine a b) = combine' (f a) (f b)) (level : List α) :
    pairUp combine' (level.map f) = (pairUp combine level).map f := by
  induction level using pairUp.induct with
  | case1 => rfl
  | case2 a => rfl
  | case3 a b rest ih => simp [pairUp, hom, ih]

theorem climb_map {combine : α → α → α} {combine' : β → β → β} (f : α → β)
    (hom : ∀ a b, f (combine a b) = combine' (f a) (f b)) (fuel : Nat) (level : List α) :
    climb combine' fuel (level.map f) = (climb combine fuel level).map f := by
  induction fuel generalizing level with
  | zero => rfl
  | succ fuel ih =>
      simp only [climb, List.length_map]
      split
      · rw [pairUp_map f hom, ih]
      · rfl

/-- The element at `position` of the next level, computed from the current one. -/
theorem pairUp_getElem? (combine : α → α → α) (level : List α) (position : Nat) :
    (pairUp combine level)[position]? =
      match level[2 * position]?, level[2 * position + 1]? with
      | some a, some b => some (combine a b)
      | first, _ => first := by
  induction level using pairUp.induct generalizing position with
  | case1 => simp [pairUp]
  | case2 a => cases position <;> simp [pairUp, Nat.mul_succ]
  | case3 a b rest ih =>
      cases position with
      | zero => simp [pairUp]
      | succ position =>
          have double : 2 * (position + 1) = 2 * position + 1 + 1 := by omega
          simpa [pairUp, double] using ih position

theorem climb_singleton (combine : α → α → α) (fuel : Nat) (level : List α)
    (nonempty : level ≠ []) (enough : level.length ≤ fuel + 1) :
    ∃ top, climb combine fuel level = [top] := by
  induction fuel generalizing level with
  | zero =>
      have positive := List.length_pos_iff.mpr nonempty
      exact List.length_eq_one_iff.mp (by simp only [climb]; omega)
  | succ fuel ih =>
      simp only [climb]
      split
      · rename_i long
        have len := pairUp_length combine level
        exact ih _ (by intro empty; simp [empty] at len; omega) (by omega)
      · rename_i short
        have positive := List.length_pos_iff.mpr nonempty
        exact List.length_eq_one_iff.mp (by omega)

end NexusFS.Lib.BinTree

namespace NexusFS.Lib

universe u

/-- A binary tree with data at its leaves. -/
inductive BinTree (α : Type u) where
  | leaf (a : α)
  | node (left right : BinTree α)
  deriving DecidableEq

namespace BinTree

variable {α : Type u}

def leaves : BinTree α → List α
  | .leaf a => [a]
  | .node left right => left.leaves ++ right.leaves

def descend : BinTree α → List Bool → Option (BinTree α)
  | t, [] => some t
  | .leaf _, _ :: _ => none
  | .node left _, false :: path => left.descend path
  | .node _ right, true :: path => right.descend path

@[simp] theorem descend_nil (t : BinTree α) : t.descend [] = some t := by cases t <;> rfl

theorem descend_append (t : BinTree α) (p q : List Bool) :
    t.descend (p ++ q) = (t.descend p).bind (fun s => s.descend q) := by
  induction p generalizing t with
  | nil => simp
  | cons b p ih =>
      cases t with
      | leaf a => rfl
      | node l r => cases b <;> exact ih _

theorem mem_leaves_of_descend {t : BinTree α} {p : List Bool} {a : α}
    (reach : t.descend p = some (.leaf a)) : a ∈ t.leaves := by
  induction p generalizing t with
  | nil =>
      obtain rfl : t = .leaf a := by simpa using reach
      simp [leaves]
  | cons b p ih =>
      cases t with
      | leaf c => simp [descend] at reach
      | node l r => cases b <;> simp [leaves, ih (by simpa [descend] using reach)]

theorem leaves_of_rightmost {t : BinTree α} {n : Nat} {a : α}
    (reach : t.descend (List.replicate n true) = some (.leaf a)) :
    ∃ before, t.leaves = before ++ [a] := by
  induction n generalizing t with
  | zero =>
      obtain rfl : t = .leaf a := by simpa using reach
      exact ⟨[], rfl⟩
  | succ n ih =>
      cases t with
      | leaf c => simp [List.replicate_succ, descend] at reach
      | node l r =>
          obtain ⟨before, split⟩ := ih (t := r) (by simpa [List.replicate_succ, descend] using reach)
          exact ⟨l.leaves ++ before, by simp [leaves, split]⟩

theorem leaves_of_leftmost {t : BinTree α} {n : Nat} {a : α}
    (reach : t.descend (List.replicate n false) = some (.leaf a)) :
    ∃ after, t.leaves = a :: after := by
  induction n generalizing t with
  | zero =>
      obtain rfl : t = .leaf a := by simpa using reach
      exact ⟨[], rfl⟩
  | succ n ih =>
      cases t with
      | leaf c => simp [List.replicate_succ, descend] at reach
      | node l r =>
          obtain ⟨after, split⟩ := ih (t := l) (by simpa [List.replicate_succ, descend] using reach)
          exact ⟨after ++ r.leaves, by simp [leaves, split]⟩

/-- Two paths are neighbours when they part at one branch, the first then keeping right
and the second keeping left. -/
def Neighbours (p q : List Bool) : Prop :=
  ∃ stem m n, p = stem ++ false :: List.replicate m true ∧
    q = stem ++ true :: List.replicate n false

theorem leaves_of_neighbours {t : BinTree α} {p q : List Bool} {a b : α}
    (next : Neighbours p q) (left : t.descend p = some (.leaf a))
    (right : t.descend q = some (.leaf b)) :
    ∃ before after, t.leaves = before ++ a :: b :: after := by
  obtain ⟨stem, m, n, rfl, rfl⟩ := next
  induction stem generalizing t with
  | nil =>
      cases t with
      | leaf c => simp [descend] at left
      | node l r =>
          obtain ⟨before, hl⟩ := leaves_of_rightmost (t := l) (by simpa [descend] using left)
          obtain ⟨after, hr⟩ := leaves_of_leftmost (t := r) (by simpa [descend] using right)
          exact ⟨before, after, by simp [leaves, hl, hr]⟩
  | cons c stem ih =>
      cases t with
      | leaf d => simp [descend] at left
      | node l r =>
          cases c with
          | false =>
              obtain ⟨before, after, split⟩ := ih (t := l) (by simpa [descend] using left)
                (by simpa [descend] using right)
              exact ⟨before, after ++ r.leaves, by simp [leaves, split]⟩
          | true =>
              obtain ⟨before, after, split⟩ := ih (t := r) (by simpa [descend] using left)
                (by simpa [descend] using right)
              exact ⟨l.leaves ++ before, after, by simp [leaves, split]⟩

theorem pairUp_leaves (ts : List (BinTree α)) :
    (pairUp node ts).flatMap leaves = ts.flatMap leaves := by
  induction ts using pairUp.induct with
  | case1 => rfl
  | case2 a => rfl
  | case3 a b rest ih => simp [pairUp, leaves, ih]

theorem climb_leaves (fuel : Nat) (ts : List (BinTree α)) :
    (climb node fuel ts).flatMap leaves = ts.flatMap leaves := by
  induction fuel generalizing ts with
  | zero => rfl
  | succ fuel ih =>
      simp only [climb]
      split
      · rw [ih, pairUp_leaves]
      · rfl

end BinTree

end NexusFS.Lib
