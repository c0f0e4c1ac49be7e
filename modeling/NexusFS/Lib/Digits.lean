/- GID: NexusFS/Lib/Digits
   layer: library
   digest: Digits of naturals read back, the characters they use, and texts split at a mark. -/

import Mathlib.Data.List.Basic
import Mathlib.Data.Nat.Notation

set_option autoImplicit false
set_option relaxedAutoImplicit false

namespace NexusFS.Lib

section Digits

def digitValue (c : Char) : Nat := ((List.range 16).find? fun d => Nat.digitChar d = c).getD 0

def readDigits (base : Nat) (chars : List Char) : Nat :=
  chars.foldl (fun n c => n * base + digitValue c) 0

private theorem digitValue_digitChar {d : Nat} (small : d < 16) : digitValue d.digitChar = d := by
  have all : ∀ d < 16, digitValue (Nat.digitChar d) = d := by decide
  exact all d small

theorem readDigits_toDigits {base : Nat} (large : 1 < base) (small : base ≤ 16) (n : Nat) :
    readDigits base (Nat.toDigits base n) = n := by
  induction n using Nat.strongRecOn with
  | ind n ih =>
      rw [Nat.toDigits_eq_if large]
      split
      · rename_i below
        unfold readDigits
        rw [List.foldl_cons, List.foldl_nil, digitValue_digitChar (by omega), Nat.zero_mul, Nat.zero_add]
      · rename_i above
        have smaller : n / base < n := Nat.div_lt_self (by omega) large
        have rest := Nat.mod_lt n (show 0 < base by omega)
        have front := ih _ smaller
        unfold readDigits at front ⊢
        rw [List.foldl_append, front, List.foldl_cons, List.foldl_nil, digitValue_digitChar (by omega)]
        exact Nat.div_add_mod' n base

theorem readDigits_zeros (base k : Nat) (chars : List Char) :
    readDigits base (List.replicate k '0' ++ chars) = readDigits base chars := by
  induction k with
  | zero => rfl
  | succ k ih =>
      rw [List.replicate_succ, List.cons_append]
      have zero : digitValue '0' = 0 := by decide
      unfold readDigits at ih ⊢
      rw [List.foldl_cons, zero, Nat.zero_mul]
      exact ih

theorem toDigits_injective {base : Nat} (large : 1 < base) (small : base ≤ 16) {n m : Nat}
    (same : Nat.toDigits base n = Nat.toDigits base m) : n = m := by
  have read := congrArg (readDigits base) same
  rwa [readDigits_toDigits large small, readDigits_toDigits large small] at read

theorem notMem_toDigits {base : Nat} (large : 1 < base) {c : Char}
    (no_digit : ∀ d < 16, Nat.digitChar d ≠ c) (no_star : '*' ≠ c) (n : Nat) :
    c ∉ Nat.toDigits base n := by
  have other : ∀ d, Nat.digitChar d ≠ c := by
    intro d
    rcases Nat.lt_or_ge d 16 with small | beyond
    · exact no_digit d small
    · have star : d.digitChar = '*' := by
        unfold Nat.digitChar
        repeat rw [if_neg (by omega)]
      rw [star]
      exact no_star
  induction n using Nat.strongRecOn with
  | ind n ih =>
      rw [Nat.toDigits_eq_if large]
      split
      · rw [List.mem_singleton]
        exact (other n).symm
      · rename_i above
        have smaller : n / base < n := Nat.div_lt_self (by omega) large
        rw [List.mem_append, List.mem_singleton]
        rintro (front | last)
        · exact ih _ smaller front
        · exact other _ last.symm

end Digits

section Marks

variable {A : Type} {mark : A} {xs ys a b : List A}

private theorem eq_of_first_mark (left : mark ∉ xs) (right : mark ∉ ys)
    (same : xs ++ mark :: a = ys ++ mark :: b) : xs = ys ∧ a = b := by
  induction xs generalizing ys with
  | nil =>
      cases ys with
      | nil => exact ⟨rfl, (List.cons.inj same).2⟩
      | cons y ys => exact absurd ((List.cons.inj same).1 ▸ List.mem_cons_self) right
  | cons x xs ih =>
      cases ys with
      | nil => exact absurd ((List.cons.inj same).1 ▸ List.mem_cons_self) left
      | cons y ys =>
          obtain ⟨rfl, later⟩ := List.cons.inj same
          obtain ⟨rfl, rest⟩ := ih (fun inside => left (List.mem_cons_of_mem _ inside))
            (fun inside => right (List.mem_cons_of_mem _ inside)) later
          exact ⟨rfl, rest⟩

theorem eq_of_last_mark (left : mark ∉ xs) (right : mark ∉ ys)
    (same : a ++ mark :: xs = b ++ mark :: ys) : a = b ∧ xs = ys := by
  have turned := congrArg List.reverse same
  simp only [List.reverse_append, List.reverse_cons, List.append_assoc, List.singleton_append] at turned
  obtain ⟨tails, fronts⟩ := eq_of_first_mark (by simpa using left) (by simpa using right) turned
  exact ⟨List.reverse_injective fronts, List.reverse_injective tails⟩

end Marks

end NexusFS.Lib
