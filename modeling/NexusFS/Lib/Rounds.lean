/- GID: NexusFS/Lib/Rounds
   layer: library
   digest: Loops driven by a stream of replies, and the measure that ends them. -/

import Mathlib.Algebra.GroupWithZero.Nat
import Mathlib.Tactic.Common

set_option autoImplicit false
set_option relaxedAutoImplicit false

namespace NexusFS.Lib

universe u v w

variable {ι : Type u} {σ : Type v} {ρ : Type w}

/-- How one round of a loop ends: with another round, or with the result of the loop. -/
inductive Round (σ : Type v) (ρ : Type w) where
  | again (next : σ)
  | stop (result : ρ)

def rounds (round : ι → σ → Round σ ρ) : Nat → (Nat → ι) → σ → Option ρ
  | 0, _, _ => none
  | n + 1, replies, s =>
      match round (replies 0) s with
      | .again next => rounds round n (fun i => replies (i + 1)) next
      | .stop result => some result

def visits (round : ι → σ → Round σ ρ) : Nat → (Nat → ι) → σ → List (ι × σ)
  | 0, _, _ => []
  | n + 1, replies, s =>
      (replies 0, s) ::
        match round (replies 0) s with
        | .again next => visits round n (fun i => replies (i + 1)) next
        | .stop _ => []

def Shrinks (round : ι → σ → Round σ ρ) (size : σ → Nat) : Prop :=
  ∀ reply s next, round reply s = .again next → size next < size s

theorem Shrinks.rounds_end {round : ι → σ → Round σ ρ} {size : σ → Nat}
    (shrinks : Shrinks round size) (replies : Nat → ι) (s : σ) {n : Nat} (enough : size s < n) :
    ∃ result, rounds round n replies s = some result := by
  induction n generalizing replies s with
  | zero => omega
  | succ n ih =>
      unfold rounds
      cases run : round (replies 0) s with
      | stop result => exact ⟨result, rfl⟩
      | again next =>
          have smaller := shrinks (replies 0) s next run
          exact ih _ next (by omega)

theorem rounds_account {round : ι → σ → Round σ ρ} (cost : ι → σ → Nat) (spent : σ → Nat)
    (total : ρ → Nat)
    (goes_on : ∀ reply s next, round reply s = .again next → spent next = spent s + cost reply s)
    (ends : ∀ reply s result, round reply s = .stop result → total result = spent s + cost reply s)
    {n : Nat} {replies : Nat → ι} {s : σ} {result : ρ}
    (run : rounds round n replies s = some result) :
    total result = spent s + ((visits round n replies s).map fun v => cost v.1 v.2).sum := by
  induction n generalizing replies s with
  | zero => cases run
  | succ n ih =>
      unfold rounds at run
      unfold visits
      cases step : round (replies 0) s with
      | stop last =>
          rw [step] at run
          obtain rfl := Option.some.inj run
          simp [ends _ _ _ step]
      | again next =>
          rw [step] at run
          rw [ih run, goes_on _ _ _ step, List.map_cons, List.sum_cons]
          exact Nat.add_assoc _ _ _

/-- Amounts that are spent one after another until the budget is used up never overdraw it. -/
def StaysWithin (budget : Nat) : List Nat → Prop
  | [] => True
  | amount :: later => 0 < budget → amount ≤ budget ∧ StaysWithin (budget - amount) later

def decideStaysWithin : (budget : Nat) → (amounts : List Nat) → Decidable (StaysWithin budget amounts)
  | _, [] => .isTrue trivial
  | budget, amount :: later =>
      match decideStaysWithin (budget - amount) later with
      | .isTrue rest => decidable_of_iff (0 < budget → amount ≤ budget)
          ⟨fun now some_left => ⟨now some_left, rest⟩, fun within some_left => (within some_left).1⟩
      | .isFalse not_rest => decidable_of_iff (¬0 < budget)
          ⟨fun spent some_left => absurd some_left spent, fun within some_left => not_rest (within some_left).2⟩

instance (budget : Nat) (amounts : List Nat) : Decidable (StaysWithin budget amounts) :=
  decideStaysWithin budget amounts

section Offers

variable {τ : Type v} (offer : ι → τ → Nat) (follow : ι → τ → Option τ)

/-- What a stream of replies offers, reply by reply, to a partner that takes everything. -/
def offers : Nat → (Nat → ι) → τ → List Nat
  | 0, _, _ => []
  | n + 1, replies, t =>
      offer (replies 0) t ::
        match follow (replies 0) t with
        | some next => offers n (fun i => replies (i + 1)) next
        | none => []

variable {round : ι → σ → Round σ ρ}

theorem rounds_within_iff (core : σ → τ) (spent : σ → Nat) (total : ρ → Nat) (limit : Nat)
    (goes_on : ∀ reply s next, round reply s = .again next → spent s < limit ∧
      spent next = spent s + offer reply (core s) ∧ follow reply (core s) = some (core next))
    (ends : ∀ reply s result, round reply s = .stop result →
      limit ≤ spent s ∧ total result = spent s ∨
        spent s < limit ∧ total result = spent s + offer reply (core s) ∧ follow reply (core s) = none)
    {n : Nat} {replies : Nat → ι} {s : σ} {result : ρ} (start : spent s ≤ limit)
    (run : rounds round n replies s = some result) :
    total result ≤ limit ↔ StaysWithin (limit - spent s) (offers offer follow n replies (core s)) := by
  have grows : ∀ {n : Nat} {replies : Nat → ι} {s : σ}, rounds round n replies s = some result →
      spent s ≤ total result := by
    intro n
    induction n with
    | zero => exact fun run => by cases run
    | succ n ih =>
        intro replies s run
        unfold rounds at run
        cases step : round (replies 0) s with
        | stop last =>
            rw [step] at run
            obtain rfl := Option.some.inj run
            rcases ends _ _ _ step with ⟨-, sum⟩ | ⟨-, sum, -⟩ <;> omega
        | again next =>
            rw [step] at run
            have later := ih run
            have sum := (goes_on _ _ _ step).2.1
            omega
  induction n generalizing replies s with
  | zero => cases run
  | succ n ih =>
      unfold rounds at run
      unfold offers StaysWithin
      cases step : round (replies 0) s with
      | stop last =>
          rw [step] at run
          obtain rfl := Option.some.inj run
          rcases ends _ _ _ step with ⟨full, sum⟩ | ⟨below, sum, ended⟩
          · rw [sum]
            exact iff_of_true start fun some_left => absurd some_left (by omega)
          · rw [ended, sum]
            constructor
            · exact fun within _ => ⟨by omega, trivial⟩
            · intro within
              have fits := (within (by omega)).1
              omega
      | again next =>
          rw [step] at run
          obtain ⟨below, sum, followed⟩ := goes_on _ _ _ step
          rw [followed]
          dsimp only at run ⊢
          by_cases fits : offer (replies 0) (core s) ≤ limit - spent s
          · have within : spent next ≤ limit := by omega
            have left : limit - spent next = limit - spent s - offer (replies 0) (core s) := by omega
            refine (ih within run).trans ?_
            rw [left]
            exact ⟨fun rest _ => ⟨fits, rest⟩, fun whole => (whole (by omega)).2⟩
          · refine iff_of_false (fun within => ?_) fun within => fits (within (by omega)).1
            have later := grows run
            omega

end Offers

section Partner

variable (round : ι → σ → Round σ ρ)

/-- Where the loop stands after `n` rounds with a partner that answers what it is asked. -/
def stateAt : (Nat → σ → ι) → Nat → σ → σ
  | _, 0, s => s
  | answer, n + 1, s =>
      match round (answer 0 s) s with
      | .again next => stateAt (fun i => answer (i + 1)) n next
      | .stop _ => s

def answered (answer : Nat → σ → ι) (s : σ) (n : Nat) : ι := answer n (stateAt round answer n s)

variable {round}

theorem answered_again {answer : Nat → σ → ι} {s next : σ} (run : round (answer 0 s) s = .again next) :
    (fun n => answered round answer s (n + 1)) = answered round (fun i => answer (i + 1)) next := by
  funext n
  rw [answered, stateAt, run]
  rfl

theorem stateAt_induction {answer : Nat → σ → ι} {keeps : σ → Prop} (n : Nat) {s : σ} (start : keeps s)
    (goes_on : ∀ reply s next, keeps s → round reply s = .again next → keeps next) :
    keeps (stateAt round answer n s) := by
  induction n generalizing answer s with
  | zero => exact start
  | succ n ih =>
      unfold stateAt
      cases run : round (answer 0 s) s with
      | again next => exact ih (goes_on _ _ _ start run)
      | stop result => exact start

theorem rounds_induction {keeps : σ → Prop} {ends : ρ → Prop} {n : Nat} {replies : Nat → ι} {s : σ}
    {result : ρ} (start : keeps s) (goes_on : ∀ reply s next, keeps s → round reply s = .again next → keeps next)
    (stops : ∀ reply s last, keeps s → round reply s = .stop last → ends last)
    (run : rounds round n replies s = some result) : ends result := by
  induction n generalizing replies s with
  | zero => cases run
  | succ n ih =>
      unfold rounds at run
      cases step : round (replies 0) s with
      | again next =>
          rw [step] at run
          exact ih (goes_on _ _ _ start step) run
      | stop last =>
          rw [step] at run
          obtain rfl := Option.some.inj run
          exact stops _ _ _ start step

end Partner

end NexusFS.Lib
