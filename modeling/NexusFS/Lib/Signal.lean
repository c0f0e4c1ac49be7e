/- GID: NexusFS/Lib/Signal
   digest: A mailbox of one slot, whose reader waits, empties it, looks at the world once and tells. -/

import Mathlib.Logic.Relation

/-!
Whoever changes the world says so afterwards, by filling a slot that may be full already. The reader
takes the slot, lets some time pass, empties the slot again, looks, and tells one receiver after the
other what it saw.
-/

set_option autoImplicit false
set_option relaxedAutoImplicit false

namespace NexusFS.Lib

/-- What the reader is doing. -/
inductive Stage (R P : Type) where
  | idle
  | settling
  | draining
  | reading
  | telling (report : R) (rest : List P)

/-- A world, the changes of it that were not signalled yet, the slot, and the reports that were sent. -/
structure Signal (W R P : Type) where
  world : W
  owed : Nat
  full : Bool
  stage : Stage R P
  tried : List (P × R)
  changes : Nat

namespace Signal

variable {W R P : Type}

/-- Nothing is to be signalled, the slot is empty, and the reader waits for it. -/
structure Quiet (s : Signal W R P) : Prop where
  none_owed : s.owed = 0
  empty : s.full = false
  idle : s.stage = .idle

def silent (world : W) : Signal W R P := ⟨world, 0, false, .idle, [], 0⟩

section Steps

variable (read : W → R) (receivers : List P)

/-- A step that signals a change, or that the reader takes. -/
inductive Own (s : Signal W R P) : Signal W R P → Prop
  | send (owes : s.owed ≠ 0) : Own s { s with owed := s.owed - 1, full := true }
  | receive (waits : s.stage = .idle) (signalled : s.full = true) :
      Own s { s with full := false, stage := .settling }
  | settle (slept : s.stage = .settling) : Own s { s with stage := .draining }
  | drop (drains : s.stage = .draining) (again : s.full = true) : Own s { s with full := false }
  | drained (drains : s.stage = .draining) (empty : s.full = false) : Own s { s with stage := .reading }
  | look (reads : s.stage = .reading) : Own s { s with stage := .telling (read s.world) receivers }
  | tell {report : R} {receiver : P} {rest : List P}
      (tells : s.stage = .telling report (receiver :: rest)) :
      Own s { s with stage := .telling report rest, tried := s.tried ++ [(receiver, report)] }
  | done {report : R} (told : s.stage = .telling report []) : Own s { s with stage := .idle }

/-- The world moves by itself, a change that is to be signalled is made, or a change is worked on. -/
inductive Step (moves publishes : W → W → Prop) (s : Signal W R P) : Signal W R P → Prop
  | move {world : W} (moved : moves s.world world) : Step moves publishes s { s with world := world }
  | publish {world : W} (changed : publishes s.world world) :
      Step moves publishes s
        { s with world := world, owed := s.owed + 1, changes := s.changes + 1 }
  | own {t : Signal W R P} (step : Own read receivers s t) : Step moves publishes s t

/-- So many steps that make no change. -/
inductive OwnRun (s : Signal W R P) : Nat → Signal W R P → Prop
  | stay : OwnRun s 0 s
  | step {n : Nat} {t u : Signal W R P} (before : OwnRun s n t) (next : Own read receivers t u) :
      OwnRun s (n + 1) u

end Steps

section Promise

variable {read : W → R} {receivers : List P} {moves publishes : W → W → Prop} {Shows : R → Prop}
  {s t : Signal W R P}

def Told (Shows : R → Prop) (s : Signal W R P) (receiver : P) : Prop :=
  ∃ report, (receiver, report) ∈ s.tried ∧ Shows report

def Stage.Early : Stage R P → Prop
  | .settling | .draining | .reading => True
  | _ => False

/-- The reports that were sent, and the one that is being sent, show it to every receiver. -/
def Serves (Shows : R → Prop) (receivers : List P) (s : Signal W R P) : Prop :=
  match s.stage with
  | .idle => ∀ receiver ∈ receivers, Told Shows s receiver
  | .telling report rest =>
      Shows report ∧ ∀ receiver ∈ receivers, receiver ∈ rest ∨ Told Shows s receiver
  | _ => False

def Promised (Shows : R → Prop) (receivers : List P) (s : Signal W R P) : Prop :=
  s.owed ≠ 0 ∨ s.full = true ∨ Stage.Early s.stage ∨ Serves Shows receivers s

theorem Told.later {receiver : P} (told : Told Shows s receiver)
    (kept : ∀ sent ∈ s.tried, sent ∈ t.tried) : Told Shows t receiver := by
  obtain ⟨report, sent, shows⟩ := told
  exact ⟨report, kept _ sent, shows⟩

theorem Promised.own (promised : Promised Shows receivers s) (shows : Shows (read s.world))
    (step : Own read receivers s t) : Promised Shows receivers t := by
  cases step with
  | send owes => exact .inr (.inl rfl)
  | receive waits signalled => exact .inr (.inr (.inl trivial))
  | settle slept => exact .inr (.inr (.inl trivial))
  | drop drains again => exact .inr (.inr (.inl (by simp [drains, Stage.Early])))
  | drained drains empty => exact .inr (.inr (.inl trivial))
  | look reads =>
      exact .inr (.inr (.inr ⟨shows, fun receiver member => .inl member⟩))
  | tell tells =>
      rename_i report receiver rest
      rcases promised with owes | full | early | serves
      · exact .inl owes
      · exact .inr (.inl full)
      · rw [tells] at early
        exact early.elim
      · simp only [Serves, tells] at serves
        obtain ⟨shown, others⟩ := serves
        refine .inr (.inr (.inr ⟨shown, fun other member => ?_⟩))
        rcases others other member with ahead | told
        · rcases List.mem_cons.mp ahead with rfl | ahead
          · exact .inr ⟨report, List.mem_append_right _ (List.mem_singleton.mpr rfl), shown⟩
          · exact .inl ahead
        · exact .inr (told.later fun sent member => List.mem_append_left _ member)
  | done told =>
      rcases promised with owes | full | early | serves
      · exact .inl owes
      · exact .inr (.inl full)
      · rw [told] at early
        exact early.elim
      · simp only [Serves, told] at serves
        refine .inr (.inr (.inr fun receiver member => ?_))
        rcases serves.2 receiver member with none | sent
        · cases none
        · exact sent.later fun _ member => member

theorem Promised.step {Has : W → Prop} (promised : Promised Shows receivers s) (has : Has s.world)
    (shows : ∀ world, Has world → Shows (read world))
    (step : Step read receivers moves publishes s t) : Promised Shows receivers t := by
  cases step with
  | move moved => exact promised
  | publish changed => exact .inl (Nat.succ_ne_zero _)
  | own step => exact promised.own (shows _ has) step

theorem Step.world (step : Step read receivers moves publishes s t) :
    t.world = s.world ∨ moves s.world t.world ∨ publishes s.world t.world := by
  cases step with
  | move moved => exact .inr (.inl moved)
  | publish changed => exact .inr (.inr changed)
  | own step => cases step <;> exact .inl rfl

theorem Quiet.told (promised : Promised Shows receivers s) (quiet : Quiet s) :
    ∀ receiver ∈ receivers, Told Shows s receiver := by
  rcases promised with owes | full | early | serves
  · exact absurd quiet.none_owed owes
  · rw [quiet.empty] at full
    cases full
  · rw [quiet.idle] at early
    exact early.elim
  · simpa only [Serves, quiet.idle] using serves

end Promise

section Settling

variable {read : W → R} {receivers : List P} {moves publishes : W → W → Prop} {s t : Signal W R P} {n : Nat}

def Stage.left (receivers : List P) : Stage R P → Nat
  | .idle => 0
  | .telling _ rest => rest.length + 1
  | .reading => receivers.length + 2
  | .draining => receivers.length + 3
  | .settling => receivers.length + 4

def rank (receivers : List P) (s : Signal W R P) : Nat :=
  s.owed * (receivers.length + 7) + (if s.full then receivers.length + 6 else 0) +
    Stage.left receivers s.stage

theorem Own.lowers (step : Own read receivers s t) : rank receivers t < rank receivers s := by
  obtain ⟨world, owed, full, stage, tried, changes⟩ := s
  cases step with
  | send owes =>
      obtain ⟨before, rfl⟩ := Nat.exists_eq_succ_of_ne_zero owes
      simp only [rank, Nat.succ_eq_add_one, Nat.add_sub_cancel, Nat.succ_mul, if_true]
      omega
  | receive waits signalled =>
      simp only at waits signalled
      subst waits signalled
      simp only [rank, Stage.left, if_true]
      simp
  | settle slept =>
      simp only at slept
      subst slept
      simp only [rank, Stage.left]
      omega
  | drop drains again =>
      simp only at drains again
      subst drains again
      simp only [rank, if_true]
      simp
  | drained drains empty =>
      simp only at drains
      subst drains
      simp only [rank, Stage.left]
      omega
  | look reads =>
      simp only at reads
      subst reads
      simp only [rank, Stage.left]
      omega
  | tell tells =>
      simp only at tells
      subst tells
      simp only [rank, Stage.left, List.length_cons]
      omega
  | done told =>
      simp only at told
      subst told
      simp only [rank, Stage.left]
      omega

theorem Own.world (step : Own read receivers s t) : t.world = s.world := by
  cases step <;> rfl

theorem quiet_or_goes_on (read : W → R) (receivers : List P) (s : Signal W R P) :
    Quiet s ∨ ∃ t, Own read receivers s t := by
  by_cases owes : s.owed = 0
  · cases stage : s.stage with
    | idle =>
        cases full : s.full with
        | false => exact .inl ⟨owes, full, stage⟩
        | true => exact .inr ⟨_, .receive stage full⟩
    | settling => exact .inr ⟨_, .settle stage⟩
    | draining =>
        cases full : s.full with
        | false => exact .inr ⟨_, .drained stage full⟩
        | true => exact .inr ⟨_, .drop stage full⟩
    | reading => exact .inr ⟨_, .look stage⟩
    | telling report rest =>
        cases rest with
        | nil => exact .inr ⟨_, .done stage⟩
        | cons receiver rest => exact .inr ⟨_, .tell stage⟩
  · exact .inr ⟨_, .send owes⟩

theorem OwnRun.bounded (run : OwnRun read receivers s n t) :
    n + rank receivers t ≤ rank receivers s ∧ t.world = s.world := by
  induction run with
  | stay => exact ⟨by omega, rfl⟩
  | step before next ih =>
      have lower := next.lowers
      exact ⟨by omega, next.world.trans ih.2⟩

theorem OwnRun.first {u : Signal W R P} (next : Own read receivers s t)
    (run : OwnRun read receivers t n u) : OwnRun read receivers s (n + 1) u := by
  induction run with
  | stay => exact .step .stay next
  | step before last ih => exact .step ih last

theorem settles (read : W → R) (receivers : List P) (s : Signal W R P) :
    ∃ n t, OwnRun read receivers s n t ∧ Quiet t := by
  induction measure : rank receivers s using Nat.strongRecOn generalizing s with
  | ind bound ih =>
      rcases quiet_or_goes_on read receivers s with quiet | ⟨t, next⟩
      · exact ⟨0, s, .stay, quiet⟩
      · obtain ⟨n, u, run, quiet⟩ := ih _ (measure ▸ next.lowers) t rfl
        exact ⟨n + 1, u, run.first next, quiet⟩

end Settling

section Economy

variable {read : W → R} {receivers : List P} {moves publishes : W → W → Prop} {s t : Signal W R P}

def Stage.ahead (receivers : List P) : Stage R P → Nat
  | .idle => 0
  | .telling _ rest => rest.length
  | _ => receivers.length

def Frugal (receivers : List P) (s : Signal W R P) : Prop :=
  s.tried.length + Stage.ahead receivers s.stage +
      (s.owed + if s.full then 1 else 0) * receivers.length ≤ s.changes * receivers.length

theorem frugal_silent (receivers : List P) (world : W) : Frugal receivers (silent world : Signal W R P) := by
  simp [Frugal, silent, Stage.ahead]

theorem Frugal.step (frugal : Frugal receivers s) (step : Step read receivers moves publishes s t) :
    Frugal receivers t := by
  obtain ⟨world, owed, full, stage, tried, changes⟩ := s
  unfold Frugal at frugal ⊢
  cases step with
  | move moved => exact frugal
  | publish changed =>
      simp only [Nat.add_mul, Nat.one_mul] at frugal ⊢
      omega
  | own step =>
      cases step with
      | send owes =>
          obtain ⟨before, rfl⟩ := Nat.exists_eq_succ_of_ne_zero owes
          simp only [Nat.succ_eq_add_one, Nat.add_sub_cancel, Nat.add_mul, Nat.one_mul, if_true] at frugal ⊢
          omega
      | receive waits signalled =>
          simp only at waits signalled
          subst waits signalled
          simp only [Stage.ahead, Nat.add_mul, if_true] at frugal ⊢
          simp
          omega
      | settle slept =>
          simp only at slept
          subst slept
          exact frugal
      | drop drains again =>
          simp only at drains again
          subst drains again
          simp only [Nat.add_mul, if_true] at frugal ⊢
          simp
          omega
      | drained drains empty =>
          simp only at drains
          subst drains
          exact frugal
      | look reads =>
          simp only at reads
          subst reads
          exact frugal
      | tell tells =>
          simp only at tells
          subst tells
          simp only [Stage.ahead, List.length_cons, List.length_append, List.length_nil] at frugal ⊢
          omega
      | done told =>
          simp only at told
          subst told
          exact frugal

end Economy

end Signal

end NexusFS.Lib
