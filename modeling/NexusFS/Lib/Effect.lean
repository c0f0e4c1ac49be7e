/- GID: NexusFS/Lib/Effect
   layer: library
   digest: Fallible stateful programs whose writes survive their errors, and what they preserve. -/

import Mathlib.Tactic.Common

set_option autoImplicit false
set_option relaxedAutoImplicit false

namespace NexusFS.Lib.Effect

universe u

variable {ε σ α β : Type u}

def finalState : EStateM.Result ε σ α → σ
  | .ok _ s => s
  | .error _ s => s

@[simp] theorem finalState_ok (a : α) (s : σ) :
    finalState (.ok a s : EStateM.Result ε σ α) = s := rfl

@[simp] theorem finalState_error (e : ε) (s : σ) :
    finalState (.error e s : EStateM.Result ε σ α) = s := rfl

def answer : EStateM.Result ε σ α → Option α
  | .ok a _ => some a
  | .error _ _ => none

def returned : EStateM.Result ε σ α → Bool
  | .ok _ _ => true
  | .error _ _ => false

theorem ran_of_answer {run : EStateM.Result ε σ α} {a : α} (answered : answer run = some a) :
    run = .ok a (finalState run) := by
  cases run with
  | ok last t =>
      obtain rfl := Option.some.inj answered
      rfl
  | error e t => cases answered

theorem exists_of_returned {run : EStateM.Result ε σ α} (ok : returned run = true) :
    ∃ a t, run = .ok a t := by
  cases run with
  | ok a t => exact ⟨a, t, rfl⟩
  | error e t => cases ok

theorem ran_of_returned {run : EStateM.Result ε σ PUnit} (ok : returned run = true) :
    run = .ok ⟨⟩ (finalState run) := by
  cases run with
  | ok _ t => rfl
  | error e t => cases ok

@[simp] theorem bind_run (x : EStateM ε σ α) (f : α → EStateM ε σ β) (s : σ) :
    (x >>= f) s = match x s with
      | .ok a s' => f a s'
      | .error e s' => .error e s' := rfl

@[simp] theorem map_run (f : α → β) (x : EStateM ε σ α) (s : σ) :
    (f <$> x) s = match x s with
      | .ok a s' => .ok (f a) s'
      | .error e s' => .error e s' := rfl

@[simp] theorem pure_run (a : α) (s : σ) : (pure a : EStateM ε σ α) s = .ok a s := rfl

@[simp] theorem get_run (s : σ) : (get : EStateM ε σ σ) s = .ok s s := rfl

@[simp] theorem set_run (s t : σ) : (set t : EStateM ε σ PUnit) s = .ok ⟨⟩ t := rfl

@[simp] theorem throw_run (e : ε) (s : σ) : (throw e : EStateM ε σ α) s = .error e s := rfl

@[simp] theorem modify_run {ε σ : Type u} (f : σ → σ) (s : σ) :
    (modify f : EStateM ε σ PUnit) s = .ok ⟨⟩ (f s) := rfl

theorem bind_run_eq_ok {x : EStateM ε σ α} {f : α → EStateM ε σ β} {b : β} {s t : σ} :
    (x >>= f) s = .ok b t ↔ ∃ a u, x s = .ok a u ∧ f a u = .ok b t := by
  rw [bind_run]
  constructor
  · intro run
    cases first : x s with
    | error e u =>
        rw [first] at run
        cases run
    | ok a u =>
        rw [first] at run
        exact ⟨a, u, rfl, run⟩
  · rintro ⟨a, u, first, rest⟩
    rw [first]
    exact rest

theorem bind_eq_ok {x : Except ε α} {f : α → Except ε β} {b : β} :
    x >>= f = .ok b ↔ ∃ a, x = .ok a ∧ f a = .ok b := by
  cases x with
  | error e =>
      constructor
      · intro run
        cases run
      · rintro ⟨_, run, -⟩
        cases run
  | ok a =>
      constructor
      · exact fun rest => ⟨a, rfl, rest⟩
      · rintro ⟨_, run, rest⟩
        cases run
        exact rest

theorem eq_ok_of_toOption {x : Except ε α} {a : α} (same : x.toOption = some a) : x = .ok a := by
  cases x with
  | error e => cases same
  | ok b => exact congrArg Except.ok (Option.some.inj same)

theorem forM_cons_run {γ : Type u} (c : γ) (l : List γ) (f : γ → EStateM ε σ PUnit) (s : σ) :
    (c :: l).forM f s = match f c s with
      | .ok _ s' => l.forM f s'
      | .error e s' => .error e s' := by
  show (f c >>= fun _ => l.forM f) s = _
  rw [bind_run]
  cases f c s <;> rfl

/-- Every run of the program from a state with the property ends in one with it, also when the
run fails. -/
def Keeps (p : σ → Prop) (x : EStateM ε σ α) : Prop := ∀ s, p s → p (finalState (x s))

theorem Keeps.pure {p : σ → Prop} (a : α) : Keeps p (pure a : EStateM ε σ α) :=
  fun _ holds => holds

theorem Keeps.throw {p : σ → Prop} (e : ε) : Keeps p (throw e : EStateM ε σ α) :=
  fun _ holds => holds

theorem Keeps.modify {p : σ → Prop} {f : σ → σ} (step : ∀ s, p s → p (f s)) :
    Keeps p (modify f : EStateM ε σ PUnit) :=
  fun s holds => step s holds

theorem Keeps.bind {p : σ → Prop} {x : EStateM ε σ α} {f : α → EStateM ε σ β}
    (first : Keeps p x) (rest : ∀ a, Keeps p (f a)) : Keeps p (x >>= f) := by
  intro s holds
  have after := first s holds
  simp only [bind_run]
  cases run : x s with
  | ok a s' =>
      rw [run] at after
      exact rest a s' after
  | error e s' =>
      rw [run] at after
      exact after

theorem Keeps.set {p : σ → Prop} {t : σ} (holds : p t) :
    Keeps p (MonadStateOf.set t : EStateM ε σ PUnit) :=
  fun _ _ => holds

theorem Keeps.read {p : σ → Prop} {f : σ → EStateM ε σ β} (rest : ∀ s, p s → Keeps p (f s)) :
    Keeps p (MonadState.get >>= f) :=
  fun s holds => rest s holds s holds

theorem Keeps.mapM {γ : Type u} {p : σ → Prop} (l : List γ) {f : γ → EStateM ε σ β}
    (each : ∀ c, Keeps p (f c)) : Keeps p (l.mapM f) := by
  induction l with
  | nil => exact Keeps.pure []
  | cons c l ih =>
      rw [List.mapM_cons]
      exact (each c).bind fun _ => ih.bind fun _ => Keeps.pure _

theorem Keeps.forM {γ : Type u} {p : σ → Prop} (l : List γ) {f : γ → EStateM ε σ PUnit}
    (each : ∀ c ∈ l, Keeps p (f c)) : Keeps p (l.forM f) := by
  induction l with
  | nil => exact Keeps.pure _
  | cons c l ih =>
      refine Keeps.bind (each c (by simp)) fun _ => ?_
      exact ih fun d hd => each d (List.mem_cons_of_mem c hd)

def Ends (p : σ → Prop) (e : ε → σ → Prop) : EStateM.Result ε σ α → Prop
  | .ok _ s => p s
  | .error err s => e err s

theorem Ends.bind {p q : σ → Prop} {e : ε → σ → Prop} {x : EStateM ε σ α}
    {f : α → EStateM ε σ β} {s : σ} (first : Ends p e (x s))
    (rest : ∀ a s', x s = .ok a s' → p s' → Ends q e (f a s')) : Ends q e ((x >>= f) s) := by
  rw [bind_run]
  cases run : x s with
  | ok a s' =>
      rw [run] at first
      exact rest a s' run first
  | error err s' =>
      rw [run] at first
      exact first

theorem Ends.imp {p q : σ → Prop} {e g : ε → σ → Prop} {r : EStateM.Result ε σ α}
    (ends : Ends p e r) (ok : ∀ s, p s → q s) (err : ∀ er s, e er s → g er s) : Ends q g r := by
  cases r with
  | ok a s => exact ok s ends
  | error er s => exact err er s ends

theorem Ends.finalState {p : σ → Prop} {r : EStateM.Result ε σ α}
    (ends : Ends p (fun _ => p) r) : p (finalState r) := by
  cases r <;> exact ends

theorem Ends.of_finalState {p : σ → Prop} {r : EStateM.Result ε σ α}
    (holds : p (Effect.finalState r)) : Ends p (fun _ => p) r := by
  cases r <;> exact holds

theorem Ends.forM {γ : Type u} {p : σ → Prop} {e : ε → σ → Prop} (l : List γ)
    {f : γ → EStateM ε σ PUnit} (each : ∀ c ∈ l, ∀ s, p s → Ends p e (f c s)) {s : σ} (start : p s) :
    Ends p e (l.forM f s) := by
  induction l generalizing s with
  | nil => exact start
  | cons c l ih =>
      refine Ends.bind (each c List.mem_cons_self s start) fun _ s' _ after => ?_
      exact ih (fun d member => each d (List.mem_cons_of_mem c member)) after

def mapState (f : σ → σ) : EStateM.Result ε σ α → EStateM.Result ε σ α
  | .ok a s => .ok a (f s)
  | .error e s => .error e (f s)

def Commutes (f : σ → σ) (x : EStateM ε σ α) : Prop := ∀ s, x (f s) = mapState f (x s)

namespace Commutes

variable {f : σ → σ}

protected theorem pure (a : α) : Commutes f (pure a : EStateM ε σ α) := fun _ => rfl

protected theorem throw (e : ε) : Commutes f (throw e : EStateM ε σ α) := fun _ => rfl

protected theorem modify {f : σ → σ} {g : σ → σ} (same : ∀ s, g (f s) = f (g s)) :
    Commutes f (modify g : EStateM ε σ PUnit) := by
  intro s
  rw [modify_run, modify_run, same]
  rfl

protected theorem bind {x : EStateM ε σ α} {k : α → EStateM ε σ β} (first : Commutes f x)
    (rest : ∀ a, Commutes f (k a)) : Commutes f (x >>= k) := by
  intro s
  rw [bind_run, bind_run, first s]
  cases x s with
  | ok a s' => exact rest a s'
  | error e s' => rfl

protected theorem read {k : σ → EStateM ε σ β} (blind : ∀ s, k (f s) = k s)
    (rest : ∀ s, Commutes f (k s)) : Commutes f (get >>= k) := by
  intro s
  rw [bind_run, bind_run, get_run, get_run]
  show k (f s) (f s) = mapState f (k s s)
  rw [blind]
  exact rest s s

protected theorem mapM {γ : Type u} {k : γ → EStateM ε σ β} (each : ∀ c, Commutes f (k c))
    (l : List γ) : Commutes f (l.mapM k) := by
  induction l with
  | nil => exact .pure []
  | cons c l ih =>
      rw [List.mapM_cons]
      exact (each c).bind fun _ => ih.bind fun _ => .pure _

end Commutes

end NexusFS.Lib.Effect
