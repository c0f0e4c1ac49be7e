/- GID: NexusFS/Core/Drain
   source: crates/core/src/apply.rs
   digest: The attempts a call makes, what holds along them, and where draining stops. -/

import NexusFS.Core.Mutation

/-!
A call attempts one operation after another: the delivered one, then parked ones
until a pass makes no progress. The functions `passAttempts`, `drainAttempts` and
`applyAttempts` list the state and the operation of every attempt, so that a
condition on each step of a run can be stated.
-/

set_option autoImplicit false
set_option relaxedAutoImplicit false

namespace NexusFS.Core

open NexusFS.Lib NexusFS.Lib.Effect NexusFS.Proto NexusFS.Crdt CoreState

section Attempts

variable (env : Env)

def attempt (op : FsOp) : M Mutation := do
  match ← mutate env op with
  | .done => do
      settleApplied env op
      return .done
  | .unmet reason => return .unmet reason

def passAttempts : List FsOp → CoreState → List (CoreState × FsOp)
  | [], _ => []
  | op :: rows, s =>
      if s.isOpApplied op.id then passAttempts rows (s.clearPending op.id)
      else
        (s, op) ::
          match attempt env op s with
          | .ok _ t => passAttempts rows t
          | .error _ _ => []

/-- The attempts of the loop of `drain_pending`. -/
def drainAttempts : Nat → CoreState → List (CoreState × FsOp)
  | 0, _ => []
  | fuel + 1, s =>
      if s.pendingOps.isEmpty then []
      else
        passAttempts env s.pendingOps s ++
          match drainPass env s.pendingOps s with
          | .ok (true, _) t => drainAttempts fuel t
          | _ => []

/-- The attempts of `drain_pending`. -/
def drainRetries (s : CoreState) : List (CoreState × FsOp) :=
  drainAttempts env (s.pending.size + 1) s

/-- The state `drain_pending` starts from, when the first attempt of a call was not refused. -/
def afterFirst (op : FsOp) (s : CoreState) : Option CoreState :=
  match attempt env op s with
  | .ok .done t => some t
  | .ok (.unmet _) t => some (t.storePending op)
  | .error _ _ => none

/-- The parked operations `apply_op` retries after the delivered one. -/
def applyRetries (op : FsOp) (check_policy : Bool) (s : CoreState) : List (CoreState × FsOp) :=
  match verifyOp env op, if check_policy then checkProof env op s.proofs else .ok () with
  | .ok _, .ok _ =>
      if s.isOpApplied op.id then []
      else
        match afterFirst env op (s.appendOp op) with
        | some t => drainRetries env t
        | none => []
  | _, _ => []

/-- All attempts of `apply_op`: the delivered operation and the retries. -/
def applyAttempts (op : FsOp) (check_policy : Bool) (s : CoreState) : List (CoreState × FsOp) :=
  match verifyOp env op, if check_policy then checkProof env op s.proofs else .ok () with
  | .ok _, .ok _ =>
      if s.isOpApplied op.id then []
      else (s.appendOp op, op) :: applyRetries env op check_policy s
  | _, _ => []

end Attempts

section Equations

variable {env : Env}

theorem attempt_run (op : FsOp) (s : CoreState) :
    attempt env op s =
      match mutate env op s with
      | .ok .done t =>
          (match settleApplied env op t with
            | .ok _ t' => .ok .done t'
            | .error e t' => .error e t')
      | .ok (.unmet reason) t => .ok (.unmet reason) t
      | .error e t => .error e t := by
  unfold attempt
  rw [bind_run]
  cases mutate env op s with
  | error e t => rfl
  | ok m t =>
      cases m with
      | done =>
          dsimp only
          rw [bind_run]
          cases settleApplied env op t <;> rfl
      | unmet reason => rfl

theorem drainPass_cons (op : FsOp) (rows : List FsOp) (s : CoreState) :
    drainPass env (op :: rows) s =
      if s.isOpApplied op.id then
        (match drainPass env rows (s.clearPending op.id) with
          | .ok (_, total) t => .ok (true, total) t
          | .error e t => .error e t)
      else
        match attempt env op s with
        | .ok .done t =>
            (match drainPass env rows t with
              | .ok (_, total) t' => .ok (true, total + 1) t'
              | .error e t' => .error e t')
        | .ok (.unmet _) t => drainPass env rows t
        | .error e t => .error e t := by
  conv_lhs => unfold drainPass
  rw [bind_run, get_run]
  dsimp only
  by_cases here : s.isOpApplied op.id
  · rw [if_pos here, if_pos here]
    simp only [bind_run, modify_run]
    cases drainPass env rows (s.clearPending op.id) <;> rfl
  · rw [if_neg here, if_neg here, attempt_run, bind_run]
    cases mutate env op s with
    | error e t => rfl
    | ok m t =>
        cases m with
        | unmet reason => rfl
        | done =>
            dsimp only
            rw [bind_run]
            cases settleApplied env op t with
            | error e t' => rfl
            | ok u t' =>
                dsimp only
                rw [bind_run]
                cases drainPass env rows t' <;> rfl

theorem drainLoop_succ (fuel : Nat) (s : CoreState) :
    drainLoop env (fuel + 1) s =
      if s.pendingOps.isEmpty then .ok 0 s
      else
        match drainPass env s.pendingOps s with
        | .ok (true, total) t =>
            (match drainLoop env fuel t with
              | .ok more t' => .ok (total + more) t'
              | .error e t' => .error e t')
        | .ok (false, total) t => .ok total t
        | .error e t => .error e t := by
  conv_lhs => unfold drainLoop
  rw [bind_run, get_run]
  dsimp only
  split
  · rfl
  · rw [bind_run]
    cases drainPass env s.pendingOps s with
    | error e t => rfl
    | ok result t =>
        obtain ⟨progressed, total⟩ := result
        cases progressed with
        | false => rfl
        | true =>
            simp only [if_true, bind_run]
            cases drainLoop env fuel t <;> rfl

theorem mem_pendingOps {s : CoreState} {op : FsOp} :
    op ∈ s.pendingOps ↔ ∃ id : OpId, s.pending[id]? = some op := by
  simp only [pendingOps, List.mem_map, Prod.exists, BTreeMap.mem_toList]
  constructor
  · rintro ⟨id, found, here, rfl⟩
    exact ⟨id, here⟩
  · rintro ⟨id, here⟩
    exact ⟨id, op, here, rfl⟩

end Equations

section Rule

variable {env : Env} {I : CoreState → Prop} {R : FsOp → Prop} {P : CoreState → FsOp → Prop}
  {E : Err → CoreState → Prop}

/-- What carries a property of states through the attempts of a call: `R` holds of every parked
operation, `P` is the condition on each attempt, and `E` is what a failure leaves. -/
structure AttemptRule (env : Env) (I : CoreState → Prop) (R : FsOp → Prop)
    (P : CoreState → FsOp → Prop) (E : Err → CoreState → Prop) : Prop where
  tried : ∀ {s op}, I s → R op → P s op → op.id ∉ s.applied → Ends I E (attempt env op s)
  cleared : ∀ {s op}, I s → R op → op.id ∈ s.applied → I (s.clearPending op.id)
  parked : ∀ {s op} {id : OpId}, I s → s.pending[id]? = some op → R op

private theorem not_applied_of {s : CoreState} {id : OpId} (here : ¬s.isOpApplied id) :
    id ∉ s.applied := by
  simpa [isOpApplied] using here

namespace AttemptRule

theorem drainPass (rule : AttemptRule env I R P E) {rows : List FsOp} {s : CoreState} (inv : I s)
    (ready : ∀ op ∈ rows, R op) (along : ∀ x ∈ passAttempts env rows s, P x.1 x.2) :
    Ends I E (drainPass env rows s) := by
  induction rows generalizing s with
  | nil => exact inv
  | cons op rows ih =>
      have first := ready op List.mem_cons_self
      have rest : ∀ op ∈ rows, R op := fun other member =>
        ready other (List.mem_cons_of_mem op member)
      rw [drainPass_cons]
      unfold passAttempts at along
      by_cases here : s.isOpApplied op.id
      · rw [if_pos here] at along ⊢
        have applied : op.id ∈ s.applied := by simpa [isOpApplied] using here
        have after := ih (rule.cleared inv first applied) rest along
        cases run : Core.drainPass env rows (s.clearPending op.id) with
        | ok result t =>
            rw [run] at after
            exact after
        | error e t =>
            rw [run] at after
            exact after
      · rw [if_neg here] at along ⊢
        have now := rule.tried inv first (along (s, op) List.mem_cons_self) (not_applied_of here)
        cases run : attempt env op s with
        | error e t =>
            rw [run] at now
            exact now
        | ok outcome t =>
            rw [run] at now along
            have after := ih now rest fun x member => along x (List.mem_cons_of_mem _ member)
            cases outcome with
            | unmet reason => exact after
            | done =>
                dsimp only
                cases later : Core.drainPass env rows t with
                | ok result t' =>
                    rw [later] at after
                    exact after
                | error e t' =>
                    rw [later] at after
                    exact after

private theorem drainLoop (rule : AttemptRule env I R P E) (fuel : Nat) {s : CoreState}
    (inv : I s) (along : ∀ x ∈ drainAttempts env fuel s, P x.1 x.2) :
    Ends I E (drainLoop env fuel s) := by
  induction fuel generalizing s with
  | zero => exact inv
  | succ fuel ih =>
      rw [drainLoop_succ]
      unfold drainAttempts at along
      split
      · exact inv
      · rename_i some_parked
        rw [if_neg some_parked] at along
        have pass := rule.drainPass inv
          (fun op member => by
            obtain ⟨id, here⟩ := mem_pendingOps.mp member
            exact rule.parked inv here)
          (fun x member => along x (List.mem_append_left _ member))
        cases run : Core.drainPass env s.pendingOps s with
        | error e t =>
            rw [run] at pass
            exact pass
        | ok result t =>
            obtain ⟨progressed, total⟩ := result
            rw [run] at pass along
            cases progressed with
            | false => exact pass
            | true =>
                have after := ih pass fun x member => along x (List.mem_append_right _ member)
                dsimp only
                cases later : Core.drainLoop env fuel t with
                | ok more t' =>
                    rw [later] at after
                    exact after
                | error e t' =>
                    rw [later] at after
                    exact after

theorem drainPending (rule : AttemptRule env I R P E) {s : CoreState} (inv : I s)
    (along : ∀ x ∈ drainRetries env s, P x.1 x.2) : Ends I E (drainPending env s) :=
  rule.drainLoop _ inv along

private theorem passAttempts_traced (rule : AttemptRule env I R P E) {rows : List FsOp}
    {s : CoreState} (inv : I s) (ready : ∀ op ∈ rows, R op)
    (along : ∀ x ∈ passAttempts env rows s, P x.1 x.2) :
    ∀ x ∈ passAttempts env rows s, I x.1 ∧ R x.2 := by
  induction rows generalizing s with
  | nil => simp [passAttempts]
  | cons op rows ih =>
      have first := ready op List.mem_cons_self
      have rest : ∀ op ∈ rows, R op := fun other member =>
        ready other (List.mem_cons_of_mem op member)
      unfold passAttempts at along ⊢
      by_cases here : s.isOpApplied op.id
      · rw [if_pos here] at along ⊢
        exact ih (rule.cleared inv first (by simpa [isOpApplied] using here)) rest along
      · rw [if_neg here] at along ⊢
        have now := rule.tried inv first (along (s, op) List.mem_cons_self) (not_applied_of here)
        intro x member
        rcases List.mem_cons.mp member with rfl | later
        · exact ⟨inv, first⟩
        · cases run : attempt env op s with
          | error e t =>
              rw [run] at later
              cases later
          | ok outcome t =>
              rw [run] at now along later
              exact ih now rest (fun y inside => along y (List.mem_cons_of_mem _ inside)) x later

private theorem drainAttempts_traced (rule : AttemptRule env I R P E) (fuel : Nat)
    {s : CoreState} (inv : I s) (along : ∀ x ∈ drainAttempts env fuel s, P x.1 x.2) :
    ∀ x ∈ drainAttempts env fuel s, I x.1 ∧ R x.2 := by
  induction fuel generalizing s with
  | zero => simp [drainAttempts]
  | succ fuel ih =>
      unfold drainAttempts at along ⊢
      split at along
      · rename_i idle
        rw [if_pos idle]
        simp
      · rename_i some_parked
        rw [if_neg some_parked]
        have ready : ∀ op ∈ s.pendingOps, R op := by
          intro op member
          obtain ⟨id, here⟩ := mem_pendingOps.mp member
          exact rule.parked inv here
        have front : ∀ x ∈ passAttempts env s.pendingOps s, P x.1 x.2 :=
          fun x member => along x (List.mem_append_left _ member)
        have pass := rule.drainPass inv ready front
        intro x member
        rcases List.mem_append.mp member with now | later
        · exact rule.passAttempts_traced inv ready front x now
        · cases run : Core.drainPass env s.pendingOps s with
          | error e t =>
              rw [run] at later
              cases later
          | ok result t =>
              obtain ⟨progressed, total⟩ := result
              rw [run] at pass along later
              cases progressed with
              | false => cases later
              | true =>
                  exact ih pass (fun y inside => along y (List.mem_append_right _ inside)) x later

theorem drainRetries_traced (rule : AttemptRule env I R P E) {s : CoreState} (inv : I s)
    (along : ∀ x ∈ drainRetries env s, P x.1 x.2) : ∀ x ∈ drainRetries env s, I x.1 ∧ R x.2 :=
  rule.drainAttempts_traced _ inv along

private theorem passAttempts_onward
    (rule : AttemptRule env I (fun _ => True) (fun _ _ => True) fun _ => I) {rows : List FsOp}
    {s : CoreState} {x : CoreState × FsOp} (member : x ∈ passAttempts env rows s)
    (after : I (finalState (attempt env x.2 x.1))) : Ends I (fun _ => I) (Core.drainPass env rows s) := by
  induction rows generalizing s with
  | nil => cases member
  | cons op rows ih =>
      rw [drainPass_cons]
      unfold passAttempts at member
      by_cases here : s.isOpApplied op.id
      · rw [if_pos here] at member ⊢
        have later := ih member
        cases run : Core.drainPass env rows (s.clearPending op.id) <;> (rw [run] at later; exact later)
      · rw [if_neg here] at member ⊢
        have rest : ∀ outcome t, attempt env op s = .ok outcome t →
            Ends I (fun _ => I) (Core.drainPass env rows t) := by
          intro outcome t run
          rw [run] at member
          rcases List.mem_cons.mp member with rfl | later
          · rw [run] at after
            exact rule.drainPass after (fun _ _ => trivial) fun _ _ => trivial
          · exact ih later
        cases run : attempt env op s with
        | error e t =>
            rw [run] at member
            obtain rfl := List.mem_singleton.mp member
            rw [run] at after
            exact after
        | ok outcome t =>
            have onward := rest outcome t run
            cases outcome with
            | unmet reason => exact onward
            | done =>
                dsimp only
                cases later : Core.drainPass env rows t <;> (rw [later] at onward; exact onward)

private theorem drainAttempts_onward
    (rule : AttemptRule env I (fun _ => True) (fun _ _ => True) fun _ => I) (fuel : Nat)
    {s : CoreState} {x : CoreState × FsOp} (member : x ∈ drainAttempts env fuel s)
    (after : I (finalState (attempt env x.2 x.1))) : Ends I (fun _ => I) (Core.drainLoop env fuel s) := by
  induction fuel generalizing s with
  | zero => cases member
  | succ fuel ih =>
      rw [drainLoop_succ]
      unfold drainAttempts at member
      split
      · rename_i idle
        rw [if_pos idle] at member
        cases member
      · rename_i some_parked
        rw [if_neg some_parked] at member
        rcases List.mem_append.mp member with now | later
        · have pass := rule.passAttempts_onward now after
          cases run : Core.drainPass env s.pendingOps s with
          | error e t =>
              rw [run] at pass
              exact pass
          | ok result t =>
              obtain ⟨progressed, total⟩ := result
              rw [run] at pass
              cases progressed with
              | false => exact pass
              | true =>
                  have rest := rule.drainLoop fuel pass fun _ _ => trivial
                  dsimp only
                  cases looped : Core.drainLoop env fuel t <;> (rw [looped] at rest; exact rest)
        · cases run : Core.drainPass env s.pendingOps s with
          | error e t =>
              rw [run] at later
              cases later
          | ok result t =>
              obtain ⟨progressed, total⟩ := result
              rw [run] at later
              cases progressed with
              | false => cases later
              | true =>
                  have rest := ih later
                  dsimp only
                  cases looped : Core.drainLoop env fuel t <;> (rw [looped] at rest; exact rest)

theorem drainRetries_onward
    (rule : AttemptRule env I (fun _ => True) (fun _ _ => True) fun _ => I) {s : CoreState}
    {x : CoreState × FsOp} (member : x ∈ drainRetries env s)
    (after : I (finalState (attempt env x.2 x.1))) : Ends I (fun _ => I) (Core.drainPending env s) :=
  rule.drainAttempts_onward _ member after

end AttemptRule

end Rule

end NexusFS.Core
