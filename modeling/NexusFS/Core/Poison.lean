/- GID: NexusFS/Core/Poison
   source: crates/core/src/apply.rs
   digest: When a parked operation makes the calls that retry it fail. -/

import NexusFS.Core.Blind
import NexusFS.Core.Room

set_option autoImplicit false
set_option relaxedAutoImplicit false

namespace NexusFS.Core

open NexusFS.Lib NexusFS.Lib.Effect NexusFS.Proto NexusFS.Crdt CoreState

section Poisoned

variable {env : Env} {op : FsOp} {s : CoreState}

def MapLimit (env : Env) (op : FsOp) (s : CoreState) : Prop :=
  ∃ u e t, mutate env op s = .ok .done u ∧ settleApplied env op u = .error e t

/-- An operation that makes the call attempting it fail: its mutation is refused, or it meets a
limit. -/
def Poisoned (env : Env) (op : FsOp) (s : CoreState) : Prop :=
  (∃ e, Refusal env op s e) ∨ MapLimit env op s

theorem poisoned_iff : Poisoned env op s ↔ ∃ e t, attempt env op s = .error e t := by
  rw [attempt_run]
  constructor
  · rintro (⟨e, refusal⟩ | ⟨u, e, t, took, fails⟩)
    · exact ⟨e, s, by rw [refusal.mutate]⟩
    · exact ⟨e, t, by rw [took]; simp only [fails]⟩
  · rintro ⟨e, t, failed⟩
    have spec := mutate_spec env op s
    cases run : mutate env op s with
    | error e' t' =>
        rw [run] at spec
        exact .inl ⟨e', spec.2⟩
    | ok outcome t' =>
        rw [run] at failed
        cases outcome with
        | unmet reason => cases failed
        | done =>
            cases settled : settleApplied env op t' with
            | ok u t'' =>
                simp only [settled] at failed
                cases failed
            | error e' t'' => exact .inr ⟨t', e', t'', run, settled⟩

theorem attempt_of_not_poisoned (clean : ¬Poisoned env op s) :
    ∃ outcome t, attempt env op s = .ok outcome t := by
  cases run : attempt env op s with
  | ok outcome t => exact ⟨outcome, t, rfl⟩
  | error e t => exact absurd (poisoned_iff.mpr ⟨e, t, run⟩) clean

theorem not_mapLimit {ids : Set OpId} (inj : Set.InjOn (inodeForOp env) ids)
    (shape : Shape env ids s) (member : op.id ∈ ids) (new : op.id ∉ s.applied)
    (roomy : ∀ u, Effect env op s u → Roomy (u.noteApplied op)) : ¬MapLimit env op s := by
  rintro ⟨u, e, t, took, failed⟩
  have effect : Effect env op s u := by
    have spec := mutate_spec env op s
    rw [took] at spec
    exact spec
  obtain ⟨t', run⟩ := (roomy u effect).maintain_returns (shape.noteApplied inj member new effect) op
  have settles : settleApplied env op u = .ok () t' := run
  rw [failed] at settles
  cases settles

private theorem clean_of_drainPass (rows : List FsOp) {result : Bool × Nat} {t : CoreState}
    (run : drainPass env rows s = .ok result t) :
    ∀ x ∈ passAttempts env rows s, ¬Poisoned env x.2 x.1 := by
  induction rows generalizing s result t with
  | nil => simp [passAttempts]
  | cons op rows ih =>
      rw [drainPass_cons] at run
      unfold passAttempts
      by_cases known : s.isOpApplied op.id
      · rw [if_pos known] at run ⊢
        cases rest : drainPass env rows (s.clearPending op.id) with
        | ok result' t' => exact ih rest
        | error e t' =>
            rw [rest] at run
            cases run
      · rw [if_neg known] at run ⊢
        cases first : attempt env op s with
        | error e t' =>
            rw [first] at run
            cases run
        | ok outcome t' =>
            rw [first] at run
            have now : ¬Poisoned env op s := by
              rw [poisoned_iff, first]
              rintro ⟨e, u, failed⟩
              cases failed
            refine List.forall_mem_cons.mpr ⟨now, ?_⟩
            cases rest : drainPass env rows t' with
            | ok result' t'' => exact ih rest
            | error e t'' =>
                cases outcome <;> simp only [rest] at run <;> cases run

private theorem clean_of_drainLoop (fuel : Nat) {n : Nat} {t : CoreState}
    (run : drainLoop env fuel s = .ok n t) :
    ∀ x ∈ drainAttempts env fuel s, ¬Poisoned env x.2 x.1 := by
  induction fuel generalizing s n t with
  | zero => simp [drainAttempts]
  | succ fuel ih =>
      rw [drainLoop_succ] at run
      unfold drainAttempts
      split
      · simp
      · rename_i some_parked
        rw [if_neg some_parked] at run
        cases pass : drainPass env s.pendingOps s with
        | error e t' =>
            rw [pass] at run
            cases run
        | ok result t' =>
            obtain ⟨progressed, total⟩ := result
            rw [pass] at run
            have now := clean_of_drainPass _ pass
            cases progressed with
            | false => simpa using now
            | true =>
                have later : ∀ x ∈ drainAttempts env fuel t', ¬Poisoned env x.2 x.1 := by
                  cases rest : drainLoop env fuel t' with
                  | ok more t'' => exact ih rest
                  | error e t'' =>
                      simp only [rest] at run
                      cases run
                intro x member
                exact (List.mem_append.mp member).elim (now x) (later x)

theorem drainPending_returns_iff :
    (∃ n t, drainPending env s = .ok n t) ↔ ∀ x ∈ drainRetries env s, ¬Poisoned env x.2 x.1 := by
  constructor
  · rintro ⟨n, t, run⟩
    exact clean_of_drainLoop _ run
  · intro clean
    have rule : AttemptRule env (fun _ => True) (fun _ => True)
        (fun s op => ¬Poisoned env op s) (fun _ _ => False) := by
      refine ⟨?_, fun _ _ _ => trivial, fun _ _ => trivial⟩
      intro s op _ _ unpoisoned _
      obtain ⟨outcome, t, run⟩ := attempt_of_not_poisoned unpoisoned
      rw [run]
      exact trivial
    have ends := rule.drainPending (s := s) trivial clean
    cases run : drainPending env s with
    | ok n t => exact ⟨n, t, rfl⟩
    | error e t =>
        rw [run] at ends
        exact ends.elim

end Poisoned

section Current

variable {env : Env} {s t : CoreState} {op : FsOp}

/-- The stored root commits to the map, and the head is its snapshot. -/
structure Current (env : Env) (s : CoreState) : Prop where
  root : s.state_root = some (computeStateRoot env s)
  head : s.head = some
    (objectHash env (newSnapshotRoot (computeStateRoot env s) s.device_id s.state_time))

theorem Current.congr (current : Current env s) (imap : t.imap = s.imap)
    (root : t.state_root = s.state_root) (head : t.head = s.head)
    (device : t.device_id = s.device_id) (time : t.state_time = s.state_time) :
    Current env t := by
  have same : computeStateRoot env t = computeStateRoot env s := by
    simp only [computeStateRoot, inodeMap, imap]
  exact ⟨by rw [root, same]; exact current.root, by rw [head, same, device, time]; exact current.head⟩

theorem current_snapshot (env : Env) (s : CoreState) :
    Current env (finalState (buildSnapshot env s)) := by
  obtain ⟨blobs, -, run⟩ := buildSnapshot_run env s
  rw [run]
  exact ⟨rfl, rfl⟩

private theorem flushRule (env : Env) (flushes : Nat) :
    AttemptRule env (fun t => t.kv_flushes = flushes) (fun _ => True) (fun _ _ => True)
      (fun _ t => t.kv_flushes = flushes) where
  tried := by
    rintro s op rfl _ _ _
    have took : ∀ {t}, Took env op s t → t.kv_flushes = s.kv_flushes := by
      rintro t ⟨u, effect, blobs, imap, -, rfl⟩
      obtain ⟨dirs, inodes, parents, stored, draws, -, rfl⟩ := effect.frame
      rfl
    have spec := attempt_spec env op s
    cases run : attempt env op s with
    | error e t =>
        rw [run] at spec
        rcases spec with ⟨rfl, -⟩ | ⟨effect, -⟩
        · exact rfl
        · exact took effect
    | ok outcome t =>
        rw [run] at spec
        cases outcome with
        | unmet reason =>
            obtain ⟨rfl, -⟩ := spec
            exact rfl
        | done => exact took spec
  cleared := fun same _ _ => same
  parked := fun _ _ => trivial

private theorem closeCall_flushes (snapshot : Prop) [Decidable snapshot] (s : CoreState) :
    (closeCall env snapshot s).kv_flushes = s.kv_flushes + 1 := by
  unfold closeCall
  split
  · obtain ⟨blobs, -, run⟩ := buildSnapshot_run env s
    rw [run]
    rfl
  · rfl

theorem current_closeCall (snapshot : Prop) [Decidable snapshot]
    (current : ¬snapshot → Current env s) : Current env (closeCall env snapshot s) := by
  unfold closeCall
  split
  · exact (current_snapshot env s).congr rfl rfl rfl rfl rfl
  · rename_i none_taken
    exact (current none_taken).congr rfl rfl rfl rfl rfl

/-- The root and the head are those of the map; or nothing has been applied, and the map, the root
and the head are as they were. -/
def RootRefreshed (env : Env) (s t : CoreState) : Prop :=
  Current env t ∨ (t.applied = s.applied ∧ t.imap = s.imap ∧ t.state_root = s.state_root ∧
    t.head = s.head)

/-- The call returns, refreshes the root and the head, and ends with a flush unless it had nothing
to do. -/
def WellApplied (env : Env) (op : FsOp) (s : CoreState) : Prop :=
  ∃ outcome t, applyOp env op s = .ok outcome t ∧ RootRefreshed env s t ∧
    (outcome = .applied → Current env t) ∧
      (outcome ≠ .alreadyApplied → t.kv_flushes = s.kv_flushes + 1)

/-- `retry_pending` returns and refreshes the root and the head. -/
def WellRetried (env : Env) (s : CoreState) : Prop :=
  ∃ n t, retryPending env s = .ok n t ∧ RootRefreshed env s t ∧ (0 < n → Current env t)

private theorem wellApplied_new_iff (queue : Queue s) (admits : Admits env op true s)
    (new : op.id ∉ s.applied) (clean : ¬Poisoned env op (s.appendOp op)) :
    WellApplied env op s ↔ ∀ x ∈ applyRetries env op true s, ¬Poisoned env x.2 x.1 := by
  obtain ⟨outcome, t, first⟩ := attempt_of_not_poisoned clean
  have flushes := @AttemptRule.tried _ _ _ _ _ (flushRule env s.kv_flushes) (s.appendOp op) op rfl
    trivial trivial new
  have spec := attempt_spec env op (s.appendOp op)
  have call : applyOp env op s = _ := applyOpInner_new admits new
  rw [applyRetries_new admits new]
  unfold afterFirst WellApplied
  rw [first] at call spec flushes ⊢
  cases outcome with
  | done =>
      dsimp only at call ⊢
      rw [← drainPending_returns_iff, call]
      have drained := (flushRule env s.kv_flushes).drainPending (s := t) flushes
        fun _ _ => trivial
      cases later : drainPending env t with
      | error e u => simp
      | ok n u =>
          rw [later] at drained
          have current : Current env (closeCall env True u) := current_closeCall True (by simp)
          refine iff_of_true ⟨_, _, rfl, .inl current, fun _ => current, fun _ => ?_⟩ ⟨n, u, rfl⟩
          rw [closeCall_flushes, drained]
  | unmet reason =>
      obtain ⟨rfl, -⟩ := spec
      dsimp only at call ⊢
      rw [← drainPending_returns_iff, call]
      have logged : Queue (s.appendOp op) := queue.congr rfl rfl
      have order : Queue ((s.appendOp op).storePending op) := logged.park new
      have ends := drainPending_ends env order
      have drained := (flushRule env s.kv_flushes).drainPending
        (s := (s.appendOp op).storePending op) rfl fun _ _ => trivial
      cases later : drainPending env ((s.appendOp op).storePending op) with
      | error e u => simp
      | ok n u =>
          rw [later] at drained ends
          refine iff_of_true ⟨_, _, rfl, ?_, fun other => (by cases other), fun _ => ?_⟩ ⟨n, u, rfl⟩
          · by_cases some_applied : 0 < n
            · exact .inl (current_closeCall _ (absurd some_applied))
            · obtain rfl := ends.2.2.1 (by omega)
              right
              unfold closeCall
              rw [if_neg some_applied]
              exact ⟨rfl, rfl, rfl, rfl⟩
          · rw [closeCall_flushes, drained]

theorem wellRetried_iff (queue : Queue s) :
    WellRetried env s ↔ ∀ x ∈ drainRetries env s, ¬Poisoned env x.2 x.1 := by
  unfold WellRetried
  rw [← drainPending_returns_iff, retryPending_run]
  have ends := drainPending_ends env queue
  cases later : drainPending env s with
  | error e u => simp
  | ok n u =>
      rw [later] at ends
      refine iff_of_true ⟨n, _, rfl, ?_, fun some_applied => ?_⟩ ⟨n, u, rfl⟩
      · split
        · exact .inl (current_snapshot env u)
        · obtain rfl := ends.2.2.1 (by omega)
          exact .inr ⟨rfl, rfl, rfl, rfl⟩
      · rw [if_pos some_applied]
        exact current_snapshot env u

def AcceptedAlone (env : Env) (op : FsOp) (s : CoreState) : Prop :=
  ∃ outcome t, applyOp env op (s.withPending ∅) = .ok outcome t

theorem AcceptedAlone.clean (alone : AcceptedAlone env op s) :
    Admits env op true s ∧ (op.id ∉ s.applied → ¬Poisoned env op (s.appendOp op)) := by
  obtain ⟨outcome, t, run⟩ := alone
  have admits : Admits env op true s := by
    by_contra refused
    obtain ⟨e, failed⟩ := @applyOpInner_refused env (s.withPending ∅) op true refused
    have conflict : EStateM.Result.error e _ = .ok outcome t := failed.symm.trans run
    cases conflict
  refine ⟨admits, fun new poisoned => ?_⟩
  obtain ⟨e, u, failed⟩ := poisoned_iff.mp poisoned
  obtain ⟨queue, same⟩ := attempt_withPending env ∅ op (s.appendOp op)
  rw [failed] at same
  have call : applyOp env op (s.withPending ∅) = _ :=
    @applyOpInner_new env (s.withPending ∅) op true admits new
  have first : attempt env op ((s.withPending ∅).appendOp op) =
      .error e (u.withPending queue) := same
  rw [first, run] at call
  cases call

theorem AcceptedAlone.wellApplied_iff (alone : AcceptedAlone env op s) (queue : Queue s) :
    WellApplied env op s ↔ ∀ x ∈ applyRetries env op true s, ¬Poisoned env x.2 x.1 := by
  obtain ⟨admits, clean⟩ := alone.clean
  by_cases known : op.id ∈ s.applied
  · have call : applyOp env op s = .ok .alreadyApplied s := applyOpInner_known admits known
    have idle : applyRetries env op true s = [] := applyRetries_known known
    refine iff_of_true ⟨_, s, call, .inr ⟨rfl, rfl, rfl, rfl⟩, fun other => (by cases other),
      fun other => absurd rfl other⟩ ?_
    simp [idle]
  · exact wellApplied_new_iff queue admits known (clean known)

end Current

section Queues

variable {env : Env} {s : CoreState}

theorem queueCallRule (env : Env) :
    CallRule env Queue (fun _ => True) (fun _ _ => True) (fun _ => Queue) where
  toAttemptRule := queueRule env
  logged := fun queue _ => queue.congr rfl rfl
  aside := by
    rintro s t queue ⟨_, _, _, _, _, -, rfl⟩
    exact queue.congr rfl rfl
  park := fun queue _ new => queue.park new

theorem queue_booted (env : Env) (blank : Blank s) : Queue (booted env s) := by
  obtain ⟨_, _, _, _, _, _, _, -, same⟩ := (booted_spec env blank).records
  rw [same]
  have empty : ∀ (id : OpId) op, ¬s.pending[id]? = some op := by
    intro id op here
    rw [blank.pending, Std.ExtTreeMap.getElem?_empty] at here
    cases here
  exact ⟨fun here => absurd here (empty _ _), fun here => absurd here (empty _ _)⟩

theorem current_booted (env : Env) (blank : Blank s) : Current env (booted env s) :=
  ⟨(booted_spec env blank).root, (booted_spec env blank).head⟩

theorem clean_of_returned {trace : List (CoreState × FsOp)}
    (ok : (trace.all fun x => returned (attempt env x.2 x.1)) = true) :
    ∀ x ∈ trace, ¬Poisoned env x.2 x.1 := by
  intro x member poisoned
  obtain ⟨e, t, failed⟩ := poisoned_iff.mp poisoned
  have here := List.all_eq_true.mp ok x member
  rw [failed] at here
  cases here

end Queues

end NexusFS.Core
