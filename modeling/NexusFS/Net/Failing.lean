/- GID: NexusFS/Net/Failing
   source: crates/core/src/ops.rs, crates/core/src/apply.rs
   digest: When a local operation that fails is also kept out of every later state. -/

import NexusFS.Core.Fixpoint
import NexusFS.Net.Draining
import NexusFS.Net.Holders
import NexusFS.Net.Local

/-!
A local operation goes through the entry point of the received ones, which logs it before
it is tried and parks it when it can not be applied yet. An error after that point comes
too late: the operation is served, retried, and may be applied in a later call.
-/

set_option autoImplicit false
set_option relaxedAutoImplicit false

namespace NexusFS.Net

open NexusFS.Lib NexusFS.Lib.Effect NexusFS.Proto NexusFS.Core CoreState

section Ends

variable {env : Env} {identity : Identity} {kind : FsOpKind} {now : U64} {s t u : CoreState}
  {id : OpId}

private theorem mem_appendOp {op : FsOp} : id ∈ (s.appendOp op).oplog ↔ op.id = id ∨ id ∈ s.oplog := by
  show id ∈ s.oplog.insert op.id op ↔ _
  rw [Std.ExtTreeMap.mem_insert, compare_eq_iff_eq]

private theorem sameLog_inner (logged : Logged s) (env : Env) (op : FsOp) (check_policy : Bool)
    {id : OpId} (here : id ∈ (finalState (applyOpInner env op check_policy s)).oplog) :
    op.id = id ∨ id ∈ s.oplog := by
  rw [(logged.applyOpInner env op check_policy).2.oplog] at here
  split at here
  · exact mem_appendOp.mp here
  · exact .inr here

theorem logged_author (logged : Logged s) :
    Logged (finalState (applyLocal env identity kind now s)) ∧
      ∀ id, id ∈ (finalState (applyLocal env identity kind now s)).oplog →
        nextId s = id ∨ id ∈ s.oplog := by
  have counts : Logged (counted s) := logged.congr rfl rfl rfl
  have inner := counts.applyOpInner env (authoredOp env identity kind now s) (!s.proofs.generates)
  have rows := fun id => @sameLog_inner (counted s) counts env (authoredOp env identity kind now s)
    (!s.proofs.generates) id
  rcases applyLocal_ends env identity kind now s with
    ⟨e, t, run, ⟨_, first⟩ | ⟨_, first⟩⟩ | ⟨op, t, _, v, run, own, first, -, same⟩
  · rw [run]
    rw [first] at inner rows
    exact ⟨inner.1, rows⟩
  · rw [run]
    rw [first] at inner rows
    exact ⟨inner.1, rows⟩
  · rw [run]
    rw [first] at inner rows
    rcases same with rfl | rfl
    · exact ⟨inner.1, rows⟩
    · refine ⟨inner.1.appendOp op, fun id here => ?_⟩
      rcases mem_appendOp.mp here with rfl | old
      · exact .inl own.symm
      · exact rows id old

private theorem applied_iff {op : FsOp} {check_policy : Bool} (admits : Admits env op check_policy s)
    (new : op.id ∉ s.applied) :
    (∃ v, applyOpInner env op check_policy s = .ok .applied v) ↔
      ¬Deferred env op (s.appendOp op) ∧ ¬Poisoned env op (s.appendOp op) ∧
        ∀ x ∈ applyRetries env op check_policy s, ¬Poisoned env x.2 x.1 := by
  rw [applyOpInner_new admits new, applyRetries_new admits new, poisoned_iff, ← deferred_iff]
  unfold afterFirst
  have ran := @attempt_run env op (s.appendOp op)
  cases first : attempt env op (s.appendOp op) with
  | error e t =>
      refine iff_of_false ?_ fun ready => ready.2.1 ⟨e, t, rfl⟩
      rintro ⟨v, ran⟩
      dsimp only at ran
      cases ran
  | ok outcome t =>
      rw [first] at ran
      cases outcome with
      | unmet reason =>
          have unmet : ∃ reason, mutate env op (s.appendOp op) = .ok (.unmet reason) (s.appendOp op) := by
            have spec := attempt_spec env op (s.appendOp op)
            rw [first] at spec
            obtain ⟨rfl, unmet⟩ := spec
            exact ⟨reason, unmet⟩
          refine iff_of_false ?_ fun ready => ready.1 unmet
          rintro ⟨v, run⟩
          dsimp only at run
          cases later : drainPending env (t.storePending op) with
          | error e u =>
              rw [later] at run
              cases run
          | ok n u =>
              rw [later] at run
              cases run
      | done =>
          have met : ¬∃ reason, mutate env op (s.appendOp op) =
              .ok (.unmet reason) (s.appendOp op) := by
            rintro ⟨reason, unmet⟩
            rw [unmet] at ran
            cases ran
          have clean : ¬∃ e u, (.ok .done t : EStateM.Result Err CoreState Mutation) = .error e u := by
            rintro ⟨e, u, failed⟩
            cases failed
          have retries := @drainPending_returns_iff env t
          dsimp only
          cases later : drainPending env t with
          | error e u =>
              refine iff_of_false ?_ fun ready => ?_
              · rintro ⟨v, run⟩
                cases run
              · obtain ⟨n, u', returned⟩ := retries.mpr ready.2.2
                cases later.symm.trans returned
          | ok n u => exact iff_of_true ⟨_, rfl⟩ ⟨met, clean, retries.mp ⟨n, u, later⟩⟩

theorem root_of_applied {op : FsOp} {check_policy : Bool} {v : CoreState}
    (admits : Admits env op check_policy s) (new : op.id ∉ s.applied)
    (run : applyOpInner env op check_policy s = .ok .applied v) :
    v.state_root = some (computeStateRoot env v) := by
  rw [applyOpInner_new admits new] at run
  cases first : attempt env op (s.appendOp op) with
  | error e t =>
      rw [first] at run
      cases run
  | ok outcome t =>
      rw [first] at run
      cases outcome with
      | done =>
          dsimp only at run
          cases later : drainPending env t with
          | error e u =>
              rw [later] at run
              cases run
          | ok n u =>
              rw [later] at run
              cases run
              exact (current_closeCall True (by simp)).root
      | unmet reason =>
          dsimp only at run
          cases later : drainPending env (t.storePending op) <;> rw [later] at run <;> cases run

theorem known_of_already {op : FsOp} {check_policy : Bool} {v : CoreState}
    (admits : Admits env op check_policy s)
    (run : applyOpInner env op check_policy s = .ok .alreadyApplied v) : op.id ∈ s.applied := by
  by_contra new
  rw [applyOpInner_new admits new] at run
  cases first : attempt env op (s.appendOp op) with
  | error e t =>
      rw [first] at run
      cases run
  | ok outcome t =>
      rw [first] at run
      cases outcome with
      | done =>
          dsimp only at run
          cases later : drainPending env t <;> rw [later] at run <;> cases run
      | unmet reason =>
          dsimp only at run
          cases later : drainPending env (t.storePending op) <;> rw [later] at run <;> cases run

end Ends

section Later

variable {env : Env} {identity : Identity} {kind : FsOpKind} {now : U64} {s t u : CoreState}
  {id : OpId}

def Act.Brings (id : OpId) (s : CoreState) : Act → Prop
  | .receive op => op.id = id
  | .author _ _ => nextId s = id
  | _ => False

/-- The states of a later run from `t` in which nobody brings `id` again. -/
inductive LaterRun (env : Env) (identity : Identity) (id : OpId) (t : CoreState) : CoreState → Prop
  | now : LaterRun env identity id t t
  | step {u : CoreState} {a : Act} (before : LaterRun env identity id t u) (apart : ¬a.Brings id u) :
      LaterRun env identity id t (a.run env identity u)

/-- No operation of that id is logged, parked or applied, and none is sent to a peer. -/
structure Gone (id : OpId) (u : CoreState) : Prop where
  log : id ∉ u.oplog
  parked : u.pending[id]? = none
  applied : id ∉ u.applied
  served : ∀ summary, ∀ op ∈ (serveHave u summary).1, op.id ≠ id

theorem gone_iff (logged : Logged u) : Gone id u ↔ id ∉ u.oplog := by
  refine ⟨fun gone => gone.log, fun absent => ⟨absent, ?_, fun here => absent (logged.applied here), ?_⟩⟩
  · cases parked : u.pending[id]? with
    | none => rfl
    | some op => exact absurd (logged.parked parked).2 absent
  · rintro summary op member rfl
    have row := logged.of_mem_opsMissingFor (show 0 < opsBatch by decide) member
    exact absent ((BTreeMap.mem_iff_get _ _).mpr ⟨op, row⟩)

theorem logged_act (logged : Logged s) (a : Act) : Logged (a.run env identity s) := by
  by_cases other : a.Other
  · exact (other_sameLog env logged identity other).1
  · cases a with
    | receive op => exact (logged.applyOp env op).1
    | author kind now => exact (logged_author logged).1
    | _ => exact absurd trivial other

theorem NodeRun.logged {meets : CoreState → Act → Prop} (run : NodeRun env identity meets s) :
    Logged s := by
  induction run with
  | boot blank _ _ => exact logged_booted env blank
  | step _ _ ih => exact logged_act ih _

private theorem absent_act (logged : Logged u) (absent : id ∉ u.oplog) {a : Act}
    (apart : ¬a.Brings id u) : id ∉ (a.run env identity u).oplog := by
  by_cases other : a.Other
  · rw [(other_sameLog env logged identity other).2.oplog]
    exact absent
  · cases a with
    | receive op =>
        intro here
        rcases (logged.mem_applyOp env op id).mp here with old | ⟨same, -⟩
        · exact absent old
        · exact apart same.symm
    | author kind now =>
        intro here
        rcases (logged_author logged).2 id here with same | old
        · exact apart same
        · exact absent old
    | _ => exact absurd trivial other

theorem LaterRun.logged (later : LaterRun env identity id t u) (logged : Logged t) : Logged u := by
  induction later with
  | now => exact logged
  | step _ _ ih => exact logged_act ih _

theorem LaterRun.absent (later : LaterRun env identity id t u) (logged : Logged t)
    (absent : id ∉ t.oplog) : id ∉ u.oplog := by
  induction later with
  | now => exact absent
  | step before apart ih => exact absent_act (before.logged logged) ih apart

/-- If a local operation fails, its id is gone, then and in every later run in which nobody brings it
again. -/
def StaysFailed (env : Env) (identity : Identity) (kind : FsOpKind) (now : U64) (s : CoreState) : Prop :=
  ∀ e t, applyLocal env identity kind now s = .error e t →
    ∀ u, LaterRun env identity (nextId s) t u → Gone (nextId s) u

/-- The operation is refused before it is logged, and its id is new to the log; or it was applied
before, or can be applied now and nothing that is tried with it fails. -/
def LogsWell (env : Env) (identity : Identity) (kind : FsOpKind) (now : U64) (s : CoreState) : Prop :=
  let op := authoredOp env identity kind now s
  if Admits env op (!s.proofs.generates) (counted s) then
    nextId s ∈ s.applied ∨
      (¬Deferred env op ((counted s).appendOp op) ∧ ¬Poisoned env op ((counted s).appendOp op) ∧
        ∀ x ∈ localRetries env identity kind now s, ¬Poisoned env x.2 x.1)
  else nextId s ∉ s.oplog

/-- In every state of a node, a local operation that fails stays failed if and only if it is refused
before it is logged, or can be applied with all that it unblocks. -/
theorem failed_stays_failed_iff (run : AnyRun env identity s) (kind : FsOpKind) (now : U64) :
    StaysFailed env identity kind now s ↔ LogsWell env identity kind now s := by
  have logged : Logged (counted s) := run.logged.congr rfl rfl rfl
  have ends := applyLocal_ends env identity kind now s
  unfold LogsWell
  by_cases admits : Admits env (authoredOp env identity kind now s) (!s.proofs.generates) (counted s)
  · rw [if_pos admits]
    by_cases known : nextId s ∈ s.applied
    · refine iff_of_true ?_ (.inl known)
      intro e t failed
      rw [applyOpInner_known admits known] at ends
      rcases ends with ⟨_, _, -, ⟨_, first⟩ | ⟨_, first⟩⟩ | ⟨_, _, _, _, returned, -⟩
      · cases first
      · cases first
      · cases failed.symm.trans returned
    · have applied := applied_iff admits (show (authoredOp env identity kind now s).id ∉
        (counted s).applied from known)
      unfold localRetries
      rw [or_iff_right known, ← applied]
      rcases ends with ⟨e, t, failed, first⟩ | ⟨_, _, outcome, v, returned, -, first, done, -⟩
      · refine iff_of_false ?_ ?_
        · intro stays
          -- The operation was logged before it was tried, and nothing takes it out again.
          refine (stays e t failed t .now).log ?_
          have log := (logged.applyOpInner env (authoredOp env identity kind now s)
            (!s.proofs.generates)).2.oplog
          rw [if_pos ⟨admits, known⟩] at log
          rcases first with ⟨_, first⟩ | ⟨_, first⟩
          all_goals
            rw [first] at log
            show nextId s ∈ t.oplog
            rw [show t.oplog = _ from log]
            exact mem_appendOp.mpr (.inl rfl)
        · rintro ⟨v, first'⟩
          rcases first with ⟨_, first⟩ | ⟨_, first⟩ <;> cases first.symm.trans first'
      · refine iff_of_true (fun e t failed => ?_) ⟨v, ?_⟩
        · cases failed.symm.trans returned
        · rcases done with rfl | rfl
          · exact first
          · exact absurd (known_of_already admits first) known
  · rw [if_neg admits]
    obtain ⟨e', refused⟩ := applyOpInner_refused admits
    rw [refused] at ends
    rcases ends with ⟨e, t, failed, first⟩ | ⟨_, _, _, _, -, -, first, -⟩
    · have same : t = counted s := by
        rcases first with ⟨_, first⟩ | ⟨_, first⟩ <;> cases first
        rfl
      subst same
      constructor
      · exact fun stays => (stays e _ failed _ .now).log
      · intro absent e' t' failed' u later
        obtain rfl : counted s = t' := by
          cases failed.symm.trans failed'
          rfl
        exact (gone_iff (later.logged logged)).mpr (later.absent logged absent)
    · cases first

private theorem ready_of_answer {op : FsOp} (done : answer (attempt env op s) = some .done) :
    ¬Deferred env op s ∧ ¬Poisoned env op s := by
  constructor
  · intro deferred
    obtain ⟨reason, unmet⟩ := deferred_iff.mpr deferred
    rw [attempt_run, unmet] at done
    cases done
  · intro poisoned
    obtain ⟨e, t, failed⟩ := poisoned_iff.mp poisoned
    rw [failed] at done
    cases done

private theorem ownDir_facts :
    Admits .plain (authoredOp .plain sampleIdentity (.mkdir rootInode "a" 0) 5 waitingState)
        (!waitingState.proofs.generates) (counted waitingState) ∧
      answer (attempt .plain (authoredOp .plain sampleIdentity (.mkdir rootInode "a" 0) 5
        waitingState) ((counted waitingState).appendOp
          (authoredOp .plain sampleIdentity (.mkdir rootInode "a" 0) 5 waitingState))) = some .done ∧
      ((localRetries .plain sampleIdentity (.mkdir rootInode "a" 0) 5 waitingState).all fun x =>
        returned (attempt .plain x.2 x.1)) = true := by decide +kernel

theorem failed_stays_failed_sample :
    waitingState.pending.size = 1 ∧
      StaysFailed .plain sampleIdentity (.mkdir rootInode "a" 0) 5 waitingState := by
  have run : AnyRun .plain sampleIdentity waitingState :=
    .step (.step (.boot (blank_new 7) rfl rfl) trivial) trivial
  obtain ⟨admits, done, retried⟩ := ownDir_facts
  obtain ⟨met, clean⟩ := ready_of_answer done
  refine ⟨by decide +kernel, (failed_stays_failed_iff run _ _).mpr ?_⟩
  unfold LogsWell
  rw [if_pos admits]
  exact .inr ⟨met, clean, clean_of_returned retried⟩

def orphanFile : FsOpKind := .createFile (inodeForOp .plain ⟨8, 1⟩) "x" 0

def orphanState : CoreState :=
  finalState (applyLocal .plain sampleIdentity orphanFile 0 (booted .plain (CoreState.new 7)))

def orphanParent : FsOp := { sampleOp 1 (.mkdir rootInode "d" 0) with id := ⟨8, 1⟩ }

private theorem orphan_facts :
    returned (applyLocal .plain sampleIdentity orphanFile 0 (booted .plain (CoreState.new 7))) =
        false ∧
      (orphanState.oplog[(⟨7, 1⟩ : OpId)]?).isSome = true ∧
      (orphanState.pending[(⟨7, 1⟩ : OpId)]?).isSome = true ∧
      (((serveHave orphanState ⟨[], []⟩).1.map FsOp.id).contains ⟨7, 1⟩) = true ∧
      ((Act.receive orphanParent).run .plain sampleIdentity orphanState).applied.contains ⟨7, 1⟩ =
        true := by decide +kernel

/-- The creation fails, yet it is logged, parked and offered to peers, and applied as soon as the
directory arrives. -/
theorem failed_happens_later :
    AnyRun .plain sampleIdentity (booted .plain (CoreState.new 7)) ∧
      (∃ e, applyLocal .plain sampleIdentity orphanFile 0 (booted .plain (CoreState.new 7)) =
        .error e orphanState) ∧
      nextId (booted .plain (CoreState.new 7)) = ⟨7, 1⟩ ∧ (⟨7, 1⟩ : OpId) ∈ orphanState.oplog ∧
      orphanState.pending[(⟨7, 1⟩ : OpId)]? ≠ none ∧
      (∃ op ∈ (serveHave orphanState ⟨[], []⟩).1, op.id = ⟨7, 1⟩) ∧
      LaterRun .plain sampleIdentity ⟨7, 1⟩ orphanState
        ((Act.receive orphanParent).run .plain sampleIdentity orphanState) ∧
      (⟨7, 1⟩ : OpId) ∈ ((Act.receive orphanParent).run .plain sampleIdentity orphanState).applied := by
  obtain ⟨failed, logged, parked, served, applied⟩ := orphan_facts
  refine ⟨.boot (blank_new 7) rfl rfl, ?_, by decide +kernel, ?_, ?_, ?_, .step .now ?_,
    Std.ExtTreeSet.contains_iff_mem.mp applied⟩
  · unfold orphanState
    cases run : applyLocal .plain sampleIdentity orphanFile 0 (booted .plain (CoreState.new 7)) with
    | error e t => exact ⟨e, rfl⟩
    | ok op t =>
        rw [run] at failed
        cases failed
  · exact Std.ExtTreeMap.mem_iff_isSome_getElem?.mpr logged
  · exact Option.isSome_iff_ne_none.mp parked
  · obtain ⟨op, member, same⟩ := List.mem_map.mp (List.contains_iff_mem.mp served)
    exact ⟨op, member, same⟩
  · show ¬(orphanParent.id = (⟨7, 1⟩ : OpId))
    decide

end Later

end NexusFS.Net
