/- GID: NexusFS/Core/Ledger
   source: crates/core/src/apply.rs, crates/core/src/state.rs
   digest: One operation per id: when the log row, the parked row and the effects agree. -/

import NexusFS.Core.Log
import NexusFS.Core.Reachable

set_option autoImplicit false
set_option relaxedAutoImplicit false

namespace NexusFS.Core

open NexusFS.Lib NexusFS.Lib.Effect NexusFS.Proto NexusFS.Crdt CoreState

section Later

variable {env : Env} {meets : CoreState → Event → Prop} {s t : CoreState}

def Event.attempts (env : Env) (s : CoreState) : Event → List (CoreState × FsOp)
  | .apply op => applyAttempts env op true s
  | .retry => drainRetries env s
  | .blob _ => []
  | .collect _ => []

def Later (env : Env) (meets : CoreState → Event → Prop) : CoreState → CoreState → Prop :=
  Relation.ReflTransGen fun s t => ∃ e, meets s e ∧ t = e.run env s

theorem Run.later (run : Run env meets s) (later : Later env meets s t) : Run env meets t := by
  induction later with
  | refl => exact run
  | tail _ step ih =>
      obtain ⟨e, met, rfl⟩ := step
      exact .step ih met

end Later

section Ledger

variable {env : Env} {s : CoreState}

/-- A delivery that passes the checks under an id that is logged and not yet applied delivers the
logged operation. -/
def SameAsLogged (env : Env) (s : CoreState) : Event → Prop
  | .apply op => Admits env op true s → op.id ∉ s.applied →
      ∀ logged, s.oplog[op.id]? = some logged → logged = op
  | _ => True

def ParkedLogged (s : CoreState) : Prop :=
  ∀ ⦃id : OpId⦄ ⦃op⦄, s.pending[id]? = some op → op.id = id ∧ s.oplog[id]? = some op

theorem ledgerRule (env : Env) (log : BTreeMap OpId FsOp) :
    AttemptRule env (fun t => t.oplog = log ∧ ParkedLogged t) (fun op => log[op.id]? = some op)
      (fun _ _ => True) (fun _ t => t.oplog = log ∧ ParkedLogged t) where
  tried := by
    rintro s op ⟨rfl, parked⟩ _ _ _
    have took : ∀ {t}, Took env op s t → t.oplog = s.oplog ∧ ParkedLogged t := by
      intro t took
      refine ⟨took.oplog, ?_⟩
      intro id other here
      rw [took.pending, BTreeMap.get_erase] at here
      rw [took.oplog]
      split at here
      · cases here
      · exact parked here
    have spec := attempt_spec env op s
    cases run : attempt env op s with
    | error e t =>
        rw [run] at spec
        rcases spec with ⟨rfl, -⟩ | ⟨effect, -⟩
        · exact ⟨rfl, parked⟩
        · exact took effect
    | ok outcome t =>
        rw [run] at spec
        cases outcome with
        | unmet reason =>
            obtain ⟨rfl, -⟩ := spec
            exact ⟨rfl, parked⟩
        | done => exact took spec
  cleared := by
    rintro s op ⟨rfl, parked⟩ _ _
    refine ⟨rfl, ?_⟩
    intro id other here
    have erased : (s.pending.erase op.id)[id]? = some other := here
    rw [BTreeMap.get_erase] at erased
    split at erased
    · cases erased
    · exact parked erased
  parked := by
    rintro s op id ⟨rfl, parked⟩ here
    obtain ⟨rfl, logged⟩ := parked here
    exact logged

private theorem ParkedLogged.storePending {op : FsOp} (parked : ParkedLogged s)
    (logged : s.oplog[op.id]? = some op) : ParkedLogged (s.storePending op) := by
  intro id other here
  have inserted : (s.pending.insert op.id op)[id]? = some other := here
  rw [BTreeMap.get_insert] at inserted
  split at inserted
  · rename_i same
    obtain rfl := Option.some.inj inserted
    exact ⟨same, same ▸ logged⟩
  · exact parked inserted

private theorem ParkedLogged.appendOp {op : FsOp} (parked : ParkedLogged s)
    (same : ∀ logged, s.oplog[op.id]? = some logged → logged = op) :
    ParkedLogged (s.appendOp op) := by
  intro id other here
  obtain ⟨keyed, logged⟩ := parked here
  refine ⟨keyed, ?_⟩
  show (s.oplog.insert op.id op)[id]? = some other
  rw [BTreeMap.get_insert]
  split
  · rename_i equal
    rw [same other (equal ▸ logged)]
  · exact logged

/-- What one event does under the condition: no row of the log changes, and what takes effect is
what the log holds. -/
structure Faithful (env : Env) (s : CoreState) (e : Event) : Prop where
  parked : ParkedLogged (e.run env s)
  kept : ∀ {id : OpId} {op}, s.oplog[id]? = some op → (e.run env s).oplog[id]? = some op
  tried : ∀ x ∈ e.attempts env s, (e.run env s).oplog[x.2.id]? = some x.2

private theorem Faithful.idle (parked : ParkedLogged s) {e : Event} (same : e.run env s = s)
    (none_tried : e.attempts env s = []) : Faithful env s e := by
  refine ⟨?_, fun here => ?_, ?_⟩
  · rw [same]
    exact parked
  · rw [same]
    exact here
  · rw [none_tried]
    simp

private theorem faithful_apply (parked : ParkedLogged s) (op : FsOp)
    (met : SameAsLogged env s (.apply op)) : Faithful env s (.apply op) := by
  by_cases admits : Admits env op true s
  · by_cases known : op.id ∈ s.applied
    · have run : applyOp env op s = .ok .alreadyApplied s := applyOpInner_known admits known
      exact .idle parked (congrArg finalState run) (applyAttempts_known known)
    · have same := met admits known
      have filed : (s.appendOp op).oplog[op.id]? = some op := by
        show (s.oplog.insert op.id op)[op.id]? = some op
        rw [BTreeMap.get_insert, if_pos rfl]
      have grows : ∀ {id : OpId} {other}, s.oplog[id]? = some other →
          (s.appendOp op).oplog[id]? = some other := by
        intro id other here
        show (s.oplog.insert op.id op)[id]? = some other
        rw [BTreeMap.get_insert]
        split
        · rename_i equal
          rw [same other (equal ▸ here)]
        · exact here
      have rule := ledgerRule env (s.appendOp op).oplog
      have start := parked.appendOp same
      have park : ∀ {t : CoreState}, t.oplog = (s.appendOp op).oplog ∧ ParkedLogged t →
          op.id ∉ t.applied → (t.storePending op).oplog = (s.appendOp op).oplog ∧
            ParkedLogged (t.storePending op) :=
        fun {t} held _ => ⟨held.1, held.2.storePending (held.1 ▸ filed)⟩
      have ends := rule.applyOpInner admits known ⟨rfl, start⟩ filed park (fun _ _ => trivial)
      have traced := rule.applyAttempts_traced admits known ⟨rfl, start⟩ filed park
        (fun _ _ => trivial)
      have final : ((Event.apply op).run env s).oplog = (s.appendOp op).oplog ∧
          ParkedLogged ((Event.apply op).run env s) := by
        refine Ends.finalState (ends.imp
          (q := fun t => t.oplog = (s.appendOp op).oplog ∧ ParkedLogged t) ?_ fun _ _ held => held)
        rintro t ⟨u, ⟨log, order⟩, _, _, _, _, _, -, rfl⟩
        exact ⟨log, order⟩
      refine ⟨final.2, fun here => ?_, fun x member => ?_⟩
      · rw [final.1]
        exact grows here
      · rw [final.1]
        exact (traced x member).2
  · obtain ⟨e, run⟩ := applyOpInner_refused admits
    have run' : applyOp env op s = .error e s := run
    exact .idle parked (congrArg finalState run') (applyAttempts_refused admits)

private theorem faithful_retry (parked : ParkedLogged s) : Faithful env s .retry := by
  have rule := ledgerRule env s.oplog
  have ends := rule.drainPending ⟨rfl, parked⟩ (fun _ _ => trivial)
  have traced := rule.drainRetries_traced ⟨rfl, parked⟩ (fun _ _ => trivial)
  have final : (Event.retry.run env s).oplog = s.oplog ∧ ParkedLogged (Event.retry.run env s) := by
    show (finalState (retryPending env s)).oplog = s.oplog ∧
      ParkedLogged (finalState (retryPending env s))
    rw [retryPending_run]
    cases run : drainPending env s with
    | error e t =>
        rw [run] at ends
        exact ends
    | ok n t =>
        rw [run] at ends
        dsimp only [finalState_ok]
        split
        · obtain ⟨_, _, _, _, _, -, same⟩ := aside_buildSnapshot env t
          rw [same]
          exact ends
        · exact ends
  refine ⟨final.2, fun here => final.1 ▸ here, fun x member => ?_⟩
  rw [final.1]
  exact (traced x member).2

theorem ParkedLogged.event (parked : ParkedLogged s) (e : Event) (met : SameAsLogged env s e) :
    Faithful env s e := by
  cases e with
  | apply op => exact faithful_apply parked op met
  | retry => exact faithful_retry parked
  | blob bytes => exact ⟨parked, fun here => here, by simp [Event.attempts]⟩
  | collect dry_run =>
      have log : ((Event.collect dry_run).run env s).oplog = s.oplog ∧
          ((Event.collect dry_run).run env s).pending = s.pending := by
        show (finalState (collectGarbage env dry_run s)).oplog = s.oplog ∧
          (finalState (collectGarbage env dry_run s)).pending = s.pending
        rcases collectGarbage_run env s dry_run with same | ⟨marked, keep, -, -, same⟩
        · rw [same]
          exact ⟨rfl, rfl⟩
        · rw [same]
          exact ⟨rfl, rfl⟩
      refine ⟨fun id op here => ?_, fun here => log.1 ▸ here, by simp [Event.attempts]⟩
      rw [log.2] at here
      rw [log.1]
      exact parked here

private theorem parkedLogged_booted (env : Env) (blank : Blank s) : ParkedLogged (booted env s) := by
  obtain ⟨_, _, _, _, _, _, _, -, same⟩ := (booted_spec env blank).records
  intro id op here
  rw [same] at here
  have empty : s.pending[id]? = some op := here
  rw [blank.pending, Std.ExtTreeMap.getElem?_empty] at empty
  cases empty

theorem Run.parkedLogged (run : Run env (SameAsLogged env) s) : ParkedLogged s :=
  run.invariant (parkedLogged_booted env) fun parked met => (parked.event _ met).parked

theorem Run.oplog_kept {t : CoreState} (run : Run env (SameAsLogged env) s)
    (later : Later env (SameAsLogged env) s t) {id : OpId} {op : FsOp}
    (here : s.oplog[id]? = some op) : t.oplog[id]? = some op := by
  induction later with
  | refl => exact here
  | tail before step ih =>
      obtain ⟨e, met, rfl⟩ := step
      exact ((run.later before).parkedLogged.event e met).kept ih

/-- In such a run one operation stands for each id: the log keeps the first it holds, and every
operation that is tried, and so every one whose effects are applied, is the one it holds from then
on. -/
theorem one_operation_per_id (run : Run env (SameAsLogged env) s) :
    (∀ t, Later env (SameAsLogged env) s t → ∀ (id : OpId) op, s.oplog[id]? = some op →
      t.oplog[id]? = some op) ∧
    ∀ e, SameAsLogged env s e → ∀ x ∈ e.attempts env s,
      ∀ t, Later env (SameAsLogged env) (e.run env s) t → t.oplog[x.2.id]? = some x.2 := by
  refine ⟨fun t later id op here => run.oplog_kept later here, ?_⟩
  intro e met x member t later
  exact Run.oplog_kept (.step run met) later ((run.parkedLogged.event e met).tried x member)

def earlyOp : FsOp := sampleOp 1 (.mkdir (inodeForOp .plain ⟨7, 2⟩) "a" 0)

/-- Another operation under the id of `earlyOp`, whose name is refused once it has been logged. -/
def forkedOp : FsOp := sampleOp 1 (.mkdir rootInode "" 0)

def awaitedOp : FsOp := sampleOp 2 (.mkdir rootInode "p" 0)

def earlyState : CoreState := (Event.apply earlyOp).run .plain (booted .plain (CoreState.new 7))

/-- The early operation arrives twice, takes effect, and the other one under its id arrives after all. -/
def repeatedState : CoreState :=
  (Event.apply forkedOp).run .plain ((Event.apply awaitedOp).run .plain
    ((Event.apply earlyOp).run .plain earlyState))

private theorem earlyState_sameAsLogged : Run .plain (SameAsLogged .plain) earlyState := by
  refine .step (.boot (blank_new 7)) fun _ _ logged here => ?_
  have empty : (booted .plain (CoreState.new 7)).oplog[earlyOp.id]? = none := by decide +kernel
  cases here.symm.trans empty

private theorem repeatedState_sameAsLogged : Run .plain (SameAsLogged .plain) repeatedState := by
  have facts : earlyState.oplog[earlyOp.id]? = some earlyOp ∧
      ((Event.apply earlyOp).run .plain earlyState).oplog[awaitedOp.id]? = none ∧
      forkedOp.id ∈ ((Event.apply awaitedOp).run .plain
        ((Event.apply earlyOp).run .plain earlyState)).applied := by decide +kernel
  obtain ⟨parked, absent, applied⟩ := facts
  have again : SameAsLogged .plain earlyState (.apply earlyOp) := fun _ _ logged here =>
    Option.some.inj (here.symm.trans parked)
  have unblocks : SameAsLogged .plain ((Event.apply earlyOp).run .plain earlyState)
      (.apply awaitedOp) := fun _ _ logged here => by cases here.symm.trans absent
  exact .step (.step (.step earlyState_sameAsLogged again) unblocks)
    fun _ new => absurd applied new

theorem one_operation_per_id_sample :
    Run .plain (SameAsLogged .plain) repeatedState ∧ earlyOp.id ∈ repeatedState.applied ∧
      ∀ t, Later .plain (SameAsLogged .plain) repeatedState t → t.oplog[earlyOp.id]? = some earlyOp := by
  refine ⟨repeatedState_sameAsLogged, by decide +kernel, fun t later => ?_⟩
  exact (one_operation_per_id repeatedState_sameAsLogged).1 t later _ _ (by decide +kernel)

def forkedState : CoreState :=
  (Event.apply awaitedOp).run .plain ((Event.apply forkedOp).run .plain earlyState)

/-- A parked operation is replaced in the log by another one under its id, and is applied from the
queue all the same: the log now holds an operation that never took effect. -/
theorem forked_id_replaces_log :
    Run .plain (fun _ _ => True) earlyState ∧
      earlyState.oplog[earlyOp.id]? = some earlyOp ∧
      Later .plain (fun _ _ => True) earlyState forkedState ∧
      forkedState.oplog[earlyOp.id]? = some forkedOp ∧ forkedOp ≠ earlyOp ∧
      earlyOp.id ∈ forkedState.applied ∧
      forkedState.lookup (inodeForOp .plain ⟨7, 2⟩) "a" =
        some ⟨"a", inodeForOp .plain earlyOp.id, .dir⟩ := by
  refine ⟨.step (.boot (blank_new 7)) trivial, by decide +kernel, ?_, by decide +kernel,
    by decide +kernel, by decide +kernel, by decide +kernel⟩
  refine .tail (.tail .refl ⟨.apply forkedOp, trivial, rfl⟩) ⟨.apply awaitedOp, trivial, rfl⟩

end Ledger

end NexusFS.Core
