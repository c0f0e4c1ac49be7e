/- GID: NexusFS/Core/Refused
   source: crates/core/src/apply.rs, crates/core/src/state.rs
   digest: What a refused operation leaves behind, and when it leaves nothing. -/

import NexusFS.Core.Reachable

set_option autoImplicit false
set_option relaxedAutoImplicit false

namespace NexusFS.Core

open NexusFS.Lib NexusFS.Lib.Effect NexusFS.Proto NexusFS.Crdt CoreState

section Refused

variable {env : Env} {op : FsOp} {s t : CoreState}

/-- Nothing a peer or a reader of the filesystem could see differs. -/
structure Traceless (s t : CoreState) : Prop where
  oplog : t.oplog = s.oplog
  applied : t.applied = s.applied
  pending : t.pending = s.pending
  clock : clockSummary t = clockSummary s
  dirs : t.dirs = s.dirs
  inodes : t.inodes = s.inodes
  imap : t.imap = s.imap
  root : t.state_root = s.state_root
  head : t.head = s.head

/-- The call fails because of its own operation: a check refuses it, or its mutation does. The
mutation is attempted once the operation has been logged. -/
def SelfRefused (env : Env) (op : FsOp) (s : CoreState) : Prop :=
  ¬Admits env op true s ∨ op.id ∉ s.applied ∧ ∃ e, Refusal env op (s.appendOp op) e

theorem applyOp_refusal {e : Err} (admits : Admits env op true s) (new : op.id ∉ s.applied)
    (refusal : Refusal env op (s.appendOp op) e) :
    applyOp env op s = .error e (s.appendOp op) := by
  have failed : attempt env op (s.appendOp op) = .error e (s.appendOp op) := by
    rw [attempt_run, refusal.mutate]
  have run := applyOpInner_new admits new
  rw [failed] at run
  exact run

theorem traceless_appendOp : Traceless s (s.appendOp op) ↔ s.oplog[op.id]? = some op := by
  have logged : (s.appendOp op).oplog = s.oplog ↔ s.oplog[op.id]? = some op :=
    BTreeMap.insert_eq_self_iff s.oplog op.id op
  constructor
  · intro traceless
    exact logged.mp traceless.oplog
  · intro held
    have same := logged.mpr held
    have clock : clockSummary (s.appendOp op) = clockSummary s := by
      simp only [clockSummary, seenCounters, same]
    exact ⟨same, rfl, rfl, clock, rfl, rfl, rfl, rfl, rfl⟩

/-- A refused operation leaves no trace exactly when a check refused it, before it was logged, or
the log held this very operation already. -/
theorem refused_traceless_iff (refused : SelfRefused env op s) :
    (∃ e t, applyOp env op s = .error e t) ∧
      (Traceless s (finalState (applyOp env op s)) ↔
        ¬Admits env op true s ∨ s.oplog[op.id]? = some op) := by
  by_cases admits : Admits env op true s
  · obtain ⟨new, e, refusal⟩ := refused.resolve_left (not_not.mpr admits)
    have run := applyOp_refusal admits new refusal
    refine ⟨⟨e, _, run⟩, ?_⟩
    rw [run, finalState_error, traceless_appendOp]
    simp [admits]
  · obtain ⟨e, run⟩ := applyOpInner_refused admits
    have run' : applyOp env op s = .error e s := run
    refine ⟨⟨e, s, run'⟩, ?_⟩
    rw [run', finalState_error]
    exact iff_of_true ⟨rfl, rfl, rfl, rfl, rfl, rfl, rfl, rfl, rfl⟩ (.inl admits)

def namelessOp : FsOp := sampleOp 3 (.mkdir rootInode "" 0)

private theorem namelessOp_refusal (s : CoreState) : Refusal .plain namelessOp s .emptyName :=
  .badName (show namelessOp.kind = creation .dir rootInode "" 0 from rfl) rfl

private theorem namelessOp_admits (s : CoreState) (lax : s.proofs = .none) :
    Admits .plain namelessOp true s := by
  refine ⟨by decide, fun _ => ?_⟩
  rw [lax]
  decide

theorem namelessOp_refused : SelfRefused .plain namelessOp sampleState :=
  .inr ⟨by decide +kernel, _, namelessOp_refusal _⟩

/-- At a reachable state, a directory without a name is refused and stays in the log and in the
clock summary. -/
theorem refused_op_stays_logged :
    Run .plain (fun _ e => e.Within sampleIds) sampleState ∧
      SelfRefused .plain namelessOp sampleState ∧
      ¬Traceless sampleState (finalState (applyOp .plain namelessOp sampleState)) ∧
      (7, 3) ∈ (clockSummary (finalState (applyOp .plain namelessOp sampleState))).entries := by
  have admits := namelessOp_admits sampleState (by decide +kernel)
  have new : namelessOp.id ∉ sampleState.applied := by decide +kernel
  refine ⟨sampleState_run, namelessOp_refused, ?_, by decide +kernel⟩
  rw [applyOp_refusal admits new (namelessOp_refusal _), finalState_error, traceless_appendOp]
  decide +kernel

theorem refused_traceless_redelivery :
    Traceless (sampleState.appendOp namelessOp)
      (finalState (applyOp .plain namelessOp (sampleState.appendOp namelessOp))) := by
  have refused : SelfRefused .plain namelessOp (sampleState.appendOp namelessOp) :=
    .inr ⟨by decide +kernel, _, namelessOp_refusal _⟩
  refine (refused_traceless_iff refused).2.mpr (.inr ?_)
  decide +kernel

end Refused

end NexusFS.Core
