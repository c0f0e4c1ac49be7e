/- GID: NexusFS/Net/Draining
   source: crates/core/src/apply.rs
   digest: In every state of a node a drain ends, and what is parked after it can not be applied. -/

import NexusFS.Core.Fixpoint
import NexusFS.Net.Calls

set_option autoImplicit false
set_option relaxedAutoImplicit false

namespace NexusFS.Net

open NexusFS.Lib NexusFS.Lib.Effect NexusFS.Proto NexusFS.Core CoreState

section Draining

variable {env : Env} {identity : Identity} {s t : CoreState}

theorem NodeRun.queue {meets : CoreState → Act → Prop} (run : NodeRun env identity meets s) :
    Queue s := by
  induction run with
  | boot blank _ _ => exact queue_booted env blank
  | step _ _ ih =>
      have anyCall : ∀ {s : CoreState} {call : Call}, Queue s → True → Queue (call.run env s) :=
        fun queue _ => queue.call _
      exact (through_act _).carry (fun queue still => queue.congr still.pending still.applied)
        anyCall ih fun _ _ => trivial

/-- From every state of a node the drain ends, with one outcome. After a call that applied or parked
an operation, and after a retry that returned, nothing is both applied and parked; what is parked
is unmet, unless the snapshot that the call stored holds bytes that a write is made from; and a
parked write has no file yet or can still win it, so that only content of such writes is
missing. -/
theorem drain_fixpoint (run : AnyRun env identity s) :
    (∃ r, Drains env s r) ∧ (∀ r, Drains env s r → r = drainPending env s) ∧
      (∀ op check_policy outcome t, applyOpInner env op check_policy s = .ok outcome t →
        outcome ≠ .alreadyApplied → Drained env s t) ∧
      ∀ n t, retryPending env s = .ok n t → Drained env s t := by
  have queue := run.queue
  refine ⟨⟨_, (drains_iff queue).mpr rfl⟩, fun r drains => (drains_iff queue).mp drains, ?_, ?_⟩
  · intro op check_policy outcome t call new
    obtain ⟨u, at_end⟩ := drained_of_applyOp queue call new
    exact at_end.drained
  · intro n t call
    obtain ⟨u, at_end⟩ := drained_of_retryPending queue call
    exact at_end.drained

theorem drain_fixpoint_sample :
    sampleChunkHash ∈ missingChunkHashes waitingState ∧
      Drained .plain waitingState (Act.retry.run .plain sampleIdentity waitingState) := by
  have run : AnyRun .plain sampleIdentity waitingState :=
    .step (.step (.boot (blank_new 7) rfl rfl) trivial) trivial
  have answered : answer (retryPending .plain waitingState) = some 0 := by decide +kernel
  exact ⟨by decide +kernel, (drain_fixpoint run).2.2.2 0 _ (ran_of_answer answered)⟩

def laterDir : FsOp := sampleOp 3 (.mkdir rootInode "d" 0)

def laterHead : Hash :=
  ((Act.receive laterDir).run .sealing sampleIdentity
    (sampleCreate.run .sealing sampleIdentity (booted .sealing (CoreState.new 7)))).head.getD 0

def headWrite : FsOp :=
  sampleOp 2 (.write (inodeForOp .sealing ⟨7, 1⟩) 0 [⟨laterHead, 3, 3, 0⟩] 3 none)

def headWaiting : CoreState :=
  (Act.receive headWrite).run .sealing sampleIdentity
    (sampleCreate.run .sealing sampleIdentity (booted .sealing (CoreState.new 7)))

private theorem headWaiting_facts :
    answer (applyOp .sealing laterDir headWaiting) = some .applied ∧
      (finalState (applyOp .sealing laterDir headWaiting)).pending[headWrite.id]? = some headWrite ∧
      answer (mutate .sealing headWrite (finalState (applyOp .sealing laterDir headWaiting))) =
        some .done := by decide +kernel

/-- The directory is applied, and its snapshot is the chunk that the write waits for: the write stays
parked and could be applied. -/
theorem snapshot_enables_write :
    AnyRun .sealing sampleIdentity headWaiting ∧
      ∃ t, applyOp .sealing laterDir headWaiting = .ok .applied t ∧
        t.pending[headWrite.id]? = some headWrite ∧
        ∃ u, mutate .sealing headWrite t = .ok .done u := by
  obtain ⟨applied, parked, done⟩ := headWaiting_facts
  exact ⟨.step (.step (.boot (blank_new 7) rfl rfl) trivial) trivial, _, ran_of_answer applied,
    parked, _, ran_of_answer done⟩

end Draining

end NexusFS.Net
