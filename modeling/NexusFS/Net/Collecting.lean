/- GID: NexusFS/Net/Collecting
   source: crates/core/src/gc.rs
   digest: In every state of a node a collection deletes what its survey counted, once and for all. -/

import NexusFS.Core.Collect
import NexusFS.Net.Draining

set_option autoImplicit false
set_option relaxedAutoImplicit false

namespace NexusFS.Net

open NexusFS.Lib NexusFS.Lib.Effect NexusFS.Proto NexusFS.Core CoreState

section Collecting

variable {env : Env} {identity : Identity} {ids : Set OpId} {s : CoreState}

/-- In every state of a node, among operations that create distinct inodes: a survey changes nothing,
and a collection that is not refused deletes exactly what the survey of the same state counts, and
leaves nothing for a second one. -/
theorem gc_exact_idempotent (inj : Set.InjOn (inodeForOp env) ids)
    (run : NodeRun env identity (EachCall env identity fun _ call => call.Within ids) s) :
    finalState (collectGarbage env true s) = s ∧
      ∀ report t, collectGarbage env false s = .ok report t → report.refused = none →
        Collected env s t report := by
  have orderly := run.orderly inj fun _ _ within => within
  refine ⟨?_, fun report t call swept => orderly.shape.collected call swept⟩
  unfold collectGarbage
  simp only [bind_run, get_run]
  cases sweepBlocker s <;> cases reachableHashes env s <;> cases reachableInodes s <;> rfl

def junkState : CoreState :=
  (Act.store [9]).run .sealing sampleIdentity
    ((Act.receive (sampleOp 2 (.unlink rootInode "a" [⟨7, 1⟩]))).run .sealing sampleIdentity
      ((Act.receive (sampleOp 1 (.mkdir rootInode "a" 0))).run .sealing sampleIdentity
        (booted .sealing (CoreState.new 7))))

private theorem junkState_run : NodeRun .sealing sampleIdentity
    (EachCall .sealing sampleIdentity fun _ call => call.Within sampleIds) junkState := by
  refine .step (.step (.step (.boot (blank_new 7) rfl rfl) fun x member => ?_)
    fun x member => ?_) fun x member => ?_
  · obtain rfl := List.mem_singleton.mp member
    exact .inl rfl
  · obtain rfl := List.mem_singleton.mp member
    exact .inr rfl
  · cases member

theorem gc_exact_idempotent_sample :
    ∃ report t, collectGarbage .sealing false junkState = .ok report t ∧
      report.unreachable = 4 ∧ report.records_unreachable = 3 ∧
        Collected .sealing junkState t report := by
  have facts : (answer (collectGarbage .sealing false junkState)).map (fun report =>
      (report.refused, report.unreachable, report.records_unreachable)) = some (none, 4, 3) := by
    decide +kernel
  have inj : Set.InjOn (inodeForOp .sealing) sampleIds := sampleIds_injOn
  have exact := (gc_exact_idempotent inj junkState_run).2
  cases call : collectGarbage .sealing false junkState with
  | error e t =>
      rw [call] at facts
      cases facts
  | ok report t =>
      rw [call] at facts
      have parts := Option.some.inj facts
      simp only [Prod.mk.injEq] at parts
      exact ⟨report, t, rfl, parts.2.1, parts.2.2, exact report t call parts.1⟩

end Collecting

end NexusFS.Net
