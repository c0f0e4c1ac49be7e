/- GID: NexusFS/Core/Call
   source: crates/core/src/apply.rs, crates/core/src/gc.rs, crates/core/src/snapshot.rs
   digest: The calls that change a namespace, and the invariants no call and no bookkeeping breaks. -/

import NexusFS.Core.Poison
import NexusFS.Core.Present

/-!
A node reaches its namespace through four calls. Whatever else it does, signing an
operation, storing content, enrolling a peer, leaves the namespace, its map, the queue
and the commitment as they are.
-/

set_option autoImplicit false
set_option relaxedAutoImplicit false

namespace NexusFS.Core

open NexusFS.Lib NexusFS.Lib.Effect NexusFS.Proto NexusFS.Crdt CoreState

/-- The calls that change the namespace, its map, the queue or the commitment. -/
inductive Call where
  | apply (op : FsOp) (check_policy : Bool)
  | retry
  | snapshot
  | collect (dry_run : Bool)

namespace Call

def run (env : Env) (s : CoreState) : Call → CoreState
  | .apply op check_policy => finalState (applyOpInner env op check_policy s)
  | .retry => finalState (retryPending env s)
  | .snapshot => finalState (buildSnapshot env s)
  | .collect dry_run => finalState (collectGarbage env dry_run s)

def Within (ids : Set OpId) : Call → Prop
  | .apply op _ => op.id ∈ ids
  | _ => True

def attempts (env : Env) (s : CoreState) : Call → List (CoreState × FsOp)
  | .apply op check_policy => applyAttempts env op check_policy s
  | .retry => drainRetries env s
  | .snapshot => []
  | .collect _ => []

end Call

/-- `t` has the namespace, the map, the queue and the commitment of `s`, and its content. -/
structure Quiet (s t : CoreState) : Prop where
  dirs : t.dirs = s.dirs
  inodes : t.inodes = s.inodes
  parents : t.parents = s.parents
  imap : t.imap = s.imap
  applied : t.applied = s.applied
  pending : t.pending = s.pending
  head : t.head = s.head
  state_root : t.state_root = s.state_root
  state_time : t.state_time = s.state_time
  device_id : t.device_id = s.device_id
  blobs : ∀ hash, s.hasBlob hash → t.hasBlob hash

theorem Quiet.refl (s : CoreState) : Quiet s s :=
  ⟨rfl, rfl, rfl, rfl, rfl, rfl, rfl, rfl, rfl, rfl, fun _ here => here⟩

section Invariants

variable {env : Env} {ids : Set OpId} {s t : CoreState}

theorem CallRule.run {I : CoreState → Prop} {R : FsOp → Prop}
    (rule : CallRule env I R (fun _ _ => True) fun _ => I) (inv : I s) {call : Call}
    (ready : ∀ op check_policy, call = .apply op check_policy → R op)
    (swept : ∀ dry_run, call = .collect dry_run → I (call.run env s)) :
    I (call.run env s) := by
  cases call with
  | apply op check_policy =>
      have ends := rule.applyOpInner inv (ready op check_policy rfl)
        (fun _ _ => trivial : ∀ x ∈ applyAttempts env op check_policy s, True)
      exact Ends.finalState (ends.imp (fun _ here => here) fun _ _ here => here.elim id id)
  | retry => exact Ends.finalState (rule.retryPending inv fun _ _ => trivial)
  | snapshot => exact rule.aside inv (aside_buildSnapshot env s)
  | collect dry_run => exact swept dry_run rfl

theorem AttemptRule.traced {I : CoreState → Prop}
    (rule : AttemptRule env I (fun _ => True) (fun _ _ => True) fun _ => I)
    (logged : ∀ {t} (op : FsOp), I t → I (t.appendOp op))
    (park : ∀ {t} (op : FsOp), I t → I (t.storePending op)) (inv : I s) {call : Call}
    {x : CoreState × FsOp} (member : x ∈ call.attempts env s) : I x.1 := by
  cases call with
  | snapshot => cases member
  | collect dry_run => cases member
  | retry => exact (rule.drainRetries_traced inv (fun _ _ => trivial) x member).1
  | apply op check_policy =>
      have listed : x ∈ applyAttempts env op check_policy s := member
      obtain ⟨admits, new⟩ := admits_of_attempts listed
      exact (rule.applyAttempts_traced admits new (logged op inv) trivial
        (fun held _ => park op held) (fun _ _ => trivial) x listed).1

theorem CallRule.onward {I : CoreState → Prop}
    (rule : CallRule env I (fun _ => True) (fun _ _ => True) fun _ => I) {call : Call}
    {x : CoreState × FsOp} (member : x ∈ call.attempts env s)
    (after : I (finalState (attempt env x.2 x.1))) : I (call.run env s) := by
  cases call with
  | snapshot => cases member
  | collect dry_run => cases member
  | retry =>
      have drained := rule.drainRetries_onward member after
      show I (finalState (Core.retryPending env s))
      rw [retryPending_run]
      cases later : drainPending env s with
      | error e t =>
          rw [later] at drained
          exact drained
      | ok n t =>
          rw [later] at drained
          show I (if 0 < n then finalState (buildSnapshot env t) else t)
          split
          · exact rule.aside drained (aside_buildSnapshot env t)
          · exact drained
  | apply op check_policy =>
      have listed : x ∈ applyAttempts env op check_policy s := member
      obtain ⟨admits, new⟩ := admits_of_attempts listed
      show I (finalState (Core.applyOpInner env op check_policy s))
      rw [applyAttempts_new admits new, applyRetries_new admits new] at listed
      rcases List.mem_cons.mp listed with rfl | later
      · exact rule.after_first admits new trivial after
      · rw [applyOpInner_new admits new]
        unfold afterFirst at later
        cases run : attempt env op (s.appendOp op) with
        | error e t =>
            rw [run] at later
            cases later
        | ok outcome t =>
            rw [run] at later
            cases outcome with
            | done =>
                have rest := rule.drainRetries_onward later after
                dsimp only
                cases drained : drainPending env t with
                | error e u =>
                    rw [drained] at rest
                    exact rest
                | ok n u =>
                    rw [drained] at rest
                    exact rule.aside rest (aside_closeCall env True u)
            | unmet reason =>
                have rest := rule.drainRetries_onward later after
                dsimp only
                cases drained : drainPending env (t.storePending op) with
                | error e u =>
                    rw [drained] at rest
                    exact rest
                | ok n u =>
                    rw [drained] at rest
                    exact rule.aside rest (aside_closeCall env (0 < n) u)

private theorem Call.Within.ready {call : Call} (within : call.Within ids) :
    ∀ op check_policy, call = .apply op check_policy → op.id ∈ ids := by
  rintro op check_policy rfl
  exact within

theorem Charted.call (charted : Charted env ids s) (inj : Set.InjOn (inodeForOp env) ids)
    {call : Call} (within : call.Within ids) : Charted env ids (call.run env s) := by
  refine (chartedRule inj).run charted within.ready ?_
  rintro dry_run rfl
  exact charted.event inj (show (Event.collect dry_run).Within ids from trivial)

theorem Queue.call (queue : Queue s) (call : Call) : Queue (call.run env s) := by
  refine (queueCallRule env).run queue (fun _ _ _ => trivial) ?_
  rintro dry_run rfl
  show Queue (finalState (collectGarbage env dry_run s))
  rcases collectGarbage_run env s dry_run with same | ⟨marked, keep, -, -, same⟩
  · rw [same]
    exact queue
  · rw [same]
    exact queue.congr rfl rfl

theorem Charted.quiet (charted : Charted env ids s) (quiet : Quiet s t) : Charted env ids t := by
  have loadInode : ∀ i, t.loadInode i = s.loadInode i := fun i => by
    simp only [CoreState.loadInode, quiet.inodes]
  have shape : Shape env ids t := by
    refine charted.1.congr quiet.dirs quiet.parents (fun i => by rw [loadInode]) ?_ ?_ ?_
    · exact fun here => quiet.applied ▸ here
    · exact fun here => charted.1.known (quiet.applied ▸ here)
    · exact fun here => charted.1.parked (quiet.pending ▸ here)
  exact ⟨shape, charted.2.congr shape quiet.dirs quiet.inodes quiet.imap⟩

theorem HeadStored.call (stored : HeadStored s) (shape : Shape env ids s) (call : Call) :
    HeadStored (call.run env s) := by
  cases call with
  | apply op check_policy => exact stored.applyOpInner op check_policy
  | retry => exact stored.retryPending
  | snapshot => exact headStored_buildSnapshot env s
  | collect dry_run => exact stored.collectGarbage shape dry_run

/-- What every call within `ids` keeps, and what lies between calls leaves alone: the namespace has
its shape and an exact map unless it outgrew the walk, the queue is in order, and the head is
stored. -/
structure Orderly (env : Env) (ids : Set OpId) (s : CoreState) : Prop where
  charted : Charted env ids s
  queue : Queue s
  stored : HeadStored s

theorem Orderly.shape (orderly : Orderly env ids s) : Shape env ids s := orderly.charted.1

theorem Orderly.call (orderly : Orderly env ids s) (inj : Set.InjOn (inodeForOp env) ids) {call : Call}
    (within : call.Within ids) : Orderly env ids (call.run env s) :=
  ⟨orderly.charted.call inj within, orderly.queue.call call, orderly.stored.call orderly.shape call⟩

theorem Orderly.quiet (orderly : Orderly env ids s) (quiet : Quiet s t) : Orderly env ids t :=
  ⟨orderly.charted.quiet quiet, orderly.queue.congr quiet.pending quiet.applied,
    orderly.stored.mono quiet.head quiet.blobs⟩

theorem orderly_booted (env : Env) (ids : Set OpId) (blank : Blank s) : Orderly env ids (booted env s) :=
  have fresh := booted_spec env blank
  ⟨⟨fresh.shape blank, .inl ⟨fresh.shape blank, fresh.exact⟩⟩, queue_booted env blank,
    headStored_booted env blank⟩

end Invariants

end NexusFS.Core
