/- GID: NexusFS/Core/Eventual
   source: crates/core/src/apply.rs, crates/core/src/snapshot.rs
   digest: Operations that arrive before their content: once it is there, a retry catches up. -/

import NexusFS.Core.Call
import NexusFS.Core.Convergence
import NexusFS.Core.Stock

/-!
`Sound` asks for the content of a whole batch before the first delivery. Here content arrives
whenever it does. What waits for it stays parked, and nothing that is enabled does once the content
is there and the queue was retried.
-/

set_option autoImplicit false
set_option relaxedAutoImplicit false

namespace NexusFS.Core

open NexusFS.Lib NexusFS.Lib.Effect NexusFS.Proto NexusFS.Crdt CoreState

section Unstocked

variable {env : Env} {ops : Finset FsOp} {past : Set OpId} {s t : CoreState} {op : FsOp}

/-- What the attempts at a batch keep, whatever content is there. -/
structure Unstocked (env : Env) (ops : Finset FsOp) (past : Set OpId) (s : CoreState) : Prop where
  exact : Exact env (batchIds ops) s
  canon : Canon env ops s
  held : ∀ {id}, id ∈ past → Held s id

theorem Held.congr {id : OpId} (held : Held s id) (applied : t.applied = s.applied)
    (pending : t.pending = s.pending) : Held t id := by
  unfold Held
  rw [applied, pending]
  exact held

theorem Unstocked.not_poisoned (unstocked : Unstocked env ops past s) (batch : Batch env ops)
    (few : FewDirs ops) (member : op ∈ ops) (hope : ¬Hopeless op) (safe : RenameSafe s op)
    (new : op.id ∉ s.applied) : ¬Poisoned env op s := by
  have shape := unstocked.exact.shape
  exact fun poisoned => poisoned.elim (unstocked.canon.not_refused batch member hope safe)
    (not_mapLimit batch.separate shape ⟨op, member, rfl⟩ new fun u effect =>
      (unstocked.canon.effect batch shape member new safe effect).roomy batch few)

theorem Unstocked.attempt (unstocked : Unstocked env ops past s) (batch : Batch env ops)
    (few : FewDirs ops) (member : op ∈ ops) (hope : ¬Hopeless op) (safe : RenameSafe s op)
    (new : op.id ∉ s.applied) :
    ∃ outcome t, attempt env op s = .ok outcome t ∧ Unstocked env ops past t := by
  have inIds : op.id ∈ batchIds ops := ⟨op, member, rfl⟩
  obtain ⟨outcome, t, run⟩ :=
    attempt_of_not_poisoned (unstocked.not_poisoned batch few member hope safe new)
  have exact := (exactRule batch.separate).tried unstocked.exact inIds trivial new
  have spec := attempt_spec env op s
  rw [run] at exact spec
  refine ⟨outcome, t, run, ?_⟩
  cases outcome with
  | unmet reason =>
      obtain ⟨rfl, -⟩ := spec
      exact unstocked
  | done =>
      have took : Took env op s t := spec
      refine ⟨exact, ?_, fun inside => (unstocked.held inside).took took⟩
      obtain ⟨u, effect, only⟩ := took
      exact (unstocked.canon.effect batch unstocked.exact.shape member new safe effect).onlyMap only

theorem unstockedRule (batch : Batch env ops) (few : FewDirs ops) (past : Set OpId) :
    CallRule env (Unstocked env ops past) (fun op => op ∈ ops ∧ ¬Hopeless op)
      (fun s op => op ∈ ops → RenameSafe s op) (fun _ _ => False) where
  tried := by
    intro s op unstocked ready safe new
    obtain ⟨outcome, t, run, after⟩ :=
      unstocked.attempt batch few ready.1 ready.2 (safe ready.1) new
    rw [run]
    exact after
  cleared := by
    intro s op unstocked _ applied
    refine ⟨⟨unstocked.exact.shape.clearPending _, unstocked.exact.map.congr rfl rfl rfl⟩,
      unstocked.canon.congr rfl rfl rfl rfl ?_, ?_⟩
    · intro id parked here
      have value : (s.pending.erase op.id)[id]? = some parked := here
      rw [BTreeMap.get_erase] at value
      split at value
      · cases value
      · exact unstocked.canon.parked value
    · intro id inside
      rcases unstocked.held inside with here | ⟨parked, here⟩
      · exact .inl here
      · by_cases same : op.id = id
        · exact .inl (same ▸ applied)
        · refine .inr ⟨parked, ?_⟩
          show (s.pending.erase op.id)[id]? = some parked
          rw [BTreeMap.get_erase, if_neg same]
          exact here
  parked := fun unstocked here => unstocked.canon.parked here
  logged := fun unstocked _ => ⟨⟨unstocked.exact.shape.appendOp _, unstocked.exact.map.congr rfl rfl rfl⟩,
    unstocked.canon.congr rfl rfl rfl rfl unstocked.canon.parked, fun inside => unstocked.held inside⟩
  aside := by
    intro s t unstocked aside
    have shape := unstocked.exact.shape.aside aside
    obtain ⟨blobs, head, root, kv, blob, -, rfl⟩ := aside
    exact ⟨⟨shape, unstocked.exact.map.congr rfl rfl rfl⟩,
      unstocked.canon.congr rfl rfl rfl rfl unstocked.canon.parked, fun inside => unstocked.held inside⟩
  park := by
    intro s op unstocked ready new
    refine ⟨⟨unstocked.exact.shape.storePending ⟨op, ready.1, rfl⟩, unstocked.exact.map.congr rfl rfl rfl⟩,
      unstocked.canon.congr rfl rfl rfl rfl ?_, ?_⟩
    · intro id parked here
      have stored : (s.pending.insert op.id op)[id]? = some parked := here
      rw [BTreeMap.get_insert] at stored
      split at stored
      · exact Option.some.inj stored ▸ ready
      · exact unstocked.canon.parked stored
    · intro id inside
      rcases unstocked.held inside with applied | ⟨parked, here⟩
      · exact .inl applied
      · right
        show ∃ other, (s.pending.insert op.id op)[id]? = some other
        rw [BTreeMap.get_insert]
        split
        · exact ⟨op, rfl⟩
        · exact ⟨parked, here⟩

theorem Unstocked.drain (unstocked : Unstocked env ops past s) (queue : Queue s) (batch : Batch env ops)
    (few : FewDirs ops) (safe : ∀ x ∈ drainRetries env s, x.2 ∈ ops → RenameSafe x.1 x.2) :
    ∃ n t, drainPending env s = .ok n t ∧ Unstocked env ops past t ∧ Queue t ∧ (n = 0 → t = s) ∧
      (∀ hash, s.hasBlob hash = true → t.hasBlob hash = true) ∧
      (Stocked ops s → ∀ {id : OpId} {op}, t.pending[id]? = some op → ¬Enabled env ops t.done op) := by
  have drained := (unstockedRule batch few past).toAttemptRule.drainPending unstocked safe
  have ends := drainPending_ends env queue
  have kept := (settlesRule env s).drainPending ⟨fun here => here, fun _ here => here⟩
    (fun _ _ => trivial)
  cases run : drainPending env s with
  | error e t =>
      rw [run] at drained
      exact drained.elim
  | ok n t =>
      rw [run] at drained ends kept
      obtain ⟨order, stuck, idle, traced⟩ := ends
      have after : Unstocked env ops past t := drained
      have keeps : Settles s t := kept
      refine ⟨n, t, rfl, after, order, idle, keeps.2, fun before id op here => ?_⟩
      have stocked : Stocked ops t := before.mono keeps.2
      obtain ⟨reason, unmet⟩ := stuck here
      have spec := mutate_spec env op t
      rw [unmet] at spec
      have inside := (after.canon.parked here).1
      exact after.canon.not_enabled_of_waits batch inside stocked (safe _ (traced here) inside) spec.2

end Unstocked

section Regular

variable {env : Env} {ops : Finset FsOp} {past : Set OpId} {s t : CoreState} {op : FsOp}
  {check_policy : Bool}

/-- A state between two calls, whatever content is there. -/
structure Regular (env : Env) (ops : Finset FsOp) (past : Set OpId) (s : CoreState) : Prop where
  unstocked : Unstocked env ops past s
  current : Current env s
  queue : Queue s

theorem regular_booted (env : Env) (ops : Finset FsOp) (blank : Blank s) :
    Regular env ops ∅ (booted env s) := by
  have fresh := booted_spec env blank
  refine ⟨⟨⟨fresh.shape blank, fresh.exact⟩, ?_, fun inside => absurd inside (Set.notMem_empty _)⟩,
    current_booted env blank, queue_booted env blank⟩
  obtain ⟨blobs, imap, head, root, version, kv, blob, -, same⟩ := fresh.records
  have canon := canon_genesis env ops blank
  rw [same]
  exact canon.congr rfl rfl rfl rfl canon.parked

theorem Regular.quiet (regular : Regular env ops past s) (quiet : Quiet s t) :
    Regular env ops past t := by
  have loadInode : ∀ i, t.loadInode i = s.loadInode i := fun i => by
    simp only [CoreState.loadInode, quiet.inodes]
  have exact := regular.unstocked.exact
  have shape : Shape env (batchIds ops) t := by
    refine exact.shape.congr quiet.dirs quiet.parents (fun i => by rw [loadInode]) ?_ ?_ ?_
    · exact fun here => quiet.applied ▸ here
    · exact fun here => exact.shape.known (quiet.applied ▸ here)
    · exact fun here => exact.shape.parked (quiet.pending ▸ here)
  refine ⟨⟨⟨shape, exact.map.congr quiet.dirs quiet.inodes quiet.imap⟩, ?_, ?_⟩, ?_,
    regular.queue.congr quiet.pending quiet.applied⟩
  · exact regular.unstocked.canon.congr quiet.dirs quiet.inodes quiet.parents quiet.applied
      fun here => regular.unstocked.canon.parked (quiet.pending ▸ here)
  · exact fun inside => (regular.unstocked.held inside).congr quiet.applied quiet.pending
  · exact regular.current.congr quiet.imap quiet.state_root quiet.head quiet.device_id
      quiet.state_time

theorem Regular.widen {later : Set OpId} (regular : Regular env ops past s)
    (held : ∀ {id}, id ∈ later → Held s id) : Regular env ops later s :=
  ⟨⟨regular.unstocked.exact, regular.unstocked.canon, held⟩, regular.current, regular.queue⟩

theorem Regular.closed (unstocked : Unstocked env ops past s) (batch : Batch env ops) (few : FewDirs ops)
    (queue : Queue s) {snapshot : Prop} [Decidable snapshot] (current : ¬snapshot → Current env s) :
    Regular env ops past (closeCall env snapshot s) := by
  have aside := aside_closeCall env snapshot s
  refine ⟨(unstockedRule batch few past).aside unstocked aside, current_closeCall snapshot current, ?_⟩
  obtain ⟨blobs, head, root, kv, blob, -, same⟩ := aside
  exact queue.congr (by rw [same]) (by rw [same])

/-- A call with an operation of the batch keeps a state regular, and holds the operation unless it is
refused in every state. -/
theorem Regular.applyOpInner (regular : Regular env ops past s) (batch : Batch env ops)
    (few : FewDirs ops)
    (member : Admits env op check_policy s → op.id ∉ s.applied → op ∈ ops)
    (safe : ∀ x ∈ applyAttempts env op check_policy s, x.2 ∈ ops → RenameSafe x.1 x.2) :
    Regular env ops past (finalState (applyOpInner env op check_policy s)) ∧
      (Admits env op check_policy s → ¬Hopeless op →
        Held (finalState (applyOpInner env op check_policy s)) op.id) := by
  by_cases admits : Admits env op check_policy s
  · by_cases known : op.id ∈ s.applied
    · rw [applyOpInner_known admits known]
      exact ⟨regular, fun _ _ => .inl known⟩
    · have inside := member admits known
      have logged_queue : Queue (s.appendOp op) := regular.queue.congr rfl rfl
      have logged : Unstocked env ops past (s.appendOp op) :=
        ⟨⟨regular.unstocked.exact.shape.appendOp op, regular.unstocked.exact.map.congr rfl rfl rfl⟩,
          regular.unstocked.canon.congr rfl rfl rfl rfl regular.unstocked.canon.parked,
          fun here => regular.unstocked.held here⟩
      have call : Core.applyOpInner env op check_policy s = _ := applyOpInner_new admits known
      by_cases hopeless : Hopeless op
      · obtain ⟨e, refusal⟩ := hopeless.refused logged.exact.shape
        have failed : Core.attempt env op (s.appendOp op) = .error e (s.appendOp op) := by
          rw [attempt_run, refusal.mutate]
        rw [call, failed]
        exact ⟨⟨logged, regular.current.congr rfl rfl rfl rfl rfl, logged_queue⟩,
          fun _ hope => absurd hopeless hope⟩
      · rw [applyAttempts_new admits known, applyRetries_new admits known] at safe
        have first := safe _ List.mem_cons_self inside
        have retries := fun x here => safe x (List.mem_cons_of_mem _ here)
        obtain ⟨outcome, t, run, after⟩ := logged.attempt batch few inside hopeless first known
        have spec := attempt_spec env op (s.appendOp op)
        unfold afterFirst at retries
        rw [run] at call spec retries
        -- the operation joins what is held before the queue is drained
        have joined : ∀ {u : CoreState}, Unstocked env ops past u → Held u op.id →
            Unstocked env ops (insert op.id past) u := fun {u} kept here =>
          ⟨kept.exact, kept.canon, fun {id} old => by
            rcases Set.mem_insert_iff.mp old with rfl | old
            · exact here
            · exact kept.held old⟩
        have ended : ∀ {u : CoreState}, Regular env ops (insert op.id past) u →
            Regular env ops past u ∧ (Admits env op check_policy s → ¬Hopeless op → Held u op.id) :=
          fun {u} kept => ⟨kept.widen fun old => kept.unstocked.held (Set.mem_insert_of_mem _ old),
            fun _ _ => kept.unstocked.held (Set.mem_insert _ _)⟩
        cases outcome with
        | done =>
            have took : Took env op (s.appendOp op) t := spec
            have holds : Held t op.id := by
              left
              rw [took.applied, BTreeSet.mem_insert]
              exact .inl rfl
            obtain ⟨n, u, drained, kept, queue, -, -, -⟩ :=
              (joined after holds).drain (logged_queue.took took) batch few retries
            dsimp only at call
            rw [call, drained]
            exact ended (Regular.closed kept batch few queue (by simp))
        | unmet reason =>
            obtain ⟨rfl, -⟩ := spec
            have parked := (unstockedRule batch few past).park after ⟨inside, hopeless⟩ known
            have holds : Held ((s.appendOp op).storePending op) op.id := by
              right
              show ∃ other, (s.pending.insert op.id op)[op.id]? = some other
              rw [BTreeMap.get_insert, if_pos rfl]
              exact ⟨op, rfl⟩
            obtain ⟨n, u, drained, kept, queue, idle, -, -⟩ :=
              (joined parked holds).drain (logged_queue.park known) batch few retries
            dsimp only at call
            rw [call, drained]
            refine ended (Regular.closed kept batch few queue fun none_applied => ?_)
            obtain rfl := idle (by omega)
            exact regular.current.congr rfl rfl rfl rfl rfl
  · obtain ⟨e, refused⟩ := applyOpInner_refused admits
    rw [refused]
    exact ⟨regular, fun admitted => absurd admitted admits⟩

theorem Regular.retryPending (regular : Regular env ops past s) (batch : Batch env ops)
    (few : FewDirs ops) (safe : ∀ x ∈ drainRetries env s, x.2 ∈ ops → RenameSafe x.1 x.2) :
    Regular env ops past (finalState (retryPending env s)) := by
  obtain ⟨n, t, drained, kept, queue, idle, -, -⟩ :=
    regular.unstocked.drain regular.queue batch few safe
  rw [retryPending_run, drained]
  dsimp only [finalState_ok]
  split
  · have aside := aside_buildSnapshot env t
    refine ⟨(unstockedRule batch few past).aside kept aside, current_snapshot env t, ?_⟩
    obtain ⟨blobs, head, root, kv, blob, -, same⟩ := aside
    exact queue.congr (by rw [same]) (by rw [same])
  · obtain rfl := idle (by omega)
    exact ⟨kept, regular.current, queue⟩

theorem Regular.catches_up (regular : Regular env ops past s) (batch : Batch env ops)
    (few : FewDirs ops) (safe : ∀ x ∈ drainRetries env s, x.2 ∈ ops → RenameSafe x.1 x.2)
    (stocked : Stocked ops s) (policy : (finalState (Core.retryPending env s)).proofs = .none) :
    Steady env ops past (finalState (Core.retryPending env s)) := by
  have after := regular.retryPending batch few safe
  obtain ⟨n, t, drained, -, -, -, keeps, closed⟩ := regular.unstocked.drain regular.queue batch few safe
  have aside : Aside t (finalState (Core.retryPending env s)) := by
    rw [retryPending_run, drained]
    dsimp only [finalState_ok]
    split
    · exact aside_buildSnapshot env t
    · exact ⟨_, _, _, _, _, fun _ here => here, rfl⟩
  obtain ⟨blobs, head, root, kv, blob, more, same⟩ := aside
  have kept : Stocked ops (finalState (Core.retryPending env s)) := by
    rw [same]
    exact (stocked.mono keeps).mono more
  refine ⟨⟨after.unstocked.exact, after.unstocked.canon, kept, policy, after.unstocked.held⟩, after.current,
    after.queue, ?_⟩
  rw [same]
  exact closed stocked

def Call.Sparing (env : Env) (ops : Finset FsOp) (s : CoreState) : Call → Prop
  | .apply _ _ => False
  | .retry => ∀ x ∈ drainRetries env s, x.2 ∈ ops → RenameSafe x.1 x.2
  | .snapshot => True
  | .collect dry_run => dry_run = true

theorem Regular.call (regular : Regular env ops past s) (batch : Batch env ops) (few : FewDirs ops)
    {call : Call} (sparing : call.Sparing env ops s) : Regular env ops past (call.run env s) := by
  cases call with
  | apply op check_policy => exact sparing.elim
  | retry => exact regular.retryPending batch few sparing
  | snapshot =>
      have aside := aside_buildSnapshot env s
      refine ⟨(unstockedRule batch few past).aside regular.unstocked aside, current_snapshot env s, ?_⟩
      show Queue (finalState (buildSnapshot env s))
      obtain ⟨blobs, head, root, kv, blob, -, same⟩ := aside
      exact regular.queue.congr (by rw [same]) (by rw [same])
  | collect dry_run =>
      obtain rfl : dry_run = true := sparing
      have same : (Call.collect true).run env s = s := by
        show finalState (collectGarbage env true s) = s
        unfold collectGarbage
        simp only [bind_run, get_run]
        cases sweepBlocker s <;> cases reachableHashes env s <;> cases reachableInodes s <;> rfl
      exact same.symm ▸ regular

end Regular

end NexusFS.Core
