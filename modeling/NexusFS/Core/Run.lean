/- GID: NexusFS/Core/Run
   source: crates/core/src/apply.rs, crates/core/src/snapshot.rs, crates/core/src/gc.rs
   digest: Whole runs of a node: calls, blob arrivals and collections from a fresh bootstrap. -/

import NexusFS.Core.InodeMap
import NexusFS.Core.Drain
import NexusFS.Core.Gc

set_option autoImplicit false
set_option relaxedAutoImplicit false

namespace NexusFS.Core

open NexusFS.Lib NexusFS.Lib.Effect NexusFS.Proto NexusFS.Crdt CoreState

section Frame

variable {env : Env} {s t : CoreState} {op : FsOp}

theorem onlyMap_refresh (env : Env) (inode : U128) (s : CoreState) :
    OnlyMap s (finalState (refreshMapEntry env inode s)) := by
  have drop : OnlyMap s (s.dropImap inode) :=
    ⟨s.blobs, s.imap.erase inode, fun _ here => here, rfl⟩
  unfold refreshMapEntry
  simp only [bind_run, get_run]
  cases isReachable s inode with
  | error e => exact .refl s
  | ok reachable =>
      cases reachable with
      | false => exact drop
      | true =>
          simp only [liftCheck_ok, if_true]
          cases s.loadInode inode with
          | none => exact drop
          | some record =>
              dsimp only
              cases record.kind with
              | dir =>
                  obtain ⟨blobs, keeps, run⟩ := putObject_blobs env (currentDirObject s inode) s
                  simp only [storeDirObject, bind_run, get_run, run, modify_run]
                  exact ⟨blobs, _, keeps, rfl⟩
              | file =>
                  dsimp only
                  cases record.content.value.node_hash with
                  | none => exact drop
                  | some hash => exact ⟨s.blobs, _, fun _ here => here, rfl⟩

private theorem onlyMap_rebuild (env : Env) (s : CoreState) :
    OnlyMap s (finalState (rebuildInodeMap env s)) := by
  have blobs := walkRoot_blobs env s true
  unfold rebuildInodeMap
  simp only [bind_run, get_run]
  cases run : walkRoot env s true with
  | error e w =>
      rw [run] at blobs
      exact ⟨w.blobs, s.imap, blobs, rfl⟩
  | ok hash w =>
      rw [run] at blobs
      exact ⟨w.blobs, _, blobs, rfl⟩

theorem onlyMap_maintain (env : Env) (op : FsOp) (s : CoreState) :
    OnlyMap s (finalState (maintainInodeMap env op s)) := by
  have created : ∀ parent new,
      OnlyMap s (finalState
        ((do refreshMapEntry env parent; refreshMapEntry env new : M Unit) s)) := by
    intro parent new
    have first := onlyMap_refresh env parent s
    rw [bind_run]
    cases run : refreshMapEntry env parent s with
    | error e t =>
        rw [run] at first
        exact first
    | ok u t =>
        rw [run] at first
        exact first.trans (onlyMap_refresh env new t)
  have rebuilt : OnlyMap s (finalState ((do let _ ← rebuildInodeMap env : M Unit) s)) := by
    have only := onlyMap_rebuild env s
    rw [bind_run]
    cases run : rebuildInodeMap env s with
    | error e t =>
        rw [run] at only
        exact only
    | ok rows t =>
        rw [run] at only
        exact only
  unfold maintainInodeMap
  cases op.kind with
  | mkdir parent name mode => exact created _ _
  | createFile parent name mode => exact created _ _
  | write inode offset chunks new_size encryption => exact onlyMap_refresh env _ s
  | setAttr inode mode uid gid => exact onlyMap_refresh env _ s
  | unlink parent name observed => exact rebuilt
  | rename old_parent old_name new_parent new_name observed => exact rebuilt

/-- `t` is `s` after `op` took effect, was recorded as applied, and the map was maintained. -/
def Took (env : Env) (op : FsOp) (s t : CoreState) : Prop :=
  ∃ u, Effect env op s u ∧ OnlyMap (u.noteApplied op) t

/-- How an attempt may end. A failure is a refusal, or a limit met in map maintenance. -/
def Attempted (env : Env) (op : FsOp) (s : CoreState) :
    EStateM.Result Err CoreState Mutation → Prop
  | .ok .done t => Took env op s t
  | .ok (.unmet reason) t => t = s ∧ mutate env op s = .ok (.unmet reason) s
  | .error e t => (t = s ∧ mutate env op s = .error e s) ∨
      (Took env op s t ∧ ∃ u, mutate env op s = .ok .done u ∧ settleApplied env op u = .error e t)

theorem attempt_spec (env : Env) (op : FsOp) (s : CoreState) :
    Attempted env op s (attempt env op s) := by
  have spec := mutate_spec env op s
  rw [attempt_run]
  cases run : mutate env op s with
  | error e t =>
      rw [run] at spec
      obtain ⟨rfl, -⟩ := spec
      exact .inl ⟨rfl, run⟩
  | ok outcome t =>
      rw [run] at spec
      cases outcome with
      | unmet reason =>
          obtain ⟨rfl, -⟩ := spec
          exact ⟨rfl, run⟩
      | done =>
          have only := onlyMap_maintain env op (t.noteApplied op)
          dsimp only
          have settle : settleApplied env op t = maintainInodeMap env op (t.noteApplied op) := rfl
          cases later : settleApplied env op t with
          | ok u t' =>
              rw [← settle, later] at only
              exact ⟨t, spec, only⟩
          | error e t' =>
              rw [← settle, later] at only
              exact .inr ⟨⟨t, spec, only⟩, t, run, later⟩

theorem AttemptRule.of_took {I : CoreState → Prop} {R : FsOp → Prop}
    (took : ∀ {s t op}, I s → R op → op.id ∉ s.applied → Took env op s t → I t)
    (cleared : ∀ {s op}, I s → R op → op.id ∈ s.applied → I (s.clearPending op.id))
    (parked : ∀ {s op} {id : OpId}, I s → s.pending[id]? = some op → R op) :
    AttemptRule env I R (fun _ _ => True) (fun _ => I) where
  tried := by
    intro s op inv ready _ new
    have spec := attempt_spec env op s
    cases run : attempt env op s with
    | error e t =>
        rw [run] at spec
        rcases spec with ⟨rfl, -⟩ | ⟨effect, -⟩
        · exact inv
        · exact took inv ready new effect
    | ok outcome t =>
        rw [run] at spec
        cases outcome with
        | unmet reason =>
            obtain ⟨rfl, -⟩ := spec
            exact inv
        | done => exact took inv ready new spec
  cleared := cleared
  parked := parked

theorem Took.applied (took : Took env op s t) : t.applied = s.applied.insert op.id := by
  obtain ⟨u, effect, blobs, imap, -, rfl⟩ := took
  obtain ⟨dirs, inodes, parents, stored, draws, -, rfl⟩ := effect.frame
  rfl

theorem Took.pending (took : Took env op s t) : t.pending = s.pending.erase op.id := by
  obtain ⟨u, effect, blobs, imap, -, rfl⟩ := took
  obtain ⟨dirs, inodes, parents, stored, draws, -, rfl⟩ := effect.frame
  rfl

theorem Took.oplog (took : Took env op s t) : t.oplog = s.oplog := by
  obtain ⟨u, effect, blobs, imap, -, rfl⟩ := took
  obtain ⟨dirs, inodes, parents, stored, draws, -, rfl⟩ := effect.frame
  rfl

theorem Took.proofs (took : Took env op s t) : t.proofs = s.proofs := by
  obtain ⟨u, effect, blobs, imap, -, rfl⟩ := took
  obtain ⟨dirs, inodes, parents, stored, draws, -, rfl⟩ := effect.frame
  rfl

end Frame

section Queue

variable {env : Env} {s t : CoreState}

/-- Parked rows are filed under their own ids, and none of them has been applied. -/
structure Queue (s : CoreState) : Prop where
  keyed : ∀ {id : OpId} {op}, s.pending[id]? = some op → op.id = id
  apart : ∀ {id : OpId} {op}, s.pending[id]? = some op → id ∉ s.applied

theorem Queue.took {op : FsOp} (queue : Queue s) (took : Took env op s t) : Queue t := by
  constructor
  · intro id parked here
    rw [took.pending, BTreeMap.get_erase] at here
    split at here
    · cases here
    · exact queue.keyed here
  · intro id parked here
    rw [took.pending, BTreeMap.get_erase] at here
    split at here
    · cases here
    · rename_i other
      rw [took.applied, BTreeSet.mem_insert]
      exact fun member => member.elim other (queue.apart here)

theorem Queue.congr (queue : Queue s) (pending : t.pending = s.pending)
    (applied : t.applied = s.applied) : Queue t := by
  constructor
  · intro id op here
    rw [pending] at here
    exact queue.keyed here
  · intro id op here
    rw [pending] at here
    rw [applied]
    exact queue.apart here

theorem Queue.park {op : FsOp} (queue : Queue s) (new : op.id ∉ s.applied) :
    Queue (s.storePending op) := by
  have inserted : ∀ {id : OpId} {other}, (s.storePending op).pending[id]? = some other →
      (op.id = id ∧ op = other) ∨ s.pending[id]? = some other := by
    intro id other here
    have value : (s.pending.insert op.id op)[id]? = some other := here
    rw [BTreeMap.get_insert] at value
    split at value
    · rename_i same
      exact .inl ⟨same, Option.some.inj value⟩
    · exact .inr value
  constructor
  · intro id other here
    rcases inserted here with ⟨rfl, rfl⟩ | old
    · rfl
    · exact queue.keyed old
  · intro id other here
    rcases inserted here with ⟨rfl, rfl⟩ | old
    · exact new
    · exact queue.apart old

theorem queueRule (env : Env) :
    AttemptRule env Queue (fun _ => True) (fun _ _ => True) (fun _ => Queue) := by
  refine .of_took (fun queue _ _ took => queue.took took) ?_ fun _ _ => trivial
  intro s op queue _ _
  constructor
  · intro id parked here
    have erased : (s.pending.erase op.id)[id]? = some parked := here
    rw [BTreeMap.get_erase] at erased
    split at erased
    · cases erased
    · exact queue.keyed erased
  · intro id parked here
    have erased : (s.pending.erase op.id)[id]? = some parked := here
    rw [BTreeMap.get_erase] at erased
    split at erased
    · cases erased
    · exact queue.apart erased

/-- How a pass may end: nothing could be applied and nothing has changed, or the queue is
shorter. -/
def PassEnds (env : Env) (rows : List FsOp) (s : CoreState) :
    EStateM.Result Err CoreState (Bool × Nat) → Prop
  | .ok (false, total) t => t = s ∧ total = 0 ∧ ∀ op ∈ rows,
      (∃ reason, mutate env op s = .ok (.unmet reason) s) ∧ (s, op) ∈ passAttempts env rows s
  | .ok (true, total) t => Queue t ∧ t.pending.size < s.pending.size ∧ 0 < total
  | .error _ _ => True

private theorem size_erase_parked {op : FsOp} (here : s.pending[op.id]? = some op) :
    (s.pending.erase op.id).size < s.pending.size := by
  have member : op.id ∈ s.pending := by
    rw [Std.ExtTreeMap.mem_iff_isSome_getElem?, here]
    rfl
  have filled : s.pending.size ≠ 0 := by
    intro none_left
    have empty := Std.ExtTreeMap.eq_empty_iff_size_eq_zero.mpr none_left
    rw [empty] at member
    exact Std.ExtTreeMap.not_mem_empty member
  rw [Std.ExtTreeMap.size_erase, if_pos (Std.ExtTreeMap.contains_iff_mem.mpr member)]
  omega

theorem drainPass_ends (env : Env) (rows : List FsOp) (queue : Queue s)
    (parked : ∀ op ∈ rows, s.pending[op.id]? = some op)
    (distinct : rows.Pairwise fun a b => a.id ≠ b.id) :
    PassEnds env rows s (drainPass env rows s) := by
  induction rows generalizing s with
  | nil => exact ⟨rfl, rfl, by simp⟩
  | cons op rows ih =>
      rw [List.pairwise_cons] at distinct
      have here := parked op List.mem_cons_self
      have rest : ∀ other ∈ rows, s.pending[other.id]? = some other := fun other member =>
        parked other (List.mem_cons_of_mem op member)
      have fresh : ¬s.isOpApplied op.id := by
        simpa [isOpApplied] using queue.apart here
      have spec := attempt_spec env op s
      rw [drainPass_cons, if_neg fresh]
      cases run : attempt env op s with
      | error e t => exact trivial
      | ok outcome t =>
          have trace : passAttempts env (op :: rows) s = (s, op) :: passAttempts env rows t := by
            conv_lhs => unfold passAttempts
            rw [if_neg fresh, run]
          rw [run] at spec
          cases outcome with
          | unmet reason =>
              obtain ⟨rfl, unmet⟩ := spec
              have after := ih queue rest distinct.2
              dsimp only
              cases later : drainPass env rows t with
              | error e t' => exact trivial
              | ok result t' =>
                  obtain ⟨progressed, total⟩ := result
                  rw [later] at after
                  cases progressed with
                  | true => exact after
                  | false =>
                      obtain ⟨rfl, none_applied, stuck⟩ := after
                      refine ⟨rfl, none_applied, ?_⟩
                      rw [trace]
                      intro other member
                      rcases List.mem_cons.mp member with rfl | later_row
                      · exact ⟨⟨reason, unmet⟩, List.mem_cons_self⟩
                      · obtain ⟨blocked, traced⟩ := stuck other later_row
                        exact ⟨blocked, List.mem_cons_of_mem _ traced⟩
          | done =>
              have took : Took env op s t := spec
              have smaller : t.pending.size < s.pending.size := by
                rw [took.pending]
                exact size_erase_parked here
              have after := ih (queue.took took)
                (fun other member => by
                  rw [took.pending, BTreeMap.get_erase, if_neg (distinct.1 other member)]
                  exact rest other member)
                distinct.2
              dsimp only
              cases later : drainPass env rows t with
              | error e t' => exact trivial
              | ok result t' =>
                  obtain ⟨progressed, total⟩ := result
                  rw [later] at after
                  cases progressed with
                  | true => exact ⟨after.1, after.2.1.trans smaller, Nat.succ_pos _⟩
                  | false =>
                      obtain ⟨rfl, -, -⟩ := after
                      exact ⟨queue.took took, smaller, Nat.succ_pos _⟩

theorem pendingOps_distinct (queue : Queue s) :
    s.pendingOps.Pairwise fun a b => a.id ≠ b.id := by
  unfold pendingOps
  rw [List.pairwise_map]
  refine s.pending.sorted_toList.imp_of_mem ?_
  intro a b left right order same
  rw [queue.keyed ((s.pending.mem_toList _ _).mp left),
    queue.keyed ((s.pending.mem_toList _ _).mp right)] at same
  exact order.ne same

def Stuck (env : Env) (s : CoreState) : Prop :=
  ∀ {id : OpId} {op}, s.pending[id]? = some op → ∃ reason, mutate env op s = .ok (.unmet reason) s

def DrainEnds (env : Env) (s : CoreState) (trace : List (CoreState × FsOp)) :
    EStateM.Result Err CoreState Nat → Prop
  | .ok total t => Queue t ∧ Stuck env t ∧ (total = 0 → t = s) ∧
      ∀ {id : OpId} {op}, t.pending[id]? = some op → (t, op) ∈ trace
  | .error _ _ => True

private theorem drainLoop_ends (env : Env) (fuel : Nat) (queue : Queue s)
    (enough : s.pending.size < fuel) :
    DrainEnds env s (drainAttempts env fuel s) (drainLoop env fuel s) := by
  induction fuel generalizing s with
  | zero => omega
  | succ fuel ih =>
      rw [drainLoop_succ]
      unfold drainAttempts
      have row : ∀ {id : OpId} {op}, s.pending[id]? = some op → op ∈ s.pendingOps :=
        fun here => mem_pendingOps.mpr ⟨_, here⟩
      split
      · rename_i idle
        have none_parked : ∀ {id : OpId} {op}, ¬s.pending[id]? = some op := fun here => by
          have member := row here
          rw [List.isEmpty_iff.mp idle] at member
          cases member
        exact ⟨queue, fun here => absurd here none_parked, fun _ => rfl,
          fun here => absurd here none_parked⟩
      · have pass := drainPass_ends env s.pendingOps queue
          (fun op member => by
            obtain ⟨id, here⟩ := mem_pendingOps.mp member
            rw [queue.keyed here]
            exact here)
          (pendingOps_distinct queue)
        cases run : drainPass env s.pendingOps s with
        | error e t => exact trivial
        | ok result t =>
            obtain ⟨progressed, total⟩ := result
            rw [run] at pass
            cases progressed with
            | false =>
                obtain ⟨rfl, -, stuck⟩ := pass
                exact ⟨queue, fun here => (stuck _ (row here)).1, fun _ => rfl,
                  fun here => List.mem_append_left _ (stuck _ (row here)).2⟩
            | true =>
                obtain ⟨queue', smaller, some_applied⟩ := pass
                have after := ih queue' (by omega)
                dsimp only
                cases later : drainLoop env fuel t with
                | error e t' => exact trivial
                | ok more t' =>
                    rw [later] at after
                    obtain ⟨order, stuck, -, traced⟩ := after
                    exact ⟨order, stuck, fun nothing => by omega,
                      fun here => List.mem_append_right _ (traced here)⟩

theorem drainPending_ends (env : Env) (queue : Queue s) :
    DrainEnds env s (drainRetries env s) (drainPending env s) :=
  drainLoop_ends env _ queue (Nat.lt_succ_self _)

end Queue

section Calls

variable {env : Env} {s t : CoreState} {op : FsOp} {check_policy : Bool}

/-- `t` differs from `s` in the head, the root, the durability counters and stored objects
only. -/
def Aside (s t : CoreState) : Prop :=
  ∃ blobs head root kv blob, (∀ hash, s.hasBlob hash → blobs.contains hash) ∧
    t = { s with
      blobs := blobs, head := head, state_root := root, kv_flushes := kv, blob_flushes := blob }

theorem aside_flush (s : CoreState) : Aside s s.flush := ⟨_, _, _, _, _, fun _ here => here, rfl⟩

theorem buildSnapshot_run (env : Env) (s : CoreState) :
    ∃ blobs, (∀ hash, s.hasBlob hash → blobs.contains hash) ∧
      buildSnapshot env s =
        .ok (objectHash env (newSnapshotRoot (computeStateRoot env s) s.device_id s.state_time))
          { s with
            blobs := blobs
            state_root := some (computeStateRoot env s)
            head := some (objectHash env
              (newSnapshotRoot (computeStateRoot env s) s.device_id s.state_time)) } := by
  obtain ⟨blobs, keeps, run⟩ := putObject_blobs env
    (newSnapshotRoot (computeStateRoot env s) s.device_id s.state_time)
    { s with state_root := some (computeStateRoot env s) }
  refine ⟨blobs, keeps, ?_⟩
  unfold buildSnapshot
  simp only [bind_run, get_run, set_run, run, modify_run, pure_run]

theorem aside_buildSnapshot (env : Env) (s : CoreState) :
    Aside s (finalState (buildSnapshot env s)) := by
  obtain ⟨blobs, keeps, run⟩ := buildSnapshot_run env s
  rw [run]
  exact ⟨blobs, _, _, _, _, keeps, rfl⟩

def Admits (env : Env) (op : FsOp) (check_policy : Bool) (s : CoreState) : Prop :=
  verifyOp env op = .ok () ∧ (check_policy = true → checkProof env op s.proofs = .ok ())

instance (env : Env) (op : FsOp) (check_policy : Bool) (s : CoreState) :
    Decidable (Admits env op check_policy s) :=
  inferInstanceAs (Decidable (_ ∧ (_ → _)))

/-- The end of a call: a snapshot when something was applied, and the durability point. -/
def closeCall (env : Env) (snapshot : Prop) [Decidable snapshot] (s : CoreState) : CoreState :=
  if snapshot then (finalState (buildSnapshot env s)).flush else s.flush

theorem aside_trans {a b c : CoreState} (first : Aside a b) (second : Aside b c) : Aside a c := by
  obtain ⟨_, _, _, _, _, keeps, rfl⟩ := first
  obtain ⟨_, _, _, _, _, keeps', rfl⟩ := second
  exact ⟨_, _, _, _, _, fun hash here => keeps' hash (keeps hash here), rfl⟩

theorem aside_closeCall (env : Env) (snapshot : Prop) [Decidable snapshot] (s : CoreState) :
    Aside s (closeCall env snapshot s) := by
  unfold closeCall
  split
  · exact aside_trans (aside_buildSnapshot env s) (aside_flush _)
  · exact aside_flush s

private theorem applyOpInner_checks (env : Env) (op : FsOp) (check_policy : Bool)
    (s : CoreState) :
    applyOpInner env op check_policy s =
      match verifyOp env op, if check_policy then checkProof env op s.proofs else .ok () with
      | .error e, _ => .error e s
      | .ok _, .error e => .error e s
      | .ok _, .ok _ =>
          if s.isOpApplied op.id then .ok .alreadyApplied s
          else
            match attempt env op (s.appendOp op) with
            | .error e t => .error e t
            | .ok .done t =>
                (match drainPending env t with
                  | .error e u => .error e u
                  | .ok _ u => .ok .applied (closeCall env True u))
            | .ok (.unmet reason) t =>
                (match drainPending env (t.storePending op) with
                  | .error e u => .error e u
                  | .ok n u => .ok (.pending reason) (closeCall env (0 < n) u)) := by
  unfold applyOpInner
  rw [bind_run]
  cases verifyOp env op with
  | error e => rfl
  | ok u =>
      simp only [liftCheck_ok, bind_run, get_run]
      cases (if check_policy = true then checkProof env op s.proofs else .ok ()) with
      | error e => rfl
      | ok u' =>
          simp only [liftCheck_ok]
          split
          · rfl
          · simp only [bind_run, modify_run, attempt_run]
            cases mutate env op (s.appendOp op) with
            | error e t => rfl
            | ok outcome t =>
                cases outcome with
                | done =>
                    dsimp only
                    rw [bind_run]
                    cases settleApplied env op t with
                    | error e t' => rfl
                    | ok u t' =>
                        simp only [bind_run, pure_run]
                        cases drainPending env t' with
                        | error e t'' => rfl
                        | ok n t'' =>
                            obtain ⟨blobs, -, run⟩ := buildSnapshot_run env t''
                            simp only [true_or, if_true, bind_run, run, modify_run, pure_run,
                              closeCall, finalState_ok]
                | unmet reason =>
                    simp only [bind_run, modify_run, pure_run]
                    cases drainPending env (t.storePending op) with
                    | error e t'' => rfl
                    | ok n t'' =>
                        obtain ⟨blobs, -, run⟩ := buildSnapshot_run env t''
                        by_cases some_applied : 0 < n
                        · simp only [some_applied, reduceCtorEq, false_or, if_true, bind_run, run,
                            modify_run, pure_run, closeCall, finalState_ok]
                        · simp only [some_applied, reduceCtorEq, false_or, if_false, modify_run,
                            bind_run, pure_run, closeCall]

private theorem admits_iff :
    Admits env op check_policy s ↔ verifyOp env op = .ok () ∧
      (if check_policy then checkProof env op s.proofs else .ok ()) = .ok () := by
  unfold Admits
  cases check_policy <;> simp

theorem applyOpInner_refused (refused : ¬Admits env op check_policy s) :
    ∃ e, applyOpInner env op check_policy s = .error e s := by
  rw [admits_iff] at refused
  rw [applyOpInner_checks]
  cases first : verifyOp env op with
  | error e => exact ⟨e, rfl⟩
  | ok u =>
      cases second : (if check_policy = true then checkProof env op s.proofs else .ok ()) with
      | error e => exact ⟨e, rfl⟩
      | ok u' => exact absurd ⟨first, second⟩ refused

theorem applyOpInner_known (admits : Admits env op check_policy s) (known : op.id ∈ s.applied) :
    applyOpInner env op check_policy s = .ok .alreadyApplied s := by
  rw [admits_iff] at admits
  have here : s.isOpApplied op.id = true := by simpa [isOpApplied] using known
  simp only [applyOpInner_checks, admits.1, admits.2, here, if_true]

theorem applyOpInner_new (admits : Admits env op check_policy s) (new : op.id ∉ s.applied) :
    applyOpInner env op check_policy s =
      match attempt env op (s.appendOp op) with
      | .error e t => .error e t
      | .ok .done t =>
          (match drainPending env t with
            | .error e u => .error e u
            | .ok _ u => .ok .applied (closeCall env True u))
      | .ok (.unmet reason) t =>
          (match drainPending env (t.storePending op) with
            | .error e u => .error e u
            | .ok n u => .ok (.pending reason) (closeCall env (0 < n) u)) := by
  rw [admits_iff] at admits
  have here : ¬s.isOpApplied op.id = true := by simpa [isOpApplied] using new
  simp only [applyOpInner_checks, admits.1, admits.2, if_neg here]

theorem applyRetries_new (admits : Admits env op check_policy s) (new : op.id ∉ s.applied) :
    applyRetries env op check_policy s =
      match afterFirst env op (s.appendOp op) with
      | some t => drainRetries env t
      | none => [] := by
  rw [admits_iff] at admits
  have here : ¬s.isOpApplied op.id = true := by simpa [isOpApplied] using new
  simp only [applyRetries, admits.1, admits.2]
  exact if_neg here

theorem applyRetries_known (known : op.id ∈ s.applied) :
    applyRetries env op check_policy s = [] := by
  have here : s.isOpApplied op.id = true := by simpa [isOpApplied] using known
  unfold applyRetries
  split
  · rw [if_pos here]
  · rfl

theorem applyAttempts_new (admits : Admits env op check_policy s) (new : op.id ∉ s.applied) :
    applyAttempts env op check_policy s =
      (s.appendOp op, op) :: applyRetries env op check_policy s := by
  rw [admits_iff] at admits
  have here : ¬s.isOpApplied op.id = true := by simpa [isOpApplied] using new
  simp only [applyAttempts, admits.1, admits.2, if_neg here]

theorem applyAttempts_known (known : op.id ∈ s.applied) :
    applyAttempts env op check_policy s = [] := by
  have here : s.isOpApplied op.id = true := by simpa [isOpApplied] using known
  unfold applyAttempts
  split
  · rw [if_pos here]
  · rfl

theorem applyAttempts_refused (refused : ¬Admits env op check_policy s) :
    applyAttempts env op check_policy s = [] := by
  rw [admits_iff] at refused
  unfold applyAttempts
  split
  · rename_i first second
    exact absurd ⟨first, second⟩ refused
  · rfl

theorem admits_of_attempts {x : CoreState × FsOp} (listed : x ∈ applyAttempts env op check_policy s) :
    Admits env op check_policy s ∧ op.id ∉ s.applied := by
  constructor
  · by_contra refused
    rw [applyAttempts_refused refused] at listed
    cases listed
  · intro known
    rw [applyAttempts_known known] at listed
    cases listed

theorem retryPending_run (env : Env) (s : CoreState) :
    retryPending env s =
      match drainPending env s with
      | .error e t => .error e t
      | .ok n t => .ok n (if 0 < n then finalState (buildSnapshot env t) else t) := by
  unfold retryPending
  rw [bind_run]
  cases drainPending env s with
  | error e t => rfl
  | ok n t =>
      obtain ⟨blobs, -, run⟩ := buildSnapshot_run env t
      dsimp only
      split
      · simp only [bind_run, run, pure_run, finalState_ok]
      · rfl

theorem AttemptRule.applyOpInner_closed {I : CoreState → Prop} {R : FsOp → Prop}
    {P : CoreState → FsOp → Prop} {E : Err → CoreState → Prop} (rule : AttemptRule env I R P E)
    (admits : Admits env op check_policy s) (new : op.id ∉ s.applied) (start : I (s.appendOp op))
    (ready : R op) (park : ∀ {t}, I t → op.id ∉ t.applied → I (t.storePending op))
    (along : ∀ x ∈ applyAttempts env op check_policy s, P x.1 x.2) :
    Ends (fun t => ∃ u, I u ∧ ∃ snapshot : Bool, t = closeCall env snapshot u) E
       (applyOpInner env op check_policy s) := by
  rw [applyOpInner_new admits new]
  rw [applyAttempts_new admits new, applyRetries_new admits new] at along
  have first := rule.tried start ready (along _ List.mem_cons_self) new
  have spec := attempt_spec env op (s.appendOp op)
  unfold afterFirst at along
  cases run : attempt env op (s.appendOp op) with
  | error e t =>
      rw [run] at first
      exact first
  | ok outcome t =>
      rw [run] at first along spec
      cases outcome with
      | done =>
          have drained := rule.drainPending first
            fun x member => along x (List.mem_cons_of_mem _ member)
          dsimp only
          cases later : Core.drainPending env t with
          | error e u =>
              rw [later] at drained
              exact drained
          | ok n u =>
              rw [later] at drained
              exact ⟨u, drained, true, rfl⟩
      | unmet reason =>
          obtain ⟨rfl, -⟩ := spec
          have drained := rule.drainPending (park first new)
            fun x member => along x (List.mem_cons_of_mem _ member)
          dsimp only
          cases later : Core.drainPending env ((s.appendOp op).storePending op) with
          | error e u =>
              rw [later] at drained
              exact drained
          | ok n u =>
              rw [later] at drained
              exact ⟨u, drained, decide (0 < n), by simp only [closeCall, decide_eq_true_eq]⟩

theorem AttemptRule.applyOpInner {I : CoreState → Prop} {R : FsOp → Prop}
    {P : CoreState → FsOp → Prop} {E : Err → CoreState → Prop} (rule : AttemptRule env I R P E)
    (admits : Admits env op check_policy s) (new : op.id ∉ s.applied) (start : I (s.appendOp op))
    (ready : R op) (park : ∀ {t}, I t → op.id ∉ t.applied → I (t.storePending op))
    (along : ∀ x ∈ applyAttempts env op check_policy s, P x.1 x.2) :
    Ends (fun t => ∃ u, I u ∧ Aside u t) E (applyOpInner env op check_policy s) := by
  refine (rule.applyOpInner_closed admits new start ready park along).imp ?_ fun _ _ here => here
  rintro t ⟨u, held, snapshot, rfl⟩
  exact ⟨u, held, aside_closeCall env _ u⟩

theorem AttemptRule.applyAttempts_traced {I : CoreState → Prop} {R : FsOp → Prop}
    {P : CoreState → FsOp → Prop} {E : Err → CoreState → Prop} (rule : AttemptRule env I R P E)
    (admits : Admits env op check_policy s) (new : op.id ∉ s.applied) (start : I (s.appendOp op))
    (ready : R op) (park : ∀ {t}, I t → op.id ∉ t.applied → I (t.storePending op))
    (along : ∀ x ∈ applyAttempts env op check_policy s, P x.1 x.2) :
    ∀ x ∈ applyAttempts env op check_policy s, I x.1 ∧ R x.2 := by
  rw [applyAttempts_new admits new, applyRetries_new admits new] at along ⊢
  have first := rule.tried start ready (along _ List.mem_cons_self) new
  have spec := attempt_spec env op (s.appendOp op)
  intro x member
  rcases List.mem_cons.mp member with rfl | later
  · exact ⟨start, ready⟩
  · unfold afterFirst at along later
    cases run : attempt env op (s.appendOp op) with
    | error e t =>
        rw [run] at later
        cases later
    | ok outcome t =>
        rw [run] at first along later spec
        have rest := fun y inside => along y (List.mem_cons_of_mem _ inside)
        cases outcome with
        | done => exact rule.drainRetries_traced first rest x later
        | unmet reason =>
            obtain ⟨rfl, -⟩ := spec
            exact rule.drainRetries_traced (park first new) rest x later

/-- A property that the attempts carry and that neither bookkeeping nor parking disturbs. -/
structure CallRule (env : Env) (I : CoreState → Prop) (R : FsOp → Prop)
    (P : CoreState → FsOp → Prop) (E : Err → CoreState → Prop) : Prop
    extends AttemptRule env I R P E where
  logged : ∀ {s op}, I s → R op → I (s.appendOp op)
  aside : ∀ {s t}, I s → Aside s t → I t
  park : ∀ {s op}, I s → R op → op.id ∉ s.applied → I (s.storePending op)

namespace CallRule

variable {I : CoreState → Prop} {R : FsOp → Prop} {P : CoreState → FsOp → Prop}
  {E : Err → CoreState → Prop}

theorem applyOpInner (rule : CallRule env I R P E) (inv : I s) (ready : R op)
    (along : ∀ x ∈ applyAttempts env op check_policy s, P x.1 x.2) :
    Ends I (fun e t => I t ∨ E e t) (applyOpInner env op check_policy s) := by
  by_cases admits : Admits env op check_policy s
  · by_cases known : op.id ∈ s.applied
    · rw [applyOpInner_known admits known]
      exact inv
    · have ends := rule.toAttemptRule.applyOpInner admits known (rule.logged inv ready) ready
        (fun held new => rule.park held ready new) along
      refine ends.imp ?_ fun _ _ => .inr
      rintro t ⟨u, held, aside⟩
      exact rule.aside held aside
  · obtain ⟨e, run⟩ := applyOpInner_refused admits
    rw [run]
    exact .inl inv

theorem after_first (rule : CallRule env I R (fun _ _ => True) fun _ => I)
    (admits : Admits env op check_policy s) (new : op.id ∉ s.applied) (ready : R op)
    (first : I (finalState (attempt env op (s.appendOp op)))) :
    I (finalState (Core.applyOpInner env op check_policy s)) := by
  have spec := attempt_spec env op (s.appendOp op)
  rw [applyOpInner_new admits new]
  cases run : attempt env op (s.appendOp op) with
  | error e t =>
      rw [run] at first
      exact first
  | ok outcome t =>
      rw [run] at first spec
      cases outcome with
      | done =>
          have now : I t := first
          have drained := rule.drainPending now fun _ _ => trivial
          dsimp only
          cases later : Core.drainPending env t with
          | error e u =>
              rw [later] at drained
              exact drained
          | ok n u =>
              rw [later] at drained
              exact rule.aside drained (aside_closeCall env True u)
      | unmet reason =>
          obtain ⟨rfl, -⟩ := spec
          have now : I (s.appendOp op) := first
          have drained := rule.drainPending (rule.park now ready new) fun _ _ => trivial
          dsimp only
          cases later : Core.drainPending env ((s.appendOp op).storePending op) with
          | error e u =>
              rw [later] at drained
              exact drained
          | ok n u =>
              rw [later] at drained
              exact rule.aside drained (aside_closeCall env (0 < n) u)

theorem retryPending (rule : CallRule env I R P E) (inv : I s)
    (along : ∀ x ∈ drainRetries env s, P x.1 x.2) : Ends I E (retryPending env s) := by
  have drained := rule.drainPending inv along
  rw [retryPending_run]
  cases later : Core.drainPending env s with
  | error e t =>
      rw [later] at drained
      exact drained
  | ok n t =>
      rw [later] at drained
      show I (if 0 < n then finalState (buildSnapshot env t) else t)
      split
      · exact rule.aside drained (aside_buildSnapshot env t)
      · exact drained

end CallRule

end Calls

section Runs

/-- What can happen to a node: a call, content that arrives, or a collection. -/
inductive Event where
  | apply (op : FsOp)
  | retry
  | blob (bytes : Bytes)
  | collect (dry_run : Bool)

def Event.run (env : Env) (s : CoreState) : Event → CoreState
  | .apply op => finalState (applyOp env op s)
  | .retry => finalState (retryPending env s)
  | .blob bytes => s.putBlob (env.blake3 bytes) bytes
  | .collect dry_run => finalState (collectGarbage env dry_run s)

/-- A store that no repository has used: any configuration and any content, and no record. -/
structure Blank (s : CoreState) : Prop where
  dirs : s.dirs = ∅
  inodes : s.inodes = ∅
  parents : s.parents = ∅
  imap : s.imap = ∅
  oplog : s.oplog = ∅
  applied : s.applied = ∅
  pending : s.pending = ∅
  head : s.head = none
  state_root : s.state_root = none
  state_time : s.state_time = 0

/-- A blank store after `bootstrap_if_needed`. -/
def booted (env : Env) (s : CoreState) : CoreState := finalState (bootstrapIfNeeded env s)

/-- The states of runs from a fresh bootstrap whose every event meets a condition. -/
inductive Run (env : Env) (meets : CoreState → Event → Prop) : CoreState → Prop
  | boot {s : CoreState} (blank : Blank s) : Run env meets (booted env s)
  | step {s : CoreState} {e : Event} (before : Run env meets s) (met : meets s e) :
      Run env meets (e.run env s)

theorem Run.invariant {env : Env} {meets : CoreState → Event → Prop} {I : CoreState → Prop}
    (boot : ∀ {s}, Blank s → I (booted env s))
    (step : ∀ {s e}, I s → meets s e → I (e.run env s)) {s : CoreState}
    (run : Run env meets s) : I s := by
  induction run with
  | boot blank => exact boot blank
  | step _ met ih => exact step ih met

end Runs

end NexusFS.Core
