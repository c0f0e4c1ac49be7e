/- GID: NexusFS/Core/Coherent
   source: crates/core/src/apply.rs, crates/core/src/snapshot.rs
   digest: When the stored root and head follow the inode map through calls that fail. -/

import NexusFS.Core.Call

set_option autoImplicit false
set_option relaxedAutoImplicit false

namespace NexusFS.Core

open NexusFS.Lib NexusFS.Lib.Effect NexusFS.Proto NexusFS.Crdt CoreState

section Failures

variable {env : Env} {ids : Set OpId} {s t : CoreState} {op : FsOp}

private theorem refresh_error {inode : U128} {e : Err}
    (run : refreshMapEntry env inode s = .error e t) : t = s ∧ isReachable s inode = .error e := by
  unfold refreshMapEntry at run
  simp only [bind_run, get_run] at run
  cases answer : isReachable s inode with
  | error e' =>
      rw [answer] at run
      simp only [liftCheck_error] at run
      cases run
      exact ⟨rfl, rfl⟩
  | ok reachable =>
      rw [answer] at run
      cases reachable with
      | false => cases run
      | true =>
          simp only [liftCheck_ok, if_true] at run
          cases record : s.loadInode inode with
          | none =>
              rw [record] at run
              cases run
          | some r =>
              rw [record] at run
              dsimp only at run
              cases kind : r.kind with
              | dir =>
                  rw [kind] at run
                  obtain ⟨blobs, -, put⟩ := putObject_blobs env (currentDirObject s inode) s
                  simp only [storeDirObject, bind_run, get_run, put, modify_run] at run
                  cases run
              | file =>
                  rw [kind] at run
                  dsimp only at run
                  cases content : r.content.value.node_hash <;> rw [content] at run <;> cases run

private theorem climb_succ (inode current : U128) (fuel : Nat) :
    climbParents s inode (fuel + 1) current =
      if current = rootInode then .ok true
      else if s.imap.contains current then .ok true
      else
        match s.parentOf current with
        | none => .ok false
        | some parent =>
            if s.dirLists parent current then climbParents s inode fuel parent else .ok false := rfl

private theorem unmapped_of_unreachable {inode : U128} (answer : isReachable s inode = .ok false) :
    s.imap.contains inode = false := by
  unfold isReachable at answer
  obtain ⟨n, same⟩ : ∃ n, maxTreeNodes + 1 = n + 1 := ⟨maxTreeNodes, rfl⟩
  rw [same, climb_succ] at answer
  split at answer
  · cases answer
  · split at answer
    · cases answer
    · rename_i unmapped
      exact Bool.not_eq_true _ ▸ unmapped

private theorem isReachable_child {inode parent : U128} (recorded : s.parentOf inode = some parent)
    (mapped : s.imap.contains parent) : ∃ answer, isReachable s inode = .ok answer := by
  unfold isReachable
  obtain ⟨n, same⟩ : ∃ n, maxTreeNodes + 1 = n + 2 := ⟨999999, rfl⟩
  rw [same, climb_succ]
  split
  · exact ⟨_, rfl⟩
  · split
    · exact ⟨_, rfl⟩
    · rw [recorded]
      dsimp only
      split
      · rw [climb_succ, mapped]
        split <;> exact ⟨_, rfl⟩
      · exact ⟨_, rfl⟩

private theorem refresh_dir {inode : U128} {r : InodeRecord} (found : s.loadInode inode = some r)
    (dir : r.kind = .dir) {u : Unit} (run : refreshMapEntry env inode s = .ok u t) :
    t.imap.contains inode ∨ t.imap = s.imap := by
  unfold refreshMapEntry at run
  simp only [bind_run, get_run] at run
  cases answer : isReachable s inode with
  | error e =>
      rw [answer] at run
      cases run
  | ok reachable =>
      rw [answer] at run
      cases reachable with
      | false =>
          have absent := unmapped_of_unreachable answer
          obtain ⟨-, rfl⟩ := EStateM.Result.ok.inj run
          right
          refine BTreeMap.ext_get fun k => ?_
          show (s.imap.erase inode)[k]? = _
          rw [BTreeMap.get_erase]
          split
          · rename_i same
            subst same
            rw [Std.ExtTreeMap.contains_eq_isSome_getElem?] at absent
            exact (Option.not_isSome_iff_eq_none.mp (by simp [absent])).symm
          · rfl
      | true =>
          obtain ⟨blobs, -, put⟩ := putObject_blobs env (currentDirObject s inode) s
          simp only [liftCheck_ok, if_true, found, dir, storeDirObject, bind_run, get_run, put,
            modify_run] at run
          obtain ⟨-, rfl⟩ := EStateM.Result.ok.inj run
          left
          simp [putImap]

private theorem rebuild_error {e : Err} (run : rebuildInodeMap env s = .error e t) :
    t.imap = s.imap := by
  unfold rebuildInodeMap at run
  simp only [bind_run, get_run] at run
  cases walked : walkRoot env s true with
  | error e' w =>
      rw [walked] at run
      obtain ⟨-, rfl⟩ := EStateM.Result.error.inj run
      rfl
  | ok hash w =>
      rw [walked] at run
      cases run

private theorem maintain_error {u : CoreState} {e : Err} (shape : Shape env ids s)
    (inj : Set.InjOn (inodeForOp env) ids) (member : op.id ∈ ids) (new : op.id ∉ s.applied)
    (effect : Effect env op s u)
    (run : maintainInodeMap env op (u.noteApplied op) = .error e t) :
    t.imap = (u.noteApplied op).imap := by
  have refreshed : ∀ {inode}, refreshMapEntry env inode (u.noteApplied op) = .error e t →
      t.imap = (u.noteApplied op).imap := fun failed => by rw [(refresh_error failed).1]
  have rebuilt : ∀ {x : M Unit}, x = (do let _ ← rebuildInodeMap env) →
      x (u.noteApplied op) = .error e t → t.imap = (u.noteApplied op).imap := by
    rintro x rfl failed
    rw [bind_run] at failed
    cases rows : rebuildInodeMap env (u.noteApplied op) with
    | error e' t' =>
        rw [rows] at failed
        obtain ⟨-, rfl⟩ := EStateM.Result.error.inj failed
        exact rebuild_error rows
    | ok rows' t' =>
        rw [rows] at failed
        cases failed
  unfold maintainInodeMap at run
  cases effect with
  | @created parent name mode kind kindIs _ dir =>
      have noRecord := shape.loadInode_fresh inj member new
      have other : inodeForOp env op.id ≠ parent := by
        rintro rfl
        simp [isDir, noRecord] at dir
      generalize after : (linkCreated env op parent name mode kind s).noteApplied op = u at run ⊢
      have created : (do refreshMapEntry env parent; refreshMapEntry env (inodeForOp env op.id) :
          M Unit) u = .error e t := by
        cases kind <;> simpa only [kindIs, creation] using run
      clear run
      obtain ⟨r, found, isDirectory⟩ := (s.isDir_iff parent).mp dir
      have recorded : u.loadInode parent = some r := by
        rw [← after]
        refine (@loadInode_linkCreated env op parent name mode kind s parent).trans ?_
        rw [if_neg other, found]
      have parented : u.parentOf (inodeForOp env op.id) = some parent := by
        rw [← after]
        cases kind <;> simp [linkCreated, parentOf, setParent, storeInode, storeDir, noteApplied,
          markOpApplied, clearPending, observeTime]
      rw [bind_run] at created
      cases first : refreshMapEntry env parent u with
      | error e' t' =>
          rw [first] at created
          obtain ⟨-, rfl⟩ := EStateM.Result.error.inj created
          rw [(refresh_error first).1]
      | ok done t' =>
          rw [first] at created
          obtain ⟨same, endless⟩ := refresh_error created
          rw [same]
          have only := onlyMap_refresh env parent u
          rw [first] at only
          have parented' : t'.parentOf (inodeForOp env op.id) = some parent := by
            obtain ⟨blobs, imap, -, frame⟩ := only
            have at_frame : t' = _ := frame
            rw [at_frame]
            exact parented
          rcases refresh_dir recorded isDirectory first with mapped | kept
          · obtain ⟨answer, ends⟩ := isReachable_child parented' mapped
            rw [ends] at endless
            cases endless
          · exact kept
  | superseded kindIs => exact refreshed (by simpa only [kindIs] using run)
  | wrote kindIs => exact refreshed (by simpa only [kindIs] using run)
  | changedAttrs kindIs => exact refreshed (by simpa only [kindIs] using run)
  | movedNothing kindIs => exact rebuilt rfl (by simpa only [kindIs] using run)
  | moved kindIs => exact rebuilt rfl (by simpa only [kindIs] using run)
  | unlinked kindIs => exact rebuilt rfl (by simpa only [kindIs] using run)

theorem attempt_error_imap {e : Err} (shape : Shape env ids s)
    (inj : Set.InjOn (inodeForOp env) ids) (member : op.id ∈ ids) (new : op.id ∉ s.applied)
    (run : attempt env op s = .error e t) : t.imap = s.imap := by
  have spec := mutate_spec env op s
  rw [attempt_run] at run
  cases mutated : mutate env op s with
  | error e' u =>
      rw [mutated] at run spec
      obtain ⟨-, rfl⟩ := EStateM.Result.error.inj run
      rw [spec.1]
  | ok outcome u =>
      rw [mutated] at run spec
      cases outcome with
      | unmet reason => cases run
      | done =>
          have effect : Effect env op s u := spec
          have settle : settleApplied env op u = maintainInodeMap env op (u.noteApplied op) := rfl
          have kept : (u.noteApplied op).imap = s.imap := by
            obtain ⟨dirs, inodes, parents, blobs, draws, -, rfl⟩ := effect.frame
            rfl
          dsimp only at run
          cases maintained : settleApplied env op u with
          | ok done t' =>
              rw [maintained] at run
              cases run
          | error e' t' =>
              rw [maintained] at run
              obtain ⟨-, rfl⟩ := EStateM.Result.error.inj run
              exact (maintain_error shape inj member new effect (settle ▸ maintained)).trans kept

end Failures

section Committed

variable {env : Env} {ids : Set OpId} {s t : CoreState} {op : FsOp}

/-- The stored root commits to the map, and the head is a snapshot of that root which this node took
no later than its state time. -/
structure Committed (env : Env) (s : CoreState) : Prop where
  root : s.state_root = some (computeStateRoot env s)
  head : ∃ time, time ≤ s.state_time ∧
    s.head = some (objectHash env (newSnapshotRoot (computeStateRoot env s) s.device_id time))

theorem Current.committed (current : Current env s) : Committed env s :=
  ⟨current.root, _, le_rfl, current.head⟩

/-- `t` has the root and the head of `s`, and its state time is no earlier. -/
structure SameHead (s t : CoreState) : Prop where
  head : t.head = s.head
  root : t.state_root = s.state_root
  device : t.device_id = s.device_id
  time : s.state_time ≤ t.state_time

theorem SameHead.refl (s : CoreState) : SameHead s s := ⟨rfl, rfl, rfl, le_rfl⟩

theorem SameHead.took {u : CoreState} (same : SameHead s t) (took : Took env op t u) :
    SameHead s u := by
  obtain ⟨v, effect, blobs, imap, -, rfl⟩ := took
  obtain ⟨dirs, inodes, parents, stored, draws, -, rfl⟩ := effect.frame
  refine ⟨same.head, same.root, same.device, same.time.trans ?_⟩
  show t.state_time ≤ if t.state_time < op.time_unix_ms then op.time_unix_ms else t.state_time
  split
  · rename_i later
    exact later.le
  · exact le_rfl

theorem Committed.congr (committed : Committed env s) (imap : t.imap = s.imap)
    (same : SameHead s t) : Committed env t := by
  have root : computeStateRoot env t = computeStateRoot env s := by
    simp only [computeStateRoot, inodeMap, imap]
  obtain ⟨time, bound, named⟩ := committed.head
  refine ⟨by rw [same.root, root]; exact committed.root, time, bound.trans same.time, ?_⟩
  rw [same.head, root, same.device]
  exact named

/-- Every attempt of the call that fails, whether refused or stopped by a limit, fails while the map
is the one the call started with. -/
def FailsEarly (env : Env) (s : CoreState) (call : Call) : Prop :=
  ∀ x ∈ call.attempts env s, Poisoned env x.2 x.1 → x.1.imap = s.imap

/-- What the attempts of a call that started in `s` keep. -/
private structure Unsettled (env : Env) (ids : Set OpId) (s t : CoreState) : Prop where
  shape : Shape env ids t
  same : SameHead s t

private theorem unsettledRule (inj : Set.InjOn (inodeForOp env) ids) (s : CoreState) :
    AttemptRule env (Unsettled env ids s) (fun op => op.id ∈ ids)
      (fun t op => Poisoned env op t → t.imap = s.imap)
      (fun _ t => SameHead s t ∧ t.imap = s.imap) where
  tried := by
    intro t op held member early new
    have spec := attempt_spec env op t
    cases run : attempt env op t with
    | error e u =>
        have imap := (attempt_error_imap held.shape inj member new run).trans
          (early (poisoned_iff.mpr ⟨e, u, run⟩))
        rw [run] at spec
        rcases spec with ⟨rfl, -⟩ | ⟨effect, -⟩
        · exact ⟨held.same, imap⟩
        · exact ⟨held.same.took effect, imap⟩
    | ok outcome u =>
        rw [run] at spec
        cases outcome with
        | unmet reason =>
            obtain ⟨rfl, -⟩ := spec
            exact held
        | done => exact ⟨held.shape.took inj member new spec, held.same.took spec⟩
  cleared := fun held _ _ => ⟨held.shape.clearPending _, ⟨held.same.1, held.same.2, held.same.3,
    held.same.4⟩⟩
  parked := by
    intro t op id held here
    obtain ⟨same, member⟩ := held.shape.parked here
    exact same ▸ member

private theorem committed_drained (queue : Queue t) (committed : Committed env s)
    (inj : Set.InjOn (inodeForOp env) ids) (held : Unsettled env ids s t)
    (early : ∀ x ∈ drainRetries env t, Poisoned env x.2 x.1 → x.1.imap = s.imap) :
    match drainPending env t with
    | .error _ u => Committed env u
    | .ok n u => n = 0 → t.imap = s.imap → Committed env u := by
  have drained := (unsettledRule inj s).drainPending held early
  have ends := drainPending_ends env queue
  cases run : drainPending env t with
  | error e u =>
      rw [run] at drained
      exact committed.congr drained.2 drained.1
  | ok n u =>
      rw [run] at ends
      intro idle same
      obtain rfl := ends.2.2.1 idle
      exact committed.congr same held.same

theorem Committed.retry (committed : Committed env s) (orderly : Orderly env ids s)
    (inj : Set.InjOn (inodeForOp env) ids) (early : FailsEarly env s .retry) :
    Committed env (finalState (retryPending env s)) := by
  have drained := committed_drained orderly.queue committed inj ⟨orderly.shape, .refl s⟩ early
  rw [retryPending_run]
  cases run : drainPending env s with
  | error e u =>
      rw [run] at drained
      exact drained
  | ok n u =>
      rw [run] at drained
      show Committed env (if 0 < n then finalState (buildSnapshot env u) else u)
      split
      · exact (current_snapshot env u).committed
      · exact drained (by omega) rfl

theorem Committed.apply {check_policy : Bool} (committed : Committed env s)
    (orderly : Orderly env ids s) (inj : Set.InjOn (inodeForOp env) ids) (member : op.id ∈ ids)
    (early : FailsEarly env s (.apply op check_policy)) :
    Committed env (finalState (applyOpInner env op check_policy s)) := by
  by_cases admits : Admits env op check_policy s
  · by_cases known : op.id ∈ s.applied
    · rw [applyOpInner_known admits known]
      exact committed
    · have start : Unsettled env ids s (s.appendOp op) := ⟨orderly.shape.appendOp op, rfl, rfl, rfl, le_rfl⟩
      have along : ∀ x ∈ applyAttempts env op check_policy s,
          Poisoned env x.2 x.1 → x.1.imap = s.imap := early
      rw [applyAttempts_new admits known, applyRetries_new admits known] at along
      have first := @AttemptRule.tried _ _ _ _ _ (unsettledRule inj s) _ _ start member
        (along _ List.mem_cons_self) known
      have spec := attempt_spec env op (s.appendOp op)
      have order := @AttemptRule.tried _ _ _ _ _ (queueRule env) _ op
        (orderly.queue.congr rfl rfl : Queue (s.appendOp op)) trivial trivial known
      unfold afterFirst at along
      rw [applyOpInner_new admits known]
      cases run : attempt env op (s.appendOp op) with
      | error e t =>
          rw [run] at first
          exact committed.congr first.2 first.1
      | ok outcome t =>
          rw [run] at first along spec order
          have later := fun x inside => along x (List.mem_cons_of_mem _ inside)
          cases outcome with
          | done =>
              have drained := committed_drained order committed inj first later
              dsimp only
              cases rest : drainPending env t with
              | error e u =>
                  rw [rest] at drained
                  exact drained
              | ok n u => exact (current_closeCall True (by simp)).committed
          | unmet reason =>
              obtain ⟨rfl, -⟩ := spec
              have parked : Unsettled env ids s ((s.appendOp op).storePending op) :=
                ⟨first.shape.storePending member, rfl, rfl, rfl, le_rfl⟩
              have drained := committed_drained (order.park known) committed inj parked later
              dsimp only
              cases rest : drainPending env ((s.appendOp op).storePending op) with
              | error e u =>
                  rw [rest] at drained
                  exact drained
              | ok n u =>
                  rw [rest] at drained
                  show Committed env (closeCall env (0 < n) u)
                  unfold closeCall
                  split
                  · exact (current_snapshot env u).committed.congr rfl ⟨rfl, rfl, rfl, le_rfl⟩
                  · exact (drained (by omega) rfl).congr rfl ⟨rfl, rfl, rfl, le_rfl⟩
  · obtain ⟨e, refused⟩ := applyOpInner_refused admits
    rw [refused]
    exact committed

theorem Committed.collect (committed : Committed env s) (charted : Charted env ids s)
    (dry_run : Bool) : Committed env (finalState (collectGarbage env dry_run s)) := by
  rcases charted.2 with exact | ⟨w, full⟩
  · rcases charted.1.collectGarbage_spec dry_run with same | ⟨marked, keep, kept, same⟩
    · rw [same]
      exact committed
    · rw [same]
      exact committed.congr (@MapExact.imap_sweep env s marked keep exact.map kept)
        ⟨rfl, rfl, rfl, le_rfl⟩
  · rw [charted.1.collectGarbage_full full dry_run]
    exact committed

theorem Committed.call (committed : Committed env s) (orderly : Orderly env ids s)
    (inj : Set.InjOn (inodeForOp env) ids) {call : Call} (within : call.Within ids)
    (early : FailsEarly env s call) : Committed env (call.run env s) := by
  cases call with
  | apply op check_policy => exact committed.apply orderly inj within early
  | retry => exact committed.retry orderly inj early
  | snapshot => exact (current_snapshot env s).committed
  | collect dry_run => exact committed.collect orderly.charted dry_run

theorem Committed.quiet (committed : Committed env s) (quiet : Quiet s t) : Committed env t :=
  committed.congr quiet.imap
    ⟨quiet.head, quiet.state_root, quiet.device_id, quiet.state_time.ge⟩

end Committed

end NexusFS.Core
