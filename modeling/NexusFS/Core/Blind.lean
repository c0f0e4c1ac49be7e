/- GID: NexusFS/Core/Blind
   source: crates/core/src/apply.rs, crates/core/src/snapshot.rs, crates/core/src/state.rs
   digest: An attempt never looks at the queue of parked operations. -/

import NexusFS.Core.Run

set_option autoImplicit false
set_option relaxedAutoImplicit false

namespace NexusFS.Core

open NexusFS.Lib NexusFS.Lib.Effect NexusFS.Proto NexusFS.Crdt CoreState

def CoreState.withPending (s : CoreState) (queue : BTreeMap OpId FsOp) : CoreState :=
  { s with pending := queue }

section Readers

variable (env : Env) (s : CoreState) (queue : BTreeMap OpId FsOp)

theorem subtreeContains_withPending (root target : U128) :
    subtreeContains (s.withPending queue) root target = subtreeContains s root target := by
  have loop : ∀ fuel stack seen, subtreeLoop (s.withPending queue) target fuel stack seen =
      subtreeLoop s target fuel stack seen := by
    intro fuel
    induction fuel with
    | zero =>
        intro stack seen
        unfold subtreeLoop
        rfl
    | succ fuel ih =>
        intro stack seen
        unfold subtreeLoop
        simp only [ih]
        rfl
  unfold subtreeContains
  rw [loop]

theorem isReachable_withPending (inode : U128) :
    isReachable (s.withPending queue) inode = isReachable s inode := by
  have climb : ∀ fuel current, climbParents (s.withPending queue) inode fuel current =
      climbParents s inode fuel current := by
    intro fuel
    induction fuel with
    | zero => exact fun current => rfl
    | succ fuel ih =>
        intro current
        unfold climbParents
        simp only [ih]
        rfl
  exact climb _ inode

theorem walkRoot_withPending (store : Bool) :
    walkRoot env (s.withPending queue) store = walkRoot env s store := by
  have tree : ∀ fuel inode, materializeTree env (s.withPending queue) store fuel inode =
      materializeTree env s store fuel inode := by
    intro fuel
    induction fuel with
    | zero => exact fun inode => rfl
    | succ fuel ih =>
        intro inode
        have nested : materializeTree env (s.withPending queue) store fuel =
            materializeTree env s store fuel := funext ih
        unfold materializeTree
        rw [nested]
        rfl
  unfold walkRoot
  rw [tree]
  rfl

private theorem readChunks_withPending (key : Option Hash) (index : Nat) (chunks : List ChunkRef)
    (out : Bytes) :
    readChunks env (s.withPending queue) key index chunks out =
      readChunks env s key index chunks out := by
  induction chunks generalizing index out with
  | nil => rfl
  | cons chunk chunks ih =>
      unfold readChunks
      simp only [ih]
      rfl

private theorem materializeFile_withPending (file : FileNode) :
    materializeFile env (s.withPending queue) file = materializeFile env s file := by
  unfold materializeFile
  simp only [readChunks_withPending]
  rfl

private theorem incomingBytes_withPending (chunks : List ChunkRef) :
    incomingBytes (s.withPending queue) chunks = incomingBytes s chunks := by
  induction chunks with
  | nil => rfl
  | cons chunk chunks ih =>
      unfold incomingBytes
      rw [ih]
      rfl

theorem spliceWrite_withPending (inode : U128) (offset : U64) (chunks : List ChunkRef)
    (new_size : U64) :
    spliceWrite env (s.withPending queue) inode offset chunks new_size =
      spliceWrite env s inode offset chunks new_size := by
  have read : tryReadFile env (s.withPending queue) inode = tryReadFile env s inode := by
    unfold tryReadFile
    simp only [materializeFile_withPending]
    rfl
  unfold spliceWrite
  rw [read]
  simp only [incomingBytes_withPending]

end Readers

section Programs

variable (env : Env) (queue : BTreeMap OpId FsOp)

abbrev QueueBlind {α : Type} (queue : BTreeMap OpId FsOp) (x : M α) : Prop :=
  Commutes (fun s : CoreState => s.withPending queue) x

private theorem blind_check {α : Type} (check : Except Err α) :
    QueueBlind queue (liftCheck check) := by
  cases check with
  | ok a => exact .pure a
  | error e => exact .throw e

private theorem blind_putObject (object : Object) : QueueBlind queue (putObject env object) := by
  refine Commutes.bind (.modify fun s => ?_) fun _ => .pure _
  by_cases here : s.hasBlob (env.blake3 (encodeObject env object))
  · have there : (s.withPending queue).hasBlob (env.blake3 (encodeObject env object)) := here
    rw [if_pos here, if_pos there]
  · have there : ¬(s.withPending queue).hasBlob (env.blake3 (encodeObject env object)) := here
    rw [if_neg here, if_neg there]
    rfl

private theorem blind_drawRandom (len : Nat) : QueueBlind queue (drawRandom env len) :=
  fun _ => rfl

private theorem blind_storePlain (pieces : List Bytes) (offset : U64) :
    QueueBlind queue (storePlain env pieces offset) := by
  induction pieces generalizing offset with
  | nil => exact .pure []
  | cons chunk rest ih =>
      exact Commutes.bind (.modify fun _ => rfl) fun _ => (ih _).bind fun _ => .pure _

private theorem blind_storeSealed (file_key : Hash) (index : Nat) (pieces : List Bytes)
    (offset : U64) : QueueBlind queue (storeSealed env file_key index pieces offset) := by
  induction pieces generalizing index offset with
  | nil => exact .pure []
  | cons plain rest ih =>
      exact Commutes.bind (.modify fun _ => rfl) fun _ => (ih _ _).bind fun _ => .pure _

private theorem blind_sealEnvelope (recipient file_key : Hash) :
    QueueBlind queue (sealEnvelope env recipient file_key) :=
  (blind_drawRandom env queue 32).bind fun _ =>
    (blind_drawRandom env queue 24).bind fun _ => .pure _

private theorem blind_protectFileKey (file_key cipher : Hash) :
    QueueBlind queue (protectFileKey env file_key cipher) := by
  refine Commutes.read (fun _ => rfl) fun s => ?_
  dsimp only
  split
  · exact ((blind_drawRandom env queue 24).bind fun _ => .pure _).bind fun _ => .pure _
  · exact (Commutes.mapM (fun key => blind_sealEnvelope env queue key file_key) _).bind
      fun _ => .pure _

theorem blind_storeContent (data : Bytes) : QueueBlind queue (storeContent env data) := by
  refine Commutes.read (fun _ => rfl) fun s => ?_
  split
  · exact (blind_storePlain env queue _ _).bind fun _ => .pure _
  · exact ((blind_drawRandom env queue 32).bind fun _ => .pure _).bind fun _ =>
      (blind_storeSealed env queue _ _ _ _).bind fun _ =>
        (blind_protectFileKey env queue _ _).bind fun _ => .pure _

private theorem blind_storeFilenodeFromBytes (data : Bytes) (now_ms : U64) :
    QueueBlind queue (storeFilenodeFromBytes env data now_ms) :=
  (blind_storeContent env queue data).bind fun _ => blind_putObject env queue _

theorem blind_mutate (op : FsOp) : QueueBlind queue (mutate env op) := by
  have create : ∀ parent name mode kind,
      QueueBlind queue (mutateCreate env op parent name mode kind) := by
    intro parent name mode kind s
    have dir : (s.withPending queue).isDir parent = s.isDir parent := rfl
    rw [mutateCreate_run, mutateCreate_run, dir]
    cases validateName name with
    | error e => rfl
    | ok u =>
        dsimp only
        split
        · cases kind <;> rfl
        · rfl
  unfold mutate
  cases op.kind with
  | mkdir parent name mode => exact create parent name mode .dir
  | createFile parent name mode => exact create parent name mode .file
  | write inode offset chunks new_size encryption =>
      refine Commutes.read (fun s => ?_) fun s => ?_
      · rw [spliceWrite_withPending]
        rfl
      · split
        · exact .pure _
        · split
          · exact .throw _
          · split
            · exact .pure _
            · split
              · exact .pure _
              · split
                · exact (blind_putObject env queue _).bind fun _ =>
                    Commutes.bind (.modify fun _ => rfl) fun _ => .pure _
                · refine (blind_check queue _).bind fun outcome => ?_
                  split
                  · exact .pure _
                  · exact (blind_storeFilenodeFromBytes env queue _ _).bind fun _ =>
                      Commutes.bind (.modify fun _ => rfl) fun _ => .pure _
  | rename old_parent old_name new_parent new_name observed =>
      refine (blind_check queue _).bind fun _ => Commutes.read (fun s => ?_) fun s => ?_
      · simp only [subtreeContains_withPending]
        rfl
      · have move : ∀ entry, QueueBlind queue
            (modify (moveEntry op entry old_parent old_name new_parent new_name observed)) := by
          intro entry
          refine .modify fun s => ?_
          unfold moveEntry
          dsimp only
          split <;> rfl
        split
        · exact .pure _
        · split
          · exact .pure _
          · dsimp only
            split
            · split <;> exact .pure _
            · have finish : ∀ entry (inside : Bool), QueueBlind queue (do
                  if inside then throw .intoOwnSubtree
                  else
                    modify (moveEntry op entry old_parent old_name new_parent new_name observed)
                    return Mutation.done) := by
                intro entry inside
                split
                · exact .throw _
                · exact (move entry).bind fun _ => .pure _
              split
              · exact (blind_check queue _).bind fun inside => finish _ inside
              · exact Commutes.bind (.pure _) fun inside => finish _ inside
  | unlink parent name observed =>
      intro s
      have dir : (s.withPending queue).isDir parent = s.isDir parent := rfl
      simp only [mutateUnlink_run, dir]
      split <;> rfl
  | setAttr inode mode uid gid =>
      intro s
      have record : (s.withPending queue).loadInode inode = s.loadInode inode := rfl
      simp only [mutateSetattr_run, record]
      cases s.loadInode inode <;> rfl

private theorem blind_refresh (inode : U128) : QueueBlind queue (refreshMapEntry env inode) := by
  refine Commutes.read (fun s => ?_) fun s => ?_
  · rw [isReachable_withPending]
    rfl
  · refine (blind_check queue _).bind fun reachable => ?_
    split
    · split
      · exact .modify fun _ => rfl
      · split
        · have store : QueueBlind queue (storeDirObject env inode) :=
            Commutes.read (fun _ => rfl) fun s => blind_putObject env queue _
          exact store.bind fun _ => .modify fun _ => rfl
        · split <;> exact .modify fun _ => rfl
    · exact .modify fun _ => rfl

theorem blind_maintain (op : FsOp) : QueueBlind queue (maintainInodeMap env op) := by
  have rebuild : QueueBlind queue (rebuildInodeMap env) := by
    intro s
    unfold rebuildInodeMap
    simp only [bind_run, get_run, walkRoot_withPending]
    cases walkRoot env s true <;> rfl
  unfold maintainInodeMap
  cases op.kind with
  | mkdir parent name mode =>
      exact (blind_refresh env queue _).bind fun _ => blind_refresh env queue _
  | createFile parent name mode =>
      exact (blind_refresh env queue _).bind fun _ => blind_refresh env queue _
  | write inode offset chunks new_size encryption => exact blind_refresh env queue _
  | setAttr inode mode uid gid => exact blind_refresh env queue _
  | unlink parent name observed => exact rebuild.bind fun _ => .pure _
  | rename old_parent old_name new_parent new_name observed => exact rebuild.bind fun _ => .pure _

theorem attempt_withPending (op : FsOp) (s : CoreState) :
    ∃ queue', attempt env op (s.withPending queue) =
      mapState (fun t => t.withPending queue') (attempt env op s) := by
  have settle : ∀ u : CoreState, settleApplied env op (u.withPending queue) =
      mapState (fun t => t.withPending (queue.erase op.id)) (settleApplied env op u) := fun u =>
    blind_maintain env (queue.erase op.id) op (u.noteApplied op)
  rw [attempt_run, attempt_run, blind_mutate env queue op s]
  cases mutate env op s with
  | error e t => exact ⟨queue, rfl⟩
  | ok outcome t =>
      cases outcome with
      | unmet reason => exact ⟨queue, rfl⟩
      | done =>
          refine ⟨queue.erase op.id, ?_⟩
          simp only [mapState, settle]
          cases settleApplied env op t <;> rfl

end Programs

end NexusFS.Core
