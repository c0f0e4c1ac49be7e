/- GID: NexusFS/Core/Fixpoint
   source: crates/core/src/apply.rs
   digest: A drain ends, and what is parked when its call returns can still not be applied. -/

import NexusFS.Core.Call
import NexusFS.Core.Intact
import NexusFS.Core.Stock

/-!
A drain stops at a pass that changes nothing, so everything parked then is unmet. The end
of the call may store one more object, the snapshot that the new head names. A write
whose content has that very hash is all that this can bring in.
-/

set_option autoImplicit false
set_option relaxedAutoImplicit false

namespace NexusFS.Core

open NexusFS.Lib NexusFS.Lib.Effect NexusFS.Proto NexusFS.Crdt CoreState

section Loop

variable {env : Env} {s : CoreState} {r r' : EStateM.Result Err CoreState Nat}

/-- The loop of `drain_pending`, with no bound on its passes. -/
inductive Drains (env : Env) : CoreState → EStateM.Result Err CoreState Nat → Prop
  | idle {s : CoreState} (none_parked : s.pendingOps.isEmpty) : Drains env s (.ok 0 s)
  | still {s t : CoreState} {total : Nat} (parked : ¬s.pendingOps.isEmpty)
      (pass : drainPass env s.pendingOps s = .ok (false, total) t) : Drains env s (.ok total t)
  | again {s t u : CoreState} {total more : Nat} (parked : ¬s.pendingOps.isEmpty)
      (pass : drainPass env s.pendingOps s = .ok (true, total) t)
      (later : Drains env t (.ok more u)) : Drains env s (.ok (total + more) u)
  | fails {s t : CoreState} {e : Err} (parked : ¬s.pendingOps.isEmpty)
      (pass : drainPass env s.pendingOps s = .error e t) : Drains env s (.error e t)
  | failsLater {s t u : CoreState} {total : Nat} {e : Err} (parked : ¬s.pendingOps.isEmpty)
      (pass : drainPass env s.pendingOps s = .ok (true, total) t)
      (later : Drains env t (.error e u)) : Drains env s (.error e u)

private theorem drains_drainLoop (fuel : Nat) (queue : Queue s) (enough : s.pending.size < fuel) :
    Drains env s (drainLoop env fuel s) := by
  induction fuel generalizing s with
  | zero => omega
  | succ fuel ih =>
      rw [drainLoop_succ]
      split
      · rename_i idle
        exact .idle idle
      · rename_i parked
        have pass := drainPass_ends env s.pendingOps queue
          (fun op member => by
            obtain ⟨id, here⟩ := mem_pendingOps.mp member
            rw [queue.keyed here]
            exact here)
          (pendingOps_distinct queue)
        cases run : drainPass env s.pendingOps s with
        | error e t => exact .fails parked run
        | ok result t =>
            obtain ⟨progressed, total⟩ := result
            rw [run] at pass
            cases progressed with
            | false => exact .still parked run
            | true =>
                obtain ⟨queue', smaller, -⟩ := pass
                have after := ih queue' (by omega)
                dsimp only
                cases later : drainLoop env fuel t with
                | error e u =>
                    rw [later] at after
                    exact .failsLater parked run after
                | ok more u =>
                    rw [later] at after
                    exact .again parked run after

private theorem Drains.unique (first : Drains env s r) (second : Drains env s r') : r = r' := by
  induction first generalizing r' with
  | idle none_parked =>
      cases second with
      | idle => rfl
      | still parked => exact absurd none_parked parked
      | again parked => exact absurd none_parked parked
      | fails parked => exact absurd none_parked parked
      | failsLater parked => exact absurd none_parked parked
  | still parked pass =>
      cases second with
      | idle none_parked => exact absurd none_parked parked
      | still _ pass' =>
          rw [pass] at pass'
          cases pass'
          rfl
      | again _ pass' => cases pass.symm.trans pass'
      | fails _ pass' => cases pass.symm.trans pass'
      | failsLater _ pass' => cases pass.symm.trans pass'
  | again parked pass _ ih =>
      cases second with
      | idle none_parked => exact absurd none_parked parked
      | still _ pass' => cases pass.symm.trans pass'
      | again _ pass' later =>
          rw [pass] at pass'
          cases pass'
          cases ih later
          rfl
      | fails _ pass' => cases pass.symm.trans pass'
      | failsLater _ pass' later =>
          rw [pass] at pass'
          cases pass'
          cases ih later
  | fails parked pass =>
      cases second with
      | idle none_parked => exact absurd none_parked parked
      | still _ pass' => cases pass.symm.trans pass'
      | again _ pass' => cases pass.symm.trans pass'
      | fails _ pass' =>
          rw [pass] at pass'
          cases pass'
          rfl
      | failsLater _ pass' => cases pass.symm.trans pass'
  | failsLater parked pass _ ih =>
      cases second with
      | idle none_parked => exact absurd none_parked parked
      | still _ pass' => cases pass.symm.trans pass'
      | again _ pass' later =>
          rw [pass] at pass'
          cases pass'
          cases ih later
      | fails _ pass' => cases pass.symm.trans pass'
      | failsLater _ pass' later =>
          rw [pass] at pass'
          cases pass'
          cases ih later
          rfl

/-- The loop ends, with what `drainPending` computes. -/
theorem drains_iff (queue : Queue s) : Drains env s r ↔ r = drainPending env s := by
  have ends : Drains env s (drainPending env s) := drains_drainLoop _ queue (Nat.lt_succ_self _)
  exact ⟨fun drains => drains.unique ends, fun same => same ▸ ends⟩

end Loop

section Waiting

variable {env : Env} {s u t : CoreState} {op : FsOp} {inode : U128} {offset : U64}
  {chunks : List ChunkRef} {new_size : U64} {encryption : Option FileEncryption}

/-- What a write waits for: its file, a chunk, or the content that it splices into. -/
inductive WriteWaits (env : Env) (op : FsOp) (s : CoreState) (inode : U128) (offset : U64)
    (chunks : List ChunkRef) (new_size : U64) : Prop
  | file (missing : s.loadInode inode = none)
  | chunk {record : InodeRecord} {hash : Hash} (found : s.loadInode inode = some record)
      (kind : record.kind = .file) (wins : writeCanWin record.content op)
      (missing : firstMissingChunk s chunks = some hash)
  | content {record : InodeRecord} (found : s.loadInode inode = some record)
      (kind : record.kind = .file) (wins : writeCanWin record.content op)
      (held : firstMissingChunk s chunks = none)
      (partly : ¬(offset = 0 ∧ chunksFormWholeFile chunks new_size))
      (missing : tryReadFile env s inode = .ok none)

private theorem spliceWrite_none (splice : spliceWrite env s inode offset chunks new_size = .ok none) :
    tryReadFile env s inode = .ok none := by
  unfold spliceWrite at splice
  cases read : tryReadFile env s inode with
  | error e =>
      rw [read] at splice
      cases splice
  | ok existing =>
      cases existing with
      | none => rfl
      | some bytes =>
          rw [read] at splice
          simp only [bind, Except.bind] at splice
          cases incoming : incomingBytes s chunks with
          | error e =>
              rw [incoming] at splice
              cases splice
          | ok patch =>
              rw [incoming] at splice
              dsimp only at splice
              split at splice
              · cases splice
              · split at splice
                · cases splice
                · split at splice <;> cases splice

theorem write_unmet_iff (shape : op.kind = .write inode offset chunks new_size encryption) :
    (∃ reason, mutate env op s = .ok (.unmet reason) s) ↔
      WriteWaits env op s inode offset chunks new_size := by
  simp only [mutate, shape, mutateWrite, bind_run, get_run]
  cases found : s.loadInode inode with
  | none => exact ⟨fun _ => .file found, fun _ => ⟨_, rfl⟩⟩
  | some record =>
      dsimp only
      by_cases kind : record.kind = .file
      · rw [if_neg (fun other => other kind)]
        cases wins : writeCanWin record.content op with
        | false =>
            constructor
            · rintro ⟨reason, run⟩
              cases run
            · rintro (missing | ⟨found', -, wins', -⟩ | ⟨found', -, wins', -⟩)
              · cases found.symm.trans missing
              all_goals
                cases found.symm.trans found'
                cases wins.symm.trans wins'
        | true =>
            simp only [Bool.not_true, Bool.false_eq_true, if_false]
            cases held : firstMissingChunk s chunks with
            | some hash => exact ⟨fun _ => .chunk found kind wins held, fun _ => ⟨_, rfl⟩⟩
            | none =>
                dsimp only
                by_cases whole : offset = 0 ∧ chunksFormWholeFile chunks new_size
                · rw [if_pos whole]
                  obtain ⟨stored, run, -⟩ := putObject_run env
                    (fileObject chunks new_size op.time_unix_ms encryption) s
                  constructor
                  · rintro ⟨reason, run'⟩
                    simp only [makeFilenode, bind_run, run, modify_run, pure_run] at run'
                    cases run'
                  · rintro (missing | ⟨-, -, -, missing⟩ | ⟨-, -, -, -, partly, -⟩)
                    · cases found.symm.trans missing
                    · cases held.symm.trans missing
                    · exact absurd whole partly
                · rw [if_neg whole]
                  cases splice : spliceWrite env s inode offset chunks new_size with
                  | error e =>
                      constructor
                      · rintro ⟨reason, run⟩
                        cases run
                      · rintro (missing | ⟨-, -, -, missing⟩ | ⟨-, -, -, -, -, missing⟩)
                        · cases found.symm.trans missing
                        · cases held.symm.trans missing
                        · rw [spliceWrite, missing] at splice
                          cases splice
                  | ok buffer =>
                      cases buffer with
                      | none =>
                          exact ⟨fun _ => .content found kind wins held whole (spliceWrite_none splice),
                            fun _ => ⟨_, rfl⟩⟩
                      | some bytes =>
                          obtain ⟨node_hash, stored, run, -⟩ :=
                            storesOnly_storeFilenodeFromBytes env bytes op.time_unix_ms s
                          constructor
                          · rintro ⟨reason, run'⟩
                            simp only [liftCheck_ok, bind_run, run, modify_run, pure_run] at run'
                            cases run'
                          · rintro (missing | ⟨-, -, -, missing⟩ | ⟨-, -, -, -, -, missing⟩)
                            · cases found.symm.trans missing
                            · cases held.symm.trans missing
                            · rw [spliceWrite, missing] at splice
                              cases splice
      · rw [if_pos kind]
        constructor
        · rintro ⟨reason, run⟩
          cases run
        · rintro (missing | ⟨found', kind', -⟩ | ⟨found', kind', -⟩)
          · cases found.symm.trans missing
          all_goals
            cases found.symm.trans found'
            exact absurd kind' kind

/-- An operation that can not be applied yet: it waits for a directory, an inode or an entry, or as a
write for its file or content. -/
def Deferred (env : Env) (op : FsOp) (s : CoreState) : Prop :=
  match op.kind with
  | .mkdir parent name _ | .createFile parent name _ =>
      validateName name = .ok () ∧ ¬s.isDir parent
  | .write inode offset chunks new_size _ => WriteWaits env op s inode offset chunks new_size
  | .rename old_parent old_name new_parent new_name observed =>
      validateName new_name = .ok () ∧ (¬s.isDir old_parent ∨ ¬s.isDir new_parent ∨
        (observed ≠ [] ∧ ∀ p ∈ (s.dirAt old_parent).getAll old_name, p.1 ∉ observed))
  | .unlink parent _ _ => ¬s.isDir parent
  | .setAttr inode _ _ _ => s.loadInode inode = none

private theorem create_unmet_iff {parent : U128} {name : String} {mode : U32} {kind : EntryType} :
    (∃ reason, mutateCreate env op parent name mode kind s = .ok (.unmet reason) s) ↔
      validateName name = .ok () ∧ ¬s.isDir parent := by
  rw [mutateCreate_run]
  cases valid : validateName name with
  | error e => simp
  | ok ok => by_cases dir : s.isDir parent <;> simp [dir]

private theorem rename_unmet_iff {old_parent new_parent : U128} {old_name new_name : String}
    {observed : List OpId} :
    (∃ reason, mutateRename op old_parent old_name new_parent new_name observed s =
      .ok (.unmet reason) s) ↔
      validateName new_name = .ok () ∧ (¬s.isDir old_parent ∨ ¬s.isDir new_parent ∨
        (observed ≠ [] ∧ ∀ p ∈ (s.dirAt old_parent).getAll old_name, p.1 ∉ observed)) := by
  unfold mutateRename
  cases valid : validateName new_name with
  | error e => simp
  | ok ok =>
      simp only [bind_run, liftCheck_ok, get_run, true_and]
      by_cases source : s.isDir old_parent
      · by_cases target : s.isDir new_parent
        · simp only [source, target, Bool.not_true, Bool.false_eq_true, if_false,
            not_true_eq_false, false_or]
          rw [← renameSource_eq_none]
          cases found : renameSource ((s.dirAt old_parent).getAll old_name) observed with
          | none =>
              have unseen : (((s.dirAt old_parent).getAll old_name).any
                  fun p => observed.contains p.1) = false := by
                have none_seen := renameSource_eq_none.mp found
                simpa using none_seen
              rw [unseen]
              cases observed with
              | nil => simp
              | cons dot dots => exact iff_of_true ⟨_, rfl⟩ (by simp)
          | some p =>
              obtain ⟨dot, entry⟩ := p
              refine iff_of_false ?_ (by simp)
              rintro ⟨reason, run⟩
              dsimp only at run
              cases kind : entry.entry_type with
              | file =>
                  rw [kind] at run
                  cases run
              | dir =>
                  rw [kind] at run
                  cases inside : subtreeContains s entry.inode_id new_parent with
                  | error e =>
                      rw [inside] at run
                      cases run
                  | ok yes =>
                      rw [inside] at run
                      cases yes <;> cases run
        · simp [source, target]
      · simp [source]

theorem deferred_iff : (∃ reason, mutate env op s = .ok (.unmet reason) s) ↔ Deferred env op s := by
  unfold Deferred
  cases shape : op.kind with
  | write inode offset chunks new_size encryption => exact write_unmet_iff shape
  | mkdir parent name mode =>
      unfold mutate
      rw [shape]
      exact create_unmet_iff
  | createFile parent name mode =>
      unfold mutate
      rw [shape]
      exact create_unmet_iff
  | unlink parent name observed =>
      simp only [mutate, shape, mutateUnlink_run]
      by_cases dir : s.isDir parent <;> simp [dir]
  | setAttr inode mode uid gid =>
      simp only [mutate, shape, mutateSetattr_run]
      cases s.loadInode inode <;> simp
  | rename old_parent old_name new_parent new_name observed =>
      unfold mutate
      rw [shape]
      exact rename_unmet_iff

/-- The stored bytes that a write is made from: its chunks, and the object and the chunks of the
content that it splices into. -/
def MadeFrom (env : Env) (s : CoreState) (op : FsOp) (hash : Hash) : Prop :=
  ∃ inode offset chunks new_size encryption,
    op.kind = .write inode offset chunks new_size encryption ∧
      (hash ∈ chunks.map ChunkRef.hash ∨
        ∃ record node_hash, s.loadInode inode = some record ∧
          record.content.value.node_hash = some node_hash ∧ (hash = node_hash ∨
            ∃ file, getObject env s node_hash = .ok (some (.fileNode file)) ∧
              hash ∈ file.chunks.map ChunkRef.hash))

/-- `t` differs from `u` in the head, the root, the durability counters, and at most the object that
the new head names. -/
structure Ended (env : Env) (u t : CoreState) : Prop where
  same : ∃ blobs head root kv blob, t = { u with
    blobs := blobs, head := head, state_root := root, kv_flushes := kv, blob_flushes := blob }
  blobs : ∀ hash, t.blobs[hash]? = u.blobs[hash]? ∨ (u.blobs[hash]? = none ∧ t.head = some hash ∧
    ∃ root, t.blobs[hash]? = some (encodeObject env (.snapshotRoot root)))

theorem ended_flush (env : Env) (u : CoreState) : Ended env u u.flush :=
  ⟨⟨_, _, _, _, _, rfl⟩, fun _ => .inl rfl⟩

theorem ended_buildSnapshot (env : Env) (u : CoreState) :
    Ended env u (finalState (buildSnapshot env u)) := by
  obtain ⟨root, isRoot⟩ : ∃ root, newSnapshotRoot (computeStateRoot env u) u.device_id u.state_time =
      root := ⟨_, rfl⟩
  have run : buildSnapshot env u = .ok (objectHash env root)
      { (if u.hasBlob (objectHash env root) then u
          else u.putBlob (objectHash env root) (encodeObject env root)) with
        state_root := some (computeStateRoot env u), head := some (objectHash env root) } := by
    unfold buildSnapshot putObject
    simp only [bind_run, get_run, set_run, modify_run, pure_run, isRoot]
    by_cases here : u.hasBlob (objectHash env root)
    · have here' : u.hasBlob (env.blake3 (encodeObject env root)) := here
      simp [CoreState.hasBlob] at here'
      simp [objectHash, CoreState.hasBlob, here']
    · have here' : ¬u.hasBlob (env.blake3 (encodeObject env root)) := here
      simp [CoreState.hasBlob] at here'
      simp [objectHash, CoreState.hasBlob, here', CoreState.putBlob]
  rw [run]
  by_cases here : u.hasBlob (objectHash env root)
  · rw [if_pos here]
    exact ⟨⟨_, _, _, _, _, rfl⟩, fun _ => .inl rfl⟩
  · rw [if_neg here]
    refine ⟨⟨_, _, _, _, _, rfl⟩, fun hash => ?_⟩
    show (u.blobs.insert (objectHash env root) (encodeObject env root))[hash]? = _ ∨ _
    rw [BTreeMap.get_insert]
    split
    · rename_i same
      subst same
      refine .inr ⟨by simpa [CoreState.hasBlob] using here, rfl,
        ⟨⟨3, 1⟩, rootInode, some (computeStateRoot env u), u.state_time, u.device_id⟩, ?_⟩
      show (u.blobs.insert (objectHash env root) (encodeObject env root))[objectHash env root]? = _
      rw [BTreeMap.get_insert, if_pos rfl, ← isRoot]
      rfl
    · exact .inl rfl

theorem Ended.trans {w : CoreState} (first : Ended env u w) (second : Ended env w t)
    (head : t.head = w.head) : Ended env u t := by
  obtain ⟨_, _, _, _, _, rfl⟩ := first.same
  obtain ⟨_, _, _, _, _, rfl⟩ := second.same
  refine ⟨⟨_, _, _, _, _, rfl⟩, fun hash => ?_⟩
  rcases second.blobs hash with same | ⟨absent, named, brought⟩
  · rcases first.blobs hash with same' | ⟨absent, named, root, stored⟩
    · exact .inl (same.trans same')
    · exact .inr ⟨absent, head.trans named, root, same.trans stored⟩
  · rcases first.blobs hash with same' | ⟨absent', -⟩
    · exact .inr ⟨same'.symm.trans absent, named, brought⟩
    · exact .inr ⟨absent', named, brought⟩

theorem ended_closeCall (env : Env) (snapshot : Prop) [Decidable snapshot] (u : CoreState) :
    Ended env u (closeCall env snapshot u) := by
  unfold closeCall
  split
  · exact (ended_buildSnapshot env u).trans (ended_flush env _) rfl
  · exact ended_flush env u

theorem Ended.extends (ended : Ended env u t) : Extends u t := by
  intro hash bytes stored
  rcases ended.blobs hash with same | ⟨absent, -⟩
  · exact same.trans stored
  · cases absent.symm.trans stored

private theorem Ended.lacks (ended : Ended env u t) {hash : Hash} (missing : ¬u.hasBlob hash)
    (other : t.head ≠ some hash) : ¬t.hasBlob hash := by
  intro here
  rcases ended.blobs hash with same | ⟨-, named, -⟩
  · rw [hasBlob_iff_get] at missing here
    rw [same] at here
    exact missing here
  · exact other named

theorem tryReadFile_none_iff {record : InodeRecord} (found : s.loadInode inode = some record) :
    tryReadFile env s inode = .ok none ↔
      ∃ node_hash, record.content.value.node_hash = some node_hash ∧ (¬s.hasBlob node_hash ∨
        ∃ object, getObject env s node_hash = .ok (some object) ∧
          ∀ file, object = .fileNode file → ∃ chunk ∈ file.chunks, ¬s.hasBlob chunk.hash) := by
  unfold tryReadFile
  rw [found]
  dsimp only
  cases named : record.content.value.node_hash with
  | none => simp [pure, Except.pure]
  | some node_hash =>
      dsimp only
      cases object : getObject env s node_hash with
      | error e =>
          constructor
          · intro run
            cases run
          · rintro ⟨_, ⟨⟩, missing | ⟨_, held, -⟩⟩
            · rw [hasBlob_iff_get] at missing
              rw [getObject, Option.not_isSome_iff_eq_none.mp missing] at object
              cases object
            · cases object.symm.trans held
      | ok found =>
          cases found with
          | none =>
              refine ⟨fun _ => ⟨node_hash, rfl, .inl ?_⟩, fun _ => rfl⟩
              intro here
              obtain ⟨bytes, stored⟩ := Option.isSome_iff_exists.mp (hasBlob_iff_get.mp here)
              rw [getObject, stored] at object
              cases decoded : env.decodeObject bytes with
              | none => simp [decoded] at object
              | some other => simp [decoded, pure, Except.pure] at object
          | some held =>
              have present : s.hasBlob node_hash := hasBlob_of_object object
              have only : (∃ node, some node_hash = some node ∧ (¬s.hasBlob node ∨
                  ∃ object, getObject env s node = .ok (some object) ∧
                    ∀ file, object = .fileNode file → ∃ chunk ∈ file.chunks, ¬s.hasBlob chunk.hash)) ↔
                  ∀ file, held = .fileNode file → ∃ chunk ∈ file.chunks, ¬s.hasBlob chunk.hash := by
                constructor
                · rintro ⟨_, ⟨⟩, missing | ⟨_, held', lacking⟩⟩
                  · exact absurd present missing
                  · cases object.symm.trans held'
                    exact lacking
                · intro lacking
                  exact ⟨node_hash, rfl, .inr ⟨held, object, lacking⟩⟩
              rw [only]
              cases held with
              | fileNode file =>
                  show (if _ then _ else _) = _ ↔ _
                  split
                  · rename_i complete
                    constructor
                    · intro run
                      cases read : materializeFile env s file with
                      | error e =>
                          rw [read] at run
                          cases run
                      | ok bytes =>
                          rw [read] at run
                          cases run
                    · intro lacking
                      obtain ⟨chunk, member, missing⟩ := lacking file rfl
                      exact absurd (List.all_eq_true.mp complete chunk member) missing
                  · rename_i partly
                    refine ⟨fun _ => ?_, fun _ => rfl⟩
                    rintro _ ⟨⟩
                    simpa using partly
              | dirNode dir => exact ⟨fun _ => nofun, fun _ => rfl⟩
              | snapshotRoot root => exact ⟨fun _ => nofun, fun _ => rfl⟩

private theorem Ended.write_unmet (ended : Ended env u t)
    (shape : op.kind = .write inode offset chunks new_size encryption)
    (waits : WriteWaits env op u inode offset chunks new_size) :
    WriteWaits env op t inode offset chunks new_size ∨
      ∃ hash, t.head = some hash ∧ ¬u.hasBlob hash ∧ MadeFrom env t op hash := by
  have inodes : ∀ i, t.loadInode i = u.loadInode i := by
    intro i
    obtain ⟨_, _, _, _, _, rfl⟩ := ended.same
    rfl
  by_cases supplied : ∃ hash, t.head = some hash ∧ ¬u.hasBlob hash ∧ MadeFrom env t op hash
  · exact .inr supplied
  · have lacks : ∀ hash, ¬u.hasBlob hash → MadeFrom env t op hash → ¬t.hasBlob hash :=
      fun hash missing made => ended.lacks missing fun named => supplied ⟨hash, named, missing, made⟩
    refine .inl ?_
    cases waits with
    | file missing => exact .file ((inodes inode).trans missing)
    | @chunk record hash found kind wins missing =>
        obtain ⟨chunk, first, rfl⟩ := Option.map_eq_some_iff.mp missing
        have member := List.mem_of_find?_eq_some first
        have absent : ¬u.hasBlob chunk.hash := by simpa using List.find?_some first
        have still : ¬t.hasBlob chunk.hash :=
          lacks _ absent ⟨_, _, _, _, _, shape, .inl (List.mem_map_of_mem member)⟩
        obtain ⟨other, found'⟩ := Option.isSome_iff_exists.mp
          (List.find?_isSome.mpr ⟨chunk, member, by simpa using still⟩ :
            (chunks.find? fun chunk => !t.hasBlob chunk.hash).isSome)
        exact .chunk ((inodes inode).trans found) kind wins
          (show firstMissingChunk t chunks = some other.hash by rw [firstMissingChunk, found']; rfl)
    | @content record found kind wins held partly missing =>
        have found' : t.loadInode inode = some record := (inodes inode).trans found
        have complete : firstMissingChunk t chunks = none := by
          rw [firstMissingChunk, Option.map_eq_none_iff, List.find?_eq_none] at held ⊢
          intro chunk member
          have here : u.hasBlob chunk.hash := by simpa using held chunk member
          simpa using ended.extends.hasBlob here
        refine .content found' kind wins complete partly ((tryReadFile_none_iff found').mpr ?_)
        obtain ⟨node_hash, named, cause⟩ := (tryReadFile_none_iff found).mp missing
        refine ⟨node_hash, named, ?_⟩
        rcases cause with absent | ⟨object, here, lacking⟩
        · exact .inl (lacks _ absent ⟨_, _, _, _, _, shape,
            .inr ⟨record, node_hash, found', named, .inl rfl⟩⟩)
        · have here' := ended.extends.getObject here
          refine .inr ⟨object, here', fun file isFile => ?_⟩
          subst isFile
          obtain ⟨chunk, member, absent⟩ := lacking file rfl
          exact ⟨chunk, member, lacks _ absent ⟨_, _, _, _, _, shape,
            .inr ⟨record, node_hash, found', named, .inr ⟨file, here', List.mem_map_of_mem member⟩⟩⟩⟩

/-- What was unmet before the end of a call still is, unless it is a write of content that the
snapshot of the call brought in. -/
theorem Ended.unmet (ended : Ended env u t) (deferred : Deferred env op u) :
    Deferred env op t ∨
      ∃ hash, t.head = some hash ∧ ¬u.hasBlob hash ∧ MadeFrom env t op hash := by
  obtain ⟨isDir, dirAt, inodes⟩ : (∀ p, t.isDir p = u.isDir p) ∧ (∀ p, t.dirAt p = u.dirAt p) ∧
      ∀ i, t.loadInode i = u.loadInode i := by
    obtain ⟨_, _, _, _, _, rfl⟩ := ended.same
    exact ⟨fun _ => rfl, fun _ => rfl, fun _ => rfl⟩
  unfold Deferred at deferred ⊢
  cases shape : op.kind with
  | write inode offset chunks new_size encryption =>
      rw [shape] at deferred
      exact ended.write_unmet shape deferred
  | mkdir parent name mode => exact .inl (by simpa only [shape, isDir] using deferred)
  | createFile parent name mode => exact .inl (by simpa only [shape, isDir] using deferred)
  | unlink parent name observed => exact .inl (by simpa only [shape, isDir] using deferred)
  | setAttr inode mode uid gid => exact .inl (by simpa only [shape, inodes] using deferred)
  | rename old_parent old_name new_parent new_name observed =>
      exact .inl (by simpa only [shape, isDir, dirAt] using deferred)

end Waiting

section Calls

variable {env : Env} {s t : CoreState} {op : FsOp}

/-- A call that drained the queue and ended: `u` is the state in which nothing more could be
applied. -/
structure DrainedAt (env : Env) (s u t : CoreState) : Prop where
  queue : Queue u
  stuck : Stuck env u
  lasts : Lasts s u
  ended : Ended env u t

private theorem lasts_drain {n : Nat} {a u : CoreState} (lasts : Lasts s a)
    (run : drainPending env a = .ok n u) : Lasts s u := by
  have ends := (lastsRule env s).drainPending lasts fun _ _ => trivial
  rw [run] at ends
  exact ends

theorem drained_of_applyOp {check_policy : Bool} {outcome : ApplyOutcome} (queue : Queue s)
    (run : applyOpInner env op check_policy s = .ok outcome t) (new : outcome ≠ .alreadyApplied) :
    ∃ u, DrainedAt env s u t := by
  by_cases admits : Admits env op check_policy s
  · by_cases known : op.id ∈ s.applied
    · rw [applyOpInner_known admits known] at run
      cases run
      exact absurd rfl new
    · have logged : Queue (s.appendOp op) := queue.congr rfl rfl
      rw [applyOpInner_new admits known] at run
      have spec := attempt_spec env op (s.appendOp op)
      cases first : attempt env op (s.appendOp op) with
      | error e a =>
          rw [first] at run
          cases run
      | ok attempted a =>
          rw [first] at run spec
          cases attempted with
          | done =>
              have took : Took env op (s.appendOp op) a := spec
              have ends := drainPending_ends env (logged.took took)
              dsimp only at run
              cases drained : drainPending env a with
              | error e u =>
                  rw [drained] at run
                  cases run
              | ok n u =>
                  rw [drained] at run ends
                  cases run
                  have kept : Lasts s a := ⟨fun hash here => took.keeps hash here,
                    took.settings.cipher, took.settings.sealing_secret, took.settings.chunk_size⟩
                  exact ⟨u, ends.1, ends.2.1, lasts_drain kept drained,
                    ended_closeCall env True u⟩
          | unmet reason =>
              obtain ⟨rfl, -⟩ := spec
              have ends := drainPending_ends env (logged.park known)
              dsimp only at run
              cases drained : drainPending env ((s.appendOp op).storePending op) with
              | error e u =>
                  rw [drained] at run
                  cases run
              | ok n u =>
                  rw [drained] at run ends
                  cases run
                  have kept : Lasts s ((s.appendOp op).storePending op) :=
                    ⟨fun _ here => here, rfl, rfl, rfl⟩
                  exact ⟨u, ends.1, ends.2.1, lasts_drain kept drained,
                    ended_closeCall env (0 < n) u⟩
  · obtain ⟨e, refused⟩ := applyOpInner_refused admits
    rw [refused] at run
    cases run

theorem drained_of_retryPending {n : Nat} (queue : Queue s) (run : retryPending env s = .ok n t) :
    ∃ u, DrainedAt env s u t := by
  have ends := drainPending_ends env queue
  rw [retryPending_run] at run
  cases drained : drainPending env s with
  | error e u =>
      rw [drained] at run
      cases run
  | ok total u =>
      rw [drained] at run ends
      have lasts : Lasts s u := lasts_drain ⟨fun _ here => here, rfl, rfl, rfl⟩ drained
      cases run
      refine ⟨u, ends.1, ends.2.1, lasts, ?_⟩
      split
      · exact ended_buildSnapshot env u
      · exact ⟨⟨_, _, _, _, _, rfl⟩, fun _ => .inl rfl⟩

def Contends (s : CoreState) (op : FsOp) (inode : U128) : Prop :=
  s.loadInode inode = none ∨ ∃ record, s.loadInode inode = some record ∧ record.kind = .file ∧
    writeCanWin record.content op

/-- What a call from `s` that drained the queue leaves parked in `t`. -/
structure Drained (env : Env) (s t : CoreState) : Prop where
  apart : ∀ id ∈ t.applied, t.pending[id]? = none
  unmet : ∀ (id : OpId) op, t.pending[id]? = some op →
    (∃ reason, mutate env op t = .ok (.unmet reason) t) ∨
      ∃ hash, t.head = some hash ∧ ¬s.hasBlob hash ∧ MadeFrom env t op hash
  writes : ∀ (id : OpId) op inode offset chunks new_size encryption, t.pending[id]? = some op →
    op.kind = .write inode offset chunks new_size encryption → Contends t op inode
  wanted : ∀ hash ∈ missingChunkHashes t, ∃ (id : OpId) (op : FsOp), t.pending[id]? = some op ∧
    ∃ inode offset chunks new_size encryption,
      op.kind = .write inode offset chunks new_size encryption ∧
        hash ∈ chunks.map ChunkRef.hash ∧ Contends t op inode

theorem WriteWaits.contends {inode : U128} {offset new_size : U64} {chunks : List ChunkRef}
    (waits : WriteWaits env op s inode offset chunks new_size) : Contends s op inode := by
  cases waits with
  | file missing => exact .inl missing
  | chunk found kind wins => exact .inr ⟨_, found, kind, wins⟩
  | content found kind wins => exact .inr ⟨_, found, kind, wins⟩

theorem DrainedAt.drained {u : CoreState} (at_end : DrainedAt env s u t) : Drained env s t := by
  obtain ⟨queue, stuck, lasts, ended⟩ := at_end
  have same := ended.same
  have pending : t.pending = u.pending := by
    obtain ⟨_, _, _, _, _, rfl⟩ := same
    rfl
  have applied : t.applied = u.applied := by
    obtain ⟨_, _, _, _, _, rfl⟩ := same
    rfl
  have inodes : ∀ i, t.loadInode i = u.loadInode i := by
    obtain ⟨_, _, _, _, _, rfl⟩ := same
    exact fun _ => rfl
  have writes : ∀ (id : OpId) op inode offset chunks new_size encryption,
      t.pending[id]? = some op → op.kind = .write inode offset chunks new_size encryption →
      Contends t op inode := by
    intro id op inode offset chunks new_size encryption parked shape
    rw [pending] at parked
    have waits := (write_unmet_iff shape).mp (stuck parked)
    have contends := waits.contends
    unfold Contends at contends ⊢
    rw [inodes]
    exact contends
  refine ⟨?_, ?_, writes, ?_⟩
  · intro id done
    rw [applied] at done
    cases parked : t.pending[id]? with
    | none => rfl
    | some op =>
        rw [pending] at parked
        exact absurd done (queue.apart parked)
  · intro id op parked
    rw [pending] at parked
    refine (ended.unmet (deferred_iff.mp (stuck parked))).imp deferred_iff.mpr ?_
    rintro ⟨hash, named, missing, made⟩
    exact ⟨hash, named, fun here => missing (lasts.1 hash here), made⟩
  · intro hash missing
    rw [mem_missingChunkHashes] at missing
    obtain ⟨⟨id, op, parked, listed⟩, -⟩ := missing
    unfold opChunks at listed
    cases shape : op.kind with
    | write inode offset chunks new_size encryption =>
        rw [shape] at listed
        exact ⟨id, op, parked, inode, offset, chunks, new_size, encryption, shape, listed,
          writes id op inode offset chunks new_size encryption parked shape⟩
    | mkdir parent name mode => simp [shape] at listed
    | createFile parent name mode => simp [shape] at listed
    | rename old_parent old_name new_parent new_name observed => simp [shape] at listed
    | unlink parent name observed => simp [shape] at listed
    | setAttr inode mode uid gid => simp [shape] at listed

end Calls

end NexusFS.Core
