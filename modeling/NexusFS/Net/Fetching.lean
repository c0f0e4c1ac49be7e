/- GID: NexusFS/Net/Fetching
   source: crates/net/src/session.rs, crates/core/src/namespace.rs
   digest: When a node that lacks nothing for a path has no write to it still parked. -/

import NexusFS.Core.Makes
import NexusFS.Core.Missing
import NexusFS.Net.Draining

/-!
Content can come in without the parked writes being tried: in the rounds of a fetch that fails
before its retry, or as the chunks of a local file. Calls that return try them all.
-/

set_option autoImplicit false
set_option relaxedAutoImplicit false

namespace NexusFS.Net

open NexusFS.Lib NexusFS.Lib.Effect NexusFS.Proto NexusFS.Core CoreState

/-- `fetch_chunks` after its handshake: its rounds against the replies of the peer, and, if none of
them failed, the retry and the flush. -/
def fetchChunks (env : Env) (wanted : List Hash) (replies : Nat → Msg) (s : CoreState) :
    Except SessionError Nat × CoreState :=
  match rounds (fetchRound env) (wanted.length + 1) replies ⟨s, 0, wanted⟩ with
  | none => (.ok 0, s)
  | some (.error e, x) => (.error e, x.core)
  | some (.ok _, x) =>
      match retryPending env x.core with
      | .error e t => (.error (.core e), t)
      | .ok _ t => (.ok x.stored, t.flush)

section Conditions

/-- The call returned, having tried what is parked until nothing more could be applied. -/
def Finished (env : Env) (s : CoreState) : Call → Prop
  | .apply op check_policy =>
      ∃ outcome t, applyOpInner env op check_policy s = .ok outcome t ∧ outcome ≠ .alreadyApplied
  | .retry => ∃ n t, retryPending env s = .ok n t
  | _ => False

def Tries (env : Env) (s : CoreState) : Call → Prop
  | .apply op check_policy => Admits env op check_policy s ∧ op.id ∉ s.applied
  | .retry => True
  | _ => False

def InPlay (s : CoreState) (call : Call) (op : FsOp) : Prop :=
  (∃ id : OpId, s.pending[id]? = some op) ∨ ∃ check_policy, call = .apply op check_policy

def afterDelivery (s : CoreState) : Call → CoreState
  | .apply op _ => s.storePending op
  | _ => s

def Msg.blobs : Msg → List (Hash × Bytes)
  | .blobsBatch blobs _ => blobs
  | _ => []

def Act.stocks (env : Env) (s : CoreState) : Act → Set Hash
  | .store data => {hash | ∃ piece ∈ contentPieces env s data, env.blake3 piece = hash}
  | .snapshot => {objectHash env (newSnapshotRoot (computeStateRoot env s) s.device_id s.state_time)}
  | .fetch reply _ outstanding =>
      {hash | hash ∈ outstanding ∧ ∃ bytes, (hash, bytes) ∈ reply.blobs ∧ env.blake3 bytes = hash}
  | _ => ∅

variable (env : Env) (identity : Identity) (world : Set Bytes) (inode : U128)

/-- A call after which every write of the file that is parked lacks content: it returns, and none names
a snapshot as a chunk; or each names a chunk that the node can not come to store by itself. -/
inductive SettlesFile (s : CoreState) (call : Call) : Prop
  | finished (finished : Finished env s call)
      (chunks : ∀ op offset chunks new_size encryption, InPlay s call op →
        op.kind = .write inode offset chunks new_size encryption →
          ∀ chunk ∈ chunks, chunk.hash ∉ snapshotHashes env world)
  | deprived (alone : ∀ op check_policy, call = .apply op check_policy →
        ∀ other, s.pending[op.id]? = some other → other = op)
      (lacks : ∀ op offset chunks new_size encryption, InPlay s call op →
        op.kind = .write inode offset chunks new_size encryption →
          ∃ chunk ∈ chunks, Beyond env ∅ (afterDelivery s call) world chunk.hash)

/-- The states of a node in which, since its start or a call that settled the file, no step that tries
nothing has brought in the last content that a parked write to the file lacks. -/
inductive Tended : CoreState → Prop
  | boot {s : CoreState} (blank : Blank s) (empty : s.blobs = ∅) (strangers : s.peer_keys = ∅) :
      Tended (booted env s)
  | settled {s x : CoreState} {a : Act} {call : Call} (run : AnyRun env identity s)
      (made : (x, call) ∈ a.calls env identity s) (tries : Tries env x call)
      (settles : SettlesFile env world inode x call)
      (within : ∀ (hash : Hash) bytes, (a.run env identity s).blobs[hash]? = some bytes → bytes ∈ world) :
      Tended (a.run env identity s)
  | idle {s : CoreState} {a : Act} (before : Tended s)
      (untried : ∀ x ∈ a.calls env identity s, ¬Tries env x.1 x.2)
      (spares : CompletesNone env s (a.stocks env s) inode) : Tended (a.run env identity s)

end Conditions

section Tended

variable {env : Env} {identity : Identity} {world : Set Bytes} {inode : U128} {s t x : CoreState}
  {call : Call}

private theorem idled_same {stocks : Set Hash} (pending : t.pending = s.pending)
    (inodes : t.inodes = s.inodes) (blobs : t.blobs = s.blobs) : Idled stocks s t := by
  refine ⟨pending, fun i record found => ?_, fun hash _ => .inl (by rw [blobs])⟩
  unfold CoreState.loadInode at found ⊢
  rwa [← inodes]

private theorem idled_putAll {pieces : List Bytes} {d : Nat} :
    Idled {hash | ∃ piece ∈ pieces, env.blake3 piece = hash} s { putAll env pieces s with draws := d } := by
  rw [putAll_eq]
  refine ⟨rfl, fun _ _ found => found, fun hash other => ?_⟩
  dsimp only
  cases here : (putAll env pieces s).blobs[hash]? with
  | none => exact .inr rfl
  | some bytes =>
      refine .inl ((mem_putAll here).resolve_left ?_).symm
      rintro ⟨listed, hashed⟩
      exact other ⟨bytes, listed, hashed⟩

private theorem idled_sweep {stocks : Set Hash} {marked : BTreeSet Hash} {keep : BTreeSet U128} :
    Idled stocks s (Core.sweep s marked keep).flush := by
  refine ⟨rfl, fun i record found => ?_, fun hash _ => ?_⟩
  · have swept : (Core.sweep s marked keep).loadInode i = some record := found
    rw [loadInode_sweep] at swept
    split at swept
    · exact swept
    · cases swept
  · show (s.blobs.filter fun hash _ => marked.contains hash)[hash]? = _ ∨
      (s.blobs.filter fun hash _ => marked.contains hash)[hash]? = none
    rw [Std.ExtTreeMap.getElem?_filter']
    cases s.blobs[hash]? <;> cases marked.contains hash <;> simp

private theorem idled_fromWire {asked : Hash → Prop} (wire : FromWire env asked s t) :
    Idled {hash | asked hash} s t := by
  have new := wire.new
  have grows := wire.grows
  obtain ⟨kept, rfl⟩ := wire.frame
  refine ⟨rfl, fun _ _ found => found, fun hash other => ?_⟩
  cases here : ({ s with blobs := kept } : CoreState).blobs[hash]? with
  | none => exact .inr rfl
  | some bytes => exact .inl ((new hash bytes here).resolve_right fun both => other both.1).symm

private theorem fromWire_offered (blobs : List (Hash × Bytes)) (x : Fetch) :
    FromWire env (fun hash => hash ∈ x.outstanding ∧ ∃ bytes, (hash, bytes) ∈ blobs ∧
      env.blake3 bytes = hash) x.core (blobs.foldl (storeFetched env) x).core := by
  induction blobs generalizing x with
  | nil => exact .refl _
  | cons blob blobs ih =>
      have later := ih (storeFetched env x blob)
      rw [List.foldl_cons]
      rcases storeFetched_cases x blob with same | ⟨asked, sound, core, list, -⟩
      · rw [same] at later ⊢
        exact later.imp fun hash ⟨listed, bytes, member, hashed⟩ =>
          ⟨listed, bytes, List.mem_cons_of_mem _ member, hashed⟩
      · rw [core, list] at later
        refine (fromWire_putBlob ⟨asked, blob.2, List.mem_cons_self, sound⟩ sound).trans (later.imp ?_)
        rintro hash ⟨listed, bytes, member, hashed⟩
        exact ⟨(List.mem_filter.mp listed).1, bytes, List.mem_cons_of_mem _ member, hashed⟩

private theorem fetchRound_offered (reply : Msg) (x : Fetch) :
    FromWire env (fun hash => hash ∈ x.outstanding ∧ ∃ bytes, (hash, bytes) ∈ reply.blobs ∧
      env.blake3 bytes = hash) x.core (fetchCore (fetchRound env reply x)) := by
  unfold fetchRound
  split
  · exact .refl _
  · cases reply with
    | opsBatch ops more => exact .refl _
    | error code message retry => exact .refl _
    | other => exact .refl _
    | blobsBatch blobs more =>
        have stored := @fromWire_offered env blobs x
        dsimp only
        split
        · exact stored
        · split
          · exact stored
          · exact stored

theorem act_idled (ideal : Ideal env) (a : Act)
    (untried : ∀ x ∈ a.calls env identity s, ¬Tries env x.1 x.2) :
    Idled (a.stocks env s) s (a.run env identity s) := by
  have refused : ∀ {x : CoreState} {op check_policy}, ¬Tries env x (.apply op check_policy) →
      (Call.apply op check_policy).run env x = x := by
    intro x op check_policy idle
    show finalState (applyOpInner env op check_policy x) = x
    by_cases admits : Admits env op check_policy x
    · rw [applyOpInner_known admits (not_not.mp fun new => idle ⟨admits, new⟩)]
      rfl
    · obtain ⟨e, run⟩ := applyOpInner_refused admits
      rw [run]
      rfl
  cases a with
  | receive op =>
      have same : (Act.receive op).run env identity s = s := refused (untried _ List.mem_cons_self)
      rw [same]
      exact idled_same rfl rfl rfl
  | author kind now =>
      have same := refused (untried _ List.mem_cons_self)
      obtain ⟨-, -, last⟩ := @Act.after_call env identity s _ (.author kind now) _ List.mem_cons_self
      rw [same] at last
      rcases last with ends | ⟨proven, ends⟩
      · rw [← ends]
        exact idled_same rfl rfl rfl
      · rw [← ends]
        exact idled_same rfl rfl rfl
  | store data =>
      obtain ⟨d, run⟩ := storeContent_eq ideal data s
      have same : (Act.store data).run env identity s =
          { putAll env (contentPieces env s data) s with draws := d } := congrArg finalState run
      rw [same]
      exact idled_putAll
  | retry => exact absurd trivial (untried _ List.mem_cons_self)
  | snapshot =>
      obtain ⟨_, _, built⟩ := buildSnapshot_run env s
      have run : Act.snapshot.run env identity s = _ := congrArg finalState built
      have came := (ended_buildSnapshot env s).blobs
      rw [built] at came
      rw [run]
      refine ⟨rfl, fun _ _ found => found, fun hash other => (came hash).imp id ?_⟩
      rintro ⟨-, named, -⟩
      exact absurd (Option.some.inj named).symm other
  | collect dry_run =>
      rcases collectGarbage_run env s dry_run with same | ⟨marked, keep, -, -, same⟩
      · have run : (Act.collect dry_run).run env identity s = s := same
        rw [run]
        exact idled_same rfl rfl rfl
      · have run : (Act.collect dry_run).run env identity s = (Core.sweep s marked keep).flush := same
        rw [run]
        exact idled_sweep
  | flush => exact idled_same rfl rfl rfl
  | content limits reply outcome =>
      have core : (Act.content limits reply outcome).run env identity s = _ :=
        contentRound_core limits reply ⟨s, outcome⟩
      cases got : contentStored env limits reply ⟨s, outcome⟩ with
      | none =>
          rw [got] at core
          rw [core]
          exact idled_same rfl rfl rfl
      | some stored =>
          refine absurd trivial (untried (stored.core, .retry) ?_)
          simp only [Act.calls, got]
          exact List.mem_cons_self
  | fetch reply stored outstanding =>
      exact idled_fromWire (@fetchRound_offered env reply ⟨s, stored, outstanding⟩)
  | hello policy device pubkey =>
      obtain ⟨_, _, _, _, same⟩ := (pinned_authorize policy device pubkey s).frame
      have run : (Act.hello policy device pubkey).run env identity s = _ := same
      rw [run]
      exact idled_same rfl rfl rfl
  | enrol device pubkey seal_key allow_rotation =>
      obtain ⟨_, _, _, _, same⟩ := (pinned_enrolPeer device pubkey seal_key allow_rotation s).frame
      have run : (Act.enrol device pubkey seal_key allow_rotation).run env identity s = _ := same
      rw [run]
      exact idled_same rfl rfl rfl
  | revoke device =>
      obtain ⟨peers, seals, kv, blob, same, -⟩ := revokePeer_forgets device s
      have run : (Act.revoke device).run env identity s = _ := same
      rw [run]
      exact idled_same rfl rfl rfl

theorem inPlay_after (tries : Tries env x call) {id : OpId} {op : FsOp}
    (parked : (call.run env x).pending[id]? = some op) : InPlay x call op := by
  have storage := queueStorage env {op | InPlay x call op}
  have before : ∀ (id : OpId) op, x.pending[id]? = some op → InPlay x call op := fun id _ here => .inl ⟨id, here⟩
  cases call with
  | apply delivered check_policy =>
      exact storage.keeps_applyOpInner (.inr ⟨check_policy, rfl⟩) check_policy x before id op parked
  | retry => exact storage.keeps_retryPending x before id op parked
  | snapshot => exact tries.elim
  | collect dry_run => exact tries.elim

theorem stays_after (ideal : Ideal env) (tries : Tries env x call)
    (alone : ∀ op check_policy, call = .apply op check_policy →
      ∀ other, x.pending[op.id]? = some other → other = op) :
    Stays env ∅ (afterDelivery x call) (call.run env x) := by
  have storage := staysStorage ideal ∅ (afterDelivery x call)
  cases call with
  | apply op check_policy =>
      have own : (afterDelivery x (.apply op check_policy)).pending[op.id]? = some op := by
        show (x.pending.insert op.id op)[op.id]? = some op
        rw [BTreeMap.get_insert, if_pos rfl]
      refine storage.keeps_applyOpInner (fun _ => ⟨op.id, own⟩) check_policy x
        ⟨fun _ _ here => .held here, ⟨⟨rfl, rfl, rfl⟩, rfl, rfl⟩, fun {id other} here _ => ?_⟩
      by_cases same : op.id = id
      · subst same
        exact ⟨op.id, alone op check_policy rfl other here ▸ own⟩
      · refine ⟨id, ?_⟩
        show (x.pending.insert op.id op)[id]? = some other
        rw [BTreeMap.get_insert, if_neg same]
        exact here
  | retry => exact storage.keeps_retryPending x (.refl env ∅ x)
  | snapshot => exact tries.elim
  | collect dry_run => exact tries.elim

theorem SettlesFile.allLack (ideal : Ideal env)
    (decodes : ∀ object, env.decodeObject (env.encodeObject object) = some object)
    (nodes : NoneNamesSnapshot env world) (queue : Queue x) (tries : Tries env x call)
    (settles : SettlesFile env world inode x call) (keyed : Keyed env (call.run env x))
    (within : ∀ (hash : Hash) bytes, (call.run env x).blobs[hash]? = some bytes → bytes ∈ world) :
    AllLack env (call.run env x) inode := by
  cases settles with
  | finished finished chunks =>
      have drained : ∃ u, DrainedAt env x u (call.run env x) := by
        cases call with
        | apply op check_policy =>
            obtain ⟨outcome, t, run, new⟩ := finished
            have last : (Call.apply op check_policy).run env x = t := congrArg finalState run
            exact last ▸ drained_of_applyOp queue run new
        | retry =>
            obtain ⟨n, t, run⟩ := finished
            have last : Call.retry.run env x = t := congrArg finalState run
            exact last ▸ drained_of_retryPending queue run
        | snapshot => exact tries.elim
        | collect dry_run => exact tries.elim
      obtain ⟨u, at_end⟩ := drained
      exact at_end.allLack decodes keyed within nodes
        fun id op offset chunks' new_size encryption parked shape =>
          chunks op offset chunks' new_size encryption (inPlay_after tries parked) shape
  | deprived alone lacks =>
      intro id op offset chunks new_size encryption parked shape _
      obtain ⟨chunk, member, beyond⟩ :=
        lacks op offset chunks new_size encryption (inPlay_after tries parked) shape
      exact .inl ⟨chunk, member, beyond.not_held (stays_after ideal tries alone)
        fun hash bytes here => ⟨within hash bytes here, keyed hash bytes here⟩⟩

private theorem allLack_booted (blank : Blank s) : AllLack env (booted env s) inode := by
  intro id op offset chunks new_size encryption parked
  obtain ⟨_, _, _, _, _, _, _, -, same⟩ := (booted_spec env blank).records
  rw [same] at parked
  have nothing : s.pending[id]? = some op := parked
  rw [blank.pending, Std.ExtTreeMap.getElem?_empty] at nothing
  cases nothing

theorem Tended.allLack (ideal : Ideal env)
    (decodes : ∀ object, env.decodeObject (env.encodeObject object) = some object)
    (nodes : NoneNamesSnapshot env world) (tended : Tended env identity world inode s) :
    AllLack env s inode := by
  induction tended with
  | boot blank empty strangers => exact allLack_booted blank
  | @settled s x a call run made tries settles within =>
      obtain ⟨before, -, last⟩ := Act.after_call made
      have keyed_t : Keyed env (a.run env identity s) := keyed_act run.keyed a
      have lacking := fun keyed inside => SettlesFile.allLack ideal decodes nodes
        (run.queue.congr before.pending before.applied) tries settles keyed inside
      rcases last with same | ⟨proven, same⟩
      · rw [← same] at keyed_t within ⊢
        exact lacking keyed_t within
      · rw [← same] at keyed_t within ⊢
        exact (lacking keyed_t within).later (idled_same rfl rfl rfl) completesNone_nothing
  | idle before untried spares ih => exact ih.later (act_idled ideal _ untried) spares

theorem run_of_rounds {n : Nat} {replies : Nat → Msg} {x y : Fetch}
    {ended : Except SessionError Unit} (run : AnyRun env identity x.core)
    (last : rounds (fetchRound env) n replies x = some (ended, y)) : AnyRun env identity y.core := by
  induction n generalizing replies x with
  | zero => cases last
  | succ n ih =>
      have next : AnyRun env identity (fetchCore (fetchRound env (replies 0) x)) :=
        run.step (a := .fetch (replies 0) x.stored x.outstanding) trivial
      unfold rounds at last
      cases round : fetchRound env (replies 0) x with
      | again z =>
          rw [round] at last next
          exact ih next last
      | stop result =>
          rw [round] at last next
          obtain rfl := Option.some.inj last
          exact next

/-- A session of `fetch_chunks` takes steps of the node, wherever it ends. -/
theorem NodeRun.fetchChunks (run : AnyRun env identity s) (wanted : List Hash)
    (replies : Nat → Msg) : AnyRun env identity (Net.fetchChunks env wanted replies s).2 := by
  unfold Net.fetchChunks
  cases last : rounds (fetchRound env) (wanted.length + 1) replies ⟨s, 0, wanted⟩ with
  | none => exact run
  | some ended =>
      obtain ⟨result, x⟩ := ended
      have before : AnyRun env identity x.core := run_of_rounds run last
      cases result with
      | error e => exact before
      | ok done =>
          have after : AnyRun env identity (finalState (retryPending env x.core)) :=
            before.step (a := .retry) trivial
          dsimp only
          cases retried : retryPending env x.core with
          | error e t =>
              rw [retried] at after
              exact after
          | ok n t =>
              rw [retried] at after
              exact after.step (a := .flush) trivial

/-- In every such state, an empty answer for a plaintext file means that its read lacks no content and
that no parked write to it could still win. -/
theorem missing_chunks_honest (ideal : Ideal env)
    (decodes : ∀ object, env.decodeObject (env.encodeObject object) = some object)
    (nodes : NoneNamesSnapshot env world) (tended : Tended env identity world inode s) (path : String)
    (names : resolvePath s path = .ok (some (inode, .file))) : Honest env s path :=
  (tended.allLack ideal decodes nodes).honest names

def firstChunk : Bytes := [1, 2, 3]

def firstChunkHash : Hash := Lib.blake3 firstChunk

def secondChunkHash : Hash := Lib.blake3 [4]

def firstFile : U128 := inodeForOp .sealing ⟨7, 1⟩

def firstWrite : FsOp := sampleOp 3 (.write firstFile 0 [⟨firstChunkHash, 3, 3, 0⟩] 3 none)

def secondWrite : FsOp :=
  sampleOp 4 (.write (inodeForOp .sealing ⟨7, 2⟩) 0
    [⟨firstChunkHash, 3, 3, 0⟩, ⟨secondChunkHash, 1, 1, 3⟩] 4 none)

def parkedState : CoreState :=
  (Act.receive secondWrite).run .sealing sampleIdentity
    ((Act.receive firstWrite).run .sealing sampleIdentity
      ((Act.receive (sampleOp 2 (.createFile rootInode "g" 0))).run .sealing sampleIdentity
        ((Act.receive (sampleOp 1 (.createFile rootInode "f" 0))).run .sealing sampleIdentity
          (booted .sealing (CoreState.new 7)))))

def failingReplies : Nat → Msg
  | 0 => .blobsBatch [(firstChunkHash, firstChunk)] true
  | _ => .error 503 "busy" none

def abortedState : CoreState :=
  (fetchChunks .sealing [firstChunkHash, secondChunkHash] failingReplies parkedState).2

def recoveredState : CoreState := Act.retry.run .sealing sampleIdentity abortedState

theorem parkedState_run : AnyRun .sealing sampleIdentity parkedState :=
  .step (.step (.step (.step (.boot (blank_new 7) rfl rfl) trivial) trivial) trivial) trivial

private theorem abortedState_run : AnyRun .sealing sampleIdentity abortedState :=
  parkedState_run.fetchChunks _ _

private theorem abortedState_facts :
    (resolvePath abortedState "/f").toOption = some (some (firstFile, .file)) ∧
    (missingChunksForPath .sealing abortedState "/f").toOption = some [] ∧
    (readFilePath .sealing abortedState "/f").toOption = some [] ∧
    abortedState.pending[firstWrite.id]? = some firstWrite ∧
    (abortedState.loadInode firstFile).map (fun r =>
      (r.kind, r.content.value.node_hash, writeCanWin r.content firstWrite)) =
        some (.file, none, true) := by decide +kernel

/-- The fetch asked for just what the other file lacks, and its peer failed after the first answer: the
file whose chunk came in reads as empty, nothing is missing for it, and its write is parked. -/
theorem aborted_fetch_dishonest :
    (missingChunksForPath .sealing parkedState "/g").toOption =
        some [firstChunkHash, secondChunkHash] ∧
      AnyRun .sealing sampleIdentity abortedState ∧
      (readFilePath .sealing abortedState "/f").toOption = some [] ∧
      ¬Honest .sealing abortedState "/f" := by
  obtain ⟨names, empty, read, parked, stored⟩ := abortedState_facts
  refine ⟨by decide +kernel, abortedState_run, read, fun honest => ?_⟩
  obtain ⟨record, found, shape⟩ := Option.map_eq_some_iff.mp stored
  obtain ⟨kind, content, wins⟩ : record.kind = .file ∧ record.content.value.node_hash = none ∧
      writeCanWin record.content firstWrite = true := by simpa using shape
  have plain : NamesPlainFile .sealing abortedState "/f" firstFile := by
    refine ⟨eq_ok_of_toOption names, fun record' node_hash object found' named _ => ?_⟩
    cases found.symm.trans found'
    cases content.symm.trans named
  exact (honest firstFile plain (eq_ok_of_toOption empty)).2 firstWrite.id firstWrite 0 _ 3 none
    parked rfl ⟨record, found, kind, wins⟩

/-- A peer has since sent what the other file lacks, and nothing has been tried. -/
def laterState : CoreState :=
  (Act.fetch (.blobsBatch [(secondChunkHash, [4])] false) 0 [secondChunkHash]).run .sealing sampleIdentity
    recoveredState

def snapshotHash (row : Hash × Bytes) : Option Hash :=
  match Env.sealing.decodeObject row.2 with
  | some (.snapshotRoot _) => some (Env.sealing.blake3 row.2)
  | _ => none

def nodeChunks (row : Hash × Bytes) : List ChunkRef :=
  match Env.sealing.decodeObject row.2 with
  | some (.fileNode file) => file.chunks
  | _ => []

private theorem laterState_facts :
    answer (retryPending .sealing abortedState) = some 1 ∧
    abortedState.pending.toList =
      [(firstWrite.id, firstWrite), (secondWrite.id, secondWrite)] ∧
    recoveredState.pending.toList = [(secondWrite.id, secondWrite)] ∧
    inodeForOp .sealing ⟨7, 2⟩ ≠ firstFile ∧
    firstChunkHash ∉ recoveredState.blobs.toList.filterMap snapshotHash ∧
    ((recoveredState.blobs.toList.flatMap nodeChunks).all fun chunk =>
      !(recoveredState.blobs.toList.filterMap snapshotHash).contains chunk.hash) ∧
    (resolvePath laterState "/f").toOption = some (some (firstFile, .file)) ∧
    (missingChunksForPath .sealing laterState "/g").toOption = some [] ∧
    (readFilePath .sealing laterState "/g").toOption = some [] ∧
    (missingChunksForPath .sealing laterState "/f").toOption = some [] ∧
    (readFilePath .sealing laterState "/f").toOption = some firstChunk := by decide +kernel

def recoveredWorld : Set Bytes := {bytes | ∃ hash : Hash, recoveredState.blobs[hash]? = some bytes}

theorem missing_chunks_honest_sample :
    (missingChunksForPath .sealing laterState "/f").toOption = some [] ∧
      (readFilePath .sealing laterState "/f").toOption = some firstChunk ∧
      (readFilePath .sealing laterState "/g").toOption = some [] ∧ Honest .sealing laterState "/f" := by
  obtain ⟨retried, queue, rest, other, first, nodes, names, -, unread, empty, read⟩ := laterState_facts
  have listed : ∀ {hash}, hash ∈ snapshotHashes .sealing recoveredWorld →
      hash ∈ recoveredState.blobs.toList.filterMap snapshotHash := by
    rintro hash ⟨root, ⟨stored, here⟩, rfl⟩
    refine List.mem_filterMap.mpr ⟨(stored, _), (BTreeMap.mem_toList _ _ _).mpr here, ?_⟩
    have decoded : Env.sealing.decodeObject (encodeObject .sealing (.snapshotRoot root)) =
        some (.snapshotRoot root) := Env.stored_decode (.snapshotRoot root)
    unfold snapshotHash
    rw [decoded]
    rfl
  have none_named : NoneNamesSnapshot .sealing recoveredWorld := by
    rintro bytes ⟨stored, here⟩ file decoded chunk member named
    have inside : chunk ∈ recoveredState.blobs.toList.flatMap nodeChunks := by
      refine List.mem_flatMap.mpr ⟨(stored, bytes), (BTreeMap.mem_toList _ _ _).mpr here, ?_⟩
      unfold nodeChunks
      rw [decoded]
      exact member
    have apart := List.all_eq_true.mp nodes chunk inside
    rw [List.contains_iff_mem.mpr (listed named)] at apart
    cases apart
  have settled : Tended .sealing sampleIdentity recoveredWorld firstFile recoveredState := by
    refine .settled abortedState_run (List.mem_singleton.mpr rfl) trivial
      (.finished ⟨1, _, ran_of_answer retried⟩ ?_) fun hash bytes here => ⟨hash, here⟩
    rintro op offset chunks new_size encryption (⟨id, parked⟩ | ⟨_, delivered⟩) shape chunk member named
    · have row := (BTreeMap.mem_toList _ _ _).mpr parked
      rw [queue] at row
      simp only [List.mem_cons, Prod.mk.injEq, List.not_mem_nil, or_false] at row
      rcases row with ⟨-, rfl⟩ | ⟨-, rfl⟩
      · cases shape
        obtain rfl := List.mem_singleton.mp member
        exact first (listed named)
      · injection shape with inodes
        exact other inodes
    · cases delivered
  refine ⟨empty, read, unread, missing_chunks_honest sealing_ideal Env.stored_decode none_named
    (.idle settled (fun x made => by cases made) ?_) "/f" (eq_ok_of_toOption names)⟩
  intro id op offset chunks new_size encryption parked shape
  have row := (BTreeMap.mem_toList _ _ _).mpr parked
  rw [rest, List.mem_singleton] at row
  obtain ⟨-, rfl⟩ := Prod.mk.inj row
  injection shape with inodes
  exact absurd inodes other

end Tended

end NexusFS.Net
