/- GID: NexusFS/Core/Addressed
   source: crates/core/src/state.rs, crates/core/src/apply.rs, crates/core/src/ops.rs,
     crates/core/src/snapshot.rs, crates/core/src/gc.rs
   digest: What the programs of a node keep of its content store, and that its blobs stay keyed. -/

import NexusFS.Core.Drain
import NexusFS.Core.Sweep
import NexusFS.Core.Ops

set_option autoImplicit false
set_option relaxedAutoImplicit false

namespace NexusFS.Core

open NexusFS.Lib NexusFS.Lib.Effect NexusFS.Proto NexusFS.Crdt CoreState

theorem keeps_liftCheck {α : Type} {p : CoreState → Prop} (x : Except Err α) :
    Keeps p (liftCheck x) := by
  cases x with
  | ok a => exact Keeps.pure a
  | error e => exact Keeps.throw e

theorem keeps_checked {α β : Type} {p : CoreState → Prop} {x : Except Err α} {f : α → M β}
    (rest : ∀ a, x = .ok a → Keeps p (f a)) : Keeps p (liftCheck x >>= f) := by
  cases x with
  | ok a => exact rest a rfl
  | error e => exact Keeps.throw e

/-- Nothing that decides how content is stored and read differs. -/
structure SameSettings (s t : CoreState) : Prop where
  cipher : t.cipher = s.cipher
  sealing_secret : t.sealing_secret = s.sealing_secret
  chunk_size : t.chunk_size = s.chunk_size

theorem SameSettings.trans {a b c : CoreState} (first : SameSettings a b)
    (second : SameSettings b c) : SameSettings a c :=
  ⟨second.cipher.trans first.cipher, second.sealing_secret.trans first.sealing_secret,
    second.chunk_size.trans first.chunk_size⟩

/-- Nothing that decides who stored content is sealed to differs. -/
structure SameKeys (s t : CoreState) : Prop where
  settings : SameSettings s t
  peer_keys : t.peer_keys = s.peer_keys
  seal_keys : t.seal_keys = s.seal_keys

theorem SameKeys.refl (s : CoreState) : SameKeys s s := ⟨⟨rfl, rfl, rfl⟩, rfl, rfl⟩

theorem SameKeys.trans {s t u : CoreState} (first : SameKeys s t) (second : SameKeys t u) :
    SameKeys s u :=
  ⟨first.settings.trans second.settings, second.peer_keys.trans first.peer_keys,
    second.seal_keys.trans first.seal_keys⟩

theorem SameKeys.symm {s t : CoreState} (same : SameKeys s t) : SameKeys t s :=
  ⟨⟨same.settings.cipher.symm, same.settings.sealing_secret.symm, same.settings.chunk_size.symm⟩,
    same.peer_keys.symm, same.seal_keys.symm⟩

/-- `t` has the content and the keys of `s`, and nothing newly parked. -/
structure Beside (s t : CoreState) : Prop where
  blobs : t.blobs = s.blobs
  keys : SameKeys s t
  queue : ∀ {id : OpId} {op}, t.pending[id]? = some op → s.pending[id]? = some op

theorem beside_clearPending (s : CoreState) (id : OpId) : Beside s (s.clearPending id) := by
  refine ⟨rfl, ⟨⟨rfl, rfl, rfl⟩, rfl, rfl⟩, fun {other op} here => ?_⟩
  have erased : (s.pending.erase id)[other]? = some op := here
  rw [BTreeMap.get_erase] at erased
  split at erased
  · cases erased
  · exact erased

/-- A property of nodes that stored objects keep, and the content that partial writes of `ops` leave:
it depends on the content, the keys and the queue, and everything parked is in `ops`. -/
structure Storage (env : Env) (ops : Set FsOp) (p : CoreState → Prop) : Prop where
  beside : ∀ {s t}, p s → Beside s t → p t
  object : ∀ {s} object, p s → p (s.putBlob (objectHash env object) (encodeObject env object))
  park : ∀ {s op}, op ∈ ops → p s → p (s.storePending op)
  queued : ∀ {s} {id : OpId} {op}, p s → s.pending[id]? = some op → op ∈ ops
  splice : ∀ {s op inode offset chunks new_size encryption buffer}, p s → op ∈ ops →
    op.kind = .write inode offset chunks new_size encryption →
      ¬(offset = 0 ∧ chunksFormWholeFile chunks new_size) →
        spliceWrite env s inode offset chunks new_size = .ok (some buffer) →
          Keeps p (storeContent env buffer)

namespace Storage

variable {env : Env} {ops : Set FsOp} {p : CoreState → Prop} (storage : Storage env ops p)

include storage

private theorem keeps_modify {f : CoreState → CoreState} (beside : ∀ s, Beside s (f s)) :
    Keeps p (modify f : M PUnit) :=
  Keeps.modify fun s holds => storage.beside holds (beside s)

private theorem keeps_modify_then {α : Type} {f : CoreState → CoreState} {rest : PUnit → M α}
    (later : ∀ u, Keeps p (rest u)) (beside : ∀ s, Beside s (f s)) :
    Keeps p (modify f >>= rest) :=
  (storage.keeps_modify beside).bind later

theorem keeps_putObject (object : Object) : Keeps p (putObject env object) := by
  refine Keeps.bind (Keeps.modify fun s holds => ?_) fun _ => Keeps.pure _
  split
  · exact holds
  · exact storage.object object holds

private theorem keeps_storeFilenode (data : Bytes) (now_ms : U64)
    (content : Keeps p (storeContent env data)) : Keeps p (storeFilenodeFromBytes env data now_ms) :=
  content.bind fun _ => storage.keeps_putObject _

section Map

variable {s : CoreState}

private abbrev Walked (p : CoreState → Prop) (s : CoreState) (w : Walk) : Prop :=
  p { s with blobs := w.blobs }

omit storage in
private theorem keeps_walkEntry {t : CoreState} {nested : U128 → EStateM Err Walk Hash}
    (each : ∀ inode, Keeps (Walked p s) (nested inode)) (entry : DirEntry) :
    Keeps (Walked p s) (walkEntry t nested entry) := by
  unfold walkEntry
  split
  · exact (each _).bind fun _ => Keeps.pure _
  · split
    · exact Keeps.modify fun _ holds => holds
    · exact Keeps.pure _

private theorem keeps_materializeTree (t : CoreState) (store : Bool) (fuel : Nat) (inode : U128) :
    Keeps (Walked p s) (materializeTree env t store fuel inode) := by
  induction fuel generalizing inode with
  | zero => exact Keeps.throw _
  | succ fuel ih =>
      refine Keeps.read fun w holds => ?_
      split
      · exact Keeps.throw _
      · have visited : Walked p s (w.visit inode) := holds
        refine Keeps.bind (Keeps.set visited) fun _ => ?_
        split
        · exact Keeps.throw _
        · refine (Keeps.forM _ fun entry _ => keeps_walkEntry ih entry).bind fun _ => ?_
          refine Keeps.bind (Keeps.modify fun w holds => ?_) fun _ =>
            Keeps.bind (Keeps.modify fun w holds => ?_) fun _ => Keeps.pure _
          swap
          · exact holds
          split
          · unfold Walk.putBlob
            split
            · exact holds
            · exact storage.object _ holds
          · exact holds

private theorem keeps_rebuildInodeMap : Keeps p (rebuildInodeMap env) := by
  refine Keeps.read fun s holds => ?_
  have walked : Walked p s (finalState (walkRoot env s true)) :=
    storage.keeps_materializeTree s true (maxTreeNodes + 1) rootInode ⟨∅, ∅, s.blobs⟩ holds
  cases run : walkRoot env s true with
  | error e w =>
      rw [run] at walked
      exact Keeps.bind (Keeps.set walked) fun _ => Keeps.throw _
  | ok hash w =>
      rw [run] at walked
      have mapped : p { s with blobs := w.blobs, imap := replaceImap s.imap w.inode_map } :=
        storage.beside walked ⟨rfl, ⟨⟨rfl, rfl, rfl⟩, rfl, rfl⟩, fun here => here⟩
      exact Keeps.bind (Keeps.set mapped) fun _ => Keeps.pure _

private theorem keeps_refreshMapEntry (inode : U128) : Keeps p (refreshMapEntry env inode) := by
  refine Keeps.read fun s _ => (keeps_liftCheck _).bind fun reachable => ?_
  have dropped : Keeps p (modify fun s => s.dropImap inode : M PUnit) :=
    storage.keeps_modify fun _ => ⟨rfl, ⟨⟨rfl, rfl, rfl⟩, rfl, rfl⟩, fun here => here⟩
  have entered : ∀ hash, Keeps p (modify fun s => s.putImap inode hash : M PUnit) := fun _ =>
    storage.keeps_modify fun _ => ⟨rfl, ⟨⟨rfl, rfl, rfl⟩, rfl, rfl⟩, fun here => here⟩
  split
  · split
    · exact dropped
    · split
      · exact (Keeps.read fun t _ => storage.keeps_putObject _).bind fun _ => entered _
      · split
        · exact entered _
        · exact dropped
  · exact dropped

private theorem keeps_maintainInodeMap (op : FsOp) : Keeps p (maintainInodeMap env op) := by
  unfold maintainInodeMap
  split
  · exact (storage.keeps_refreshMapEntry _).bind fun _ => storage.keeps_refreshMapEntry _
  · exact (storage.keeps_refreshMapEntry _).bind fun _ => storage.keeps_refreshMapEntry _
  · exact storage.keeps_refreshMapEntry _
  · exact storage.keeps_refreshMapEntry _
  · exact storage.keeps_rebuildInodeMap.bind fun _ => Keeps.pure _
  · exact storage.keeps_rebuildInodeMap.bind fun _ => Keeps.pure _

end Map

section Mutations

private theorem keeps_mutateCreate (op : FsOp) (parent : U128) (name : String) (mode : U32)
    (kind : EntryType) : Keeps p (mutateCreate env op parent name mode kind) := by
  refine (keeps_liftCheck _).bind fun _ => Keeps.read fun s holds => ?_
  split
  · exact Keeps.pure _
  · have linked : p (linkCreated env op parent name mode kind s) :=
      storage.beside holds (by cases kind <;> exact ⟨rfl, ⟨⟨rfl, rfl, rfl⟩, rfl, rfl⟩, fun here => here⟩)
    exact Keeps.bind (Keeps.set linked) fun _ => Keeps.pure _

private theorem keeps_mutateWrite {op : FsOp} {inode : U128} {offset : U64} {chunks : List ChunkRef}
    {new_size : U64} {encryption : Option FileEncryption} (member : op ∈ ops)
    (shape : op.kind = .write inode offset chunks new_size encryption) :
    Keeps p (mutateWrite env op inode offset chunks new_size encryption) := by
  refine Keeps.read fun s holds => ?_
  have merged : ∀ record node_hash,
      Keeps p (do
        modify (mergeContent op inode record node_hash new_size)
        return Mutation.done : M Mutation) := fun _ _ =>
    storage.keeps_modify_then (fun _ => Keeps.pure _) fun _ => ⟨rfl, ⟨⟨rfl, rfl, rfl⟩, rfl, rfl⟩, fun here => here⟩
  split
  · exact Keeps.pure _
  · split
    · exact Keeps.throw _
    · split
      · exact Keeps.pure _
      · split
        · exact Keeps.pure _
        · split
          · exact (storage.keeps_putObject _).bind fun _ => merged _ _
          · rename_i partly
            refine keeps_checked fun spliced splice => ?_
            cases spliced with
            | none => exact Keeps.pure _
            | some buffer =>
                exact (storage.keeps_storeFilenode _ _
                  (storage.splice holds member shape partly splice)).bind fun _ => merged _ _

private theorem keeps_mutateRename (op : FsOp) (old_parent : U128) (old_name : String)
    (new_parent : U128) (new_name : String) (observed : List OpId) :
    Keeps p (mutateRename op old_parent old_name new_parent new_name observed) := by
  have moved : ∀ entry (inside : Bool), Keeps p
      (if inside then throw .intoOwnSubtree
        else do
          modify (moveEntry op entry old_parent old_name new_parent new_name observed)
          return Mutation.done : M Mutation) := by
    intro entry inside
    split
    · exact Keeps.throw _
    · refine storage.keeps_modify_then (fun _ => Keeps.pure _) fun t => ?_
      unfold moveEntry
      dsimp only
      split <;> exact ⟨rfl, ⟨⟨rfl, rfl, rfl⟩, rfl, rfl⟩, fun here => here⟩
  refine (keeps_liftCheck _).bind fun _ => Keeps.read fun s _ => ?_
  split
  · exact Keeps.pure _
  · split
    · exact Keeps.pure _
    · dsimp only
      split
      · split
        · exact Keeps.pure _
        · exact Keeps.pure _
      · split
        · exact (keeps_liftCheck _).bind (moved _)
        · exact (Keeps.pure _).bind (moved _)

private theorem keeps_mutateUnlink (parent : U128) (name : String) (observed : List OpId) :
    Keeps p (mutateUnlink parent name observed) := by
  refine Keeps.read fun s holds => ?_
  split
  · exact Keeps.pure _
  · have removed : p (s.storeDir parent ((s.dirAt parent).removeDots name observed)) :=
      storage.beside holds ⟨rfl, ⟨⟨rfl, rfl, rfl⟩, rfl, rfl⟩, fun here => here⟩
    exact Keeps.bind (Keeps.set removed) fun _ => Keeps.pure _

private theorem keeps_mutateSetattr (op : FsOp) (inode : U128) (mode uid gid : Option U32) :
    Keeps p (mutateSetattr op inode mode uid gid) := by
  refine Keeps.read fun s holds => ?_
  split
  · exact Keeps.pure _
  · refine Keeps.bind (Keeps.set ?_) fun _ => Keeps.pure _
    exact storage.beside holds ⟨rfl, ⟨⟨rfl, rfl, rfl⟩, rfl, rfl⟩, fun here => here⟩

theorem keeps_mutate {op : FsOp} (member : op ∈ ops) : Keeps p (mutate env op) := by
  unfold mutate
  split
  · exact storage.keeps_mutateCreate op _ _ _ _
  · exact storage.keeps_mutateCreate op _ _ _ _
  · rename_i shape
    exact storage.keeps_mutateWrite member shape
  · exact storage.keeps_mutateRename op _ _ _ _ _
  · exact storage.keeps_mutateUnlink _ _ _
  · exact storage.keeps_mutateSetattr op _ _ _ _

end Mutations

section Calls

theorem keeps_settleApplied (op : FsOp) : Keeps p (settleApplied env op) :=
  storage.keeps_modify_then (fun _ => storage.keeps_maintainInodeMap op) fun s =>
    ⟨rfl, ⟨⟨rfl, rfl, rfl⟩, rfl, rfl⟩, (beside_clearPending s op.id).queue⟩

theorem keeps_attempt {op : FsOp} (member : op ∈ ops) : Keeps p (attempt env op) := by
  refine (storage.keeps_mutate member).bind fun outcome => ?_
  cases outcome with
  | done => exact (storage.keeps_settleApplied op).bind fun _ => Keeps.pure _
  | unmet reason => exact Keeps.pure _

private theorem keeps_drainPass {rows : List FsOp} (members : ∀ op ∈ rows, op ∈ ops) :
    Keeps p (drainPass env rows) := by
  induction rows with
  | nil => exact Keeps.pure _
  | cons op rows ih =>
      have rest := ih fun other inside => members other (List.mem_cons_of_mem op inside)
      refine Keeps.read fun s _ => ?_
      split
      · exact storage.keeps_modify_then (fun _ => rest.bind fun _ => Keeps.pure _) fun s =>
          beside_clearPending s op.id
      · refine (storage.keeps_mutate (members op List.mem_cons_self)).bind fun outcome => ?_
        split
        · exact (storage.keeps_settleApplied op).bind fun _ => rest.bind fun _ => Keeps.pure _
        · exact rest

private theorem keeps_drainLoop (fuel : Nat) : Keeps p (drainLoop env fuel) := by
  induction fuel with
  | zero => exact Keeps.pure _
  | succ fuel ih =>
      refine Keeps.read fun s holds => ?_
      split
      · exact Keeps.pure _
      · refine (storage.keeps_drainPass fun op listed => ?_).bind fun result => ?_
        · obtain ⟨row, inside, rfl⟩ := List.mem_map.mp listed
          exact storage.queued holds ((BTreeMap.mem_toList _ _ _).mp inside)
        · split
          split
          · exact ih.bind fun _ => Keeps.pure _
          · exact Keeps.pure _

theorem keeps_drainPending : Keeps p (drainPending env) :=
  Keeps.read fun _ _ => storage.keeps_drainLoop _

theorem keeps_buildSnapshot : Keeps p (buildSnapshot env) := by
  refine Keeps.read fun s holds => ?_
  have rooted : p { s with state_root := some (computeStateRoot env s) } := storage.beside holds ⟨rfl, ⟨⟨rfl, rfl, rfl⟩, rfl, rfl⟩, fun here => here⟩
  exact Keeps.bind (Keeps.set rooted) fun _ => (storage.keeps_putObject _).bind fun _ =>
    storage.keeps_modify_then (fun _ => Keeps.pure _) fun _ => ⟨rfl, ⟨⟨rfl, rfl, rfl⟩, rfl, rfl⟩, fun here => here⟩

theorem keeps_applyOpInner {op : FsOp} (member : op ∈ ops) (check_policy : Bool) :
    Keeps p (applyOpInner env op check_policy) := by
  refine (keeps_liftCheck _).bind fun _ => Keeps.read fun s _ =>
    (keeps_liftCheck _).bind fun _ => ?_
  split
  · exact Keeps.pure _
  · refine storage.keeps_modify_then (fun _ => ?_) fun _ => ⟨rfl, ⟨⟨rfl, rfl, rfl⟩, rfl, rfl⟩, fun here => here⟩
    refine (storage.keeps_mutate member).bind fun outcome => ?_
    extract_lets finish
    have finished : ∀ outcome, Keeps p (finish outcome) := by
      intro outcome
      refine storage.keeps_drainPending.bind fun unblocked => ?_
      split
      · refine storage.keeps_buildSnapshot.bind fun _ => ?_
        exact storage.keeps_modify_then (fun _ => Keeps.pure _) fun _ => ⟨rfl, ⟨⟨rfl, rfl, rfl⟩, rfl, rfl⟩, fun here => here⟩
      · exact storage.keeps_modify_then (fun _ => Keeps.pure _) fun _ => ⟨rfl, ⟨⟨rfl, rfl, rfl⟩, rfl, rfl⟩, fun here => here⟩
    split
    · exact (storage.keeps_settleApplied op).bind fun _ => (Keeps.pure _).bind finished
    · exact Keeps.bind (Keeps.modify fun _ => storage.park member) fun _ =>
        (Keeps.pure _).bind finished

theorem keeps_retryPending : Keeps p (retryPending env) := by
  refine storage.keeps_drainPending.bind fun applied => ?_
  split
  · exact storage.keeps_buildSnapshot.bind fun _ => Keeps.pure _
  · exact Keeps.pure _

theorem keeps_bootstrapIfNeeded : Keeps p (bootstrapIfNeeded env) := by
  refine Keeps.read fun s _ => ?_
  split
  · exact Keeps.pure _
  · refine storage.keeps_modify_then (fun _ => ?_) fun _ => ⟨rfl, ⟨⟨rfl, rfl, rfl⟩, rfl, rfl⟩, fun here => here⟩
    refine storage.keeps_modify_then (fun _ => ?_) fun _ => ⟨rfl, ⟨⟨rfl, rfl, rfl⟩, rfl, rfl⟩, fun here => here⟩
    refine storage.keeps_rebuildInodeMap.bind fun _ => storage.keeps_buildSnapshot.bind fun _ => ?_
    refine storage.keeps_modify_then (fun _ => ?_) fun _ => ⟨rfl, ⟨⟨rfl, rfl, rfl⟩, rfl, rfl⟩, fun here => here⟩
    exact storage.keeps_modify_then (fun _ => storage.keeps_modify fun _ => ⟨rfl, ⟨⟨rfl, rfl, rfl⟩, rfl, rfl⟩, fun here => here⟩) fun _ => ⟨rfl, ⟨⟨rfl, rfl, rfl⟩, rfl, rfl⟩, fun here => here⟩

private theorem keeps_makeOp (identity : Identity) (kind : FsOpKind) (now : U64) :
    Keeps p (makeOp env identity kind now) := by
  refine Keeps.bind (Keeps.read fun s holds => ?_) fun _ => Keeps.read fun _ _ => Keeps.pure _
  have counted : p { s with next_counter := s.next_counter + 1 } := storage.beside holds ⟨rfl, ⟨⟨rfl, rfl, rfl⟩, rfl, rfl⟩, fun here => here⟩
  exact Keeps.bind (Keeps.set counted) fun _ => Keeps.pure _

/-- A local operation stores nothing but objects. -/
theorem keeps_applyLocal (all : ∀ op, op ∈ ops) (identity : Identity) (kind : FsOpKind) (now : U64) :
    Keeps p (applyLocal env identity kind now) := by
  refine Keeps.read fun s _ => ?_
  split
  · refine (storage.keeps_makeOp identity kind now).bind fun op =>
      (storage.keeps_applyOpInner (all op) true).bind fun _ => ?_
    split
    · exact Keeps.pure _
    · exact Keeps.pure _
    · exact Keeps.throw _
  · refine (storage.keeps_makeOp identity kind now).bind fun op =>
      (storage.keeps_applyOpInner (all op) false).bind fun _ => ?_
    split
    · exact Keeps.throw _
    · exact Keeps.read fun _ _ => storage.keeps_modify_then (fun _ => Keeps.pure _) fun _ => ⟨rfl, ⟨⟨rfl, rfl, rfl⟩, rfl, rfl⟩, fun here => here⟩
    · exact Keeps.read fun _ _ => storage.keeps_modify_then (fun _ => Keeps.pure _) fun _ => ⟨rfl, ⟨⟨rfl, rfl, rfl⟩, rfl, rfl⟩, fun here => here⟩

end Calls

end Storage

def Addressed (env : Env) (blobs : BTreeMap Hash Bytes) : Prop :=
  ∀ (hash : Hash) bytes, blobs[hash]? = some bytes → env.blake3 bytes = hash

def Keyed (env : Env) (s : CoreState) : Prop := Addressed env s.blobs

section Blobs

variable {env : Env} {blobs : BTreeMap Hash Bytes}

theorem Addressed.insert (addressed : Addressed env blobs) {hash : Hash} {bytes : Bytes}
    (sound : env.blake3 bytes = hash) : Addressed env (blobs.insert hash bytes) := by
  intro other found here
  rw [BTreeMap.get_insert] at here
  split at here
  · rename_i same
    obtain rfl := Option.some.inj here
    exact sound.trans same
  · exact addressed other found here

theorem Addressed.filter (addressed : Addressed env blobs) (marked : BTreeSet Hash) :
    Addressed env (blobs.filter fun hash _ => marked.contains hash) := by
  intro hash bytes here
  rw [Std.ExtTreeMap.getElem?_filter'] at here
  exact addressed hash bytes (Option.filter_eq_some_iff.mp here).1

end Blobs

section Content

variable (env : Env)

private theorem keeps_putBlob (bytes : Bytes) :
    Keeps (Keyed env) (modify fun s => s.putBlob (env.blake3 bytes) bytes : M PUnit) :=
  Keeps.modify fun _ keyed => Addressed.insert keyed rfl

private theorem keeps_drawRandom (len : Nat) : Keeps (Keyed env) (drawRandom env len) :=
  Keeps.read fun _ keyed => Keeps.bind (Keeps.set keyed) fun _ => Keeps.pure _

private theorem keeps_storePlain (pieces : List Bytes) (offset : U64) :
    Keeps (Keyed env) (storePlain env pieces offset) := by
  induction pieces generalizing offset with
  | nil => exact Keeps.pure []
  | cons chunk rest ih =>
      exact (keeps_putBlob env chunk).bind fun _ => (ih _).bind fun _ => Keeps.pure _

private theorem keeps_storeSealed (file_key : Hash) (index : Nat) (pieces : List Bytes)
    (offset : U64) : Keeps (Keyed env) (storeSealed env file_key index pieces offset) := by
  induction pieces generalizing index offset with
  | nil => exact Keeps.pure []
  | cons plain rest ih =>
      exact (keeps_putBlob env _).bind fun _ => (ih _ _).bind fun _ => Keeps.pure _

private theorem keeps_sealEnvelope (recipient file_key : Hash) :
    Keeps (Keyed env) (sealEnvelope env recipient file_key) :=
  (keeps_drawRandom env 32).bind fun _ => (keeps_drawRandom env 24).bind fun _ => Keeps.pure _

private theorem keeps_protectFileKey (file_key cipher : Hash) :
    Keeps (Keyed env) (protectFileKey env file_key cipher) := by
  refine Keeps.read fun s _ => ?_
  dsimp only
  split
  · exact ((keeps_drawRandom env 24).bind fun _ => Keeps.pure _).bind fun _ => Keeps.pure _
  · exact (Keeps.mapM _ fun key => keeps_sealEnvelope env key file_key).bind fun _ => Keeps.pure _

theorem keeps_storeContent (data : Bytes) : Keeps (Keyed env) (storeContent env data) := by
  refine Keeps.read fun s _ => ?_
  split
  · exact (keeps_storePlain env _ _).bind fun _ => Keeps.pure _
  · exact ((keeps_drawRandom env 32).bind fun _ => Keeps.pure _).bind fun _ =>
      (keeps_storeSealed env _ _ _ _).bind fun _ =>
        (keeps_protectFileKey env _ _).bind fun _ => Keeps.pure _

theorem keyedStorage : Storage env Set.univ (Keyed env) where
  beside keyed beside := by
    unfold Keyed
    rw [beside.blobs]
    exact keyed
  object _ keyed := Addressed.insert keyed rfl
  park _ keyed := keyed
  queued _ _ := trivial
  splice _ _ _ _ _ := keeps_storeContent env _

end Content

section Calls

variable (env : Env)

theorem keeps_buildSnapshot : Keeps (Keyed env) (buildSnapshot env) :=
  (keyedStorage env).keeps_buildSnapshot

theorem keeps_applyOp (op : FsOp) : Keeps (Keyed env) (applyOp env op) :=
  (keyedStorage env).keeps_applyOpInner trivial true

theorem keeps_retryPending : Keeps (Keyed env) (retryPending env) :=
  (keyedStorage env).keeps_retryPending

theorem keeps_bootstrapIfNeeded : Keeps (Keyed env) (bootstrapIfNeeded env) :=
  (keyedStorage env).keeps_bootstrapIfNeeded

theorem keeps_collectGarbage (dry_run : Bool) :
    Keeps (Keyed env) (collectGarbage env dry_run) := by
  intro s keyed
  rcases collectGarbage_run env s dry_run with same | ⟨marked, keep, -, -, same⟩
  · rw [same]
    exact keyed
  · rw [same]
    exact Addressed.filter keyed marked

theorem keeps_applyLocal (identity : Identity) (kind : FsOpKind) (now : U64) :
    Keeps (Keyed env) (applyLocal env identity kind now) :=
  (keyedStorage env).keeps_applyLocal (fun _ => trivial) identity kind now

end Calls

section Api

variable {env : Env} {identity : Identity} {p : CoreState → Prop}
  (authored : ∀ kind now, Keeps p (applyLocal env identity kind now))

include authored

theorem keeps_mkdirParts (now : U64) (parts : List String) (walked : String)
    (current : U128) : Keeps p (mkdirParts env identity now parts walked current) := by
  induction parts generalizing walked current with
  | nil => exact Keeps.pure _
  | cons part rest ih =>
      refine Keeps.read fun s _ => ?_
      split
      · split
        · exact ih _ _
        · exact Keeps.throw _
      · exact (authored _ _).bind fun _ => ih _ _

theorem keeps_mkdirP (path : String) (now : U64) :
    Keeps p (mkdirP env identity path now) :=
  (keeps_liftCheck _).bind fun _ => keeps_mkdirParts authored now _ _ _

theorem keeps_writeFile (stored : ∀ data, Keeps p (storeContent env data)) (path : String)
    (data : Bytes) (now : U64) : Keeps p (writeFile env identity path data now) := by
  refine (keeps_liftCheck _).bind fun parts => ?_
  split
  · exact Keeps.throw _
  · refine (keeps_mkdirP authored _ now).bind fun parent => Keeps.read fun s _ => ?_
    extract_lets write
    have written : ∀ inode, Keeps p (write inode) := fun inode =>
      (stored data).bind fun _ => (authored _ _).bind fun _ => Keeps.pure _
    split
    · split
      · exact (Keeps.pure _).bind written
      · exact (Keeps.throw _).bind written
    · refine (authored _ _).bind fun _ => ?_
      exact (Keeps.pure _).bind written

theorem keeps_removePath (path : String) (now : U64) :
    Keeps p (removePath env identity path now) := by
  refine Keeps.read fun s _ => (keeps_liftCheck _).bind fun found => ?_
  split
  · exact Keeps.throw _
  · split
    · exact Keeps.throw _
    · exact (authored _ _).bind fun _ => Keeps.pure _

theorem keeps_renamePath (source target : String) (now : U64) :
    Keeps p (renamePath env identity source target now) := by
  refine Keeps.read fun s _ => (keeps_liftCheck _).bind fun found => ?_
  split
  · exact Keeps.throw _
  · split
    · exact Keeps.throw _
    · refine (keeps_liftCheck _).bind fun place => ?_
      split
      · exact Keeps.throw _
      · exact (authored _ _).bind fun _ => Keeps.pure _

end Api

end NexusFS.Core
