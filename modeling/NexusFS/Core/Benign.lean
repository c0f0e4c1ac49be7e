/- GID: NexusFS/Core/Benign
   source: crates/core/src/apply.rs
   digest: What the queue may hold so that no retry is refused, and that no call then fails for it. -/

import NexusFS.Core.Ahead
import NexusFS.Core.Intact
import NexusFS.Core.Makes
import NexusFS.Core.Sealed

set_option autoImplicit false
set_option relaxedAutoImplicit false

namespace NexusFS.Core

open NexusFS.Lib NexusFS.Lib.Effect NexusFS.Proto NexusFS.Crdt CoreState Relation

section Patches

variable (env : Env) (world : Set Bytes) (s : CoreState)

def Starved (chunks : List ChunkRef) : Prop := ∃ chunk ∈ chunks, Beyond env ∅ s world chunk.hash

/-- A parked write that can take the register of a file before `op` does. -/
structure Precedes (inode : U128) (op other : FsOp) : Prop where
  parked : Parked s other
  lower : regKey other < regKey op
  wins : ∀ record, s.loadInode inode = some record → record.content.orderKey < regKey other

/-- What the write leaves reads back: the chunks of a whole write do, and those that the node cuts
for a partial one are short enough. -/
def ReadsBack (chunks : List ChunkRef) (offset new_size time : U64)
    (encryption : Option FileEncryption) : Prop :=
  if offset = 0 ∧ chunksFormWholeFile chunks new_size then
    ∃ file bytes, fileObject chunks new_size time encryption = .fileNode file ∧
      (∀ chunk ∈ chunks, s.hasBlob chunk.hash) ∧ materializeFile env s file = .ok bytes
  else Fits s new_size.val

/-- Whatever content the file can have when the write is tried, it waits to be read, or it reads back
and justifies the new size. -/
structure Justified (op : FsOp) (inode : U128) (offset : U64) (chunks : List ChunkRef)
    (new_size : U64) : Prop where
  fresh : s.loadInode inode = none → new_size.val ≤ offset.val + (heldBytes s chunks).length
  now : ∀ record, s.loadInode inode = some record →
    (∃ bytes, tryReadFile env s inode = .ok (some bytes) ∧
      new_size.val ≤ max bytes.length (offset.val + (heldBytes s chunks).length)) ∨
    ∃ hash file, record.content.value.node_hash = some hash ∧
      getObject env s hash = .ok (some (.fileNode file)) ∧ Starved env world s file.chunks
  earlier : ∀ other, Precedes s inode op other →
    ∀ start refs length encryption, other.kind = .write inode start refs length encryption →
      Starved env world s refs ∨
        (ReadsBack env s refs start length other.time_unix_ms encryption ∧
          new_size.val ≤ max length.val (offset.val + (heldBytes s chunks).length))

/-- A partial write that is not refused wherever a drain may try it. -/
inductive Patches (op : FsOp) (inode : U128) (offset : U64) (chunks : List ChunkRef)
    (new_size : U64) : Prop
  | absent (never : ¬Ahead env s inode .file)
  | outranked {record : InodeRecord} (found : s.loadInode inode = some record)
      (loses : ¬record.content.orderKey < regKey op)
  | starved (lacks : Starved env world s chunks)
  | fits (held : ∀ chunk ∈ chunks, s.hasBlob chunk.hash)
      (stops : offset.val + (heldBytes s chunks).length < 2 ^ 64) (size : new_size.val < 2 ^ 63)
      (justified : Justified env world s op inode offset chunks new_size)

/-- A parked operation that is not refused wherever a drain may try it. -/
structure Benign (op : FsOp) : Prop where
  named : ¬Hopeless op
  onFile : ∀ inode offset chunks new_size encryption,
    op.kind = .write inode offset chunks new_size encryption → ¬Ahead env s inode .dir
  patches : ∀ inode offset chunks new_size encryption,
    op.kind = .write inode offset chunks new_size encryption →
      ¬(offset = 0 ∧ chunksFormWholeFile chunks new_size) →
        Patches env world s op inode offset chunks new_size
  clear : MovesClear env s op

end Patches

section Contents

variable {env : Env} {world : Set Bytes} {s t u : CoreState} {inode : U128} {op : FsOp}
  {reg : LwwReg ContentState}

/-- The object that a parked write stores for a file, and what it needs to read back. -/
inductive Stored (env : Env) (world : Set Bytes) (s t : CoreState) (other : FsOp) :
    List ChunkRef → U64 → U64 → Option FileEncryption → FileNode → Prop
  | whole {chunks : List ChunkRef} {offset new_size : U64} {encryption : Option FileEncryption}
      {file : FileNode} (covers : offset = 0 ∧ chunksFormWholeFile chunks new_size)
      (object : fileObject chunks new_size other.time_unix_ms encryption = .fileNode file) :
      Stored env world s t other chunks offset new_size encryption file
  | spliced {chunks : List ChunkRef} {offset new_size : U64} {encryption : Option FileEncryption}
      {file : FileNode} {v : CoreState} {buffer : Bytes}
      (partly : ¬(offset = 0 ∧ chunksFormWholeFile chunks new_size)) (keys : SameKeys s v)
      (object : contentObject env v buffer other.time_unix_ms (contentInfo env v buffer) =
        .fileNode file)
      (length : buffer.length = new_size.val)
      (pieces : ∀ piece ∈ contentPieces env v buffer, piece ∈ world ∧ t.hasBlob (env.blake3 piece)) :
      Stored env world s t other chunks offset new_size encryption file

/-- Where the register of a file comes from in a drain that started at `s`. -/
inductive Origin (env : Env) (world : Set Bytes) (s t : CoreState) (inode : U128) :
    LwwReg ContentState → Prop
  | kept {record : InodeRecord} (found : s.loadInode inode = some record)
      (kind : record.kind = .file) : Origin env world s t inode record.content
  | fresh {reg : LwwReg ContentState} (none : s.loadInode inode = none)
      (empty : reg.value.node_hash = .none) : Origin env world s t inode reg
  | written {other : FsOp} {offset new_size : U64} {chunks : List ChunkRef}
      {encryption : Option FileEncryption} {file : FileNode} (parked : Parked s other)
      (shape : other.kind = .write inode offset chunks new_size encryption)
      (wins : ∀ record, s.loadInode inode = some record → record.content.orderKey < regKey other)
      (held : ∀ chunk ∈ chunks, t.hasBlob chunk.hash)
      (stored : t.hasBlob (objectHash env (.fileNode file)))
      (inside : encodeObject env (.fileNode file) ∈ world)
      (made : Stored env world s t other chunks offset new_size encryption file) :
      Origin env world s t inode (contentOf other (objectHash env (.fileNode file)) new_size)

theorem Origin.later (origin : Origin env world s t inode reg)
    (keeps : ∀ hash, t.hasBlob hash → u.hasBlob hash) : Origin env world s u inode reg := by
  cases origin with
  | kept found kind => exact .kept found kind
  | fresh none empty => exact .fresh none empty
  | written parked shape wins held stored inside made =>
      refine .written parked shape wins (fun chunk member => keeps _ (held chunk member))
        (keeps _ stored) inside ?_
      cases made with
      | whole covers object => exact .whole covers object
      | spliced partly keys object length pieces =>
          exact .spliced partly keys object length fun piece member =>
            ⟨(pieces piece member).1, keeps _ (pieces piece member).2⟩

theorem StoreIn.get (within : StoreIn env world t) (inj : Set.InjOn env.blake3 world) {bytes : Bytes}
    (inside : bytes ∈ world) (held : t.hasBlob (env.blake3 bytes)) :
    t.blobs[env.blake3 bytes]? = some bytes := by
  obtain ⟨found, here⟩ := Option.isSome_iff_exists.mp (hasBlob_iff_get.mp held)
  obtain ⟨member, hashed⟩ := within _ _ here
  rw [here, inj member inside hashed]

theorem Starved.lacks {chunks : List ChunkRef} (starved : Starved env world s chunks)
    (stays : Stays env ∅ s t) (within : StoreIn env world t) :
    ∃ chunk ∈ chunks, ¬t.hasBlob chunk.hash := by
  obtain ⟨chunk, member, beyond⟩ := starved
  exact ⟨chunk, member, beyond.not_held stays within⟩

theorem Stored.reads {other : FsOp} {chunks : List ChunkRef} {offset new_size : U64}
    {encryption : Option FileEncryption} {file : FileNode} (ideal : Ideal env)
    (inj : Set.InjOn env.blake3 world) (within : StoreIn env world t) (kept : Extends s t)
    (keys : SameKeys s t) (made : Stored env world s t other chunks offset new_size encryption file)
    (back : ReadsBack env s chunks offset new_size other.time_unix_ms encryption) :
    (∀ chunk ∈ file.chunks, t.hasBlob chunk.hash) ∧
      ∃ bytes, materializeFile env t file = .ok bytes ∧ bytes.length = new_size.val := by
  unfold ReadsBack at back
  cases made with
  | whole covers object =>
      rw [if_pos covers] at back
      obtain ⟨file', bytes, object', held, read⟩ := back
      obtain rfl := Object.fileNode.inj (object'.symm.trans object)
      have chunks_are : file'.chunks = chunks := by
        cases object
        rfl
      have size_is : file'.size = new_size := by
        cases object
        rfl
      have same : materializeFile env t file' = materializeFile env s file' :=
        materializeFile_congr file' keys.settings.sealing_secret keys.settings.cipher
          fun chunk member => kept.get (held chunk (chunks_are ▸ member))
      obtain ⟨_, _, _, _, _, size⟩ := materializeFile_ok_iff.mp read
      exact ⟨fun chunk member => kept.hasBlob (held chunk (chunks_are ▸ member)), bytes,
        same.trans read, size.trans (congrArg Fin.val size_is)⟩
  | @spliced v buffer partly keys' object length pieces =>
      rw [if_neg partly] at back
      have fits : Core.Fits v buffer.length := by
        unfold Core.Fits tagLength at back ⊢
        rwa [length, keys'.settings.chunk_size, keys'.settings.cipher]
      have found : ∀ stored ∈ contentPieces env v buffer, t.blobs[env.blake3 stored]? = some stored :=
        fun piece member => within.get inj (pieces piece member).1 (pieces piece member).2
      have short : buffer.length < 2 ^ 64 := length ▸ new_size.isLt
      have reads := reads_contentRefs ideal fits short found
      have key : KeyFor env t (contentInfo env v buffer) (contentKey env v) :=
        keyFor_content ideal (contentInfo_protects ideal buffer v)
          (keys.settings.sealing_secret.trans keys'.settings.sealing_secret.symm)
          (keys.settings.cipher.trans keys'.settings.cipher.symm)
      cases object
      refine ⟨fun chunk member => reads.hasBlob member, buffer, ?_, length⟩
      exact materializeFile_ok_iff.mpr ⟨contentKey env v, chunkBytes buffer v.chunk_size, key, reads,
        (flatten_chunkBytes _ _).symm, (Nat.mod_eq_of_lt short).symm⟩

private theorem tryReadFile_lacking (file : FileAt inode reg t) {hash : Hash} {node : FileNode}
    (named : reg.value.node_hash = some hash)
    (object : getObject env t hash = .ok (some (.fileNode node))) {chunk : ChunkRef}
    (member : chunk ∈ node.chunks) (missing : ¬t.hasBlob chunk.hash) :
    tryReadFile env t inode = .ok none := by
  obtain ⟨record, found, -, rfl⟩ := file
  unfold tryReadFile
  rw [found]
  dsimp only
  rw [named]
  dsimp only
  rw [object]
  have lacking : ¬(node.chunks.all fun chunk => t.hasBlob chunk.hash) = true := fun all_held =>
    missing (List.all_eq_true.mp all_held chunk member)
  exact if_neg lacking

theorem Origin.raised (origin : Origin env world s t inode reg) {first : InodeRecord}
    (found : s.loadInode inode = some first) : first.content.orderKey ≤ reg.orderKey := by
  cases origin with
  | kept here => exact (Option.some.inj (found.symm.trans here)) ▸ le_rfl
  | fresh none => exact absurd (found.symm.trans none) (Option.some_ne_none _)
  | written _ _ wins => exact (wins first found).le

section Attempted

variable {offset new_size : U64} {chunks : List ChunkRef} (ideal : Ideal env)
  (decodes : ∀ object, env.decodeObject (env.encodeObject object) = some object)
  (inj : Set.InjOn env.blake3 world) (within : StoreIn env world t) (kept : Extends s t)
  (stays : Stays env ∅ s t)

include ideal decodes inj within kept stays

private theorem Justified.reads (justified : Justified env world s op inode offset chunks new_size)
    (file : FileAt inode reg t) (origin : Origin env world s t inode reg)
    (wins : reg.orderKey < regKey op) :
    tryReadFile env t inode = .ok none ∨ ∃ bytes, tryReadFile env t inode = .ok (some bytes) ∧
      new_size.val ≤ max bytes.length (offset.val + (heldBytes s chunks).length) := by
  cases origin with
  | @kept record found kind =>
      have before : FileAt inode record.content s := ⟨record, found, kind, rfl⟩
      rcases justified.now record found with ⟨bytes, read, long⟩ | ⟨hash, node, named, object, starved⟩
      · have same := (kept.reads stays.keys.settings (contentHeld_of_read before read) before file).2
        exact .inr ⟨bytes, same.trans read, long⟩
      · obtain ⟨chunk, member, missing⟩ := starved.lacks stays within
        exact .inl (tryReadFile_lacking file named (kept.getObject object) member missing)
  | fresh none empty =>
      exact .inr ⟨[], tryReadFile_none file empty, (justified.fresh none).trans (le_max_right _ _)⟩
  | @written other start length refs encryption node parked shape higher held stored inside made =>
      rcases justified.earlier other ⟨parked, wins, higher⟩ start refs length encryption shape with
        starved | ⟨back, long⟩
      · obtain ⟨chunk, member, missing⟩ := starved.lacks stays within
        exact absurd (held chunk member) missing
      · obtain ⟨here, bytes, read, size⟩ := made.reads ideal inj within kept stays.keys back
        have object := getObject_found decodes (within.get inj inside stored)
        refine .inr ⟨bytes, ?_, size ▸ long⟩
        rw [tryReadFile_held file rfl object here, read]
        rfl

theorem Patches.spliced (patches : Patches env world s op inode offset chunks new_size)
    (foreseen : Foreseen env s t) {record : InodeRecord} (found : t.loadInode inode = some record)
    (kind : record.kind = .file) (origin : Origin env world s t inode record.content)
    (wins : record.content.orderKey < regKey op) (complete : ∀ chunk ∈ chunks, t.hasBlob chunk.hash)
    (e : Err) : spliceWrite env t inode offset chunks new_size ≠ .error e := by
  cases patches with
  | absent never => exact absurd (kind ▸ foreseen.records found) never
  | outranked before loses => exact absurd ((origin.raised before).trans_lt wins) loses
  | starved lacks =>
      obtain ⟨chunk, member, missing⟩ := lacks.lacks stays within
      exact absurd (complete chunk member) missing
  | fits held stops size justified =>
      have same : heldBytes t chunks = heldBytes s chunks :=
        heldBytes_congr fun chunk member => kept.get (held chunk member)
      rcases justified.reads ideal decodes inj within kept stays ⟨record, found, kind, rfl⟩ origin wins
        with unread | ⟨bytes, read, long⟩
      · unfold spliceWrite
        rw [unread]
        exact fun failed => by cases failed
      · rw [spliceWrite_run read complete, same, if_neg (not_le.mpr stops), if_neg (not_lt.mpr long),
          if_neg (not_le.mpr size)]
        exact fun failed => by cases failed

end Attempted

end Contents

section Tracks

variable {env : Env} {ids : Set OpId} {world : Set Bytes} {s t u : CoreState} {op : FsOp}

theorem Effect.record_of (effect : Effect env op t u) {i : U128} {after : InodeRecord}
    (found : u.loadInode i = some after) :
    (∃ record, t.loadInode i = some record ∧ after.kind = record.kind ∧
      after.content = record.content) ∨
    (i = inodeForOp env op.id ∧ after.content.value.node_hash = none) ∨
    ∃ record offset chunks new_size encryption, t.loadInode i = some record ∧ record.kind = .file ∧
      op.kind = .write i offset chunks new_size encryption ∧ record.content.orderKey < regKey op := by
  cases effect with
  | created =>
      rw [loadInode_linkCreated] at found
      split at found
      · rename_i same
        exact .inr (.inl ⟨same.symm, by rw [← Option.some.inj found]; rfl⟩)
      · exact .inl ⟨after, found, rfl, rfl⟩
  | superseded => exact .inl ⟨after, found, rfl, rfl⟩
  | @wrote inode offset chunks new_size encryption record _ _ shape here kind wins content =>
      obtain ⟨blobs, draws, -, rfl⟩ := content
      have load := (loadInode_storeInode t inode i _).symm.trans found
      split at load
      · rename_i same
        subst same
        exact .inr (.inr ⟨record, offset, chunks, new_size, encryption, here, kind, shape,
          of_decide_eq_true wins⟩)
      · exact .inl ⟨after, load, rfl, rfl⟩
  | movedNothing => exact .inl ⟨after, found, rfl, rfl⟩
  | moved => exact .inl ⟨after, (loadInode_moveEntry i).symm.trans found, rfl, rfl⟩
  | unlinked => exact .inl ⟨after, found, rfl, rfl⟩
  | changedAttrs _ here =>
      rw [loadInode_storeInode] at found
      split at found
      · rename_i same
        subst same
        obtain rfl := Option.some.inj found
        exact .inl ⟨_, here, rfl, rfl⟩
      · exact .inl ⟨after, found, rfl, rfl⟩

theorem hasBlob_of_get {hash : Hash} {bytes : Bytes} (found : t.blobs[hash]? = some bytes) :
    t.hasBlob hash := hasBlob_iff_get.mpr (by rw [found]; rfl)

private theorem mutated_of_attempt (run : attempt env op t = .ok .done u) :
    ∃ v, mutate env op t = .ok .done v := by
  rw [attempt_run] at run
  cases mutated : mutate env op t with
  | error e v =>
      rw [mutated] at run
      cases run
  | ok outcome v =>
      cases outcome with
      | done => exact ⟨v, rfl⟩
      | unmet reason =>
          rw [mutated] at run
          cases run

/-- What a drain that started at `s` keeps, if nothing that is tried is refused. -/
structure Tracks (env : Env) (ids : Set OpId) (world : Set Bytes) (ready : FsOp → Prop)
    (s t : CoreState) : Prop where
  shape : Shape env ids t
  foreseen : Foreseen env s t
  stays : Stays env ∅ s t
  keeps : ∀ hash, s.hasBlob hash → t.hasBlob hash
  known : ∀ {id}, id ∈ s.applied → id ∈ t.applied
  origins : ∀ {i record}, t.loadInode i = some record → record.kind = .file →
    Origin env world s t i record.content
  queue : ∀ {id : OpId} {op}, t.pending[id]? = some op → ready op

theorem Tracks.foreseenRoomy {ready : FsOp → Prop} (tracks : Tracks env ids world ready s t)
    (few : (dirsAhead env s).encard ≤ maxTreeNodes) : Roomy t := tracks.foreseen.roomy few

section Attempted

variable {ready : FsOp → Prop} (ideal : Ideal env)
  (decodes : ∀ object, env.decodeObject (env.encodeObject object) = some object)
  (inj : Set.InjOn (inodeForOp env) ids) (apart : Set.InjOn env.blake3 world)
  (before : Shape env ids s) (few : (dirsAhead env s).encard ≤ maxTreeNodes)
  (within : StoreIn env world s)

include ideal decodes apart few within in
theorem Tracks.not_refused (tracks : Tracks env ids world ready s t)
    (benign : Benign env world s op) (within' : StoreIn env world t) (e : Err) :
    ¬Refusal env op t e := by
  have kept := extends_of_keeps apart within within' tracks.keeps
  have named := benign.named
  unfold Hopeless at named
  intro refusal
  cases refusal with
  | @badName kind _ _ _ _ shape invalid =>
      rw [shape] at named
      cases kind <;> exact named fun valid => by rw [invalid] at valid; cases valid
  | badNewName shape invalid =>
      rw [shape] at named
      exact named fun valid => by rw [invalid] at valid; cases valid
  | @notAFile inode _ _ _ _ record shape found other =>
      have dir : record.kind = .dir := by
        cases kind : record.kind with
        | file => exact absurd kind other
        | dir => rfl
      exact benign.onFile _ _ _ _ _ shape (dir ▸ tracks.foreseen.records found)
  | badSplice shape found kind wins complete partly fails =>
      have held := firstMissingChunk_eq_none.mp complete
      exact (benign.patches _ _ _ _ _ shape partly).spliced ideal decodes apart within' kept
        tracks.stays tracks.foreseen found kind (tracks.origins found kind)
        (of_decide_eq_true wins) held e fails
  | intoOwnSubtree shape _ _ target found dir inside =>
      exact tracks.foreseen.outside tracks.shape benign.clear shape target found dir inside
  | subtreeTooLarge _ _ _ _ found dir fails =>
      obtain ⟨listed, -, -⟩ := renameSource_eq_some found
      have live := (OrMap.mem_getAll _ _ _ _).mp listed
      obtain ⟨answer, returns⟩ := (tracks.foreseenRoomy few).subtree_returns
        ⟨_, _, _, _, live, rfl, dir⟩
      cases fails.symm.trans returns

include ideal apart in
private theorem Tracks.written (tracks : Tracks env ids world ready s t) (parked : Parked s op)
    (within' : StoreIn env world t) (hashed : ∀ bytes ∈ storedBytes env t op, bytes ∈ world)
    (run : mutate env op t = .ok .done u) {i : U128} {record after : InodeRecord}
    {offset new_size : U64} {chunks : List ChunkRef} {encryption : Option FileEncryption}
    (found : t.loadInode i = some record) (kind : record.kind = .file)
    (shape : op.kind = .write i offset chunks new_size encryption)
    (wins : record.content.orderKey < regKey op) (here : u.loadInode i = some after) :
    Origin env world s u i after.content := by
  have file : FileAt i record.content t := ⟨record, found, kind, rfl⟩
  obtain ⟨held, splices⟩ := held_of_mutate shape file wins run
  have higher : ∀ first, s.loadInode i = some first → first.content.orderKey < regKey op :=
    fun first old => ((tracks.origins found kind).raised old).trans_lt wins
  have content_is : ∀ {reg}, FileAt i reg u → after.content = reg := by
    rintro reg ⟨other, there, -, rfl⟩
    rw [Option.some.inj (here.symm.trans there)]
  by_cases covers : offset = 0 ∧ chunksFormWholeFile chunks new_size
  · obtain ⟨u', run', placed⟩ := mutate_whole apart within' shape file wins held covers hashed
    cases run.symm.trans run'
    simp only [storedBytes, shape, if_pos covers] at hashed
    rw [content_is placed.file]
    exact .written parked shape higher (fun chunk member => placed.kept.hasBlob (held chunk member))
      (hasBlob_of_get placed.stored) (hashed _ List.mem_cons_self) (.whole covers rfl)
  · obtain ⟨buffer, splice⟩ := splices covers
    obtain ⟨existing, -, length⟩ := spliceWrite_some held splice
    obtain ⟨u', run', placed, pieces⟩ :=
      mutate_spliced ideal apart within' shape file wins held covers splice hashed
    cases run.symm.trans run'
    simp only [storedBytes, shape, if_neg covers, splice] at hashed
    rw [content_is placed.file]
    refine .written parked shape higher (fun chunk member => placed.kept.hasBlob (held chunk member))
      (hasBlob_of_get placed.stored) (hashed _ List.mem_cons_self)
      (.spliced covers tracks.stays.keys rfl ?_ fun piece member =>
        ⟨hashed _ (List.mem_cons_of_mem _ member), hasBlob_of_get (pieces piece member)⟩)
    rw [length, spliceBytes_length]

include inj before in
private theorem Tracks.effect_origins (tracks : Tracks env ids world ready s t)
    (member : op.id ∈ ids) (new : op.id ∉ t.applied) (effect : Effect env op t u)
    (keeps : ∀ hash, t.hasBlob hash → u.hasBlob hash)
    (writes : ∀ {i record after offset new_size chunks encryption}, t.loadInode i = some record →
      record.kind = .file → op.kind = .write i offset chunks new_size encryption →
        record.content.orderKey < regKey op → u.loadInode i = some after →
          Origin env world s u i after.content)
    {i : U128} {after : InodeRecord} (found : u.loadInode i = some after)
    (kind : after.kind = .file) : Origin env world s u i after.content := by
  rcases effect.record_of found with ⟨record, old, same, content⟩ | ⟨rfl, empty⟩ |
    ⟨record, offset, chunks, new_size, encryption, old, file, shape, wins⟩
  · rw [content]
    exact (tracks.origins old (same.symm.trans kind)).later keeps
  · exact .fresh (before.loadInode_fresh inj member fun known => new (tracks.known known)) empty
  · exact writes old file shape wins found

include ideal inj apart before few in
theorem Tracks.attempt (tracks : Tracks env ids world ready s t) (parked : Parked s op)
    (new : op.id ∉ t.applied) (within' : StoreIn env world t)
    (hashed : ∀ bytes ∈ storedBytes env t op, bytes ∈ world)
    (allowed : ∀ e, ¬Refusal env op t e) :
    ∃ outcome v, attempt env op t = .ok outcome v ∧ Tracks env ids world ready s v := by
  have member : op.id ∈ ids := by
    obtain ⟨id, here⟩ := parked
    obtain ⟨same, inside⟩ := before.parked here
    exact same ▸ inside
  have clean : ¬Poisoned env op t := by
    rintro (⟨e, refusal⟩ | limit)
    · exact allowed e refusal
    · exact not_mapLimit inj tracks.shape member new (fun u effect =>
        ((tracks.foreseen.effect tracks.shape inj member new parked effect).roomy few).congr
          rfl rfl) limit
  obtain ⟨outcome, v, run⟩ := attempt_of_not_poisoned clean
  refine ⟨outcome, v, run, ?_⟩
  have stays := (staysStorage ideal ∅ s).keeps_attempt
    (show op ∈ {op | Partial op → ∃ id : OpId, s.pending[id]? = some op} from fun _ => parked) t tracks.stays
  have attempted := attempt_spec env op t
  rw [run] at stays attempted
  cases outcome with
  | unmet reason =>
      obtain ⟨rfl, -⟩ := attempted
      exact tracks
  | done =>
      have took : Took env op t v := attempted
      obtain ⟨u, mutated⟩ := mutated_of_attempt run
      have effect : Effect env op t u := by
        have spec := mutate_spec env op t
        rw [mutated] at spec
        exact spec
      have only := (took_of_mutate mutated).2
      rw [run] at only
      have shape := (tracks.shape.noteApplied inj member new effect).onlyMap only
      have grew : ∀ hash, t.hasBlob hash → u.hasBlob hash := fun hash here => by
        obtain ⟨_, _, _, _, _, keeps, rfl⟩ := effect.frame
        exact keeps hash here
      have origins : ∀ {i record}, u.loadInode i = some record → record.kind = .file →
          Origin env world s u i record.content := fun found kind =>
        tracks.effect_origins inj before member new effect grew
          (fun old file shape wins here => tracks.written ideal apart parked within' hashed mutated
            old file shape wins here) found kind
      have foreseen := tracks.foreseen.effect tracks.shape inj member new parked effect
      have applied := took.applied
      have pending := took.pending
      obtain ⟨blobs, imap, kept, rfl⟩ := only
      refine ⟨shape, foreseen.congr rfl rfl, stays, ?_, fun {id} known => ?_,
        fun found kind => (origins found kind).later kept, fun {id other} here => ?_⟩
      · exact fun hash here => kept hash (grew hash (tracks.keeps hash here))
      · rw [applied, BTreeSet.mem_insert]
        exact .inr (tracks.known known)
      · rw [pending, BTreeMap.get_erase] at here
        split at here
        · cases here
        · exact tracks.queue here

end Attempted

def Hashed (env : Env) (world : Set Bytes) (trace : List (CoreState × FsOp)) : Prop :=
  ∀ x ∈ trace, StoreIn env world x.1 ∧ ∀ bytes ∈ storedBytes env x.1 x.2, bytes ∈ world

section Drains

variable (ideal : Ideal env)
  (decodes : ∀ object, env.decodeObject (env.encodeObject object) = some object)
  (inj : Set.InjOn (inodeForOp env) ids) (apart : Set.InjOn env.blake3 world)
  (before : Shape env ids s) (few : (dirsAhead env s).encard ≤ maxTreeNodes)
  (within : StoreIn env world s)

theorem Tracks.clearPending {ready : FsOp → Prop} (tracks : Tracks env ids world ready s t)
    (id : OpId) : Tracks env ids world ready s (t.clearPending id) where
  shape := tracks.shape.clearPending id
  foreseen := tracks.foreseen.congr rfl rfl
  stays :=
    have beside := beside_clearPending t id
    ⟨fun hash bytes here => tracks.stays.known hash bytes (beside.blobs ▸ here),
      tracks.stays.keys.trans beside.keys, fun here => tracks.stays.queue (beside.queue here)⟩
  keeps := tracks.keeps
  known := tracks.known
  origins := fun found kind => (tracks.origins found kind).later fun _ here => here
  queue := fun here => tracks.queue ((beside_clearPending t id).queue here)

include ideal decodes inj apart before few within in
theorem Tracks.clean (tracks : Tracks env ids world (fun op => Parked s op ∧ Benign env world s op) s t)
    (hashed : Hashed env world (drainRetries env t)) :
    ∀ x ∈ drainRetries env t, ¬Poisoned env x.2 x.1 := by
  have rule : AttemptRule env (Tracks env ids world (fun op => Parked s op ∧ Benign env world s op) s)
      (fun op => Parked s op ∧ Benign env world s op)
      (fun t op => StoreIn env world t ∧ ∀ bytes ∈ storedBytes env t op, bytes ∈ world)
      (fun _ _ => False) := by
    refine ⟨?_, fun tracks _ _ => tracks.clearPending _, fun tracks here => tracks.queue here⟩
    intro t op tracks ready along new
    obtain ⟨outcome, v, run, after⟩ := tracks.attempt ideal inj apart before few ready.1 new along.1
      along.2 (tracks.not_refused ideal decodes apart few within ready.2 along.1)
    rw [run]
    exact after
  rw [← drainPending_returns_iff]
  have ends := rule.drainPending tracks hashed
  cases run : drainPending env t with
  | ok n v => exact ⟨n, v, rfl⟩
  | error e v =>
      rw [run] at ends
      exact ends.elim

end Drains

end Tracks

section Queues

variable {env : Env} {ids : Set OpId} {world : Set Bytes} {s t : CoreState} {op : FsOp}

/-- Nothing that is parked troubles a drain. -/
structure Untroubled (env : Env) (world : Set Bytes) (s : CoreState) : Prop where
  few : (dirsAhead env s).encard ≤ maxTreeNodes
  parked : ∀ op, Parked s op → Benign env world s op

/-- Nothing that is parked troubles the call for `op`, nor does `op` where it has to wait. -/
structure UntroubledBy (env : Env) (world : Set Bytes) (s : CoreState) (op : FsOp) : Prop where
  few : (dirsAhead env (s.storePending op)).encard ≤ maxTreeNodes
  parked : ∀ (id : OpId) other, s.pending[id]? = some other → id ≠ op.id →
    Benign env world (s.storePending op) other
  waiting : ∀ reason, Waits env op s reason → Benign env world (s.storePending op) op

private theorem storedBytes_withPending (queue : BTreeMap OpId FsOp) (t : CoreState) (op : FsOp) :
    storedBytes env (t.withPending queue) op = storedBytes env t op := by
  have info : ∀ data, contentInfo env (t.withPending queue) data = contentInfo env t data := by
    intro data
    unfold contentInfo
    rw [blind_storeContent env queue data t]
    cases storeContent env data t <;> rfl
  unfold storedBytes
  simp only [spliceWrite_withPending, contentObject, info]
  rfl

private theorem attempt_clearPending (run : attempt env op s = .ok .done t) :
    attempt env op (s.clearPending op.id) = .ok .done t := by
  obtain ⟨queue, same⟩ := attempt_withPending env (s.pending.erase op.id) op s
  have blind : attempt env op (s.clearPending op.id) = .ok .done (t.withPending queue) := by
    rw [run] at same
    exact same
  have left := attempt_spec env op s
  have right := attempt_spec env op (s.clearPending op.id)
  rw [run] at left
  rw [blind] at right
  have pending : t.pending = s.pending.erase op.id := Took.pending left
  have pending' : queue = (s.pending.erase op.id).erase op.id := Took.pending right
  have equal : queue = t.pending := by
    rw [pending, pending']
    refine BTreeMap.ext_get fun id => ?_
    rw [BTreeMap.get_erase, BTreeMap.get_erase]
    split <;> rfl
  rw [blind, equal]
  rfl

private theorem parked_storePending (s : CoreState) (op : FsOp) : Parked (s.storePending op) op := by
  refine ⟨op.id, ?_⟩
  show (s.pending.insert op.id op)[op.id]? = some op
  rw [BTreeMap.get_insert, if_pos rfl]

private theorem parked_beside {id : OpId} {other : FsOp} (here : s.pending[id]? = some other)
    (beside : id ≠ op.id) : Parked (s.storePending op) other := by
  refine ⟨id, ?_⟩
  show (s.pending.insert op.id op)[id]? = some other
  rw [BTreeMap.get_insert, if_neg beside.symm, here]

private theorem Waits.appended {reason : Unmet} (waits : Waits env op (s.appendOp op) reason) :
    Waits env op s reason := by
  cases waits with
  | parent shape missing => exact .parent shape missing
  | unlinkParent shape missing => exact .unlinkParent shape missing
  | writeInode shape missing => exact .writeInode shape missing
  | attrInode shape missing => exact .attrInode shape missing
  | chunk shape missing => exact .chunk shape missing
  | content shape partly => exact .content shape partly
  | sourceParent shape missing => exact .sourceParent shape missing
  | destination shape missing => exact .destination shape missing
  | source shape some_seen missing => exact .source shape some_seen missing

theorem Queue.event (queue : Queue s) (e : Event) : Queue (e.run env s) := by
  cases e with
  | apply op => exact queue.call (.apply op true)
  | retry => exact queue.call .retry
  | blob bytes => exact queue.congr rfl rfl
  | collect dry_run => exact queue.call (.collect dry_run)

private theorem tracks_start {ready : FsOp → Prop} (log queue : BTreeMap OpId FsOp)
    (shape : Shape env ids { s with oplog := log, pending := queue })
    (rows : ∀ (id : OpId) other, queue[id]? = some other → Parked s other ∧ ready other) :
    Tracks env ids world ready s { s with oplog := log, pending := queue } where
  shape := shape
  foreseen := (Foreseen.refl env s).congr rfl rfl
  stays := ⟨fun _ _ here => .held here, ⟨⟨rfl, rfl, rfl⟩, rfl, rfl⟩, fun here _ => (rows _ _ here).1⟩
  keeps := fun _ here => here
  known := fun known => known
  origins := fun found kind => .kept found kind
  queue := fun here => (rows _ _ here).2

section Calls

variable (ideal : Ideal env)
  (decodes : ∀ object, env.decodeObject (env.encodeObject object) = some object)
  (inj : Set.InjOn (inodeForOp env) ids) (apart : Set.InjOn env.blake3 world)
  (shape : Shape env ids s) (within : StoreIn env world s)

include ideal decodes inj apart shape within

private theorem Untroubled.clean (untroubled : Untroubled env world s)
    (hashed : Hashed env world (drainRetries env s)) :
    ∀ x ∈ drainRetries env s, ¬Poisoned env x.2 x.1 :=
  Tracks.clean ideal decodes inj apart shape untroubled.few within
    (tracks_start s.oplog s.pending shape fun id other here =>
      ⟨⟨id, here⟩, ⟨id, here⟩, untroubled.parked other ⟨id, here⟩⟩) hashed

private theorem UntroubledBy.clean (untroubled : UntroubledBy env world s op) (member : op.id ∈ ids)
    (admits : Admits env op true s) (new : op.id ∉ s.applied)
    (first : ¬Poisoned env op (s.appendOp op))
    (hashed : Hashed env world (applyAttempts env op true s)) :
    ∀ x ∈ applyRetries env op true s, ¬Poisoned env x.2 x.1 := by
  rw [applyAttempts_new admits new] at hashed
  have retried : Hashed env world (applyRetries env op true s) := fun x inside =>
    hashed x (List.mem_cons_of_mem _ inside)
  rw [applyRetries_new admits new] at retried ⊢
  have base : Shape env ids (s.storePending op) := shape.storePending member
  -- Whatever row `op` has is cleared when it takes effect, and is its own when it has to wait.
  have others : ∀ (id : OpId) other, (s.pending.erase op.id)[id]? = some other →
      Parked (s.storePending op) other ∧ Parked (s.storePending op) other ∧
        Benign env world (s.storePending op) other := by
    intro id other here
    rw [BTreeMap.get_erase] at here
    split at here
    · cases here
    · rename_i beside
      have parked : Parked (s.storePending op) other :=
        parked_beside here fun same => beside same.symm
      exact ⟨parked, parked, untroubled.parked id other here fun same => beside same.symm⟩
  unfold afterFirst at retried ⊢
  obtain ⟨outcome, t, run⟩ := attempt_of_not_poisoned first
  rw [run] at retried ⊢
  cases outcome with
  | done =>
      have cleared := attempt_clearPending run
      have tracks : Tracks env ids world (fun other => Parked (s.storePending op) other ∧
          Benign env world (s.storePending op) other) (s.storePending op)
          ((s.appendOp op).clearPending op.id) :=
        tracks_start (s.appendOp op).oplog (s.pending.erase op.id)
          ((shape.appendOp op).clearPending op.id) others
      have bytes := (hashed _ List.mem_cons_self).2
      rw [← storedBytes_withPending (s.pending.erase op.id)] at bytes
      have allowed : ∀ e, ¬Refusal env op ((s.appendOp op).clearPending op.id) e := by
        intro e refusal
        rw [attempt_run, refusal.mutate] at cleared
        cases cleared
      obtain ⟨_, _, again, after⟩ := tracks.attempt ideal inj apart base untroubled.few
        (parked_storePending s op) new within bytes allowed
      cases again.symm.trans cleared
      exact after.clean ideal decodes inj apart base untroubled.few within retried
  | unmet reason =>
      obtain ⟨rfl, unmet⟩ : t = s.appendOp op ∧
          mutate env op (s.appendOp op) = .ok (.unmet reason) (s.appendOp op) := by
        have spec := attempt_spec env op (s.appendOp op)
        rwa [run] at spec
      have waits : Waits env op s reason := by
        have spec := mutate_spec env op (s.appendOp op)
        rw [unmet] at spec
        exact spec.2.appended
      have tracks : Tracks env ids world (fun other => Parked (s.storePending op) other ∧
          Benign env world (s.storePending op) other) (s.storePending op)
          ((s.appendOp op).storePending op) := by
        refine tracks_start (s.appendOp op).oplog (s.pending.insert op.id op)
          ((shape.appendOp op).storePending member) fun id other here => ?_
        by_cases same : op.id = id
        · rw [BTreeMap.get_insert, if_pos same] at here
          obtain rfl := Option.some.inj here
          exact ⟨parked_storePending s _, parked_storePending s _, untroubled.waiting reason waits⟩
        · rw [BTreeMap.get_insert, if_neg same] at here
          exact others id other (by rw [BTreeMap.get_erase, if_neg same, here])
      exact tracks.clean ideal decodes inj apart base untroubled.few within retried

end Calls

end Queues

section Sample

/-- A directory that is yet to be heard of, a file in it, the first write of that, and one that appends. -/
def parkedDir : U128 := inodeForOp .sealing ⟨7, 1⟩

def parkedFile : U128 := inodeForOp .sealing ⟨7, 2⟩

def parkedMkdir : FsOp := sampleOp 1 (.mkdir rootInode "a" 0)

def parkedCreate : FsOp := sampleOp 2 (.createFile parkedDir "f" 0)

def parkedChunk (byte : UInt8) (offset : U64) : ChunkRef := ⟨Env.sealing.blake3 [byte], 1, 1, offset⟩

def parkedWhole : FsOp := sampleOp 3 (.write parkedFile 0 [parkedChunk 1 0] 1 none)

def parkedAppend : FsOp := sampleOp 4 (.write parkedFile 1 [parkedChunk 2 1] 2 none)

def parkedNode : CoreState :=
  (Event.apply parkedCreate).run .sealing ((Event.apply parkedWhole).run .sealing
    ((Event.apply parkedAppend).run .sealing ((Event.blob [2]).run .sealing
      ((Event.blob [1]).run .sealing (booted .sealing (CoreState.new 7))))))

def drainedNode : CoreState := (Event.apply parkedMkdir).run .sealing parkedNode

def parkedCall : CoreState := parkedNode.storePending parkedMkdir

def parkedObject : FileNode :=
  ⟨⟨1, 1⟩, 1, [parkedChunk 1 0], 0o100644, 0, 0, 0, 0, none⟩

private theorem parkedNode_facts :
    parkedNode.pending.toList = [(parkedCreate.id, parkedCreate), (parkedWhole.id, parkedWhole),
      (parkedAppend.id, parkedAppend)] ∧
    returned (applyOp .sealing parkedMkdir (parkedNode.withPending ∅)) = true ∧
    drainedNode.pending.toList = [] ∧ readFilePath .sealing drainedNode "/a/f" = .ok [1, 2] := by
  decide +kernel

def storedRow (row : Hash × Bytes) : Prop :=
  drainedNode.blobs[row.1]? = some row.2 ∧ Env.sealing.blake3 row.2 = row.1

instance (row : Hash × Bytes) : Decidable (storedRow row) := by
  unfold storedRow
  infer_instance

private theorem drained_rows :
    (∀ row ∈ parkedNode.blobs.toList, storedRow row) ∧
    ∀ x ∈ applyAttempts .sealing parkedMkdir true parkedNode,
      (∀ row ∈ x.1.blobs.toList, storedRow row) ∧
        ∀ bytes ∈ storedBytes .sealing x.1 x.2, drainedNode.blobs[Env.sealing.blake3 bytes]? = some bytes := by
  decide +kernel

private theorem parkedCall_facts :
    parkedCall.pending.toList = [(parkedMkdir.id, parkedMkdir), (parkedCreate.id, parkedCreate),
      (parkedWhole.id, parkedWhole), (parkedAppend.id, parkedAppend)] ∧
    parkedCall.inodes.toList.map Prod.fst = [rootInode] ∧ parkedCall.applied.toList = [] ∧
    (∀ chunk ∈ [parkedChunk 1 0, parkedChunk 2 1], parkedCall.hasBlob chunk.hash) ∧
    heldBytes parkedCall [parkedChunk 2 1] = [2] ∧
    materializeFile .sealing parkedCall parkedObject = .ok [1] := by
  decide +kernel

private theorem parked_cases {op : FsOp} (parked : Parked parkedCall op) :
    op = parkedMkdir ∨ op = parkedCreate ∨ op = parkedWhole ∨ op = parkedAppend := by
  obtain ⟨id, here⟩ := parked
  have row := (BTreeMap.mem_toList _ _ _).mpr here
  rw [parkedCall_facts.1] at row
  simp only [List.mem_cons, Prod.mk.injEq, List.not_mem_nil, or_false] at row
  obtain ⟨-, rfl⟩ | ⟨-, rfl⟩ | ⟨-, rfl⟩ | ⟨-, rfl⟩ := row
  exacts [.inl rfl, .inr (.inl rfl), .inr (.inr (.inl rfl)), .inr (.inr (.inr rfl))]

private theorem parked_known {i : U128} {record : InodeRecord}
    (found : parkedCall.loadInode i = some record) : i = rootInode := by
  have inode := loadInode_listed found
  rw [parkedCall_facts.2.1] at inode
  exact List.mem_singleton.mp inode

private theorem parked_dirs {i : U128} (ahead : Ahead .sealing parkedCall i .dir) :
    i = rootInode ∨ i = parkedDir := by
  rcases ahead.source with ⟨record, found, -⟩ | ⟨op, _, _, _, parked, shape, rfl⟩
  · exact .inl (parked_known found)
  · rcases parked_cases parked with rfl | rfl | rfl | rfl
    · exact .inr rfl
    all_goals cases shape

private theorem parked_names (name : String) (member : name ∈ ["a", "f"]) : validateName name = .ok () := by
  have all : ∀ name ∈ ["a", "f"], validateName name = .ok () := by decide +kernel
  exact all name member

private theorem parkedAppend_fits {world : Set Bytes} :
    Patches .sealing world parkedCall parkedAppend parkedFile 1
      [parkedChunk 2 1] 2 := by
  obtain ⟨-, -, -, blobs, held, read⟩ := parkedCall_facts
  have free : ∀ record, parkedCall.loadInode parkedFile ≠ some record := by
    intro record found
    have other : parkedFile ≠ rootInode := by decide +kernel
    exact other (parked_known found)
  refine .fits ?_ ?_ (by decide) ⟨fun _ => ?_, fun record found => absurd found (free record), ?_⟩
  · rintro chunk member
    obtain rfl := List.mem_singleton.mp member
    exact blobs _ (List.mem_cons_of_mem _ List.mem_cons_self)
  · rw [held]
    decide
  · rw [held]
    decide
  · rintro other ⟨parked, lower, -⟩ start refs length encryption shape
    rcases parked_cases parked with rfl | rfl | rfl | rfl
    · cases shape
    · cases shape
    · cases shape
      refine .inr ⟨?_, ?_⟩
      · unfold ReadsBack
        rw [if_pos (by decide +kernel)]
        refine ⟨parkedObject, [1], rfl, ?_, read⟩
        rintro chunk member
        obtain rfl := List.mem_singleton.mp member
        exact blobs _ List.mem_cons_self
      · rw [held]
        decide
    · exact absurd lower (lt_irrefl _)

private theorem parked_benign {op : FsOp} (parked : Parked parkedCall op)
    (world : Set Bytes) : Benign .sealing world parkedCall op := by
  have apart : parkedFile ≠ rootInode ∧ parkedFile ≠ parkedDir := by decide +kernel
  have file : ¬Ahead .sealing parkedCall parkedFile .dir := fun ahead =>
    (parked_dirs ahead).elim apart.1 apart.2
  rcases parked_cases parked with rfl | rfl | rfl | rfl
  · refine ⟨fun bad => bad (parked_names _ (by decide)), ?_, ?_, ?_⟩
    all_goals rintro _ _ _ _ _ ⟨⟩
  · refine ⟨fun bad => bad (parked_names _ (by decide)), ?_, ?_, ?_⟩
    all_goals rintro _ _ _ _ _ ⟨⟩
  · refine ⟨apart.1, ?_, ?_, ?_⟩
    · rintro _ _ _ _ _ ⟨⟩
      exact file
    · rintro _ _ _ _ _ ⟨⟩ partly
      exact absurd (by decide +kernel) partly
    · rintro _ _ _ _ _ ⟨⟩
  · refine ⟨apart.1, ?_, ?_, ?_⟩
    · rintro _ _ _ _ _ ⟨⟩
      exact file
    · rintro _ _ _ _ _ ⟨⟩ -
      exact parkedAppend_fits
    · rintro _ _ _ _ _ ⟨⟩

private theorem parked_few (shape : Shape .sealing (idsUpTo 7 8) parkedCall) :
    (dirsAhead .sealing parkedCall).encard ≤ maxTreeNodes := by
  have inside : dirsAhead .sealing parkedCall ⊆ {rootInode, parkedDir} := by
    rintro i (ahead | ⟨p, name, dot, value, held, rfl, dir⟩)
    · exact parked_dirs ahead
    · cases held with
      | here live =>
          have known := (BTreeSet.mem_toList _ _).mpr (shape.dotApplied live.1)
          rw [parkedCall_facts.2.2.1] at known
          cases known
      | @created op kind _ _ _ parked made =>
          obtain rfl : kind = .dir := dir
          rcases parked_cases parked with rfl | rfl | rfl | rfl
          · exact .inr rfl
          all_goals cases made
      | moved parked made => rcases parked_cases parked with rfl | rfl | rfl | rfl <;> cases made
  refine (Set.encard_le_encard inside).trans ((Set.encard_insert_le _ _).trans ?_)
  rw [Set.encard_singleton]
  decide

private theorem storeIn_drained {t : CoreState} (rows : ∀ row ∈ t.blobs.toList, storedRow row) :
    StoreIn .sealing {bytes | drainedNode.blobs[Env.sealing.blake3 bytes]? = some bytes} t := by
  intro hash bytes here
  obtain ⟨kept, hashed⟩ := rows _ ((BTreeMap.mem_toList _ _ _).mpr here)
  refine ⟨?_, hashed⟩
  show drainedNode.blobs[Env.sealing.blake3 bytes]? = some bytes
  rw [hashed]
  exact kept

private theorem parkedNode_run : Run .sealing (fun _ e => e.Within (idsUpTo 7 8)) parkedNode := by
  have start : Run .sealing (fun _ e => e.Within (idsUpTo 7 8)) (booted .sealing (CoreState.new 7)) :=
    .boot (blank_new 7)
  have delivered : ∀ i : U64, i.val ≤ 8 → (⟨7, i⟩ : OpId) ∈ idsUpTo 7 8 := fun _ low => ⟨rfl, low⟩
  have stored := (start.step (e := .blob [1]) trivial).step (e := .blob [2]) trivial
  have written := (stored.step (e := .apply parkedAppend) (delivered 4 (by decide))).step
    (e := .apply parkedWhole) (delivered 3 (by decide))
  exact written.step (e := .apply parkedCreate) (delivered 2 (by decide))

private theorem parked_untroubled (world : Set Bytes) :
    UntroubledBy .sealing world parkedNode parkedMkdir where
  few := parked_few ((parkedNode_run.shape idsUpTo_injOn fun _ _ within => within).storePending
    ⟨rfl, by decide⟩)
  parked := by
    intro id other here beside
    exact parked_benign (parked_beside here beside) world
  waiting := fun _ _ => parked_benign (parked_storePending _ _) world

def poisonWrite : FsOp := sampleOp 2 (.write sampleParent 0 [] 0 none)

def poisonState : CoreState :=
  (Event.apply poisonWrite).run .plain (booted .plain (CoreState.new 7))

end Sample

end NexusFS.Core
