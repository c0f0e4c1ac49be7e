/- GID: NexusFS/Core/Splice
   source: crates/core/src/apply.rs, crates/core/src/namespace.rs, crates/core/src/chunker.rs,
     crates/crdt/src/lww.rs
   digest: A file of an unencrypted node as an overlay register over its bytes. -/

import NexusFS.Core.Present
import NexusFS.Core.Reading
import NexusFS.Core.Watch
import NexusFS.Lib.Overlay

/-!
`mutate_write` splices a partial write into the bytes the node holds, and the
register keeps the write of the highest key. So the content of a file is an overlay
register over its bytes: a whole write gives all of them, a partial one gives what
it carries and everything past its size.
-/

set_option autoImplicit false
set_option relaxedAutoImplicit false

namespace NexusFS.Core

open NexusFS.Lib NexusFS.Lib.Effect NexusFS.Proto NexusFS.Crdt CoreState

section File

variable {env : Env} {ids : Set OpId} {inode : U128} {s t : CoreState} {op : FsOp}
  {reg : LwwReg ContentState}

def contentAt (s : CoreState) (inode : U128) : Option (LwwReg ContentState) :=
  (s.loadInode inode).map InodeRecord.content

def FileAt (inode : U128) (reg : LwwReg ContentState) (t : CoreState) : Prop :=
  ∃ record, t.loadInode inode = some record ∧ record.kind = .file ∧ record.content = reg

theorem FileAt.contentAt (file : FileAt inode reg t) : contentAt t inode = some reg := by
  obtain ⟨record, found, -, rfl⟩ := file
  rw [Core.contentAt, found]
  rfl

def WritesTo (inode : U128) (op : FsOp) : Prop :=
  ∃ offset chunks new_size encryption, op.kind = .write inode offset chunks new_size encryption

def Outranks (inode : U128) (reg : LwwReg ContentState) (op : FsOp) : Prop :=
  WritesTo inode op ∧ reg.orderKey < regKey op

theorem Took.content_other (took : Took env op s t) (shape : Shape env ids s)
    (inj : Set.InjOn (inodeForOp env) ids) (member : op.id ∈ ids) (new : op.id ∉ s.applied)
    (other : ¬Outranks inode reg op) (file : FileAt inode reg s) : FileAt inode reg t := by
  obtain ⟨u, effect, blobs, imap, -, rfl⟩ := took
  obtain ⟨record, found, kind, content⟩ := file
  suffices after : ∃ record', u.loadInode inode = some record' ∧ record'.kind = .file ∧
      record'.content = reg from after
  cases effect with
  | @created parent name mode kind _ _ dir =>
      have apart : inodeForOp env op.id ≠ inode := by
        rintro rfl
        rw [shape.loadInode_fresh inj member new] at found
        cases found
      refine ⟨record, ?_, ‹_›, content⟩
      rw [@loadInode_linkCreated env op parent name mode kind s inode, if_neg apart, found]
  | superseded => exact ⟨record, found, kind, content⟩
  | @wrote target offset chunks new_size encryption _ _ _ kindIs here _ wins stores =>
      obtain ⟨blobs, draws, -, rfl⟩ := stores
      refine ⟨record, ?_, kind, content⟩
      have apart : target ≠ inode := by
        rintro rfl
        obtain rfl := Option.some.inj (here.symm.trans found)
        exact other ⟨⟨offset, chunks, new_size, encryption, kindIs⟩,
          content ▸ (of_decide_eq_true wins : _ < regKey op)⟩
      exact ((loadInode_storeInode s target inode _).trans (if_neg apart)).trans found
  | movedNothing => exact ⟨record, found, kind, content⟩
  | moved => exact ⟨record, by rw [loadInode_moveEntry, found], kind, content⟩
  | unlinked => exact ⟨record, found, kind, content⟩
  | @changedAttrs target mode uid gid target_record _ here =>
      by_cases same : target = inode
      · subst same
        obtain rfl := Option.some.inj (here.symm.trans found)
        exact ⟨_, (loadInode_storeInode s target target _).trans (if_pos rfl), kind, content⟩
      · exact ⟨record, by rw [loadInode_storeInode, if_neg same, found], kind, content⟩

/-- What other operations leave of a file: its register, the settings, and the blobs there are. -/
structure Resting (inode : U128) (reg : LwwReg ContentState) (origin t : CoreState) : Prop where
  file : FileAt inode reg t
  settings : SameSettings origin t
  keeps : ∀ hash, origin.hasBlob hash → t.hasBlob hash

theorem Took.settings (took : Took env op s t) : SameSettings s t := by
  obtain ⟨u, effect, blobs, imap, -, rfl⟩ := took
  obtain ⟨dirs, inodes, parents, stored, draws, -, rfl⟩ := effect.frame
  exact ⟨rfl, rfl, rfl⟩

theorem Resting.took {origin : CoreState} (rests : Resting inode reg origin s)
    (inj : Set.InjOn (inodeForOp env) ids) (shape : Shape env ids s) (member : op.id ∈ ids)
    (new : op.id ∉ s.applied) (other : ¬Outranks inode reg op) (took : Took env op s t) :
    Resting inode reg origin t :=
  ⟨took.content_other shape inj member new other rests.file, rests.settings.trans took.settings,
    fun hash here => took.keeps hash (rests.keeps hash here)⟩

theorem Resting.aside {origin : CoreState} (rests : Resting inode reg origin s) (aside : Aside s t) :
    Resting inode reg origin t := by
  obtain ⟨_, _, _, _, _, keeps, rfl⟩ := aside
  exact ⟨rests.file, rests.settings.trans ⟨rfl, rfl, rfl⟩, fun hash here => keeps hash (rests.keeps hash here)⟩

theorem Resting.same {origin : CoreState} (rests : Resting inode reg origin s)
    (inodes : t.inodes = s.inodes) (blobs : t.blobs = s.blobs) (settings : SameSettings s t) :
    Resting inode reg origin t := by
  obtain ⟨⟨record, found, kind, content⟩, before, keeps⟩ := rests
  refine ⟨⟨record, ?_, kind, content⟩, before.trans settings, fun hash here => ?_⟩
  · unfold CoreState.loadInode
    rw [inodes]
    exact found
  · unfold CoreState.hasBlob
    rw [blobs]
    exact keeps hash here

theorem resting_undisturbed (inj : Set.InjOn (inodeForOp env) ids)
    (reg : LwwReg ContentState) (origin : CoreState) :
    Undisturbed env ids (WritesTo inode) (Resting inode reg origin) where
  took shape member new other took rests :=
    rests.took inj shape member new (fun outranks => other outranks.1) took
  cleared _ rests := rests.same rfl rfl ⟨rfl, rfl, rfl⟩
  logged _ rests := rests.same rfl rfl ⟨rfl, rfl, rfl⟩
  aside aside rests := rests.aside aside

end File

section Reads

variable {env : Env} {inode : U128} {s t : CoreState} {reg : LwwReg ContentState}

def baseBytes (env : Env) (s : CoreState) (inode : U128) : Bytes :=
  match tryReadFile env s inode with
  | .ok (some bytes) => bytes
  | _ => []

def ContentHeld (env : Env) (s : CoreState) (reg : LwwReg ContentState) : Prop :=
  ∀ hash, reg.value.node_hash = some hash →
    ∃ file, getObject env s hash = .ok (some (.fileNode file)) ∧
      ∀ chunk ∈ file.chunks, s.hasBlob chunk.hash

theorem tryReadFile_none (file : FileAt inode reg t)
    (empty : reg.value.node_hash = none) : tryReadFile env t inode = .ok (some []) := by
  obtain ⟨record, found, -, rfl⟩ := file
  unfold tryReadFile
  rw [found]
  dsimp only
  rw [empty]
  rfl

theorem tryReadFile_held (file : FileAt inode reg t) {hash : Hash}
    (named : reg.value.node_hash = some hash) {node : FileNode}
    (object : getObject env t hash = .ok (some (.fileNode node)))
    (chunks : ∀ chunk ∈ node.chunks, t.hasBlob chunk.hash) :
    tryReadFile env t inode = some <$> materializeFile env t node := by
  obtain ⟨record, found, -, rfl⟩ := file
  unfold tryReadFile
  rw [found]
  dsimp only
  rw [named]
  have all_held : (node.chunks.all fun chunk => t.hasBlob chunk.hash) = true :=
    List.all_eq_true.mpr chunks
  dsimp only
  rw [object]
  exact if_pos all_held

theorem readFile_none (file : FileAt inode reg t)
    (empty : reg.value.node_hash = none) : readFile env t inode = .ok [] := by
  obtain ⟨record, found, kind, rfl⟩ := file
  unfold readFile
  rw [found]
  dsimp only
  rw [if_neg (fun other => other kind), empty]
  rfl

theorem readFile_held (file : FileAt inode reg t) {hash : Hash}
    (named : reg.value.node_hash = some hash) {node : FileNode}
    (object : getObject env t hash = .ok (some (.fileNode node))) :
    readFile env t inode = materializeFile env t node := by
  obtain ⟨record, found, kind, rfl⟩ := file
  unfold readFile
  rw [found]
  dsimp only
  rw [if_neg (fun other => other kind), named]
  dsimp only
  rw [object]
  rfl

theorem map_some_ok {x : Except Err Bytes} {bytes : Bytes}
    (result : some <$> x = .ok (some bytes)) : x = .ok bytes := by
  cases x with
  | error e => cases result
  | ok read =>
      have same : (Except.ok (some read) : Except Err (Option Bytes)) = .ok (some bytes) := result
      rw [Option.some.inj (Except.ok.inj same)]

theorem Extends.get (kept : Extends s t) {hash : Hash} (here : s.hasBlob hash) :
    t.blobs[hash]? = s.blobs[hash]? := by
  obtain ⟨bytes, found⟩ := Option.isSome_iff_exists.mp (hasBlob_iff_get.mp here)
  rw [found, kept hash bytes found]

theorem Extends.hasBlob (kept : Extends s t) {hash : Hash} (here : s.hasBlob hash) :
    t.hasBlob hash := by
  rw [hasBlob_iff_get] at here ⊢
  rw [kept.get (hasBlob_iff_get.mpr here)]
  exact here

theorem getObject_found
    (decodes : ∀ object, env.decodeObject (env.encodeObject object) = some object) {hash : Hash}
    {node : FileNode} (found : t.blobs[hash]? = some (encodeObject env (.fileNode node))) :
    getObject env t hash = .ok (some (.fileNode node)) := by
  unfold getObject
  rw [found]
  have read : env.decodeObject (encodeObject env (.fileNode node)) = some (.fileNode node) :=
    decodes (.fileNode node)
  dsimp only
  rw [read]
  rfl

theorem hasBlob_of_object {hash : Hash} {object : Object}
    (here : getObject env s hash = .ok (some object)) : s.hasBlob hash := by
  rw [hasBlob_iff_get]
  unfold getObject at here
  cases found : s.blobs[hash]? with
  | none =>
      rw [found] at here
      cases here
  | some bytes => rfl

theorem stored_of_object {hash : Hash} {object : Object}
    (here : getObject env s hash = .ok (some object)) :
    ∃ bytes, s.blobs[hash]? = some bytes ∧ env.decodeObject bytes = some object := by
  unfold getObject at here
  cases found : s.blobs[hash]? with
  | none =>
      rw [found] at here
      cases here
  | some bytes =>
      rw [found] at here
      dsimp only at here
      cases decoded : env.decodeObject bytes with
      | none =>
          rw [decoded] at here
          cases here
      | some other =>
          rw [decoded] at here
          cases here
          exact ⟨bytes, rfl, decoded⟩

theorem Extends.getObject (kept : Extends s t) {hash : Hash} {object : Object}
    (here : Core.getObject env s hash = .ok (some object)) :
    Core.getObject env t hash = .ok (some object) := by
  have same := kept.get (hasBlob_of_object here)
  unfold Core.getObject at here ⊢
  rwa [same]

theorem contentHeld_of_read {bytes : Bytes} (file : FileAt inode reg s)
    (read : tryReadFile env s inode = .ok (some bytes)) : ContentHeld env s reg := by
  obtain ⟨record, found, -, rfl⟩ := file
  intro hash named
  unfold tryReadFile at read
  rw [found] at read
  dsimp only at read
  rw [named] at read
  dsimp only at read
  cases object : getObject env s hash with
  | error e =>
      rw [object] at read
      cases read
  | ok result =>
      rw [object] at read
      match result, object with
      | none, _ => cases read
      | some (.dirNode _), _ => cases read
      | some (.snapshotRoot _), _ => cases read
      | some (.fileNode node), object =>
          refine ⟨node, rfl, ?_⟩
          have checked : (if (node.chunks.all fun chunk => s.hasBlob chunk.hash) = true then
              some <$> materializeFile env s node else pure none) = .ok (some bytes) := read
          split at checked
          · rename_i all_held
            exact List.all_eq_true.mp all_held
          · cases checked

theorem spliceWrite_run {offset new_size : U64} {chunks : List ChunkRef} {old : Bytes}
    (read : tryReadFile env s inode = .ok (some old))
    (held : ∀ chunk ∈ chunks, s.hasBlob chunk.hash) :
    spliceWrite env s inode offset chunks new_size =
      if 2 ^ 64 ≤ offset.val + (heldBytes s chunks).length then .error .writeEndOverflows
      else if max old.length (offset.val + (heldBytes s chunks).length) < new_size.val then
        .error (.unjustifiedSize new_size (max old.length (offset.val + (heldBytes s chunks).length)))
      else if 2 ^ 63 ≤ new_size.val then .error (.capacityOverflow new_size)
      else .ok (some (spliceBytes old (heldBytes s chunks) offset.val new_size.val)) := by
  unfold spliceWrite
  rw [incomingBytes_held held, read]
  rfl

theorem Extends.reads (kept : Extends s t) (settings : SameSettings s t)
    (held : ContentHeld env s reg) (before : FileAt inode reg s) (after : FileAt inode reg t) :
    readFile env t inode = readFile env s inode ∧ tryReadFile env t inode = tryReadFile env s inode := by
  cases named : reg.value.node_hash with
  | none =>
      exact ⟨(readFile_none after named).trans (readFile_none before named).symm,
        (tryReadFile_none after named).trans (tryReadFile_none before named).symm⟩
  | some hash =>
      obtain ⟨node, object, chunks⟩ := held hash named
      have same : materializeFile env t node = materializeFile env s node :=
        materializeFile_congr node settings.sealing_secret settings.cipher fun chunk member =>
          kept.get (chunks chunk member)
      have object' := kept.getObject object
      rw [readFile_held after named object', readFile_held before named object,
        tryReadFile_held after named object' fun chunk member => kept.hasBlob (chunks chunk member),
        tryReadFile_held before named object chunks, same]
      exact ⟨rfl, rfl⟩

end Reads

section Writes

variable {env : Env} {D : Set Bytes} {inode : U128} {s t u : CoreState} {op : FsOp}
  {reg : LwwReg ContentState} {offset new_size : U64} {chunks : List ChunkRef}

def splicedNode (env : Env) (chunk_size : Nat) (op : FsOp) (buffer : Bytes) : Object :=
  fileObject (plainRefs env (chunkBytes buffer chunk_size) 0) (Fin.ofNat (2 ^ 64) buffer.length)
    op.time_unix_ms none

/-- The byte strings a write hashes on their way into the store of an unencrypted node: its object,
and for a splice the pieces of the bytes it leaves. -/
def hashedBytes (env : Env) (t : CoreState) (op : FsOp) : List Bytes :=
  match op.kind with
  | .write inode offset chunks new_size encryption =>
      if offset = 0 ∧ chunksFormWholeFile chunks new_size then
        [encodeObject env (fileObject chunks new_size op.time_unix_ms encryption)]
      else
        match spliceWrite env t inode offset chunks new_size with
        | .ok (some buffer) =>
            encodeObject env (splicedNode env t.chunk_size op buffer) ::
              chunkBytes buffer t.chunk_size
        | _ => []
  | _ => []

private theorem grew_storeFilenode (inj : Set.InjOn env.blake3 D) (within : StoreIn env D s)
    (plain : s.cipher = none) {buffer : Bytes}
    (pieces : ∀ piece ∈ chunkBytes buffer s.chunk_size, piece ∈ D)
    (object : encodeObject env (splicedNode env s.chunk_size op buffer) ∈ D) :
    ∃ t, storeFilenodeFromBytes env buffer op.time_unix_ms s =
        .ok (objectHash env (splicedNode env s.chunk_size op buffer)) t ∧ Grew env D s t ∧
      t.blobs[objectHash env (splicedNode env s.chunk_size op buffer)]? =
        some (encodeObject env (splicedNode env s.chunk_size op buffer)) ∧
      ∀ piece ∈ chunkBytes buffer s.chunk_size, t.blobs[env.blake3 piece]? = some piece := by
  obtain ⟨mid, stores, first, found⟩ := grew_storePlain inj _ pieces 0 within
  obtain ⟨t, puts, second, here⟩ := grew_putObject inj first.within object
  refine ⟨t, ?_, first.trans second, here, fun piece member =>
    second.kept _ _ (found piece member)⟩
  unfold storeFilenodeFromBytes storeContent
  simp only [bind_run, get_run, plain, stores, pure_run]
  exact puts

/-- What a write that takes effect does to a file of an unencrypted node. -/
inductive WriteEffect (env : Env) (D : Set Bytes) (inode : U128) (op : FsOp) (offset : U64)
    (chunks : List ChunkRef) (new_size : U64) (reg : LwwReg ContentState) (t u : CoreState) : Prop
  | superseded (low : ¬reg.orderKey < regKey op) (same : u = t)
  | whole (wins : reg.orderKey < regKey op) (covers : offset = 0 ∧ chunksFormWholeFile chunks new_size)
      (grew : StoreIn env D u ∧ Extends t u)
      (file : FileAt inode (contentOf op
        (objectHash env (fileObject chunks new_size op.time_unix_ms none)) new_size) u)
      (stored : u.blobs[objectHash env (fileObject chunks new_size op.time_unix_ms none)]? =
        some (encodeObject env (fileObject chunks new_size op.time_unix_ms none)))
  | spliced {existing : Bytes} (wins : reg.orderKey < regKey op)
      (partly : ¬(offset = 0 ∧ chunksFormWholeFile chunks new_size))
      (read : tryReadFile env t inode = .ok (some existing))
      (grew : StoreIn env D u ∧ Extends t u)
      (file : FileAt inode (contentOf op (objectHash env (splicedNode env t.chunk_size op
        (spliceBytes existing (heldBytes t chunks) offset.val new_size.val))) new_size) u)
      (stored : u.blobs[objectHash env (splicedNode env t.chunk_size op
          (spliceBytes existing (heldBytes t chunks) offset.val new_size.val))]? =
        some (encodeObject env (splicedNode env t.chunk_size op
          (spliceBytes existing (heldBytes t chunks) offset.val new_size.val))))
      (pieces : ∀ piece ∈ chunkBytes (spliceBytes existing (heldBytes t chunks) offset.val
        new_size.val) t.chunk_size, u.blobs[env.blake3 piece]? = some piece)

theorem spliceWrite_some {buffer : Bytes}
    (held : ∀ chunk ∈ chunks, t.hasBlob chunk.hash)
    (result : spliceWrite env t inode offset chunks new_size = .ok (some buffer)) :
    ∃ existing, tryReadFile env t inode = .ok (some existing) ∧
      buffer = spliceBytes existing (heldBytes t chunks) offset.val new_size.val := by
  unfold spliceWrite at result
  rw [incomingBytes_held held] at result
  cases read : tryReadFile env t inode with
  | error e =>
      rw [read] at result
      cases result
  | ok found =>
      rw [read] at result
      cases found with
      | none => cases result
      | some existing =>
          have checked : (if 2 ^ 64 ≤ offset.val + (heldBytes t chunks).length then
              throw .writeEndOverflows
            else if max existing.length (offset.val + (heldBytes t chunks).length) < new_size.val then
              throw (.unjustifiedSize new_size
                (max existing.length (offset.val + (heldBytes t chunks).length)))
            else if 2 ^ 63 ≤ new_size.val then throw (.capacityOverflow new_size)
            else pure (some (spliceBytes existing (heldBytes t chunks) offset.val new_size.val)) :
              Except Err (Option Bytes)) = .ok (some buffer) := result
          split at checked
          · cases checked
          · split at checked
            · cases checked
            · split at checked
              · cases checked
              · exact ⟨existing, rfl, (Option.some.inj (Except.ok.inj checked)).symm⟩

theorem FileAt.merged {record : InodeRecord} (file : record.kind = .file)
    (wins : record.content.orderKey < regKey op) (node_hash : Hash) :
    FileAt inode (contentOf op node_hash new_size)
      (mergeContent op inode record node_hash new_size u) := by
  refine ⟨_, (loadInode_storeInode u inode inode _).trans (if_pos rfl), file, ?_⟩
  show record.content.merge (contentOf op node_hash new_size) = contentOf op node_hash new_size
  have higher : record.content.orderKey < (contentOf op node_hash new_size).orderKey := wins
  unfold LwwReg.merge
  rw [if_pos higher]

/-- A write that takes effect has one of these effects, when its byte strings are in `D`. -/
theorem writeEffect_of_mutate (inj : Set.InjOn env.blake3 D) (within : StoreIn env D t)
    (plain : t.cipher = none) (kindIs : op.kind = .write inode offset chunks new_size none)
    (held : ∀ chunk ∈ chunks, t.hasBlob chunk.hash) (file : FileAt inode reg t)
    (hashed : ∀ bytes ∈ hashedBytes env t op, bytes ∈ D)
    (run : mutate env op t = .ok .done u) :
    WriteEffect env D inode op offset chunks new_size reg t u := by
  obtain ⟨record, found, kind, rfl⟩ := file
  have none_missing : firstMissingChunk t chunks = none := by
    unfold firstMissingChunk
    rw [Option.map_eq_none_iff, List.find?_eq_none]
    intro chunk member
    simp [held chunk member]
  simp only [hashedBytes, kindIs] at hashed
  simp only [mutate, kindIs, mutateWrite, bind_run, get_run, found, kind, ne_eq, not_true_eq_false,
    if_false, none_missing] at run
  by_cases wins : record.content.orderKey < regKey op
  · have can_win : writeCanWin record.content op = true := decide_eq_true wins
    simp only [can_win, Bool.not_true, Bool.false_eq_true, if_false] at run
    by_cases covers : offset = 0 ∧ chunksFormWholeFile chunks new_size
    · rw [if_pos covers] at run hashed
      obtain ⟨mid, puts, grew, here⟩ := grew_putObject inj within
        (hashed _ List.mem_cons_self)
      simp only [makeFilenode, bind_run, puts, modify_run, pure_run] at run
      cases run
      exact .whole wins covers ⟨grew.within, grew.kept⟩ (.merged kind wins _) here
    · rw [if_neg covers] at run hashed
      rw [bind_run] at run
      cases splice : spliceWrite env t inode offset chunks new_size with
      | error e =>
          rw [splice] at run
          cases run
      | ok result =>
          rw [splice] at run hashed
          cases result with
          | none => cases run
          | some buffer =>
              obtain ⟨existing, read, rfl⟩ := spliceWrite_some held splice
              obtain ⟨mid, stores, grew, here, pieces⟩ := grew_storeFilenode inj within plain
                (fun piece member => hashed piece (List.mem_cons_of_mem _ member))
                (hashed _ List.mem_cons_self)
              simp only [liftCheck_ok, bind_run, stores, modify_run, pure_run] at run
              cases run
              exact .spliced wins covers read ⟨grew.within, grew.kept⟩ (.merged kind wins _) here
                pieces
  · have cannot : writeCanWin record.content op = false := decide_eq_false wins
    simp only [cannot, Bool.not_false, if_true, pure_run] at run
    cases run
    exact .superseded wins rfl

end Writes

section Simulation

variable {env : Env} {D : Set Bytes} {ids : Set OpId} {inode : U128} {s t u : CoreState}
  {op : FsOp} {ops : List FsOp} {base reg : LwwReg ContentState} {value : Nat → UInt8}

/-- What a write gives for a byte of the file, if it gives anything: a whole write gives every
byte, a partial one what it carries and the zeros past its size. -/
def writtenByte (s : CoreState) (op : FsOp) (p : Nat) : Option UInt8 :=
  match op.kind with
  | .write _ offset chunks new_size _ =>
      if offset = 0 ∧ chunksFormWholeFile chunks new_size then some (padded (heldBytes s chunks) p)
      else if new_size.val ≤ p then some 0
      else if offset.val ≤ p ∧ p < offset.val + (heldBytes s chunks).length then
        some (padded (heldBytes s chunks) (p - offset.val))
      else none
  | _ => none

def PlainWrite (s : CoreState) (inode : U128) (op : FsOp) : Prop :=
  ∃ offset chunks new_size, op.kind = .write inode offset chunks new_size none ∧
    ∀ chunk ∈ chunks, s.hasBlob chunk.hash

/-- How the content of a file came about in a delivery to `s`: it is what it was, or a write of the
batch stored it. -/
inductive ContentIs (env : Env) (s : CoreState) (inode : U128) (ops : List FsOp)
    (base : LwwReg ContentState) (t : CoreState) :
    LwwReg ContentState → (Nat → UInt8) → Prop
  | kept : ContentIs env s inode ops base t base (padded (baseBytes env s inode))
  | whole {op : FsOp} {chunks : List ChunkRef} {offset new_size : U64} (member : op ∈ ops)
      (above : base.orderKey < regKey op)
      (shape : op.kind = .write inode offset chunks new_size none)
      (covers : offset = 0 ∧ chunksFormWholeFile chunks new_size)
      (stored : t.blobs[objectHash env (fileObject chunks new_size op.time_unix_ms none)]? =
        some (encodeObject env (fileObject chunks new_size op.time_unix_ms none))) :
      ContentIs env s inode ops base t
        (contentOf op (objectHash env (fileObject chunks new_size op.time_unix_ms none)) new_size)
        (padded (heldBytes s chunks))
  | spliced {op : FsOp} {chunks : List ChunkRef} {offset new_size : U64} {buffer : Bytes}
      (member : op ∈ ops) (above : base.orderKey < regKey op)
      (shape : op.kind = .write inode offset chunks new_size none)
      (partly : ¬(offset = 0 ∧ chunksFormWholeFile chunks new_size))
      (length : buffer.length = new_size.val)
      (stored : t.blobs[objectHash env (splicedNode env s.chunk_size op buffer)]? =
        some (encodeObject env (splicedNode env s.chunk_size op buffer)))
      (pieces : ∀ piece ∈ chunkBytes buffer s.chunk_size, t.blobs[env.blake3 piece]? = some piece) :
      ContentIs env s inode ops base t
        (contentOf op (objectHash env (splicedNode env s.chunk_size op buffer)) new_size)
        (padded buffer)

theorem ContentIs.mono (content : ContentIs env s inode ops base t reg value)
    (kept : Extends t u) : ContentIs env s inode ops base u reg value := by
  cases content with
  | kept => exact .kept
  | whole member above shape covers stored =>
      exact .whole member above shape covers (kept _ _ stored)
  | spliced member above shape partly length stored pieces =>
      exact .spliced member above shape partly length (kept _ _ stored) fun piece inside =>
        kept _ _ (pieces piece inside)

theorem ContentIs.key_le (content : ContentIs env s inode ops base t reg value) :
    base.orderKey ≤ reg.orderKey := by
  cases content with
  | kept => exact le_rfl
  | whole _ above => exact above.le
  | spliced _ above => exact above.le

private theorem PlainWrite.held (plain : PlainWrite s inode op) {offset new_size : U64}
    {chunks : List ChunkRef} (shape : op.kind = .write inode offset chunks new_size none) :
    ∀ chunk ∈ chunks, s.hasBlob chunk.hash := by
  obtain ⟨offset', chunks', new_size', kindIs, held⟩ := plain
  rw [shape] at kindIs
  obtain ⟨-, -, rfl, -, -⟩ := FsOpKind.write.inj kindIs
  exact held

private theorem materialize_spliced {chunk_size : Nat} {buffer : Bytes} {result : Bytes}
    {node : FileNode} (isNode : splicedNode env chunk_size op buffer = .fileNode node)
    (pieces : ∀ piece ∈ chunkBytes buffer chunk_size, t.blobs[env.blake3 piece]? = some piece)
    (run : materializeFile env t node = .ok result) : result = buffer := by
  obtain rfl := Object.fileNode.inj isNode
  rw [materializeFile_plain rfl run, heldBytes_plainRefs _ _ pieces, flatten_chunkBytes]

private theorem hasBlob_pieces {chunk_size : Nat} {buffer : Bytes}
    (pieces : ∀ piece ∈ chunkBytes buffer chunk_size, t.blobs[env.blake3 piece]? = some piece) :
    ∀ chunk ∈ plainRefs env (chunkBytes buffer chunk_size) 0, t.hasBlob chunk.hash := by
  intro chunk member
  have hashed : chunk.hash ∈ (chunkBytes buffer chunk_size).map env.blake3 := by
    rw [← map_hash_plainRefs _ 0]
    exact List.mem_map_of_mem member
  obtain ⟨piece, inside, same⟩ := List.mem_map.mp hashed
  rw [hasBlob_iff_get, ← same, pieces piece inside]
  rfl

theorem ContentIs.read (content : ContentIs env s inode ops base t reg value)
    (decodes : ∀ object, env.decodeObject (env.encodeObject object) = some object)
    (held : ContentHeld env s base) (before : FileAt inode base s)
    (writes : ∀ op ∈ ops, PlainWrite s inode op) (file : FileAt inode reg t)
    (settings : SameSettings s t) (kept : Extends s t) {existing : Bytes}
    (run : tryReadFile env t inode = .ok (some existing)) : padded existing = value := by
  cases content with
  | kept =>
      rw [(kept.reads settings held before file).2] at run
      simp only [baseBytes, run]
  | @whole op chunks offset new_size member above shape covers stored =>
      have here := (writes op member).held shape
      have later : ∀ chunk ∈ chunks, t.hasBlob chunk.hash := fun chunk inside =>
        kept.hasBlob (here chunk inside)
      have object := getObject_found decodes stored
      rw [tryReadFile_held file rfl object later] at run
      rw [materializeFile_plain rfl (map_some_ok run)]
      exact congrArg padded (heldBytes_congr fun chunk inside => kept.get (here chunk inside))
  | @spliced op chunks offset new_size buffer member above shape partly length stored pieces =>
      have object := getObject_found decodes stored
      rw [tryReadFile_held file rfl object (hasBlob_pieces pieces)] at run
      rw [materialize_spliced rfl pieces (map_some_ok run)]

theorem op_of_key (distinct : (ops.map FsOp.id).Nodup) {a b : FsOp} (left : a ∈ ops)
    (right : b ∈ ops) (same : regKey a = regKey b) : a = b :=
  List.inj_on_of_nodup_map distinct left right (regKey_inj same)

private theorem ContentIs.unwritten (content : ContentIs env s inode ops base t reg value)
    (key : reg.orderKey = base.orderKey) : reg = base ∧ value = padded (baseBytes env s inode) := by
  cases content with
  | kept => exact ⟨rfl, rfl⟩
  | whole _ above => exact absurd (key ▸ above : base.orderKey < base.orderKey) (lt_irrefl _)
  | spliced _ above => exact absurd (key ▸ above : base.orderKey < base.orderKey) (lt_irrefl _)

private theorem ContentIs.written (content : ContentIs env s inode ops base t reg value)
    (distinct : (ops.map FsOp.id).Nodup) (member : op ∈ ops) (above : base.orderKey < regKey op)
    (key : reg.orderKey = regKey op) {offset new_size : U64} {chunks : List ChunkRef}
    (shape : op.kind = .write inode offset chunks new_size none) :
    ((offset = 0 ∧ chunksFormWholeFile chunks new_size) ∧
      reg = contentOf op (objectHash env (fileObject chunks new_size op.time_unix_ms none)) new_size ∧
      value = padded (heldBytes s chunks) ∧
      t.blobs[objectHash env (fileObject chunks new_size op.time_unix_ms none)]? =
        some (encodeObject env (fileObject chunks new_size op.time_unix_ms none))) ∨
    ∃ buffer, ¬(offset = 0 ∧ chunksFormWholeFile chunks new_size) ∧
      reg = contentOf op (objectHash env (splicedNode env s.chunk_size op buffer)) new_size ∧
      value = padded buffer ∧ buffer.length = new_size.val ∧
      t.blobs[objectHash env (splicedNode env s.chunk_size op buffer)]? =
        some (encodeObject env (splicedNode env s.chunk_size op buffer)) ∧
      ∀ piece ∈ chunkBytes buffer s.chunk_size, t.blobs[env.blake3 piece]? = some piece := by
  cases content with
  | kept => exact absurd (key ▸ above) (lt_irrefl _)
  | whole inside _ kindIs covers stored =>
      obtain rfl := op_of_key distinct inside member key
      rw [shape] at kindIs
      obtain ⟨-, rfl, rfl, rfl, -⟩ := FsOpKind.write.inj kindIs
      exact .inl ⟨covers, rfl, rfl, stored⟩
  | spliced inside _ kindIs partly length stored pieces =>
      obtain rfl := op_of_key distinct inside member key
      rw [shape] at kindIs
      obtain ⟨-, rfl, rfl, rfl, -⟩ := FsOpKind.write.inj kindIs
      exact .inr ⟨_, partly, rfl, rfl, length, stored, pieces⟩

/-- What two replicas have to agree on: the content register and the bytes read back. -/
structure SameContent (env : Env) (inode : U128) (t u : CoreState) : Prop where
  register : contentAt t inode = contentAt u inode
  bytes : readFile env t inode = readFile env u inode

/-- Where a delivery to `s` has brought a file: the register and the bytes, and a store that still
has everything. -/
structure Delivered (env : Env) (D : Set Bytes) (s : CoreState) (inode : U128) (ops : List FsOp)
    (base : LwwReg ContentState) (reg : LwwReg ContentState) (value : Nat → UInt8)
    (t : CoreState) : Prop where
  file : FileAt inode reg t
  content : ContentIs env s inode ops base t reg value
  settings : SameSettings s t
  within : StoreIn env D t
  kept : Extends s t

theorem Delivered.agree (left : Delivered env D s inode ops base reg value t)
    {reg' : LwwReg ContentState} (right : Delivered env D s inode ops base reg' value u)
    (decodes : ∀ object, env.decodeObject (env.encodeObject object) = some object)
    (distinct : (ops.map FsOp.id).Nodup) (held : ContentHeld env s base)
    (before : FileAt inode base s) (writes : ∀ op ∈ ops, PlainWrite s inode op)
    (keys : reg.orderKey = reg'.orderKey) : SameContent env inode t u := by
  have secret : t.sealing_secret = u.sealing_secret :=
    left.settings.sealing_secret.trans right.settings.sealing_secret.symm
  have cipher : t.cipher = u.cipher := left.settings.cipher.trans right.settings.cipher.symm
  suffices same : reg = reg' ∧ readFile env t inode = readFile env u inode by
    refine ⟨?_, same.2⟩
    rw [left.file.contentAt, right.file.contentAt, same.1]
  have file := left.file
  have file' := right.file
  have content := left.content
  have content' := right.content
  cases content with
  | kept =>
      obtain ⟨rfl, -⟩ := content'.unwritten keys.symm
      exact ⟨rfl, ((left.kept.reads left.settings held before file).1).trans
        ((right.kept.reads right.settings held before file').1).symm⟩
  | @whole op chunks offset new_size member above shape covers stored =>
      rcases content'.written distinct member above keys.symm shape with
        ⟨-, rfl, -, stored'⟩ | ⟨_, partly, _⟩
      · have here := (writes op member).held shape
        rw [readFile_held file rfl (getObject_found decodes stored),
          readFile_held file' rfl (getObject_found decodes stored')]
        refine ⟨rfl, materializeFile_congr _ secret cipher fun chunk inside => ?_⟩
        rw [left.kept.get (here chunk inside), right.kept.get (here chunk inside)]
      · exact absurd covers partly
  | @spliced op chunks offset new_size buffer member above shape partly length stored pieces =>
      rcases content'.written distinct member above keys.symm shape with
        ⟨covers, _⟩ | ⟨buffer', -, rfl, bytes, length', stored', pieces'⟩
      · exact absurd covers partly
      · obtain rfl := padded_injective (length.trans length'.symm) bytes
        rw [readFile_held file rfl (getObject_found decodes stored),
          readFile_held file' rfl (getObject_found decodes stored')]
        refine ⟨rfl, materializeFile_congr _ secret cipher fun chunk inside => ?_⟩
        have hashed : chunk.hash ∈ (chunkBytes buffer s.chunk_size).map env.blake3 := by
          rw [← map_hash_plainRefs _ 0]
          exact List.mem_map_of_mem inside
        obtain ⟨piece, belongs, same⟩ := List.mem_map.mp hashed
        rw [← same, pieces piece belongs, pieces' piece belongs]

private theorem map_eq_of_injOn {A B : Type} {f : A → B} {S : Set A} (inj : Set.InjOn f S)
    {l l' : List A} (left : ∀ a ∈ l, a ∈ S) (right : ∀ a ∈ l', a ∈ S)
    (same : l.map f = l'.map f) : l = l' := by
  induction l generalizing l' with
  | nil => exact (List.map_eq_nil_iff.mp same.symm).symm
  | cons a l ih =>
      cases l' with
      | nil => cases same
      | cons b l' =>
          rw [List.map_cons, List.map_cons, List.cons.injEq] at same
          rw [inj (left a List.mem_cons_self) (right b List.mem_cons_self) same.1,
            ih (fun c member => left c (List.mem_cons_of_mem a member))
              (fun c member => right c (List.mem_cons_of_mem b member)) same.2]

private theorem buffer_of_node (inj : Set.InjOn env.blake3 D)
    (decodes : ∀ object, env.decodeObject (env.encodeObject object) = some object)
    (within : StoreIn env D t) (within' : StoreIn env D u) {buffer buffer' : Bytes}
    (stored : t.blobs[objectHash env (splicedNode env s.chunk_size op buffer)]? =
      some (encodeObject env (splicedNode env s.chunk_size op buffer)))
    (stored' : u.blobs[objectHash env (splicedNode env s.chunk_size op buffer')]? =
      some (encodeObject env (splicedNode env s.chunk_size op buffer')))
    (pieces : ∀ piece ∈ chunkBytes buffer s.chunk_size, t.blobs[env.blake3 piece]? = some piece)
    (pieces' : ∀ piece ∈ chunkBytes buffer' s.chunk_size, u.blobs[env.blake3 piece]? = some piece)
    (same : objectHash env (splicedNode env s.chunk_size op buffer) =
      objectHash env (splicedNode env s.chunk_size op buffer')) : buffer = buffer' := by
  have encoded := inj (within _ _ stored).1 (within' _ _ stored').1 same
  have nodes : splicedNode env s.chunk_size op buffer = splicedNode env s.chunk_size op buffer' := by
    have left := decodes (splicedNode env s.chunk_size op buffer)
    have right := decodes (splicedNode env s.chunk_size op buffer')
    have equal : env.encodeObject (splicedNode env s.chunk_size op buffer) =
        env.encodeObject (splicedNode env s.chunk_size op buffer') := encoded
    rw [equal] at left
    exact Option.some.inj (left.symm.trans right)
  have refs : plainRefs env (chunkBytes buffer s.chunk_size) 0 =
      plainRefs env (chunkBytes buffer' s.chunk_size) 0 := by
    have chunks := congrArg FileNode.chunks (Object.fileNode.inj nodes)
    exact chunks
  have hashes : (chunkBytes buffer s.chunk_size).map env.blake3 =
      (chunkBytes buffer' s.chunk_size).map env.blake3 := by
    rw [← map_hash_plainRefs _ 0, refs, map_hash_plainRefs]
  have equal : chunkBytes buffer s.chunk_size = chunkBytes buffer' s.chunk_size :=
    map_eq_of_injOn inj (fun piece member => (within _ _ (pieces piece member)).1)
      (fun piece member => (within' _ _ (pieces' piece member)).1) hashes
  rw [← flatten_chunkBytes buffer s.chunk_size, equal, flatten_chunkBytes]

theorem Delivered.value_eq (left : Delivered env D s inode ops base reg value t)
    {value' : Nat → UInt8} (right : Delivered env D s inode ops base reg value' u)
    (inj : Set.InjOn env.blake3 D)
    (decodes : ∀ object, env.decodeObject (env.encodeObject object) = some object)
    (distinct : (ops.map FsOp.id).Nodup) : value = value' := by
  have content := left.content
  have content' := right.content
  have within := left.within
  cases content with
  | kept => exact (content'.unwritten rfl).2.symm
  | whole member above shape covers stored =>
      rcases content'.written distinct member above rfl shape with
        ⟨-, -, same, -⟩ | ⟨_, partly, _⟩
      · exact same.symm
      · exact absurd covers partly
  | spliced member above shape partly length stored pieces =>
      rcases content'.written distinct member above rfl shape with
        ⟨covers, _⟩ | ⟨buffer', -, same, bytes, -, stored', pieces'⟩
      · exact absurd covers partly
      · have named := congrArg (fun r : LwwReg ContentState => r.value.node_hash) same
        rw [bytes, buffer_of_node inj decodes within right.within stored stored' pieces pieces'
          (Option.some.inj named)]

private theorem lay_spliced {existing : Bytes} {offset new_size : U64} {chunks : List ChunkRef}
    {encryption : Option FileEncryption}
    (shape : op.kind = .write inode offset chunks new_size encryption)
    (partly : ¬(offset = 0 ∧ chunksFormWholeFile chunks new_size)) :
    padded (spliceBytes existing (heldBytes s chunks) offset.val new_size.val) =
      Overlay.lay (writtenByte s op) (padded existing) := by
  funext p
  rw [padded_spliceBytes]
  unfold Overlay.lay writtenByte
  simp only [shape, if_neg partly]
  split
  · rfl
  · split
    · rfl
    · rfl

private theorem lay_whole {below : Nat → UInt8} {offset new_size : U64} {chunks : List ChunkRef}
    {encryption : Option FileEncryption}
    (shape : op.kind = .write inode offset chunks new_size encryption)
    (covers : offset = 0 ∧ chunksFormWholeFile chunks new_size) :
    padded (heldBytes s chunks) = Overlay.lay (writtenByte s op) below := by
  funext p
  unfold Overlay.lay writtenByte
  simp only [shape, if_pos covers, Option.getD_some]

theorem Delivered.write (delivered : Delivered env D s inode ops base reg value t)
    (inj : Set.InjOn env.blake3 D)
    (decodes : ∀ object, env.decodeObject (env.encodeObject object) = some object)
    (plain : s.cipher = none) (held : ContentHeld env s base) (before : FileAt inode base s)
    (writes : ∀ op ∈ ops, PlainWrite s inode op) (member : op ∈ ops)
    (hashed : ∀ bytes ∈ hashedBytes env t op, bytes ∈ D) (run : mutate env op t = .ok .done u) :
    ∃ reg', reg'.orderKey = (Overlay.put regKey (writtenByte s) ⟨reg.orderKey, value⟩ op).key ∧
      Delivered env D s inode ops base reg'
        (Overlay.put regKey (writtenByte s) ⟨reg.orderKey, value⟩ op).value u := by
  obtain ⟨offset, chunks, new_size, shape, here⟩ := writes op member
  have settings : SameSettings s u := by
    have effect := mutate_spec env op t
    rw [run] at effect
    obtain ⟨_, _, _, _, _, -, rfl⟩ := Effect.frame effect
    exact delivered.settings.trans ⟨rfl, rfl, rfl⟩
  have bytes : heldBytes t chunks = heldBytes s chunks :=
    heldBytes_congr fun chunk inside => delivered.kept.get (here chunk inside)
  have effect := writeEffect_of_mutate inj delivered.within
    (delivered.settings.cipher.trans plain) shape
    (fun chunk inside => delivered.kept.hasBlob (here chunk inside)) delivered.file hashed run
  cases effect with
  | superseded low same =>
      subst same
      rw [Overlay.put_low low]
      exact ⟨reg, rfl, delivered⟩
  | whole wins covers grew file stored =>
      rw [Overlay.put_high wins]
      have above := delivered.content.key_le.trans_lt wins
      refine ⟨_, rfl, file, ?_, settings, grew.1, delivered.kept.trans grew.2⟩
      rw [← lay_whole shape covers]
      exact .whole member above shape covers stored
  | @spliced existing wins partly read grew file stored pieces =>
      rw [Overlay.put_high wins]
      have above := delivered.content.key_le.trans_lt wins
      have value_is := delivered.content.read decodes held before writes delivered.file
        delivered.settings delivered.kept read
      rw [bytes, delivered.settings.chunk_size] at file stored pieces
      refine ⟨_, rfl, file, ?_, settings, grew.1, delivered.kept.trans grew.2⟩
      rw [← value_is, ← lay_spliced shape partly]
      exact .spliced member above shape partly (spliceBytes_length _ _ _ _) stored pieces

end Simulation

end NexusFS.Core
