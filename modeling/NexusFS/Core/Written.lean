/- GID: NexusFS/Core/Written
   source: crates/core/src/apply.rs, crates/core/src/state.rs, crates/core/src/namespace.rs
   digest: The file that a write leaves where it takes the register, and how it reads back. -/

import NexusFS.Core.Sealed
import NexusFS.Core.Splice

set_option autoImplicit false
set_option relaxedAutoImplicit false

namespace NexusFS.Core

open NexusFS.Lib NexusFS.Lib.Effect NexusFS.Proto NexusFS.Crdt CoreState

section Apart

variable {env : Env} {s t : CoreState} {more : List Bytes}

def heldOr (s t : CoreState) (more : List Bytes) : Set Bytes :=
  {b | b ∈ more ∨ (∃ hash : Hash, s.blobs[hash]? = some b) ∨ ∃ hash : Hash, t.blobs[hash]? = some b}

/-- No two byte strings share a hash, of those held at either state and those listed. -/
def Apart (env : Env) (s t : CoreState) (more : List Bytes) : Prop :=
  Set.InjOn env.blake3 (heldOr s t more)

theorem Keyed.within_left (keyed : Keyed env s) : StoreIn env (heldOr s t more) s :=
  fun hash _ here => ⟨.inr (.inl ⟨hash, here⟩), keyed _ _ here⟩

theorem Keyed.within_right (keyed : Keyed env t) : StoreIn env (heldOr s t more) t :=
  fun hash _ here => ⟨.inr (.inr ⟨hash, here⟩), keyed _ _ here⟩

theorem Keyed.appendOp (keyed : Keyed env s) (op : FsOp) : Keyed env (s.appendOp op) := keyed

theorem extends_of_keeps {D : Set Bytes} (inj : Set.InjOn env.blake3 D) (within : StoreIn env D s)
    (within' : StoreIn env D t) (keeps : ∀ hash, s.hasBlob hash → t.hasBlob hash) :
    Extends s t := by
  intro hash bytes here
  have present : s.hasBlob hash := hasBlob_iff_get.mpr (by rw [here]; rfl)
  obtain ⟨found, there⟩ := Option.isSome_iff_exists.mp (hasBlob_iff_get.mp (keeps hash present))
  obtain ⟨inside, hashed⟩ := within hash bytes here
  obtain ⟨inside', hashed'⟩ := within' hash found there
  rw [there, inj inside inside' (hashed.trans hashed'.symm)]

theorem apart_of_extends (keyed : Keyed env s) (keyed' : Keyed env t) (kept : Extends s t)
    (listed : ∀ bytes ∈ more, t.blobs[env.blake3 bytes]? = some bytes) : Apart env s t more := by
  have found : ∀ bytes ∈ heldOr s t more, t.blobs[env.blake3 bytes]? = some bytes := by
    rintro bytes (member | ⟨hash, here⟩ | ⟨hash, here⟩)
    · exact listed bytes member
    · rw [keyed hash bytes here]
      exact kept hash bytes here
    · rw [keyed' hash bytes here]
      exact here
  intro a left b right same
  have one := found a left
  rw [same, found b right] at one
  exact (Option.some.inj one).symm

end Apart

section Stores

variable {env : Env} {D : Set Bytes} {s t u : CoreState}

/-- Storing byte strings of `D` leaves what was there, and every one can be found. -/
theorem grew_putAll (inj : Set.InjOn env.blake3 D) {stored : List Bytes}
    (members : ∀ bytes ∈ stored, bytes ∈ D) (within : StoreIn env D s) :
    Grew env D s (putAll env stored s) ∧
      ∀ bytes ∈ stored, (putAll env stored s).blobs[env.blake3 bytes]? = some bytes := by
  induction stored generalizing s with
  | nil => exact ⟨⟨rfl, within, .refl s⟩, by simp⟩
  | cons first rest ih =>
      have grew := grew_putBlob inj within (members first List.mem_cons_self)
      obtain ⟨later, found⟩ := ih (fun bytes inside =>
        members bytes (List.mem_cons_of_mem first inside)) grew.within
      exact ⟨grew.trans later,
        List.forall_mem_cons.mpr ⟨later.kept _ _ (get_putBlob _ _), found⟩⟩

def contentObject (env : Env) (s : CoreState) (data : Bytes) (now : U64)
    (info : Option FileEncryption) : Object :=
  fileObject (contentRefs env s data) (Fin.ofNat (2 ^ 64) data.length) now info

def contentInfo (env : Env) (s : CoreState) (data : Bytes) : Option FileEncryption :=
  match storeContent env data s with
  | .ok (_, info) _ => info
  | .error _ _ => none

/-- What the key of stored content is protected by: nothing on a node without a cipher. -/
def Protects (env : Env) (s : CoreState) (info : Option FileEncryption) : Prop :=
  (s.cipher = none ∧ info = none) ∨ ∃ cipher made, s.cipher = some cipher ∧ info = some made ∧
    Protected env s (freshKey env s) cipher made

theorem contentInfo_protects (ideal : Ideal env) (data : Bytes) (s : CoreState) :
    Protects env s (contentInfo env s data) := by
  obtain ⟨info, d, run, made⟩ := storeContent_run ideal data s
  unfold contentInfo
  rw [run]
  exact made

theorem storeContent_eq (ideal : Ideal env) (data : Bytes) (s : CoreState) : ∃ d,
    storeContent env data s = .ok (contentRefs env s data, contentInfo env s data)
      { putAll env (contentPieces env s data) s with draws := d } := by
  obtain ⟨info, d, run, -⟩ := storeContent_run ideal data s
  refine ⟨d, ?_⟩
  unfold contentInfo
  rw [run]

/-- Storing a file of `D`: its object and all pieces can be found. -/
theorem storeFilenode_run (ideal : Ideal env) (inj : Set.InjOn env.blake3 D)
    (within : StoreIn env D s) {data : Bytes} {now : U64}
    (pieces : ∀ piece ∈ contentPieces env s data, piece ∈ D)
    (object : encodeObject env (contentObject env s data now (contentInfo env s data)) ∈ D) :
    ∃ t, storeFilenodeFromBytes env data now s =
        .ok (objectHash env (contentObject env s data now (contentInfo env s data))) t ∧
      StoreIn env D t ∧ Extends s t ∧ t = { s with blobs := t.blobs, draws := t.draws } ∧
      t.blobs[objectHash env (contentObject env s data now (contentInfo env s data))]? =
        some (encodeObject env (contentObject env s data now (contentInfo env s data))) ∧
      ∀ piece ∈ contentPieces env s data, t.blobs[env.blake3 piece]? = some piece := by
  obtain ⟨d, run⟩ := storeContent_eq ideal data s
  obtain ⟨grew, found⟩ := grew_putAll inj pieces within
  obtain ⟨t, puts, second, here⟩ := @grew_putObject env D
    { putAll env (contentPieces env s data) s with draws := d } inj grew.within _ object
  refine ⟨t, ?_, second.within, grew.kept.trans second.kept, ?_, here,
    fun piece member => second.kept _ _ (found piece member)⟩
  · unfold storeFilenodeFromBytes
    rw [bind_run, run]
    exact puts
  · have only := second.only
    rw [grew.only] at only
    rw [only]

end Stores

section Attempts

variable {env : Env} {D : Set Bytes} {inode : U128} {s t u : CoreState} {op : FsOp}
  {reg : LwwReg ContentState} {offset new_size : U64} {chunks : List ChunkRef}
  {encryption : Option FileEncryption} {node : FileNode}

/-- The byte strings a write stores: its object, and for a splice the pieces of what it leaves. -/
def storedBytes (env : Env) (s : CoreState) (op : FsOp) : List Bytes :=
  match op.kind with
  | .write inode offset chunks new_size encryption =>
      if offset = 0 ∧ chunksFormWholeFile chunks new_size then
        [encodeObject env (fileObject chunks new_size op.time_unix_ms encryption)]
      else
        match spliceWrite env s inode offset chunks new_size with
        | .ok (some buffer) =>
            encodeObject env (contentObject env s buffer op.time_unix_ms (contentInfo env s buffer)) ::
              contentPieces env s buffer
        | _ => []
  | _ => []

/-- A file whose register names a stored object under the operation's key. -/
structure Placed (env : Env) (D : Set Bytes) (op : FsOp) (inode : U128) (object : Object)
    (new_size : U64) (s t : CoreState) : Prop where
  file : FileAt inode (contentOf op (objectHash env object) new_size) t
  stored : t.blobs[objectHash env object]? = some (encodeObject env object)
  within : StoreIn env D t
  kept : Extends s t
  settings : SameSettings s t

theorem firstMissingChunk_eq_none :
    firstMissingChunk s chunks = none ↔ ∀ chunk ∈ chunks, s.hasBlob chunk.hash := by
  unfold firstMissingChunk
  rw [Option.map_eq_none_iff, List.find?_eq_none]
  simp

private theorem mutate_winning (shape : op.kind = .write inode offset chunks new_size encryption)
    (file : FileAt inode reg s) (wins : reg.orderKey < regKey op) : ∃ record,
    s.loadInode inode = some record ∧ record.kind = .file ∧ record.content = reg ∧
      mutate env op s =
        match firstMissingChunk s chunks with
        | some missing => .ok (.unmet (.chunkMissing missing)) s
        | none =>
            (if offset = 0 ∧ chunksFormWholeFile chunks new_size then do
              let node_hash ← makeFilenode env chunks new_size op.time_unix_ms encryption
              modify (mergeContent op inode record node_hash new_size)
              return .done
            else do
              match ← liftCheck (spliceWrite env s inode offset chunks new_size) with
              | none => return .unmet (.contentUnavailable inode)
              | some buffer =>
                  let node_hash ← storeFilenodeFromBytes env buffer op.time_unix_ms
                  modify (mergeContent op inode record node_hash new_size)
                  return .done : M Mutation) s := by
  obtain ⟨record, found, kind, rfl⟩ := file
  refine ⟨record, found, kind, rfl, ?_⟩
  have can_win : writeCanWin record.content op = true := decide_eq_true wins
  simp only [mutate, shape, mutateWrite, bind_run, get_run, found, kind, ne_eq, not_true_eq_false,
    if_false, can_win, Bool.not_true, Bool.false_eq_true]
  cases firstMissingChunk s chunks with
  | some missing => rfl
  | none => rfl

theorem mutate_whole (inj : Set.InjOn env.blake3 D) (within : StoreIn env D s)
    (shape : op.kind = .write inode offset chunks new_size encryption)
    (file : FileAt inode reg s) (wins : reg.orderKey < regKey op)
    (held : ∀ chunk ∈ chunks, s.hasBlob chunk.hash)
    (covers : offset = 0 ∧ chunksFormWholeFile chunks new_size)
    (hashed : ∀ bytes ∈ storedBytes env s op, bytes ∈ D) :
    ∃ u, mutate env op s = .ok .done u ∧
      Placed env D op inode (fileObject chunks new_size op.time_unix_ms encryption) new_size s u := by
  simp only [storedBytes, shape, if_pos covers] at hashed
  obtain ⟨record, found, kind, rfl, run⟩ := @mutate_winning env inode s op reg offset new_size chunks
    encryption shape file wins
  obtain ⟨mid, puts, grew, here⟩ := grew_putObject inj within (hashed _ List.mem_cons_self)
  rw [run, firstMissingChunk_eq_none.mpr held]
  dsimp only
  rw [if_pos covers]
  simp only [makeFilenode, bind_run, puts, modify_run, pure_run]
  refine ⟨_, rfl, .merged kind wins _, here, grew.within, grew.kept, ?_⟩
  rw [grew.only]
  exact ⟨rfl, rfl, rfl⟩

theorem mutate_spliced (ideal : Ideal env) (inj : Set.InjOn env.blake3 D) (within : StoreIn env D s)
    (shape : op.kind = .write inode offset chunks new_size encryption)
    (file : FileAt inode reg s) (wins : reg.orderKey < regKey op)
    (held : ∀ chunk ∈ chunks, s.hasBlob chunk.hash)
    (partly : ¬(offset = 0 ∧ chunksFormWholeFile chunks new_size)) {buffer : Bytes}
    (splice : spliceWrite env s inode offset chunks new_size = .ok (some buffer))
    (hashed : ∀ bytes ∈ storedBytes env s op, bytes ∈ D) :
    ∃ u, mutate env op s = .ok .done u ∧
      Placed env D op inode
        (contentObject env s buffer op.time_unix_ms (contentInfo env s buffer)) new_size s u ∧
      ∀ piece ∈ contentPieces env s buffer, u.blobs[env.blake3 piece]? = some piece := by
  simp only [storedBytes, shape, if_neg partly, splice] at hashed
  obtain ⟨record, found, kind, rfl, run⟩ := @mutate_winning env inode s op reg offset new_size chunks
    encryption shape file wins
  obtain ⟨mid, stores, inside, kept, only, here, pieces⟩ := storeFilenode_run ideal inj within
    (fun piece member => hashed piece (List.mem_cons_of_mem _ member)) (hashed _ List.mem_cons_self)
  rw [run, firstMissingChunk_eq_none.mpr held]
  dsimp only
  rw [if_neg partly, splice]
  simp only [liftCheck_ok, bind_run, stores, modify_run, pure_run]
  refine ⟨_, rfl, ⟨.merged kind wins _, here, inside, kept, ?_⟩, pieces⟩
  rw [only]
  exact ⟨rfl, rfl, rfl⟩

theorem mutate_unspliced (shape : op.kind = .write inode offset chunks new_size encryption)
    (file : FileAt inode reg s) (wins : reg.orderKey < regKey op)
    (held : ∀ chunk ∈ chunks, s.hasBlob chunk.hash)
    (partly : ¬(offset = 0 ∧ chunksFormWholeFile chunks new_size)) {e : Err}
    (splice : spliceWrite env s inode offset chunks new_size = .error e) :
    mutate env op s = .error e s := by
  obtain ⟨record, found, kind, rfl, run⟩ := @mutate_winning env inode s op reg offset new_size chunks
    encryption shape file wins
  rw [run, firstMissingChunk_eq_none.mpr held]
  dsimp only
  rw [if_neg partly, splice]
  rfl

/-- A write that took the register had its chunks, and could be spliced unless it is whole. -/
theorem held_of_mutate (shape : op.kind = .write inode offset chunks new_size encryption)
    (file : FileAt inode reg s) (wins : reg.orderKey < regKey op)
    (run : mutate env op s = .ok .done u) :
    (∀ chunk ∈ chunks, s.hasBlob chunk.hash) ∧
      (¬(offset = 0 ∧ chunksFormWholeFile chunks new_size) →
        ∃ buffer, spliceWrite env s inode offset chunks new_size = .ok (some buffer)) := by
  obtain ⟨record, found, kind, rfl, result⟩ := @mutate_winning env inode s op reg offset new_size
    chunks encryption shape file wins
  rw [result] at run
  cases complete : firstMissingChunk s chunks with
  | some missing =>
      rw [complete] at run
      cases run
  | none =>
      rw [complete] at run
      refine ⟨fun chunk member => ?_, fun partly => ?_⟩
      · unfold firstMissingChunk at complete
        rw [Option.map_eq_none_iff, List.find?_eq_none] at complete
        simpa using complete chunk member
      · dsimp only at run
        rw [if_neg partly, bind_run] at run
        cases splice : spliceWrite env s inode offset chunks new_size with
        | error e =>
            rw [splice] at run
            cases run
        | ok result =>
            rw [splice] at run
            cases result with
            | none => cases run
            | some buffer => exact ⟨buffer, rfl⟩

theorem Placed.read (placed : Placed env D op inode (.fileNode node) new_size s u)
    (decodes : ∀ object, env.decodeObject (env.encodeObject object) = some object)
    (kept : Extends u t) (file : FileAt inode (contentOf op (objectHash env (.fileNode node)) new_size) t) :
    readFile env t inode = materializeFile env t node :=
  readFile_held file rfl (getObject_found decodes (kept _ _ placed.stored))

end Attempts

end NexusFS.Core
