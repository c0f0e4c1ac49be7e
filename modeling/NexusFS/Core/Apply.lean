/- GID: NexusFS/Core/Apply
   source: crates/core/src/apply.rs, crates/core/src/proof.rs
   digest: Operation application: verification, mutation, parking, draining and snapshots. -/

import NexusFS.Core.Snapshot

set_option autoImplicit false
set_option relaxedAutoImplicit false

namespace NexusFS.Core

open NexusFS.Lib NexusFS.Proto NexusFS.Crdt

def maxSubtreeNodes : Nat := 1000000

inductive ApplyOutcome where
  | applied
  | alreadyApplied
  | pending (reason : Unmet)
  deriving DecidableEq

/-- Result of attempting the state mutation for one operation. -/
inductive Mutation where
  | done
  | unmet (reason : Unmet)
  deriving DecidableEq

/-- The running offset check of `chunks_form_whole_file`. -/
def chunksContiguous : List ChunkRef → U64 → Option U64
  | [], expected => some expected
  | c :: rest, expected =>
      if c.offset ≠ expected then none
      else chunksContiguous rest (expected + Fin.ofNat (2 ^ 64) c.plain_len.val)

def chunksFormWholeFile (chunks : List ChunkRef) (new_size : U64) : Bool :=
  chunksContiguous chunks 0 = some new_size

def regKey (op : FsOp) : OrderKey := orderKeyOf op.time_unix_ms op.id.device_id op.id.counter

def writeCanWin {T : Type} (current : LwwReg T) (op : FsOp) : Bool :=
  decide (current.orderKey < regKey op)

section Checks

variable (env : Env)

def verifyOp (op : FsOp) : Except Err Unit :=
  if op.sig.isEmpty then throw (.unsigned op.id)
  else if op.sig.length ≠ 64 then throw (.invalidSignatureLength op.id)
  else if !env.verifyingKeyValid op.author_pubkey then throw (.invalidVerifyingKey op.id)
  else if !env.ed25519Verify op.author_pubkey (env.encodeOpToSign op.toSign) op.sig then
    throw (.signatureVerifyFailed op.id)
  else pure ()

/-- Check an incoming operation's proof against local policy: lenient about ordering, strict
about structure. -/
def checkProof (op : FsOp) (policy : ProofPolicy) : Except Err Unit :=
  if policy = .none then pure ()
  else
    match op.proof with
    | none => if policy = .required then throw (.noProof op.id) else pure ()
    | some bundle =>
        match bundle.mode with
        | .transparent =>
            match env.decodeProof bundle.bytes with
            | none => throw (.malformedTransparentProof op.id)
            | some proof => if proof.new_root.isNone then throw (.noResultingRoot op.id) else pure ()
        | .zkCommit =>
            match env.decodeCommit bundle.bytes with
            | none => throw (.malformedCommitProof op.id)
            | some proof =>
                match Zk.Merkle.check env.blake3 proof.entry proof.new_root with
                | .ok () => pure ()
                | .error reason => throw (.pathMissesRoot op.id reason)
        | other => throw (.unsupportedProofMode other)

end Checks

section Helpers

variable (s : CoreState)

def firstMissingChunk (chunks : List ChunkRef) : Option Hash :=
  (chunks.find? fun chunk => !s.hasBlob chunk.hash).map ChunkRef.hash

def incomingBytes : List ChunkRef → Except Err Bytes
  | [] => pure []
  | chunk :: rest =>
      match s.blobs[chunk.hash]? with
      | none => throw .chunkVanished
      | some bytes => (bytes ++ ·) <$> incomingBytes rest

/-- The loop of `subtree_contains`. Entries already seen are skipped; every other one counts
against the limit before it is listed. -/
def subtreeLoop (target : U128) : Nat → List U128 → BTreeSet U128 → Except Err Bool
  | fuel, stack, seen =>
      match stack.dropWhile fun inode => seen.contains inode with
      | [] => pure false
      | inode :: rest =>
          match fuel with
          | 0 => throw .subtreeWalkExceeded
          | fuel + 1 =>
              let entries := s.materializeDir inode
              if entries.any fun e => e.inode_id = target then pure true
              else
                let dirs := (entries.filter fun e => e.entry_type = .dir).map DirEntry.inode_id
                subtreeLoop target fuel (dirs.reverse ++ rest) (seen.insert inode)

def subtreeContains (root target : U128) : Except Err Bool :=
  if root = target then pure true else subtreeLoop s target maxSubtreeNodes [root] ∅

end Helpers

/-- Overlay `incoming` at `start` on the first `total` bytes of `existing`, padded with zeros. -/
def spliceBytes (existing incoming : Bytes) (start total : Nat) : Bytes :=
  let base := existing.take total ++ List.replicate (total - existing.length) 0
  if start < total then
    let patch := incoming.take (total - start)
    base.take start ++ patch ++ base.drop (start + patch.length)
  else base

section Mutate

variable (env : Env)

def linkCreated (op : FsOp) (parent : U128) (name : String) (mode : U32) (kind : EntryType)
    (s : CoreState) : CoreState :=
  let inode := inodeForOp env op.id
  let record := InodeRecord.new kind mode op.time_unix_ms op.id.device_id op.id.counter
  let s := (s.storeInode inode record).setParent inode parent
  let s := if kind = .dir then s.storeDir inode ∅ else s
  s.storeDir parent ((s.dirAt parent).add name op.id ⟨inode, kind, op.time_unix_ms⟩)

def mutateCreate (op : FsOp) (parent : U128) (name : String) (mode : U32) (kind : EntryType) :
    M Mutation := do
  liftCheck (validateName name)
  let s ← get
  if !s.isDir parent then return .unmet (.parentMissing parent)
  else
    set (linkCreated env op parent name mode kind s)
    return .done

def contentOf (op : FsOp) (node_hash : Hash) (new_size : U64) : LwwReg ContentState :=
  ⟨⟨some node_hash, new_size, op.time_unix_ms⟩, op.time_unix_ms, op.id.device_id, op.id.counter⟩

def mergeContent (op : FsOp) (inode : U128) (record : InodeRecord) (node_hash : Hash)
    (new_size : U64) (s : CoreState) : CoreState :=
  s.storeInode inode
    { record with content := record.content.merge (contentOf op node_hash new_size) }

def spliceWrite (s : CoreState) (inode : U128) (offset : U64) (chunks : List ChunkRef)
    (new_size : U64) : Except Err (Option Bytes) := do
  match ← tryReadFile env s inode with
  | none => pure none
  | some existing => do
      let incoming ← incomingBytes s chunks
      if 2 ^ 64 ≤ offset.val + incoming.length then throw .writeEndOverflows
      else
        let justified := max existing.length (offset.val + incoming.length)
        if justified < new_size.val then throw (.unjustifiedSize new_size justified)
        -- `vec![0u8; total]` panics above `isize::MAX`, and the call ends there like at a refusal
        else if 2 ^ 63 ≤ new_size.val then throw (.capacityOverflow new_size)
        else pure (some (spliceBytes existing incoming offset.val new_size.val))

def mutateWrite (op : FsOp) (inode : U128) (offset : U64) (chunks : List ChunkRef)
    (new_size : U64) (encryption : Option FileEncryption) : M Mutation := do
  let s ← get
  match s.loadInode inode with
  | none => return .unmet (.inodeMissing inode)
  | some record =>
      if record.kind ≠ .file then throw (.notAFile inode)
      else if !writeCanWin record.content op then return .done
      else
        match firstMissingChunk s chunks with
        | some missing => return .unmet (.chunkMissing missing)
        | none =>
            if offset = 0 ∧ chunksFormWholeFile chunks new_size then
              let node_hash ← makeFilenode env chunks new_size op.time_unix_ms encryption
              modify (mergeContent op inode record node_hash new_size)
              return .done
            else
              match ← liftCheck (spliceWrite env s inode offset chunks new_size) with
              | none => return .unmet (.contentUnavailable inode)
              | some buffer =>
                  let node_hash ← storeFilenodeFromBytes env buffer op.time_unix_ms
                  modify (mergeContent op inode record node_hash new_size)
                  return .done

/-- The step of `max_by_key`: a later element of an equal key replaces the earlier one. -/
def higherDot (best : Option (Dot × DirEntryValue)) (p : Dot × DirEntryValue) :
    Option (Dot × DirEntryValue) :=
  match best with
  | none => some p
  | some b => if b.1 ≤ p.1 then some p else some b

def renameSource (survivors : List (Dot × DirEntryValue)) (dots : List Dot) :
    Option (Dot × DirEntryValue) :=
  (survivors.filter fun p => dots.contains p.1).foldl higherDot none

/-- Move an entry: its parent record, the removal at the old name, the addition at the new. -/
def moveEntry (op : FsOp) (entry : DirEntryValue) (old_parent : U128) (old_name : String)
    (new_parent : U128) (new_name : String) (dots : List Dot) (s : CoreState) : CoreState :=
  let value : DirEntryValue := ⟨entry.inode_id, entry.entry_type, op.time_unix_ms⟩
  let s := s.setParent entry.inode_id new_parent
  if old_parent = new_parent then
    s.storeDir old_parent
      (((s.dirAt old_parent).removeDots old_name dots).add new_name op.id value)
  else
    let s := s.storeDir old_parent ((s.dirAt old_parent).removeDots old_name dots)
    s.storeDir new_parent ((s.dirAt new_parent).add new_name op.id value)

def mutateRename (op : FsOp) (old_parent : U128) (old_name : String) (new_parent : U128)
    (new_name : String) (observed : List OpId) : M Mutation := do
  liftCheck (validateName new_name)
  let s ← get
  if !s.isDir old_parent then return .unmet (.sourceParentMissing old_parent)
  else if !s.isDir new_parent then return .unmet (.destinationParentMissing new_parent)
  else
    let survivors := (s.dirAt old_parent).getAll old_name
    match renameSource survivors observed with
    | none =>
        if observed.isEmpty || survivors.any fun p => observed.contains p.1 then return .done
        else return .unmet (.renameSourceMissing old_name)
    | some (_, entry) =>
        let inside ← match entry.entry_type with
          | .dir => liftCheck (subtreeContains s entry.inode_id new_parent)
          | .file => pure false
        if inside then throw .intoOwnSubtree
        else
          modify (moveEntry op entry old_parent old_name new_parent new_name observed)
          return .done

def mutateUnlink (parent : U128) (name : String) (observed : List OpId) : M Mutation := do
  let s ← get
  if !s.isDir parent then return .unmet (.parentMissing parent)
  else
    set (s.storeDir parent ((s.dirAt parent).removeDots name observed))
    return .done

def mutateSetattr (op : FsOp) (inode : U128) (mode uid gid : Option U32) : M Mutation := do
  let s ← get
  match s.loadInode inode with
  | none => return .unmet (.inodeMissing inode)
  | some record =>
      let current := record.attrs.value
      let incoming : LwwReg AttrState :=
        ⟨⟨mode.getD current.mode, uid.getD current.uid, gid.getD current.gid⟩,
          op.time_unix_ms, op.id.device_id, op.id.counter⟩
      set (s.storeInode inode { record with attrs := record.attrs.merge incoming })
      return .done

def mutate (op : FsOp) : M Mutation :=
  match op.kind with
  | .mkdir parent name mode => mutateCreate env op parent name mode .dir
  | .createFile parent name mode => mutateCreate env op parent name mode .file
  | .write inode offset chunks new_size encryption =>
      mutateWrite env op inode offset chunks new_size encryption
  | .rename old_parent old_name new_parent new_name observed =>
      mutateRename op old_parent old_name new_parent new_name observed
  | .unlink parent name observed => mutateUnlink parent name observed
  | .setAttr inode mode uid gid => mutateSetattr op inode mode uid gid

def maintainInodeMap (op : FsOp) : M Unit :=
  match op.kind with
  | .mkdir parent _ _ | .createFile parent _ _ => do
      refreshMapEntry env parent
      refreshMapEntry env (inodeForOp env op.id)
  | .write inode _ _ _ _ | .setAttr inode _ _ _ => refreshMapEntry env inode
  | .unlink _ _ _ | .rename _ _ _ _ _ => do
      let _ ← rebuildInodeMap env

def settleApplied (op : FsOp) : M Unit := do
  modify fun s => s.noteApplied op
  maintainInodeMap env op

/-- One pass over the parked rows. Returns whether it progressed, and how many it applied. -/
def drainPass : List FsOp → M (Bool × Nat)
  | [] => pure (false, 0)
  | op :: rows => do
      let s ← get
      if s.isOpApplied op.id then
        modify fun s => s.clearPending op.id
        let (_, total) ← drainPass rows
        return (true, total)
      else
        match ← mutate env op with
        | .done => do
            settleApplied env op
            let (_, total) ← drainPass rows
            return (true, total + 1)
        | .unmet _ => drainPass rows

/-- The loop of `drain_pending`: every progressing pass removes a parked row. -/
def drainLoop : Nat → M Nat
  | 0 => pure 0
  | fuel + 1 => do
      let s ← get
      if s.pendingOps.isEmpty then return 0
      else
        let (progressed, total) ← drainPass env s.pendingOps
        if progressed then
          let more ← drainLoop fuel
          return total + more
        else return total

def drainPending : M Nat := do
  let s ← get
  drainLoop env (s.pending.size + 1)

def applyOpInner (op : FsOp) (check_policy : Bool) : M ApplyOutcome := do
  liftCheck (verifyOp env op)
  let s ← get
  liftCheck (if check_policy then checkProof env op s.proofs else .ok ())
  if s.isOpApplied op.id then return .alreadyApplied
  else
    modify fun s => s.appendOp op
    let outcome ← match ← mutate env op with
      | .done => do
          settleApplied env op
          pure ApplyOutcome.applied
      | .unmet reason => do
          modify fun s => s.storePending op
          pure (ApplyOutcome.pending reason)
    let unblocked ← drainPending env
    if outcome = .applied ∨ 0 < unblocked then
      let _ ← buildSnapshot env
      modify fun s => s.flush
      return outcome
    else
      modify fun s => s.flush
      return outcome

def applyOp (op : FsOp) : M ApplyOutcome := applyOpInner env op true

def applyOpUnproven (op : FsOp) : M ApplyOutcome := applyOpInner env op false

def retryPending : M Nat := do
  let applied ← drainPending env
  if 0 < applied then
    let _ ← buildSnapshot env
    return applied
  else return applied

/-- The identity secrets of a device that sign its operations. -/
structure Identity where
  signing_key : Hash
  deriving DecidableEq

def makeOp (identity : Identity) (kind : FsOpKind) (now : U64) : M FsOp := do
  let counter ← nextOpCounter
  let s ← get
  let unsigned_op : FsOp :=
    { id := ⟨s.device_id, counter⟩
      time_unix_ms := now
      ctx := ⟨[]⟩
      kind := kind
      author_pubkey := env.ed25519Public identity.signing_key
      sig := []
      proof := none }
  return { unsigned_op with
    sig := env.ed25519Sign identity.signing_key (env.encodeOpToSign unsigned_op.toSign) }

end Mutate

def missingChunkHashes (s : CoreState) : BTreeSet Hash :=
  s.pendingOps.foldl
    (fun wanted op =>
      match op.kind with
      | .write _ _ chunks _ _ =>
          chunks.foldl
            (fun wanted chunk => if s.hasBlob chunk.hash then wanted else wanted.insert chunk.hash)
            wanted
      | _ => wanted) ∅

end NexusFS.Core
