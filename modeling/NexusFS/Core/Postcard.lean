/- GID: NexusFS/Core/Postcard
   source: crates/core/src/object.rs, crates/core/src/codec.rs, crates/proto/src/types.rs,
     crates/proto/src/op.rs
   digest: A concrete format for stored objects and operations: fields in order, words as varints. -/

import NexusFS.Core.Object
import NexusFS.Lib.Codec

set_option autoImplicit false
set_option relaxedAutoImplicit false

namespace NexusFS.Core

open NexusFS.Lib NexusFS.Proto

namespace Postcard

def digest : Codec Hash := .array 32 (2 ^ 256) (by norm_num)

def nonce : Codec Nonce := .array 24 (2 ^ 192) (by norm_num)

def u32 : Codec U32 := .word (2 ^ 32)

def u64 : Codec U64 := .word (2 ^ 64)

def u128 : Codec U128 := .word (2 ^ 128)

def bytes : Codec Bytes := .list .byte

def chunkRef : Codec ChunkRef :=
  (digest.pair (u32.pair (u32.pair u64))).cover
    (fun p => ⟨p.1, p.2.1, p.2.2.1, p.2.2.2⟩) (fun c => (c.hash, c.len, c.plain_len, c.offset))
    fun _ => rfl

def sealedFileKey : Codec SealedFileKey :=
  (digest.pair (nonce.pair bytes)).cover (fun p => ⟨p.1, p.2.1, p.2.2⟩)
    (fun k => (k.ephemeral_pub, k.nonce, k.ciphertext)) fun _ => rfl

def fileEncryption : Codec FileEncryption :=
  (bytes.option.pair (sealedFileKey.list.pair digest.option)).cover
    (fun p => ⟨p.1, p.2.1, p.2.2⟩) (fun e => (e.sealed_key, e.recipients, e.recipients_digest))
    fun _ => rfl

def header : Codec ObjectHeader :=
  (Codec.varint.pair Codec.varint).cover (fun p => ⟨p.1, p.2⟩) (fun h => (h.type_tag, h.version))
    fun _ => rfl

def entryType : Codec EntryType :=
  Codec.varint.cover (fun n => if n = 0 then .file else .dir) EntryType.rank fun e => by
    cases e <;> rfl

def dirEntry : Codec DirEntry :=
  (Codec.utf8.pair (u128.pair entryType)).cover (fun p => ⟨p.1, p.2.1, p.2.2⟩)
    (fun e => (e.name, e.inode_id, e.entry_type)) fun _ => rfl

def metadata : Codec (U32 × U32 × U32 × U64 × U64) :=
  u32.pair (u32.pair (u32.pair (u64.pair u64)))

def fileNode : Codec FileNode :=
  (header.pair (u64.pair (chunkRef.list.pair (metadata.pair fileEncryption.option)))).cover
    (fun p => ⟨p.1, p.2.1, p.2.2.1, p.2.2.2.1.1, p.2.2.2.1.2.1, p.2.2.2.1.2.2.1,
      p.2.2.2.1.2.2.2.1, p.2.2.2.1.2.2.2.2, p.2.2.2.2⟩)
    (fun f => (f.header, f.size, f.chunks,
      (f.mode, f.uid, f.gid, f.mtime_unix_ms, f.ctime_unix_ms), f.encryption))
    fun _ => rfl

def dirNode : Codec DirNode :=
  (header.pair (dirEntry.list.pair metadata)).cover
    (fun p => ⟨p.1, p.2.1, p.2.2.1, p.2.2.2.1, p.2.2.2.2.1, p.2.2.2.2.2.1, p.2.2.2.2.2.2⟩)
    (fun d => (d.header, d.entries, d.mode, d.uid, d.gid, d.mtime_unix_ms, d.ctime_unix_ms))
    fun _ => rfl

def snapshotRoot : Codec SnapshotRoot :=
  (header.pair (u128.pair (digest.option.pair (u64.pair u128)))).cover
    (fun p => ⟨p.1, p.2.1, p.2.2.1, p.2.2.2.1, p.2.2.2.2⟩)
    (fun r => (r.header, r.root_dir_inode, r.inode_map_root, r.timestamp_unix_ms, r.author))
    fun _ => rfl

def object : Codec Object where
  encode
    | .fileNode node => 0 :: fileNode.encode node
    | .dirNode node => 1 :: dirNode.encode node
    | .snapshotRoot node => 2 :: snapshotRoot.encode node
  decode
    | [] => none
    | tag :: bytes =>
        if tag = 0 then (fileNode.decode bytes).map fun p => (.fileNode p.1, p.2)
        else if tag = 1 then (dirNode.decode bytes).map fun p => (.dirNode p.1, p.2)
        else if tag = 2 then (snapshotRoot.decode bytes).map fun p => (.snapshotRoot p.1, p.2)
        else none
  roundTrip := by
    rintro (node | node | node) rest
    · simp [fileNode.roundTrip]
    · simp [dirNode.roundTrip]
    · simp [snapshotRoot.roundTrip]

def transparentProof : Codec TransparentProof :=
  (digest.option.pair (digest.option.pair digest.list)).cover (fun p => ⟨p.1, p.2.1, p.2.2⟩)
    (fun p => (p.old_root, p.new_root, p.changed)) fun _ => rfl

def pathStep : Codec Zk.Merkle.PathStep :=
  (digest.pair .bool).cover (fun p => ⟨p.1, p.2⟩) (fun s => (s.sibling, s.sibling_is_left))
    fun _ => rfl

def inclusionProof : Codec Zk.Merkle.InclusionProof :=
  (u128.pair (digest.pair pathStep.list)).cover (fun p => ⟨p.1, p.2.1, p.2.2⟩)
    (fun p => (p.inode, p.value, p.steps)) fun _ => rfl

def commitProof : Codec CommitProof :=
  (digest.option.pair (digest.pair inclusionProof)).cover (fun p => ⟨p.1, p.2.1, p.2.2⟩)
    (fun p => (p.old_root, p.new_root, p.entry)) fun _ => rfl

def opId : Codec OpId :=
  (u128.pair u64).cover (fun p => ⟨p.1, p.2⟩) (fun id => (id.device_id, id.counter)) fun _ => rfl

def entryFields : Codec (U128 × String × U32) := u128.pair (Codec.utf8.pair u32)

def writeFields : Codec (U128 × U64 × List ChunkRef × U64 × Option FileEncryption) :=
  u128.pair (u64.pair (chunkRef.list.pair (u64.pair fileEncryption.option)))

def renameFields : Codec (U128 × String × U128 × String × List OpId) :=
  u128.pair (Codec.utf8.pair (u128.pair (Codec.utf8.pair opId.list)))

def unlinkFields : Codec (U128 × String × List OpId) := u128.pair (Codec.utf8.pair opId.list)

def attrFields : Codec (U128 × Option U32 × Option U32 × Option U32) :=
  u128.pair (u32.option.pair (u32.option.pair u32.option))

def kind : Codec FsOpKind where
  encode
    | .createFile parent name mode => 0 :: entryFields.encode (parent, name, mode)
    | .mkdir parent name mode => 1 :: entryFields.encode (parent, name, mode)
    | .write inode offset chunks new_size encryption =>
        2 :: writeFields.encode (inode, offset, chunks, new_size, encryption)
    | .rename old_parent old_name new_parent new_name observed =>
        3 :: renameFields.encode (old_parent, old_name, new_parent, new_name, observed)
    | .unlink parent name observed => 4 :: unlinkFields.encode (parent, name, observed)
    | .setAttr inode mode uid gid => 5 :: attrFields.encode (inode, mode, uid, gid)
  decode
    | [] => none
    | tag :: bytes =>
        if tag = 0 then
          (entryFields.decode bytes).map fun p => (.createFile p.1.1 p.1.2.1 p.1.2.2, p.2)
        else if tag = 1 then (entryFields.decode bytes).map fun p => (.mkdir p.1.1 p.1.2.1 p.1.2.2, p.2)
        else if tag = 2 then
          (writeFields.decode bytes).map fun p =>
            (.write p.1.1 p.1.2.1 p.1.2.2.1 p.1.2.2.2.1 p.1.2.2.2.2, p.2)
        else if tag = 3 then
          (renameFields.decode bytes).map fun p =>
            (.rename p.1.1 p.1.2.1 p.1.2.2.1 p.1.2.2.2.1 p.1.2.2.2.2, p.2)
        else if tag = 4 then
          (unlinkFields.decode bytes).map fun p => (.unlink p.1.1 p.1.2.1 p.1.2.2, p.2)
        else if tag = 5 then
          (attrFields.decode bytes).map fun p => (.setAttr p.1.1 p.1.2.1 p.1.2.2.1 p.1.2.2.2, p.2)
        else none
  roundTrip := by
    intro kind rest
    cases kind with
    | createFile | mkdir => simp [entryFields.roundTrip]
    | write => simp [writeFields.roundTrip]
    | rename => simp [renameFields.roundTrip]
    | unlink => simp [unlinkFields.roundTrip]
    | setAttr => simp [attrFields.roundTrip]

def modeIndex : ProofMode → Nat
  | .none => 0
  | .transparent => 1
  | .zkCommit => 2
  | .zkFull => 3

def proofMode : Codec ProofMode :=
  Codec.varint.cover
    (fun n => if n = 0 then .none else if n = 1 then .transparent else if n = 2 then .zkCommit else .zkFull)
    modeIndex fun mode => by cases mode <;> rfl

def bundle : Codec ProofBundle :=
  (proofMode.pair bytes).cover (fun p => ⟨p.1, p.2⟩) (fun b => (b.mode, b.bytes)) fun _ => rfl

def op : Codec FsOp :=
  (opId.pair (u64.pair (opId.list.pair (kind.pair (digest.pair (bytes.pair bundle.option)))))).cover
    (fun p => ⟨p.1, p.2.1, ⟨p.2.2.1⟩, p.2.2.2.1, p.2.2.2.2.1, p.2.2.2.2.2.1, p.2.2.2.2.2.2⟩)
    (fun o => (o.id, o.time_unix_ms, o.ctx.deps, o.kind, o.author_pubkey, o.sig, o.proof))
    fun _ => rfl

end Postcard

def Env.stored : Env :=
  { Env.plain with
    encodeObject := Postcard.object.encode
    decodeObject := Postcard.object.read }

theorem Env.stored_decode (object : Object) :
    Env.stored.decodeObject (Env.stored.encodeObject object) = some object :=
  Postcard.object.read_encode object

def Env.proving : Env :=
  { Env.stored with
    encodeProof := Postcard.transparentProof.encode
    decodeProof := Postcard.transparentProof.read }

def Env.committing : Env :=
  { Env.proving with
    encodeCommit := Postcard.commitProof.encode
    decodeCommit := Postcard.commitProof.read }

end NexusFS.Core
