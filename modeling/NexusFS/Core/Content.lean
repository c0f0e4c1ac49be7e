/- GID: NexusFS/Core/Content
   source: crates/core/src/chunker.rs, crates/core/src/state.rs, crates/core/src/namespace.rs,
     crates/core/src/peers.rs, crates/crypto/src/repo.rs, crates/crypto/src/envelope.rs
   digest: How file bytes are chunked, sealed, stored and reassembled. -/

import NexusFS.Core.State

set_option autoImplicit false
set_option relaxedAutoImplicit false

namespace NexusFS.Core

open NexusFS.Lib NexusFS.Proto NexusFS.Crdt

/-- The loop of `chunk_bytes`: pieces of `size` bytes, the last one shorter. -/
def chunksOf (size : Nat) : Nat → Bytes → List Bytes
  | 0, _ => []
  | fuel + 1, data =>
      if data.isEmpty then [] else data.take size :: chunksOf size fuel (data.drop size)

def chunkBytes (data : Bytes) (chunk_size : Nat) : List Bytes :=
  chunksOf (max chunk_size 1) data.length data

/-- `<[u8; 32]>::try_from`, read big-endian. -/
def hashOfBytes (bytes : Bytes) : Option Hash :=
  if bytes.length = 32 then
    some (Fin.ofNat (2 ^ 256) (bytes.foldl (fun n b => n * 256 + b.toNat) 0))
  else none

section Cipher

variable (env : Env)

def nonceDomain : Bytes := ascii "nexusfs/chunk-nonce/v1"

def chunkNonce (file_key : Hash) (index : Nat) : Bytes :=
  (be256 (env.blake3Keyed file_key
    (nonceDomain ++ (be64 (Fin.ofNat (2 ^ 64) index)).reverse))).take 24

def sealChunk (file_key : Hash) (index : Nat) (plaintext : Bytes) : Bytes :=
  env.aeadEncrypt file_key (chunkNonce env file_key index) [] plaintext

def openChunk (file_key : Hash) (index : Nat) (ciphertext : Bytes) : Except Err Bytes :=
  match env.aeadDecrypt file_key (chunkNonce env file_key index) [] ciphertext with
  | some plaintext => pure plaintext
  | none => throw .chunkAuthenticationFailed

def newFileKey : M Hash := do
  let bytes ← drawRandom env 32
  return (hashOfBytes bytes).getD 0

def sealFileKey (cipher file_key : Hash) : M Bytes := do
  let nonce ← drawRandom env 24
  return nonce ++ env.aeadEncrypt cipher nonce [] (be256 file_key)

def openFileKey (cipher : Hash) (sealed_key : Bytes) : Except Err Hash :=
  if sealed_key.length < 24 then throw .sealedKeyTruncated
  else
    match env.aeadDecrypt cipher (sealed_key.take 24) [] (sealed_key.drop 24) with
    | none => throw .unsealFailed
    | some plain =>
        match hashOfBytes plain with
        | some key => pure key
        | none => throw .wrongKeyLength

def envelopeKey (shared : Hash) : Hash :=
  env.blake3Keyed shared (ascii "nexusfs/envelope-key/v1")

def envelopeAad (recipient_pub : Hash) : Bytes :=
  ascii "nexusfs/envelope-aad/v1" ++ be256 recipient_pub

def sealEnvelope (recipient_pub file_key : Hash) : M SealedFileKey := do
  let ephemeral ← drawRandom env 32
  let secret := (hashOfBytes ephemeral).getD 0
  let nonce : Nonce := Fin.ofNat (2 ^ 192) (ofBytes (← drawRandom env 24))
  let key := envelopeKey env (env.x25519 secret recipient_pub)
  return ⟨env.x25519Public secret, nonce,
    env.aeadEncrypt key (be192 nonce) (envelopeAad recipient_pub) (be256 file_key)⟩

def openEnvelope (secret : Hash) (envelope : SealedFileKey) : Option Bytes :=
  env.aeadDecrypt (envelopeKey env (env.x25519 secret envelope.ephemeral_pub))
    (be192 envelope.nonce) (envelopeAad (env.x25519Public secret)) envelope.ciphertext

def recipientsDigest (file_key : Hash) (recipients : List Hash) : Hash :=
  env.blake3Keyed file_key
    (ascii "nexusfs/recipient-set/v1" ++
      ((recipients.insertionSort (· ≤ ·)).dedup.flatMap be256))

end Cipher

namespace CoreState

def sealingRecipients (s : CoreState) : List (DeviceId × Hash) :=
  s.peer_keys.keys.filterMap fun device => (s.seal_keys[device]?).map fun key => (device, key)

/-- Who a new file key is sealed to: this node first, then its peers. Empty without a sealing
key. -/
def sealingRecipientKeys (env : Env) (s : CoreState) : List Hash :=
  match s.sealing_secret with
  | none => []
  | some secret =>
      s.sealingRecipients.foldl
        (fun keys p => if keys.contains p.2 then keys else keys ++ [p.2])
        [env.x25519Public secret]

end CoreState

section Store

variable (env : Env)

def storePlain : List Bytes → U64 → M (List ChunkRef)
  | [], _ => pure []
  | chunk :: rest, offset => do
      let hash := env.blake3 chunk
      modify fun s => s.putBlob hash chunk
      let refs ← storePlain rest (offset + Fin.ofNat (2 ^ 64) chunk.length)
      return ⟨hash, Fin.ofNat (2 ^ 32) chunk.length, Fin.ofNat (2 ^ 32) chunk.length, offset⟩ :: refs

/-- Store each piece encrypted. Offsets and `plain_len` measure plaintext, `len` ciphertext. -/
def storeSealed (file_key : Hash) : Nat → List Bytes → U64 → M (List ChunkRef)
  | _, [], _ => pure []
  | index, plain :: rest, offset => do
      let stored := sealChunk env file_key index plain
      let hash := env.blake3 stored
      modify fun s => s.putBlob hash stored
      let refs ← storeSealed file_key (index + 1) rest (offset + Fin.ofNat (2 ^ 64) plain.length)
      return ⟨hash, Fin.ofNat (2 ^ 32) stored.length, Fin.ofNat (2 ^ 32) plain.length, offset⟩ :: refs

/-- Seal the file key to every recipient, or with the repository key when there is none. -/
def protectFileKey (file_key cipher : Hash) : M FileEncryption := do
  let s ← get
  let recipients := s.sealingRecipientKeys env
  if recipients.isEmpty then
    let sealed_key ← sealFileKey env cipher file_key
    return ⟨some sealed_key, [], none⟩
  else
    let envelopes ← recipients.mapM fun key => sealEnvelope env key file_key
    return ⟨none, envelopes, some (recipientsDigest env file_key recipients)⟩

/-- Split `data` into chunks and store them, encrypting when the node is configured to. -/
def storeContent (data : Bytes) : M (List ChunkRef × Option FileEncryption) := do
  let s ← get
  match s.cipher with
  | none => do
      let refs ← storePlain env (chunkBytes data s.chunk_size) 0
      return (refs, none)
  | some cipher => do
      let file_key ← newFileKey env
      let refs ← storeSealed env file_key 0 (chunkBytes data (max s.chunk_size 1)) 0
      let encryption ← protectFileKey env file_key cipher
      return (refs, some encryption)

/-- The file object `make_filenode` builds. -/
def fileObject (chunks : List ChunkRef) (size : U64) (now_ms : U64)
    (encryption : Option FileEncryption) : Object :=
  .fileNode
    { header := ⟨1, 1⟩
      size := size
      chunks := chunks
      mode := 0o100644
      uid := 0
      gid := 0
      mtime_unix_ms := now_ms
      ctime_unix_ms := now_ms
      encryption := encryption }

def makeFilenode (chunks : List ChunkRef) (size : U64) (now_ms : U64)
    (encryption : Option FileEncryption) : M Hash :=
  putObject env (fileObject chunks size now_ms encryption)

def storeFilenodeFromBytes (data : Bytes) (now_ms : U64) : M Hash := do
  let (chunks, encryption) ← storeContent env data
  makeFilenode env chunks (Fin.ofNat (2 ^ 64) data.length) now_ms encryption

end Store

section Read

variable (env : Env) (s : CoreState)

def firstOpened (secret : Hash) (recipients : List SealedFileKey) : Option Bytes :=
  recipients.findSome? (openEnvelope env secret)

def recoverFileKey (info : FileEncryption) : Except Err Hash :=
  match s.sealing_secret.bind fun secret => firstOpened env secret info.recipients with
  | some key =>
      match hashOfBytes key with
      | some key => pure key
      | none => throw .wrongKeyLength
  | none =>
      match info.sealed_key with
      | some sealed_key =>
          match s.cipher with
          | none => throw .noRepositoryKey
          | some cipher => openFileKey env cipher sealed_key
      | none =>
          if info.recipients.isEmpty then throw .noWayToRecoverKey
          else throw (.notARecipient info.recipients.length)

def readChunks (file_key : Option Hash) : Nat → List ChunkRef → Bytes → Except Err Bytes
  | _, [], out => pure out
  | index, chunk :: rest, out =>
      match s.blobs[chunk.hash]? with
      | none => throw (.missingChunk chunk.hash chunk.offset)
      | some stored =>
          if stored.length ≠ chunk.len.val then
            throw (.chunkLengthMismatch chunk.hash stored.length chunk.len)
          else if chunk.offset.val ≠ out.length then
            throw (.chunkOffsetMismatch chunk.hash out.length chunk.offset)
          else
            match file_key with
            | some key => do
                let plain ← openChunk env key index stored
                readChunks file_key (index + 1) rest (out ++ plain)
            | none => readChunks file_key (index + 1) rest (out ++ stored)

def materializeFile (file : FileNode) : Except Err Bytes := do
  let file_key ← match file.encryption with
    | some info => some <$> recoverFileKey env s info
    | none => pure none
  let out ← readChunks env s file_key 0 file.chunks []
  if out.length ≠ file.size.val then throw (.fileSizeMismatch out.length file.size)
  else pure out

def readFile (inode : U128) : Except Err Bytes :=
  match s.loadInode inode with
  | none => throw (.noSuchInode inode)
  | some record =>
      if record.kind ≠ .file then throw (.notAFile inode)
      else
        match record.content.value.node_hash with
        | none => pure []
        | some node_hash => do
            match ← getObject env s node_hash with
            | some (.fileNode file) => materializeFile env s file
            | some _ => throw (.nonFileObject inode)
            | none => throw (.missingFileObject node_hash inode)

def tryReadFile (inode : U128) : Except Err (Option Bytes) :=
  match s.loadInode inode with
  | none => pure none
  | some record =>
      match record.content.value.node_hash with
      | none => pure (some [])
      | some node_hash => do
          match ← getObject env s node_hash with
          | some (.fileNode file) =>
              if file.chunks.all fun chunk => s.hasBlob chunk.hash then
                some <$> materializeFile env s file
              else pure none
          | _ => pure none

end Read

section Frame

variable {env : Env} {s t : CoreState}

theorem readChunks_congr (file_key : Option Hash) (index : Nat) (chunks : List ChunkRef)
    (out : Bytes) (held : ∀ chunk ∈ chunks, t.blobs[chunk.hash]? = s.blobs[chunk.hash]?) :
    readChunks env t file_key index chunks out = readChunks env s file_key index chunks out := by
  induction chunks generalizing index out with
  | nil => rfl
  | cons chunk rest ih =>
      have later := fun index out => ih index out fun other member =>
        held other (List.mem_cons_of_mem chunk member)
      unfold readChunks
      rw [held chunk List.mem_cons_self]
      simp only [later]

theorem materializeFile_congr (file : FileNode) (secret : t.sealing_secret = s.sealing_secret)
    (cipher : t.cipher = s.cipher)
    (held : ∀ chunk ∈ file.chunks, t.blobs[chunk.hash]? = s.blobs[chunk.hash]?) :
    materializeFile env t file = materializeFile env s file := by
  unfold materializeFile recoverFileKey
  rw [secret, cipher]
  simp only [readChunks_congr _ _ _ _ held]

theorem readFile_congr {inode : U128} (record : t.loadInode inode = s.loadInode inode)
    (secret : t.sealing_secret = s.sealing_secret) (cipher : t.cipher = s.cipher)
    (object : ∀ r hash, s.loadInode inode = some r → r.content.value.node_hash = some hash →
      t.blobs[hash]? = s.blobs[hash]?)
    (chunks : ∀ r hash file, s.loadInode inode = some r → r.content.value.node_hash = some hash →
      getObject env s hash = .ok (some (.fileNode file)) →
        ∀ chunk ∈ file.chunks, t.blobs[chunk.hash]? = s.blobs[chunk.hash]?) :
    readFile env t inode = readFile env s inode := by
  unfold readFile
  rw [record]
  cases found : s.loadInode inode with
  | none => rfl
  | some r =>
      dsimp only
      split
      · rfl
      · cases content : r.content.value.node_hash with
        | none => rfl
        | some hash =>
            have same : getObject env t hash = getObject env s hash := by
              unfold getObject
              rw [object r hash found content]
            simp only [same]
            cases decoded : getObject env s hash with
            | error e => rfl
            | ok found_object =>
                match found_object, decoded with
                | none, _ => rfl
                | some (.dirNode _), _ => rfl
                | some (.snapshotRoot _), _ => rfl
                | some (.fileNode file), decoded =>
                    exact materializeFile_congr file secret cipher
                      (chunks r hash file found content decoded)

end Frame

end NexusFS.Core
