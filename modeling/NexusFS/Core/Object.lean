/- GID: NexusFS/Core/Object
   source: crates/core/src/object.rs, crates/core/src/namespace.rs, crates/core/src/inode.rs,
     crates/core/src/proof.rs
   digest: Stored objects, namespace records, proof records, and the libraries around them. -/

import NexusFS.Crdt.Lww
import NexusFS.Crdt.OrMap
import NexusFS.Lib.Blake3
import NexusFS.Proto.Op
import NexusFS.Zk.Merkle

set_option autoImplicit false
set_option relaxedAutoImplicit false

namespace NexusFS.Core

open NexusFS.Lib NexusFS.Proto NexusFS.Crdt

/-- Files order before directories, as the declaration order of the source has it. -/
inductive EntryType where
  | file
  | dir
  deriving DecidableEq

namespace EntryType

def rank : EntryType → Nat
  | file => 0
  | dir => 1

end EntryType

structure ObjectHeader where
  type_tag : Nat
  version : Nat
  deriving DecidableEq

structure FileNode where
  header : ObjectHeader
  size : U64
  chunks : List ChunkRef
  mode : U32
  uid : U32
  gid : U32
  mtime_unix_ms : U64
  ctime_unix_ms : U64
  encryption : Option FileEncryption
  deriving DecidableEq

structure DirEntry where
  name : String
  inode_id : U128
  entry_type : EntryType
  deriving DecidableEq

structure DirNode where
  header : ObjectHeader
  entries : List DirEntry
  mode : U32
  uid : U32
  gid : U32
  mtime_unix_ms : U64
  ctime_unix_ms : U64
  deriving DecidableEq

structure SnapshotRoot where
  header : ObjectHeader
  root_dir_inode : U128
  inode_map_root : Option Hash
  timestamp_unix_ms : U64
  author : DeviceId
  deriving DecidableEq

inductive Object where
  | fileNode (node : FileNode)
  | dirNode (node : DirNode)
  | snapshotRoot (node : SnapshotRoot)
  deriving DecidableEq

def compareDirEntries (left right : DirEntry) : Ordering :=
  (compare left.name right.name).then
    ((compare left.entry_type.rank right.entry_type.rank).then
      (compare left.inode_id right.inode_id))

def sortDirEntries (entries : List DirEntry) : List DirEntry :=
  entries.insertionSort fun a b => (compareDirEntries a b).isLE

def DirNode.canonicalize (dir : DirNode) : DirNode :=
  { dir with entries := sortDirEntries dir.entries }

def Object.canonicalized : Object → Object
  | .dirNode dir => .dirNode dir.canonicalize
  | other => other

/-- The target of a directory entry, with the time of the operation that linked it. -/
structure DirEntryValue where
  inode_id : U128
  entry_type : EntryType
  created_unix_ms : U64
  deriving DecidableEq

abbrev DirMap := OrMap String DirEntryValue

/-- Content of an inode, moved as one unit. -/
structure ContentState where
  node_hash : Option Hash
  size : U64
  mtime_unix_ms : U64
  deriving DecidableEq

structure AttrState where
  mode : U32
  uid : U32
  gid : U32
  deriving DecidableEq

structure InodeRecord where
  kind : EntryType
  content : LwwReg ContentState
  attrs : LwwReg AttrState
  ctime_unix_ms : U64
  deriving DecidableEq

/-- A fresh record: no content, and both registers under the creating operation's key. -/
def InodeRecord.new (kind : EntryType) (mode : U32) (now_ms : U64) (writer_id : U128)
    (seq : U64) : InodeRecord where
  kind := kind
  content := ⟨⟨none, 0, now_ms⟩, now_ms, writer_id, seq⟩
  attrs := ⟨⟨mode, 0, 0⟩, now_ms, writer_id, seq⟩
  ctime_unix_ms := now_ms

/-- Evidence recorded alongside an operation: the state roots around it. -/
structure TransparentProof where
  old_root : Option Hash
  new_root : Option Hash
  changed : List Hash
  deriving DecidableEq

/-- Evidence that an entry is in a committed state, checkable on its own. -/
structure CommitProof where
  old_root : Option Hash
  new_root : Hash
  entry : Zk.Merkle.InclusionProof
  deriving DecidableEq

/-- The libraries the repository calls and does not contain: BLAKE3, ed25519, X25519,
XChaCha20-Poly1305, the operating system's randomness, and postcard. -/
structure Env where
  blake3 : Bytes → Hash
  blake3Keyed : Hash → Bytes → Hash
  verifyingKeyValid : Hash → Bool
  ed25519Verify : Hash → Bytes → Bytes → Bool
  ed25519Sign : Hash → Bytes → Bytes
  ed25519Public : Hash → Hash
  x25519Public : Hash → Hash
  x25519 : Hash → Hash → Hash
  aeadEncrypt : Hash → Bytes → Bytes → Bytes → Bytes
  aeadDecrypt : Hash → Bytes → Bytes → Bytes → Option Bytes
  osRandom : Nat → Nat → Bytes
  encodeOpToSign : FsOpToSign → Bytes
  encodeObject : Object → Bytes
  decodeObject : Bytes → Option Object
  encodeProof : TransparentProof → Bytes
  decodeProof : Bytes → Option TransparentProof
  encodeCommit : CommitProof → Bytes
  decodeCommit : Bytes → Option CommitProof

/-- BLAKE3 itself, among libraries that accept every signature and store nothing sealed. -/
def Env.plain : Env where
  blake3 := Lib.blake3
  blake3Keyed := fun key bytes => Lib.blake3Keyed (be256 key) bytes
  verifyingKeyValid := fun _ => true
  ed25519Verify := fun _ _ _ => true
  ed25519Sign := fun _ _ => List.replicate 64 0
  ed25519Public := fun secret => secret
  x25519Public := fun secret => secret
  x25519 := fun secret _ => secret
  aeadEncrypt := fun _ _ _ plain => plain
  aeadDecrypt := fun _ _ _ sealed_bytes => some sealed_bytes
  osRandom := fun _ len => List.replicate len 0
  encodeOpToSign := fun _ => []
  encodeObject := fun _ => []
  decodeObject := fun _ => none
  encodeProof := fun _ => []
  decodeProof := fun _ => none
  encodeCommit := fun _ => []
  decodeCommit := fun _ => none

def rootInode : U128 := 1

def inodeDomain : Bytes :=
  [110, 101, 120, 117, 115, 102, 115, 47, 105, 110, 111, 100, 101, 47, 118, 49]

def firstSixteen (digest : Hash) : U128 :=
  ⟨digest.val / 2 ^ 128, by have := digest.isLt; omega⟩

def skipReserved (id : U128) : U128 := if id ≤ rootInode then id + 2 else id

def inodeForOp (env : Env) (id : OpId) : U128 :=
  skipReserved
    (firstSixteen (env.blake3 (inodeDomain ++ be128 id.device_id ++ be64 id.counter)))

theorem inodeForOp_ne_rootInode (env : Env) (id : OpId) : inodeForOp env id ≠ rootInode := by
  unfold inodeForOp skipReserved
  split
  · rename_i low
    have bound := Fin.le_def.mp low
    have root : rootInode.val = 1 := rfl
    have two : (2 : U128).val = 2 := rfl
    intro same
    have value := congrArg Fin.val same
    rw [Fin.val_add, two, root] at value
    omega
  · rename_i high
    intro same
    exact high (le_of_eq same)

/-- Why an operation cannot be applied yet. -/
inductive Unmet where
  | parentMissing (parent : U128)
  | inodeMissing (inode : U128)
  | chunkMissing (chunk : Hash)
  | contentUnavailable (inode : U128)
  | sourceParentMissing (parent : U128)
  | destinationParentMissing (parent : U128)
  | renameSourceMissing (name : String)
  deriving DecidableEq

/-- The refusals of the modelled functions, with what each reports. -/
inductive Err where
  | emptyName
  | nameHasSeparator (name : String)
  | reservedName (name : String)
  | unsigned (id : OpId)
  | invalidSignatureLength (id : OpId)
  | invalidVerifyingKey (id : OpId)
  | signatureVerifyFailed (id : OpId)
  | noProof (id : OpId)
  | malformedTransparentProof (id : OpId)
  | noResultingRoot (id : OpId)
  | malformedCommitProof (id : OpId)
  | pathMissesRoot (id : OpId) (reason : Zk.Merkle.CheckError)
  | unsupportedProofMode (mode : ProofMode)
  | notAFile (inode : U128)
  | chunkVanished
  | writeEndOverflows
  | unjustifiedSize (new_size : U64) (justified : Nat)
  | capacityOverflow (new_size : U64)
  | intoOwnSubtree
  | subtreeWalkExceeded
  | treeCycle (inode : U128)
  | treeExceeded
  | parentChainEndless (inode : U128)
  | namespaceWalkExceeded
  | postcardDecode
  | noRepositoryKey
  | sealedKeyTruncated
  | unsealFailed
  | wrongKeyLength
  | noWayToRecoverKey
  | notARecipient (envelopes : Nat)
  | missingChunk (chunk : Hash) (offset : U64)
  | chunkLengthMismatch (chunk : Hash) (stored : Nat) (expected : U32)
  | chunkOffsetMismatch (chunk : Hash) (expected : Nat) (got : U64)
  | chunkAuthenticationFailed
  | fileSizeMismatch (reassembled : Nat) (header : U64)
  | noSuchInode (inode : U128)
  | nonFileObject (inode : U128)
  | missingFileObject (node : Hash) (inode : U128)
  | pathTraversal (path : String)
  | notADirectory (path : String)
  | noFinalComponent (path : String)
  | noSuchDirectory (path : String)
  | noSuchFile (path : String)
  | noSuchPath (path : String)
  | notAFilePath (path : String)
  | destinationMissing (path : String)
  | existsNotDirectory (path : String)
  | existsNotFile (path : String)
  | cannotBeApplied (reason : Unmet)
  | listingExceeded
  | noSealingKey
  | noKeyMaterial
  | inodeRecordMissing (path : String)
  | notAnEncryptedFile (path : String)
  deriving DecidableEq

def validateName (name : String) : Except Err Unit :=
  if name.isEmpty then throw .emptyName
  else if name.toList.contains '/' then throw (.nameHasSeparator name)
  else if name = "." ∨ name = ".." then throw (.reservedName name)
  else pure ()

end NexusFS.Core
