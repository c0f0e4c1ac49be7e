/- GID: NexusFS/Core/Snapshot
   source: crates/core/src/snapshot.rs, crates/core/src/state.rs
   digest: Directory objects, the maintained inode map, the full walk, and snapshots. -/

import NexusFS.Core.Namespace

set_option autoImplicit false
set_option relaxedAutoImplicit false

namespace NexusFS.Core

open NexusFS.Lib NexusFS.Proto NexusFS.Crdt

def maxTreeNodes : Nat := 1000000

/-- What the full walk writes: the map and the visited set it is handed, and the object store. -/
structure Walk where
  inode_map : BTreeMap U128 Hash
  visited : BTreeSet U128
  blobs : BTreeMap Hash Bytes

namespace Walk

def visit (w : Walk) (inode : U128) : Walk := { w with visited := w.visited.insert inode }

def record (w : Walk) (inode : U128) (hash : Hash) : Walk :=
  { w with inode_map := w.inode_map.insert inode hash }

def putBlob (w : Walk) (hash : Hash) (bytes : Bytes) : Walk :=
  if w.blobs.contains hash then w else { w with blobs := w.blobs.insert hash bytes }

end Walk

section Objects

variable (env : Env) (s : CoreState)

def dirObject (inode : U128) (entries : List DirEntry) : Object :=
  let record := s.loadInode inode
  let attrs := (record.map fun r => r.attrs.value).getD ⟨0o40755, 0, 0⟩
  let times := (record.map fun r => (r.content.value.mtime_unix_ms, r.ctime_unix_ms)).getD (0, 0)
  .dirNode (DirNode.canonicalize
    { header := ⟨2, 1⟩
      entries := entries
      mode := attrs.mode
      uid := attrs.uid
      gid := attrs.gid
      mtime_unix_ms := times.1
      ctime_unix_ms := times.2 })

def currentDirObject (inode : U128) : Object := dirObject s inode (s.materializeDir inode)

def dirHash (inode : U128) : Hash := objectHash env (currentDirObject s inode)

def contentHash (inode : U128) : Option Hash :=
  (s.loadInode inode).bind fun record => record.content.value.node_hash

/-- One entry of the walk: descend into a directory, or record a file that has content. -/
def walkEntry (nested : U128 → EStateM Err Walk Hash) (entry : DirEntry) :
    EStateM Err Walk PUnit :=
  match entry.entry_type with
  | .dir => do
      let _ ← nested entry.inode_id
  | .file =>
      match contentHash s entry.inode_id with
      | some hash => modify fun w => w.record entry.inode_id hash
      | none => pure ()

/-- Walk the live tree below `inode`, recording each inode's current object hash. Nested calls
are no deeper than the visited set is large, which the node limit bounds. -/
def materializeTree (store : Bool) : Nat → U128 → EStateM Err Walk Hash
  | 0, _ => throw .treeExceeded
  | fuel + 1, inode => do
      let w ← get
      if w.visited.contains inode then throw (.treeCycle inode)
      else
        set (w.visit inode)
        if maxTreeNodes < (w.visit inode).visited.size then throw .treeExceeded
        else
          let entries := s.materializeDir inode
          entries.forM (walkEntry s (materializeTree store fuel))
          let object := dirObject s inode entries
          let hash := objectHash env object
          modify fun w => if store then w.putBlob hash (encodeObject env object) else w
          modify fun w => w.record inode hash
          return hash

def walkRoot (store : Bool) : EStateM.Result Err Walk Hash :=
  materializeTree env s store (maxTreeNodes + 1) rootInode ⟨∅, ∅, s.blobs⟩

/-- The loop of `is_reachable`: up the recorded parents until the root or a mapped inode. -/
def climbParents (inode : U128) : Nat → U128 → Except Err Bool
  | 0, _ => throw (.parentChainEndless inode)
  | fuel + 1, current =>
      if current = rootInode then pure true
      else if s.imap.contains current then pure true
      else
        match s.parentOf current with
        | none => pure false
        | some parent =>
            if s.dirLists parent current then climbParents inode fuel parent else pure false

/-- Whether `inode` is reachable from the root, from the map and the recorded parents. -/
def isReachable (inode : U128) : Except Err Bool :=
  climbParents s inode (maxTreeNodes + 1) inode

end Objects

section Maintain

variable (env : Env)

def storeDirObject (inode : U128) : M Hash := do
  let s ← get
  putObject env (currentDirObject s inode)

def replaceImap (old fresh : BTreeMap U128 Hash) : BTreeMap U128 Hash :=
  fresh.toList.foldl (fun m row => m.insert row.1 row.2)
    (old.filter fun inode _ => fresh.contains inode)

def rebuildInodeMap : M (List (U128 × Hash)) := do
  let s ← get
  match walkRoot env s true with
  | .error e w => do
      set { s with blobs := w.blobs }
      throw e
  | .ok _ w => do
      set { s with blobs := w.blobs, imap := replaceImap s.imap w.inode_map }
      return w.inode_map.toList

def refreshMapEntry (inode : U128) : M Unit := do
  let s ← get
  let reachable ← liftCheck (isReachable s inode)
  if reachable then
    match s.loadInode inode with
    | none => modify fun s => s.dropImap inode
    | some record =>
        match record.kind with
        | .dir => do
            let hash ← storeDirObject env inode
            modify fun s => s.putImap inode hash
        | .file =>
            match record.content.value.node_hash with
            | some hash => modify fun s => s.putImap inode hash
            | none => modify fun s => s.dropImap inode
  else modify fun s => s.dropImap inode

def inodeMap (s : CoreState) : List (U128 × Hash) := s.imap.toList

def computeStateRoot (s : CoreState) : Hash := Zk.Merkle.commit env.blake3 (inodeMap s)

def newSnapshotRoot (root : Hash) (author : DeviceId) (time : U64) : Object :=
  .snapshotRoot ⟨⟨3, 1⟩, rootInode, some root, time, author⟩

def buildSnapshot : M Hash := do
  let s ← get
  let root := computeStateRoot env s
  set { s with state_root := some root }
  let head ← putObject env (newSnapshotRoot root s.device_id s.state_time)
  modify fun s => { s with head := some head }
  return head

def currentFormatVersion : Nat := 3

def genesisRecord : InodeRecord := InodeRecord.new .dir 0o40755 0 0 0

def bootstrapIfNeeded : M Unit := do
  let s ← get
  if s.head.isSome then pure ()
  else
    modify fun s => s.storeInode rootInode genesisRecord
    modify fun s => s.storeDir rootInode ∅
    let _ ← rebuildInodeMap env
    let _ ← buildSnapshot env
    modify fun s => { s with format_version := some currentFormatVersion }
    modify fun s => s.flush
    modify fun s => s.flush

def inclusionProof (s : CoreState) (inode : U128) : Option Zk.Merkle.InclusionProof :=
  Zk.Merkle.prove env.blake3 (inodeMap s) inode

def absenceProof (s : CoreState) (inode : U128) : Option Zk.Merkle.AbsenceProof :=
  Zk.Merkle.proveAbsent env.blake3 (inodeMap s) inode

end Maintain

end NexusFS.Core
