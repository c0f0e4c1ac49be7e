/- GID: NexusFS/Core/Gc
   source: crates/core/src/gc.rs
   digest: The mark from live state and parked operations, and the sweep of blobs and records. -/

import NexusFS.Core.Apply

set_option autoImplicit false
set_option relaxedAutoImplicit false

namespace NexusFS.Core

open NexusFS.Lib NexusFS.Proto NexusFS.Crdt

def maxRecordScan : Nat := 1000000

/-- Why a sweep declined to delete. -/
inductive SweepBlocker where
  | noHead
  | rootRecordMissing
  deriving DecidableEq

/-- What one collection pass found, and what it did about it. -/
structure GcReport where
  blobs_scanned : Nat
  bytes_scanned : Nat
  reachable : Nat
  unreachable : Nat
  bytes_reclaimable : Nat
  deleted : Nat
  bytes_deleted : Nat
  records_scanned : Nat
  records_unreachable : Nat
  records_deleted : Nat
  dry_run : Bool
  refused : Option SweepBlocker
  deriving DecidableEq

def GcReport.empty (dry_run : Bool) : GcReport := ⟨0, 0, 0, 0, 0, 0, 0, 0, 0, 0, dry_run, none⟩

section Mark

variable (env : Env) (s : CoreState)

def opChunks (op : FsOp) : List Hash :=
  match op.kind with
  | .write _ _ chunks _ _ => chunks.map ChunkRef.hash
  | _ => []

def namedInodes (op : FsOp) : List U128 :=
  match op.kind with
  | .createFile parent _ _ | .mkdir parent _ _ | .unlink parent _ _ => [parent]
  | .write inode _ _ _ _ | .setAttr inode _ _ _ => [inode]
  | .rename old_parent _ new_parent _ _ => [old_parent, new_parent]

def markObject (reachable : BTreeSet Hash) (hash : Hash) : Except Err (BTreeSet Hash) := do
  match ← getObject env s hash with
  | some (.fileNode node) =>
      pure (node.chunks.foldl (fun marked chunk => marked.insert chunk.hash) (reachable.insert hash))
  | _ => pure (reachable.insert hash)

def reachableHashes : Except Err (BTreeSet Hash) :=
  match walkRoot env s false with
  | .error e _ => throw e
  | .ok _ w => do
      let marked ← (w.inode_map.toList.map Prod.snd).foldlM (markObject env s)
        (match s.head with
          | some head => (∅ : BTreeSet Hash).insert head
          | none => ∅)
      pure ((s.pendingOps.flatMap opChunks).foldl (fun marked hash => marked.insert hash) marked)

/-- The entries of one directory: mark the new ones, and queue the directories among them. -/
def scanEntries : List DirEntry → BTreeSet U128 → List U128 →
    Except Err (BTreeSet U128 × List U128)
  | [], reachable, queue => pure (reachable, queue)
  | entry :: entries, reachable, queue =>
      if reachable.contains entry.inode_id then scanEntries entries reachable queue
      else
        let reachable := reachable.insert entry.inode_id
        let queue := if entry.entry_type = .dir then entry.inode_id :: queue else queue
        if maxRecordScan < reachable.size then throw .namespaceWalkExceeded
        else scanEntries entries reachable queue

/-- The loop of `reachable_inodes`: every queued directory was marked once, so there are no more
of them than the scan limit and the root. -/
def scanQueue : Nat → List U128 → BTreeSet U128 → Except Err (BTreeSet U128)
  | _, [], reachable => pure reachable
  | 0, _ :: _, _ => throw .namespaceWalkExceeded
  | fuel + 1, dir :: queue, reachable => do
      let (reachable, queue) ← scanEntries (s.materializeDir dir) reachable queue
      scanQueue fuel queue reachable

def reachableInodes : Except Err (BTreeSet U128) := do
  let reachable ← scanQueue s (maxRecordScan + 1) [rootInode] ((∅ : BTreeSet U128).insert rootInode)
  pure ((s.pendingOps.flatMap namedInodes).foldl (fun marked inode => marked.insert inode) reachable)

def sweepBlocker : Option SweepBlocker :=
  if s.head.isNone then some .noHead
  else if (s.loadInode rootInode).isNone then some .rootRecordMissing
  else none

def blobBytes (rows : List (Hash × Bytes)) : Nat := (rows.map fun row => row.2.length).sum

def orphanCount (keep : BTreeSet U128) : Nat :=
  (s.dirs.keys.filter fun i => !keep.contains i).length +
    (s.inodes.keys.filter fun i => !keep.contains i).length +
    (s.parents.keys.filter fun i => !keep.contains i).length +
    (s.imap.keys.filter fun i => !keep.contains i).length

def recordCount : Nat :=
  s.dirs.size + s.inodes.size + s.parents.size + s.imap.size

def sweep (marked : BTreeSet Hash) (keep : BTreeSet U128) : CoreState :=
  { s with
    blobs := s.blobs.filter fun hash _ => marked.contains hash
    dirs := s.dirs.filter fun inode _ => keep.contains inode
    inodes := s.inodes.filter fun inode _ => keep.contains inode
    parents := s.parents.filter fun inode _ => keep.contains inode
    imap := s.imap.filter fun inode _ => keep.contains inode }

def survey (marked : BTreeSet Hash) (keep : BTreeSet U128) (dry_run : Bool) : GcReport :=
  let rows := s.blobs.toList
  let garbage := rows.filter fun row => !marked.contains row.1
  { GcReport.empty dry_run with
    blobs_scanned := rows.length
    bytes_scanned := blobBytes rows
    reachable := rows.length - garbage.length
    unreachable := garbage.length
    bytes_reclaimable := blobBytes garbage
    records_scanned := recordCount s
    records_unreachable := orphanCount s keep }

end Mark

/-- Survey unreachable storage, and delete it unless `dry_run`. -/
def collectGarbage (env : Env) (dry_run : Bool) : M GcReport := do
  let s ← get
  match sweepBlocker s, dry_run with
  | some reason, false =>
      return { GcReport.empty dry_run with
        refused := some reason
        blobs_scanned := s.blobs.size
        bytes_scanned := blobBytes s.blobs.toList }
  | _, _ => do
      let marked ← liftCheck (reachableHashes env s)
      let keep ← liftCheck (reachableInodes s)
      let report := survey s marked keep dry_run
      if dry_run then return report
      else
        set (sweep s marked keep).flush
        return { report with
          deleted := report.unreachable
          bytes_deleted := report.bytes_reclaimable
          records_deleted := report.records_unreachable }

end NexusFS.Core
