/- GID: NexusFS/Core/State
   source: crates/core/src/state.rs, crates/core/src/namespace.rs, crates/core/src/peers.rs
   digest: The records a node persists, the accessors over them, and the operation log. -/

import NexusFS.Core.Object
import NexusFS.Lib.Effect

/-!
A `CoreState` value is the content of the stores together with the node's own
configuration. Each record family of the key-value store is one ordered map, so a
prefix scan is the map read in ascending key order. Writes survive a later error
of the same call, which is what the monad `M` says.
-/

set_option autoImplicit false
set_option relaxedAutoImplicit false

namespace NexusFS.Core

open NexusFS.Lib NexusFS.Proto NexusFS.Crdt

/-- How strictly a node treats proofs on operations it receives. -/
inductive ProofPolicy where
  | none
  | transparent
  | required
  | commit
  deriving DecidableEq

structure CoreState where
  device_id : DeviceId
  chunk_size : Nat
  cipher : Option Hash
  sealing_secret : Option Hash
  proofs : ProofPolicy
  shared_backend : Bool
  blobs : BTreeMap Hash Bytes
  dirs : BTreeMap U128 DirMap
  inodes : BTreeMap U128 InodeRecord
  parents : BTreeMap U128 U128
  imap : BTreeMap U128 Hash
  oplog : BTreeMap OpId FsOp
  applied : BTreeSet OpId
  pending : BTreeMap OpId FsOp
  head : Option Hash
  state_root : Option Hash
  state_time : U64
  next_counter : U64
  format_version : Option Nat
  peer_keys : BTreeMap DeviceId Hash
  seal_keys : BTreeMap DeviceId Hash
  kv_flushes : Nat
  blob_flushes : Nat
  draws : Nat

abbrev M := EStateM Err CoreState

def liftCheck {α : Type} : Except Err α → M α
  | .ok a => pure a
  | .error e => throw e

@[simp] theorem liftCheck_ok {α : Type} (a : α) (s : CoreState) :
    liftCheck (.ok a) s = .ok a s := rfl

@[simp] theorem liftCheck_error {α : Type} (e : Err) (s : CoreState) :
    (liftCheck (.error e) : M α) s = .error e s := rfl

/-- An empty store under the default configuration of `CoreState::new`. -/
def CoreState.new (device_id : DeviceId) : CoreState where
  device_id := device_id
  chunk_size := 1024 * 1024
  cipher := none
  sealing_secret := none
  proofs := .none
  shared_backend := true
  blobs := ∅
  dirs := ∅
  inodes := ∅
  parents := ∅
  imap := ∅
  oplog := ∅
  applied := ∅
  pending := ∅
  head := none
  state_root := none
  state_time := 0
  next_counter := 0
  format_version := none
  peer_keys := ∅
  seal_keys := ∅
  kv_flushes := 0
  blob_flushes := 0
  draws := 0

namespace CoreState

variable (s : CoreState)

def loadDir (inode : U128) : Option DirMap := s.dirs[inode]?

def dirAt (inode : U128) : DirMap := (s.loadDir inode).getD ∅

def storeDir (inode : U128) (map : DirMap) : CoreState :=
  { s with dirs := s.dirs.insert inode map }

def loadInode (inode : U128) : Option InodeRecord := s.inodes[inode]?

def storeInode (inode : U128) (record : InodeRecord) : CoreState :=
  { s with inodes := s.inodes.insert inode record }

def parentOf (inode : U128) : Option U128 := s.parents[inode]?

def setParent (inode parent : U128) : CoreState :=
  { s with parents := s.parents.insert inode parent }

def isDir (inode : U128) : Bool :=
  match s.loadInode inode with
  | some record => record.kind = .dir
  | none => false

def hasBlob (hash : Hash) : Bool := s.blobs.contains hash

def putBlob (hash : Hash) (bytes : Bytes) : CoreState :=
  { s with blobs := s.blobs.insert hash bytes }

def putImap (inode : U128) (hash : Hash) : CoreState :=
  { s with imap := s.imap.insert inode hash }

def dropImap (inode : U128) : CoreState := { s with imap := s.imap.erase inode }

def appendOp (op : FsOp) : CoreState := { s with oplog := s.oplog.insert op.id op }

def isOpApplied (id : OpId) : Bool := s.applied.contains id

def markOpApplied (id : OpId) : CoreState := { s with applied := s.applied.insert id }

def storePending (op : FsOp) : CoreState := { s with pending := s.pending.insert op.id op }

def clearPending (id : OpId) : CoreState := { s with pending := s.pending.erase id }

def pendingOps : List FsOp := s.pending.toList.map Prod.snd

def observeTime (time : U64) : CoreState :=
  { s with state_time := if s.state_time < time then time else s.state_time }

/-- The records of an operation that took effect: marked, no longer parked, its time observed. -/
def noteApplied (op : FsOp) : CoreState :=
  ((s.markOpApplied op.id).clearPending op.id).observeTime op.time_unix_ms

def flush : CoreState :=
  { s with
    kv_flushes := s.kv_flushes + 1
    blob_flushes := if s.shared_backend then s.blob_flushes else s.blob_flushes + 1 }

end CoreState

section Objects

variable (env : Env)

def encodeObject (object : Object) : Bytes := env.encodeObject object.canonicalized

def objectHash (object : Object) : Hash := env.blake3 (encodeObject env object)

/-- Store an encoded object under its hash, unless it is already there. -/
def putObject (object : Object) : M Hash := do
  let bytes := encodeObject env object
  let hash := env.blake3 bytes
  modify fun s => if s.hasBlob hash then s else s.putBlob hash bytes
  return hash

def getObject (s : CoreState) (hash : Hash) : Except Err (Option Object) :=
  match s.blobs[hash]? with
  | none => pure none
  | some bytes =>
      match env.decodeObject bytes with
      | some object => pure (some object)
      | none => throw .postcardDecode

def drawRandom (len : Nat) : M Bytes := do
  let s ← get
  set { s with draws := s.draws + 1 }
  return env.osRandom s.draws len

end Objects

def nextOpCounter : M U64 := do
  let s ← get
  let next := s.next_counter + 1
  set { s with next_counter := next }
  return next

def maxAbovePerDevice : Nat := 4096

namespace CoreState

def seenCounters (s : CoreState) : BTreeMap DeviceId (BTreeSet U64) :=
  s.oplog.keys.foldl
    (fun seen id => seen.insert id.device_id ((seen[id.device_id]?.getD ∅).insert id.counter)) ∅

end CoreState

def contiguousFrom : U64 → List U64 → U64
  | contiguous, [] => contiguous
  | contiguous, c :: rest => if c = contiguous + 1 then contiguousFrom c rest else contiguous

def watermark (counters : BTreeSet U64) : U64 := contiguousFrom 0 counters.toList

def extras (counters : BTreeSet U64) : List U64 :=
  (counters.toList.filter fun c => watermark counters + 1 ≤ c).take maxAbovePerDevice

/-- What this node holds, per device: the highest contiguous counter, and what lies above it. -/
def clockSummary (s : CoreState) : ClockSummary where
  entries := s.seenCounters.toList.map fun (did, counters) => (did, watermark counters)
  above := s.seenCounters.toList.filterMap fun (did, counters) =>
    if (extras counters).isEmpty then none else some (did, extras counters)

/-- The watermarks of a summary, a later entry for a device replacing an earlier one. -/
def knownCounters (summary : ClockSummary) : BTreeMap DeviceId U64 :=
  summary.entries.foldl (fun known (did, counter) => known.insert did counter) ∅

def aboveCounters (summary : ClockSummary) : BTreeMap DeviceId (List U64) :=
  summary.above.foldl (fun above (did, counters) => above.insert did counters) ∅

def holdsCounter (summary : ClockSummary) (id : OpId) : Bool :=
  decide (id.counter ≤ (knownCounters summary)[id.device_id]?.getD 0) ||
    ((aboveCounters summary)[id.device_id]?.getD []).contains id.counter

/-- The loop of `ops_missing_for`. -/
def collectMissing (remote : ClockSummary) (limit : Nat) :
    List (OpId × FsOp) → List FsOp → List FsOp
  | [], out => out
  | (id, op) :: rows, out =>
      if holdsCounter remote id then collectMissing remote limit rows out
      else if limit ≤ (out ++ [op]).length then out ++ [op]
      else collectMissing remote limit rows (out ++ [op])

def opsMissingFor (s : CoreState) (remote : ClockSummary) (limit : Nat) : List FsOp :=
  collectMissing remote limit s.oplog.toList []

def isBehind (s : CoreState) (remote : ClockSummary) : Bool :=
  let mine := clockSummary s
  (remote.entries.any fun (did, counter) => (knownCounters mine)[did]?.getD 0 < counter) ||
    remote.above.any fun (did, counters) =>
      counters.any fun counter =>
        decide ((knownCounters mine)[did]?.getD 0 < counter) &&
          !((aboveCounters mine)[did]?.getD []).contains counter

end NexusFS.Core
