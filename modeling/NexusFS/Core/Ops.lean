/- GID: NexusFS/Core/Ops
   source: crates/core/src/ops.rs, crates/core/src/proof.rs
   digest: The local filesystem API: signed operations derived from paths, and listings. -/

import NexusFS.Core.Apply

set_option autoImplicit false
set_option relaxedAutoImplicit false

namespace NexusFS.Core

open NexusFS.Lib NexusFS.Proto NexusFS.Crdt

def maxWalkEntries : Nat := 100000

def ProofPolicy.generates (policy : ProofPolicy) : Bool := policy ≠ .none

def ProofPolicy.commits (policy : ProofPolicy) : Bool := policy = .commit

def changedHashes (kind : FsOpKind) : List Hash :=
  match kind with
  | .write _ _ chunks _ _ => chunks.map ChunkRef.hash
  | _ => []

section Evidence

variable (env : Env)

def subjectInode (id : OpId) (kind : FsOpKind) : U128 :=
  match kind with
  | .mkdir _ _ _ | .createFile _ _ _ => inodeForOp env id
  | .write inode _ _ _ _ | .setAttr inode _ _ _ => inode
  | .unlink parent _ _ => parent
  | .rename _ _ new_parent _ _ => new_parent

def finishProof (s : CoreState) (old_root : Option Hash) (changed : List Hash) : ProofBundle :=
  ⟨.transparent, env.encodeProof ⟨old_root, s.state_root, changed⟩⟩

/-- Commitment evidence, or transparent evidence when the subject is not in the live tree. -/
def finishCommitProof (s : CoreState) (old_root : Option Hash) (inode : U128)
    (changed : List Hash) : ProofBundle :=
  match s.state_root with
  | none => finishProof env s old_root changed
  | some new_root =>
      match inclusionProof env s inode with
      | none => finishProof env s old_root changed
      | some entry => ⟨.zkCommit, env.encodeCommit ⟨old_root, new_root, entry⟩⟩

end Evidence

/-- The operations that created the entries currently visible at `name`, in id order. -/
def observedEntryOps (s : CoreState) (parent : U128) (name : String) : List OpId :=
  match s.loadDir parent with
  | none => []
  | some map => ((map.getAll name).map Prod.fst).insertionSort (· ≤ ·)

section Local

variable (env : Env) (identity : Identity)

def applyLocal (kind : FsOpKind) (now : U64) : M FsOp := do
  let s ← get
  if !s.proofs.generates then
    let op ← makeOp env identity kind now
    match ← applyOp env op with
    | .applied | .alreadyApplied => return op
    | .pending reason => throw (.cannotBeApplied reason)
  else
    let old_root := s.state_root
    let provisional ← makeOp env identity kind now
    match ← applyOpUnproven env provisional with
    | .pending reason => throw (.cannotBeApplied reason)
    | .applied | .alreadyApplied => do
        let after ← get
        let bundle :=
          if s.proofs.commits then
            finishCommitProof env after old_root (subjectInode env provisional.id kind)
              (changedHashes kind)
          else finishProof env after old_root (changedHashes kind)
        let proven := { provisional with proof := some bundle }
        let op := { proven with
          sig := env.ed25519Sign identity.signing_key (env.encodeOpToSign proven.toSign) }
        modify fun s => s.appendOp op
        return op

/-- The loop of `mkdir_p`, with the path walked so far. -/
def mkdirParts (now : U64) : List String → String → U128 → M U128
  | [], _, current => pure current
  | part :: rest, walked, current => do
      let walked := walked ++ "/" ++ part
      let s ← get
      match s.lookup current part with
      | some entry =>
          if entry.entry_type = .dir then mkdirParts now rest walked entry.inode_id
          else throw (.existsNotDirectory walked)
      | none => do
          let op ← applyLocal env identity (.mkdir current part 0o40755) now
          mkdirParts now rest walked (inodeForOp env op.id)

def mkdirP (path : String) (now : U64) : M U128 := do
  let parts ← liftCheck (splitPath path)
  mkdirParts env identity now parts "" rootInode

def writeFile (path : String) (data : Bytes) (now : U64) : M U128 := do
  let parts ← liftCheck (splitPath path)
  match parts.getLast? with
  | none => throw (.noFinalComponent path)
  | some name => do
      let parent ← mkdirP env identity ("/".intercalate parts.dropLast) now
      let s ← get
      let inode ← match s.lookup parent name with
        | some entry =>
            if entry.entry_type = .file then pure entry.inode_id else throw (.existsNotFile path)
        | none => do
            let op ← applyLocal env identity (.createFile parent name 0o100644) now
            pure (inodeForOp env op.id)
      let (chunks, encryption) ← storeContent env data
      let _ ← applyLocal env identity
        (.write inode 0 chunks (Fin.ofNat (2 ^ 64) data.length) encryption) now
      return inode

def removePath (path : String) (now : U64) : M Unit := do
  let s ← get
  match ← liftCheck (resolveParent s path) with
  | none => throw (.noSuchPath path)
  | some (parent, name) =>
      match s.lookup parent name with
      | none => throw (.noSuchPath path)
      | some _ => do
          let _ ← applyLocal env identity (.unlink parent name (observedEntryOps s parent name)) now

def renamePath (source target : String) (now : U64) : M Unit := do
  let s ← get
  match ← liftCheck (resolveParent s source) with
  | none => throw (.noSuchPath source)
  | some (old_parent, old_name) =>
      match s.lookup old_parent old_name with
      | none => throw (.noSuchPath source)
      | some _ => do
          match ← liftCheck (resolveParent s target) with
          | none => throw (.destinationMissing target)
          | some (new_parent, new_name) => do
              let _ ← applyLocal env identity
                (.rename old_parent old_name new_parent new_name
                  (observedEntryOps s old_parent old_name)) now

end Local

/-- A single entry of a depth-first listing. -/
structure WalkEntry where
  path : String
  name : String
  kind : EntryType
  depth : Nat
  size : U64
  inode : U128
  mtime_unix_ms : U64
  deriving DecidableEq

def walkEntryFor (s : CoreState) (path : String) (depth : Nat) (entry : DirEntry) : WalkEntry :=
  let content := (s.loadInode entry.inode_id).map fun r => r.content.value
  { path := path
    name := entry.name
    kind := entry.entry_type
    depth := depth
    size := if entry.entry_type = .file then (content.map ContentState.size).getD 0 else 0
    inode := entry.inode_id
    mtime_unix_ms := (content.map ContentState.mtime_unix_ms).getD 0 }

def walkStep (s : CoreState)
    (nested : U128 → String → Nat → List WalkEntry → Except Err (List WalkEntry))
    (base : String) (depth : Nat) (out : List WalkEntry) (entry : DirEntry) :
    Except Err (List WalkEntry) :=
  let path := base ++ "/" ++ entry.name
  let listed := out ++ [walkEntryFor s path depth entry]
  if entry.entry_type = .dir then nested entry.inode_id path (depth + 1) listed else pure listed

/-- Depth-first listing below `inode`. A nested call sees a longer listing, so the entry limit
bounds the nesting. -/
def walkInto (s : CoreState) : Nat → U128 → String → Nat → List WalkEntry →
    Except Err (List WalkEntry)
  | 0, _, _, _, _ => throw .listingExceeded
  | fuel + 1, inode, base, depth, out =>
      if maxWalkEntries < out.length then throw .listingExceeded
      else (s.materializeDir inode).foldlM (walkStep s (walkInto s fuel) base depth) out

/-- `str::trim_end_matches('/')`. -/
def trimSlashes (path : String) : String :=
  String.ofList ((path.toList.reverse.dropWhile fun c => c = '/').reverse)

def walk (s : CoreState) (root : String) : Except Err (List WalkEntry) := do
  match ← resolvePath s root with
  | none => throw (.noSuchPath root)
  | some (inode, kind) =>
      if kind ≠ .dir then throw (.notADirectory root)
      else walkInto s (maxWalkEntries + 2) inode (trimSlashes root) 0 []

end NexusFS.Core
