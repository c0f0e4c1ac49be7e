/- GID: NexusFS/Core/Share
   source: crates/core/src/share.rs, crates/core/src/ops.rs
   digest: Re-sealing files to the current recipients, and rotating their keys. -/

import NexusFS.Core.Ops

set_option autoImplicit false
set_option relaxedAutoImplicit false

namespace NexusFS.Core

open NexusFS.Lib NexusFS.Proto NexusFS.Crdt

/-- What one re-sealing pass did. -/
structure ShareReport where
  files_scanned : Nat
  already_current : Nat
  resealed : Nat
  unreadable : Nat
  plaintext : Nat
  dry_run : Bool
  deriving DecidableEq

def ShareReport.empty (dry_run : Bool) : ShareReport := ⟨0, 0, 0, 0, 0, dry_run⟩

/-- What one rotation pass did. -/
structure RotateReport where
  files_scanned : Nat
  rotated : Nat
  unreadable : Nat
  plaintext : Nat
  bytes : U64
  dry_run : Bool
  deriving DecidableEq

def RotateReport.empty (dry_run : Bool) : RotateReport := ⟨0, 0, 0, 0, 0, dry_run⟩

/-- The walk of `encrypted_files`: directories still to open, the last one found first, the inodes
already met, and the files found. -/
structure Crawl where
  queue : List U128
  seen : BTreeSet U128
  out : List (U128 × Hash)

def nodeHashOf (s : CoreState) (inode : U128) : Option Hash :=
  (s.loadInode inode).bind fun record => record.content.value.node_hash

def crawlEntry (s : CoreState) (c : Crawl) (entry : DirEntry) : Crawl :=
  if entry.inode_id ∈ c.seen then c
  else
    let c := { c with seen := c.seen.insert entry.inode_id }
    match entry.entry_type with
    | .dir => { c with queue := entry.inode_id :: c.queue }
    | .file =>
        match nodeHashOf s entry.inode_id with
        | some hash => { c with out := c.out ++ [(entry.inode_id, hash)] }
        | none => c

/-- The loop of `encrypted_files`. No inode is queued twice, so the fuel is one for each and one for
the root. -/
def crawl (s : CoreState) : Nat → Crawl → Crawl
  | 0, c => c
  | fuel + 1, c =>
      match c.queue with
      | [] => c
      | dir :: rest => crawl s fuel ((s.materializeDir dir).foldl (crawlEntry s) { c with queue := rest })

def encryptedFiles (s : CoreState) : List (U128 × Hash) :=
  (crawl s (2 ^ 128 + 1) ⟨[rootInode], ∅, []⟩).out

def statFile (s : CoreState) (path : String) : Except Err (Option (U128 × U64 × U64)) := do
  match ← resolvePath s path with
  | none => pure none
  | some (inode, kind) =>
      if kind ≠ .file then pure none
      else
        match s.loadInode inode with
        | none => throw (.inodeRecordMissing path)
        | some record =>
            pure (some (inode, record.content.value.size, record.content.value.mtime_unix_ms))

section Passes

variable (env : Env) (identity : Identity)

/-- One turn of the loop of `reseal_to_recipients`. -/
def resealFile (recipients : List Hash) (now_ms : U64) (dry_run : Bool) (report : ShareReport)
    (row : U128 × Hash) : M ShareReport := do
  let report := { report with files_scanned := report.files_scanned + 1 }
  let s ← get
  match ← liftCheck (getObject env s row.2) with
  | some (.fileNode file) =>
      match file.encryption with
      | none => return { report with plaintext := report.plaintext + 1 }
      | some info =>
          match recoverFileKey env s info with
          | .error _ => return { report with unreadable := report.unreadable + 1 }
          | .ok file_key =>
              let want := recipientsDigest env file_key recipients
              if info.sealed_key = none ∧ info.recipients_digest = some want then
                return { report with already_current := report.already_current + 1 }
              else if dry_run then return { report with resealed := report.resealed + 1 }
              else
                let sealed ← recipients.mapM fun key => sealEnvelope env key file_key
                let _ ← applyLocal env identity
                  (.write row.1 0 file.chunks file.size (some ⟨none, sealed, some want⟩)) now_ms
                return { report with resealed := report.resealed + 1 }
  | _ => return report

def resealToRecipients (now_ms : U64) (dry_run : Bool) : M ShareReport := do
  let s ← get
  let recipients := s.sealingRecipientKeys env
  if recipients.isEmpty then throw .noSealingKey
  else (encryptedFiles s).foldlM (resealFile env identity recipients now_ms dry_run) (.empty dry_run)

/-- One turn of the loop of `rotate_content`. -/
def rotateFile (target : Option U128) (now_ms : U64) (dry_run : Bool) (report : RotateReport)
    (row : U128 × Hash) : M RotateReport := do
  if target.any (· ≠ row.1) then return report
  else
    let report := { report with files_scanned := report.files_scanned + 1 }
    let s ← get
    match ← liftCheck (getObject env s row.2) with
    | some (.fileNode file) =>
        if file.encryption.isNone then return { report with plaintext := report.plaintext + 1 }
        else
          match materializeFile env s file with
          | .error _ => return { report with unreadable := report.unreadable + 1 }
          | .ok plain =>
              let report := { report with bytes := report.bytes + Fin.ofNat (2 ^ 64) plain.length }
              if dry_run then return { report with rotated := report.rotated + 1 }
              else
                let (chunks, encryption) ← storeContent env plain
                let _ ← applyLocal env identity
                  (.write row.1 0 chunks (Fin.ofNat (2 ^ 64) plain.length) encryption) now_ms
                return { report with rotated := report.rotated + 1 }
    | _ => return report

def rotationTarget (s : CoreState) : Option String → Except Err (Option U128)
  | none => pure none
  | some path => do
      match ← statFile s path with
      | some (inode, _, _) => pure (some inode)
      | none => throw (.noSuchFile path)

def rotateContent (only_path : Option String) (now_ms : U64) (dry_run : Bool) : M RotateReport := do
  let s ← get
  if s.cipher.isNone && s.sealing_secret.isNone then throw .noKeyMaterial
  else
    let target ← liftCheck (rotationTarget s only_path)
    let report ← (encryptedFiles s).foldlM (rotateFile env identity target now_ms dry_run)
      (.empty dry_run)
    match only_path with
    | some path =>
        if report.files_scanned = 0 then throw (.notAnEncryptedFile path) else return report
    | none => return report

end Passes

end NexusFS.Core
