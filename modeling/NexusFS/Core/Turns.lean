/- GID: NexusFS/Core/Turns
   source: crates/core/src/share.rs
   digest: Which files a re-sealing or a rotation rewrites, and with what. -/

import NexusFS.Core.Recipients
import NexusFS.Core.Share

set_option autoImplicit false
set_option relaxedAutoImplicit false

namespace NexusFS.Core

open NexusFS.Lib NexusFS.Lib.Effect NexusFS.Proto NexusFS.Crdt CoreState

section Plans

variable (env : Env)

abbrev Content := List ChunkRef × U64 × Option FileEncryption

/-- The file and the key of a row whose envelopes are not those of these recipients, if its key can be
recovered at all. -/
def stale (recipients : List Hash) (s : CoreState) (row : U128 × Hash) : Option (FileNode × Hash) :=
  match getObject env s row.2 with
  | .ok (some (.fileNode file)) =>
      match file.encryption with
      | none => none
      | some info =>
          match recoverFileKey env s info with
          | .error _ => none
          | .ok file_key =>
              if info.sealed_key = none ∧
                  info.recipients_digest = some (recipientsDigest env file_key recipients) then none
              else some (file, file_key)
  | _ => none

def resealContent (recipients : List Hash) (found : FileNode × Hash) : M Content := do
  let sealed ← recipients.mapM fun key => sealEnvelope env key found.2
  return (found.1.chunks, found.1.size,
    some ⟨none, sealed, some (recipientsDigest env found.2 recipients)⟩)

def rotatable (target : Option U128) (s : CoreState) (row : U128 × Hash) : Option Bytes :=
  if target.any (· ≠ row.1) then none
  else
    match getObject env s row.2 with
    | .ok (some (.fileNode file)) =>
        if file.encryption.isNone then none else (materializeFile env s file).toOption
    | _ => none

def rotatedContent (plain : Bytes) : M Content := do
  let (chunks, encryption) ← storeContent env plain
  return (chunks, Fin.ofNat (2 ^ 64) plain.length, encryption)

end Plans

section Turns

variable {env : Env} {identity : Identity} {recipients : List Hash} {target : Option U128} {now : U64}
  {dry_run : Bool} {row : U128 × Hash} {s t : CoreState}

def rewriteFile (env : Env) (identity : Identity) (now : U64) (row : U128 × Hash) (make : M Content) :
    M Unit := do
  let content ← make
  let _ ← applyLocal env identity (.write row.1 0 content.1 content.2.1 content.2.2) now

theorem resealFile_cases {found : Option Object} (object : getObject env s row.2 = .ok found)
    (report : ShareReport) : ∃ other : ShareReport,
      ((stale env recipients s row = none ∧
          resealFile env identity recipients now dry_run report row s = .ok other s) ∨
        ∃ old, stale env recipients s row = some old ∧
          resealFile env identity recipients now dry_run report row s = (do
            if dry_run then pure () else rewriteFile env identity now row (resealContent env recipients old)
            return { other with resealed := other.resealed + 1 } : M ShareReport) s) ∧
      other.resealed = report.resealed := by
  unfold resealFile stale
  simp only [bind_run, get_run]
  rw [object]
  dsimp only [liftCheck_ok]
  cases found with
  | none => exact ⟨_, .inl ⟨rfl, rfl⟩, rfl⟩
  | some o =>
      cases o with
      | fileNode file =>
          dsimp only
          cases file.encryption with
          | none => exact ⟨_, .inl ⟨rfl, rfl⟩, rfl⟩
          | some info =>
              dsimp only
              cases recoverFileKey env s info with
              | error e => exact ⟨_, .inl ⟨rfl, rfl⟩, rfl⟩
              | ok file_key =>
                  dsimp only
                  split
                  · exact ⟨_, .inl ⟨rfl, rfl⟩, rfl⟩
                  · refine ⟨{ report with files_scanned := report.files_scanned + 1 },
                      .inr ⟨_, rfl, ?_⟩, rfl⟩
                    cases dry_run with
                    | true => rfl
                    | false =>
                        unfold rewriteFile resealContent
                        simp only [Bool.false_eq_true, if_false, bind_assoc, pure_bind]
      | _ => exact ⟨_, .inl ⟨rfl, rfl⟩, rfl⟩

theorem rotateFile_cases {found : Option Object} (object : getObject env s row.2 = .ok found)
    (report : RotateReport) : ∃ other : RotateReport,
      ((rotatable env target s row = none ∧
          rotateFile env identity target now dry_run report row s = .ok other s) ∨
        ∃ plain, rotatable env target s row = some plain ∧
          rotateFile env identity target now dry_run report row s = (do
            if dry_run then pure () else rewriteFile env identity now row (rotatedContent env plain)
            return { other with rotated := other.rotated + 1 } : M RotateReport) s) ∧
      other.rotated = report.rotated := by
  unfold rotateFile rotatable
  split
  · exact ⟨_, .inl ⟨rfl, rfl⟩, rfl⟩
  · simp only [bind_run, get_run]
    rw [object]
    dsimp only [liftCheck_ok]
    cases found with
    | none => exact ⟨_, .inl ⟨rfl, rfl⟩, rfl⟩
    | some o =>
        cases o with
        | fileNode file =>
            dsimp only
            split
            · exact ⟨_, .inl ⟨rfl, rfl⟩, rfl⟩
            · cases materializeFile env s file with
              | error e => exact ⟨_, .inl ⟨rfl, rfl⟩, rfl⟩
              | ok plain =>
                  refine ⟨{ report with
                      files_scanned := report.files_scanned + 1
                      bytes := report.bytes + Fin.ofNat (2 ^ 64) plain.length },
                    .inr ⟨_, rfl, ?_⟩, rfl⟩
                  cases dry_run with
                  | true => rfl
                  | false =>
                      unfold rewriteFile rotatedContent
                      simp only [Bool.false_eq_true, if_false, bind_assoc, pure_bind]
        | _ => exact ⟨_, .inl ⟨rfl, rfl⟩, rfl⟩

theorem resealFile_object {report report' : ShareReport}
    (run : resealFile env identity recipients now dry_run report row s = .ok report' t) :
    ∃ found, getObject env s row.2 = .ok found := by
  cases object : getObject env s row.2 with
  | ok found => exact ⟨found, rfl⟩
  | error e =>
      unfold resealFile at run
      simp only [bind_run, get_run] at run
      rw [object] at run
      cases run

theorem rotateFile_object {report report' : RotateReport} (inside : ¬target.any (· ≠ row.1))
    (run : rotateFile env identity target now dry_run report row s = .ok report' t) :
    ∃ found, getObject env s row.2 = .ok found := by
  cases object : getObject env s row.2 with
  | ok found => exact ⟨found, rfl⟩
  | error e =>
      unfold rotateFile at run
      rw [if_neg inside] at run
      simp only [bind_run, get_run] at run
      rw [object] at run
      cases run

end Turns

section Rows

variable {env : Env} {recipients : List Hash} {target : Option U128} {row : U128 × Hash} {s : CoreState}

theorem stale_some {found : FileNode × Hash} (due : stale env recipients s row = some found) :
    getObject env s row.2 = .ok (some (.fileNode found.1)) ∧ ∃ info, found.1.encryption = some info ∧
      recoverFileKey env s info = .ok found.2 := by
  unfold stale at due
  split at due
  · rename_i file object
    split at due
    · cases due
    · rename_i info protected_by
      split at due
      · cases due
      · rename_i file_key recovers
        split at due
        · cases due
        · cases due
          exact ⟨object, info, protected_by, recovers⟩
  · cases due

theorem rotatable_some {plain : Bytes} (due : rotatable env target s row = some plain) :
    ∃ file, getObject env s row.2 = .ok (some (.fileNode file)) ∧ file.encryption.isSome ∧
      materializeFile env s file = .ok plain := by
  unfold rotatable at due
  split at due
  · cases due
  · split at due
    · rename_i file object
      split at due
      · cases due
      · rename_i encrypted
        refine ⟨file, object, Option.isSome_iff_ne_none.mpr fun none => encrypted ?_, ?_⟩
        · rw [none]
          rfl
        · cases read : materializeFile env s file with
          | error e =>
              rw [read] at due
              cases due
          | ok plain =>
              rw [read] at due
              cases due
              rfl
    · cases due

end Rows

section Surveys

variable {env : Env} {identity : Identity} {recipients : List Hash} {now : U64} {row : U128 × Hash}
  {rows : List (U128 × Hash)} {s t : CoreState}

def UpToDate (env : Env) (recipients : List Hash) (s : CoreState) (row : U128 × Hash) : Prop :=
  (∃ found, getObject env s row.2 = .ok found) ∧ stale env recipients s row = none

private theorem survey_turn {found : Option Object} (object : getObject env s row.2 = .ok found)
    (report : ShareReport) : ∃ next : ShareReport,
      resealFile env identity recipients now true report row s = .ok next s ∧
      next.resealed = report.resealed + [row].countP fun row => (stale env recipients s row).isSome := by
  obtain ⟨other, ⟨idle, run⟩ | ⟨old, due, run⟩, same⟩ := resealFile_cases object report
  · refine ⟨other, run, ?_⟩
    rw [List.countP_singleton, idle]
    exact same
  · refine ⟨_, run, ?_⟩
    rw [List.countP_singleton, due]
    exact congrArg (· + 1) same

private theorem survey_run (objects : ∀ row ∈ rows, ∃ found, getObject env s row.2 = .ok found)
    (report : ShareReport) : ∃ last : ShareReport,
      rows.foldlM (resealFile env identity recipients now true) report s = .ok last s ∧
      last.resealed = report.resealed + rows.countP fun row => (stale env recipients s row).isSome := by
  induction rows generalizing report with
  | nil => exact ⟨report, rfl, rfl⟩
  | cons row rows ih =>
      obtain ⟨found, object⟩ := objects row List.mem_cons_self
      obtain ⟨next, first, one⟩ := @survey_turn env identity recipients now row s _ object report
      obtain ⟨last, rest, total⟩ := ih (fun row member => objects row (List.mem_cons_of_mem _ member)) next
      refine ⟨last, ?_, ?_⟩
      · rw [List.foldlM_cons, bind_run, first]
        exact rest
      · rw [total, one, show row :: rows = [row] ++ rows from rfl, List.countP_append]
        omega

private theorem survey_objects {report last : ShareReport}
    (run : rows.foldlM (resealFile env identity recipients now true) report s = .ok last t) :
    ∀ row ∈ rows, ∃ found, getObject env s row.2 = .ok found := by
  induction rows generalizing report with
  | nil => simp
  | cons row rows ih =>
      rw [List.foldlM_cons, bind_run] at run
      cases first : resealFile env identity recipients now true report row s with
      | error e u =>
          rw [first] at run
          cases run
      | ok next u =>
          obtain ⟨found, object⟩ := resealFile_object first
          obtain ⟨next', turn, -⟩ := @survey_turn env identity recipients now row s _ object report
          rw [turn] at first
          cases first
          rw [turn] at run
          exact List.forall_mem_cons.mpr ⟨⟨found, object⟩, ih run⟩

theorem survey_clean_iff : (∃ report u, resealToRecipients env identity now true s = .ok report u ∧
      report.resealed = 0) ↔
    s.sealingRecipientKeys env ≠ [] ∧
      ∀ row ∈ encryptedFiles s, UpToDate env (s.sealingRecipientKeys env) s row := by
  unfold resealToRecipients
  simp only [bind_run, get_run]
  by_cases nobody : (s.sealingRecipientKeys env).isEmpty
  · rw [if_pos nobody]
    refine iff_of_false ?_ fun both => both.1 (List.isEmpty_iff.mp nobody)
    rintro ⟨report, u, run, -⟩
    cases run
  · rw [if_neg nobody]
    constructor
    · rintro ⟨report, u, run, none_counted⟩
      have objects := survey_objects run
      obtain ⟨last, again, total⟩ := @survey_run env identity (s.sealingRecipientKeys env) now
        _ s objects (.empty true)
      rw [again] at run
      cases run
      rw [none_counted] at total
      have zero : (encryptedFiles s).countP (fun row =>
          (stale env (s.sealingRecipientKeys env) s row).isSome) = 0 := by omega
      refine ⟨fun empty => nobody (List.isEmpty_iff.mpr empty), fun row member => ⟨objects row member, ?_⟩⟩
      simpa using List.countP_eq_zero.mp zero row member
    · rintro ⟨-, clean⟩
      obtain ⟨last, run, total⟩ := @survey_run env identity (s.sealingRecipientKeys env) now _ s
        (fun row member => (clean row member).1) (.empty true)
      refine ⟨last, s, run, ?_⟩
      rw [total, List.countP_eq_zero.mpr fun row member => by rw [(clean row member).2]; decide]
      rfl

end Surveys

section Content

variable {env : Env} {s : CoreState}

theorem resealContent_run (recipients : List Hash) (found : FileNode × Hash) (s : CoreState) :
    ∃ envelopes d, resealContent env recipients found s =
      .ok (found.1.chunks, found.1.size,
        some ⟨none, envelopes, some (recipientsDigest env found.2 recipients)⟩) { s with draws := d } ∧
      List.Forall₂ (SealedFor env found.2) recipients envelopes := by
  obtain ⟨envelopes, d, run, made⟩ := @sealEnvelopes_run env found.2 recipients s
  refine ⟨envelopes, d, ?_, made⟩
  unfold resealContent
  rw [bind_run, run]
  rfl

theorem rotatedContent_run (ideal : Ideal env) (plain : Bytes) (s : CoreState) : ∃ d,
    rotatedContent env plain s =
      .ok (contentRefs env s plain, Fin.ofNat (2 ^ 64) plain.length, contentInfo env s plain)
        { putAll env (contentPieces env s plain) s with draws := d } := by
  obtain ⟨d, run⟩ := storeContent_eq ideal plain s
  refine ⟨d, ?_⟩
  unfold rotatedContent
  rw [bind_run, run]
  rfl

end Content

section Steady

variable {env : Env} {recipients : List Hash} {target : Option U128} {row : U128 × Hash}
  {s u : CoreState}

def Names (env : Env) (s : CoreState) (row : U128 × Hash) (hash : Hash) : Prop :=
  hash = row.2 ∨ ∃ file, getObject env s row.2 = .ok (some (.fileNode file)) ∧
    ∃ chunk ∈ file.chunks, chunk.hash = hash

/-- A later state with the same keys that has no more of what a row names. -/
structure SameRow (env : Env) (s : CoreState) (row : U128 × Hash) (u : CoreState) : Prop where
  keys : SameKeys s u
  grew : Extends s u
  lacks : ∀ hash, Names env s row hash → u.hasBlob hash → s.hasBlob hash

private theorem SameRow.blob (same : SameRow env s row u) {hash : Hash} (named : Names env s row hash) :
    u.blobs[hash]? = s.blobs[hash]? := by
  cases here : s.blobs[hash]? with
  | some bytes => exact same.grew hash bytes here
  | none =>
      by_contra other
      obtain ⟨bytes, there⟩ := Option.ne_none_iff_exists'.mp other
      have held := same.lacks hash named (hasBlob_iff_get.mpr (by rw [there]; rfl))
      rw [hasBlob_iff_get, here] at held
      cases held

theorem SameRow.object (same : SameRow env s row u) : getObject env u row.2 = getObject env s row.2 := by
  unfold getObject
  rw [same.blob (.inl rfl)]

theorem SameKeys.recover (keys : SameKeys s u) (info : FileEncryption) :
    recoverFileKey env u info = recoverFileKey env s info := by
  unfold recoverFileKey
  rw [keys.settings.sealing_secret, keys.settings.cipher]

theorem SameRow.recover (same : SameRow env s row u) (info : FileEncryption) :
    recoverFileKey env u info = recoverFileKey env s info :=
  same.keys.recover info

theorem SameRow.materialize (same : SameRow env s row u) {file : FileNode}
    (object : getObject env s row.2 = .ok (some (.fileNode file))) :
    materializeFile env u file = materializeFile env s file :=
  materializeFile_congr file same.keys.settings.sealing_secret same.keys.settings.cipher
    fun chunk member => same.blob (.inr ⟨file, object, chunk, member, rfl⟩)

theorem SameRow.stale (same : SameRow env s row u) :
    stale env recipients u row = stale env recipients s row := by
  unfold Core.stale
  rw [same.object]
  simp only [same.recover]

theorem SameRow.rotatable (same : SameRow env s row u) :
    rotatable env target u row = rotatable env target s row := by
  unfold Core.rotatable
  rw [same.object]
  split
  · rfl
  · split
    · rename_i file object
      rw [same.materialize object]
    · rfl

theorem file_of_readFile {inode : U128} {data : Bytes} (read : readFile env s inode = .ok data) :
    ∃ reg, FileAt inode reg s := by
  unfold readFile at read
  split at read
  · cases read
  · rename_i record found
    split at read
    · cases read
    · rename_i kind
      exact ⟨record.content, record, found, not_not.mp kind, rfl⟩

theorem readFile_sameRow {inode : U128} {reg : LwwReg ContentState} (file : FileAt inode reg s)
    (file' : FileAt inode reg u)
    (same : ∀ node, reg.value.node_hash = some node → SameRow env s (inode, node) u) :
    readFile env u inode = readFile env s inode := by
  obtain ⟨record, found, kind, rfl⟩ := file
  obtain ⟨record', found', kind', content⟩ := file'
  unfold readFile
  rw [found, found']
  dsimp only
  rw [if_neg (fun other => other kind'), if_neg (fun other => other kind), content]
  cases named : record.content.value.node_hash with
  | none => rfl
  | some node =>
      have row := same node named
      have objects : getObject env u node = getObject env s node := row.object
      simp only [objects]
      cases decoded : getObject env s node with
      | error e => rfl
      | ok found_object =>
          match found_object, decoded with
          | none, _ => rfl
          | some (.dirNode _), _ => rfl
          | some (.snapshotRoot _), _ => rfl
          | some (.fileNode file), decoded => exact row.materialize decoded

end Steady

end NexusFS.Core
