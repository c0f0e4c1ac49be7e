/- GID: NexusFS/Core/Audit
   source: crates/core/src/proof.rs, crates/core/src/namespace.rs
   digest: The repository audit, and which altered chunks a read and the audit notice. -/

import NexusFS.Core.Written

set_option autoImplicit false
set_option relaxedAutoImplicit false

namespace NexusFS.Core

open NexusFS.Lib NexusFS.Lib.Effect NexusFS.Proto NexusFS.Crdt CoreState

/-- Outcome of replaying the local log against its recorded evidence. -/
structure VerifyReport where
  operations : Nat
  with_proof : Nat
  without_proof : Nat
  malformed : Nat
  roots_matched : Nat
  roots_mismatched : Nat
  signature_failures : Nat
  unreadable_files : List String
  state_root : Option Hash

def VerifyReport.default : VerifyReport := ⟨0, 0, 0, 0, 0, 0, 0, [], none⟩

def VerifyReport.ok (report : VerifyReport) : Bool :=
  report.malformed = 0 && report.signature_failures = 0 && report.roots_mismatched = 0 &&
    report.unreadable_files.isEmpty

section Audit

variable (env : Env)

/-- Whether recorded evidence has the structure its mode declares. A commitment is checked too. -/
def wellFormedProof (bundle : ProofBundle) : Bool :=
  match bundle.mode with
  | .transparent => (env.decodeProof bundle.bytes).isSome
  | .zkCommit =>
      match env.decodeCommit bundle.bytes with
      | some proof => proof.entry.verify env.blake3 proof.new_root
      | none => false
  | _ => false

def auditProof (report : VerifyReport) (proof : Option ProofBundle) : VerifyReport :=
  match proof with
  | none => { report with without_proof := report.without_proof + 1 }
  | some bundle =>
      if wellFormedProof env bundle then { report with with_proof := report.with_proof + 1 }
      else { report with malformed := report.malformed + 1 }

def auditOp (report : VerifyReport) (op : FsOp) : VerifyReport :=
  let report := { report with operations := report.operations + 1 }
  let report :=
    if verifyOp env op = .ok () then report
    else { report with signature_failures := report.signature_failures + 1 }
  auditProof env report op.proof

def unreadableFiles (s : CoreState) (entries : List WalkEntry) : List String :=
  (entries.filter fun entry => entry.kind = .file && !(readFilePath env s entry.path).isOk).map
    WalkEntry.path

/-- Audit the local repository: check every logged operation, then read every file back. -/
def verifyRepository (s : CoreState) : Except Err VerifyReport := do
  let report := (s.oplog.toList.map Prod.snd).foldl (auditOp env) VerifyReport.default
  let entries ← walk s "/"
  return { report with unreadable_files := unreadableFiles env s entries, state_root := s.state_root }

end Audit

section Altered

variable {env : Env} {s t : CoreState}

theorem mem_unreadableFiles {entries : List WalkEntry} {path : String} :
    path ∈ unreadableFiles env s entries ↔
      (∃ entry ∈ entries, entry.path = path ∧ entry.kind = .file) ∧
        (readFilePath env s path).isOk = false := by
  simp only [unreadableFiles, List.mem_map, List.mem_filter, Bool.and_eq_true, decide_eq_true_eq,
    Bool.not_eq_true']
  constructor
  · rintro ⟨entry, ⟨member, file, fails⟩, rfl⟩
    exact ⟨⟨entry, member, rfl, file⟩, fails⟩
  · rintro ⟨⟨entry, member, rfl, file⟩, fails⟩
    exact ⟨entry, ⟨member, file, fails⟩, rfl⟩

def Listed (s : CoreState) (path : String) : Prop :=
  ∃ entries, walk s "/" = .ok entries ∧ ∃ entry ∈ entries, entry.path = path ∧ entry.kind = .file

theorem verifyRepository_reports {path : String} :
    (∃ report, verifyRepository env s = .ok report ∧ path ∈ report.unreadable_files ∧
      report.ok = false) ↔ Listed s path ∧ (readFilePath env s path).isOk = false := by
  unfold verifyRepository Listed
  cases walked : walk s "/" with
  | error e =>
      refine iff_of_false ?_ ?_
      · rintro ⟨report, run, -⟩
        cases run
      · rintro ⟨⟨entries, same, -⟩, -⟩
        cases same
  | ok entries =>
      constructor
      · rintro ⟨report, run, member, -⟩
        cases run
        obtain ⟨listed, fails⟩ := mem_unreadableFiles.mp member
        exact ⟨⟨entries, rfl, listed⟩, fails⟩
      · rintro ⟨⟨entries', same, listed⟩, fails⟩
        obtain rfl := Except.ok.inj same
        have member := mem_unreadableFiles.mpr ⟨listed, fails⟩
        refine ⟨_, rfl, member, ?_⟩
        have filled : (unreadableFiles env s entries).isEmpty = false := by
          rw [List.isEmpty_eq_false_iff]
          exact List.ne_nil_of_mem member
        simp only [VerifyReport.ok, filled, Bool.and_false]

def lenEnd : List ChunkRef → Nat → Option Nat
  | [], expected => some expected
  | c :: rest, expected => if c.offset.val = expected then lenEnd rest (expected + c.len.val) else none

theorem reads_plain_iff {chunks : List ChunkRef} {index start total : Nat} :
    (∃ pieces, Reads env s none index start chunks pieces ∧ start + pieces.flatten.length = total) ↔
      (∀ chunk ∈ chunks, ∃ stored, s.blobs[chunk.hash]? = some stored ∧ stored.length = chunk.len.val) ∧
        lenEnd chunks start = some total := by
  induction chunks generalizing index start with
  | nil =>
      constructor
      · rintro ⟨_, ⟨⟩, rfl⟩
        exact ⟨by simp, rfl⟩
      · rintro ⟨-, same⟩
        exact ⟨[], .nil, Option.some.inj same⟩
  | cons chunk rest ih =>
      constructor
      · rintro ⟨_, ⟨⟩ | ⟨held, length, offset, opens, later⟩, size⟩
        rename_i stored piece pieces
        obtain rfl : stored = piece := opens
        rw [List.flatten_cons, List.length_append, ← Nat.add_assoc] at size
        obtain ⟨others, ends⟩ := ih.mp ⟨pieces, later, size⟩
        refine ⟨List.forall_mem_cons.mpr ⟨⟨stored, held, length⟩, others⟩, ?_⟩
        rw [lenEnd, if_pos offset, ← length, ends]
      · rintro ⟨all, ends⟩
        obtain ⟨⟨stored, held, length⟩, others⟩ := List.forall_mem_cons.mp all
        unfold lenEnd at ends
        split at ends
        · rename_i offset
          rw [← length] at ends
          obtain ⟨pieces, later, size⟩ := (@ih (index + 1) (start + stored.length)).mpr ⟨others, ends⟩
          refine ⟨stored :: pieces, .cons held length offset rfl later, ?_⟩
          rw [List.flatten_cons, List.length_append, ← Nat.add_assoc]
          exact size
        · cases ends

theorem walk_putBlob (s : CoreState) (hash : Hash) (bytes : Bytes) (root : String) :
    walk (s.putBlob hash bytes) root = walk s root := by
  have into : ∀ fuel, walkInto (s.putBlob hash bytes) fuel = walkInto s fuel := by
    intro fuel
    induction fuel with
    | zero => rfl
    | succ fuel ih =>
        funext inode base depth out
        unfold walkInto
        rw [ih]
        rfl
  unfold walk
  rw [into, @resolvePath_congr s (s.putBlob hash bytes) fun _ _ => rfl]

/-- The altered bytes have the length that every reference to them states, and nothing else is wrong
with the file: its other chunks are held with their lengths, and these lay it out. -/
structure Passes (s : CoreState) (file : FileNode) (hash : Hash) (altered : Bytes) : Prop where
  altered : ∀ chunk ∈ file.chunks, chunk.hash = hash → altered.length = chunk.len.val
  others : ∀ chunk ∈ file.chunks, chunk.hash ≠ hash →
    ∃ stored, s.blobs[chunk.hash]? = some stored ∧ stored.length = chunk.len.val
  layout : lenEnd file.chunks 0 = some file.size.val

theorem plain_altered_reads {file : FileNode} (plain : file.encryption = none) {hash : Hash}
    {altered : Bytes} :
    (∃ bytes, materializeFile env (s.putBlob hash altered) file = .ok bytes) ↔
      Passes s file hash altered := by
  have reads := @reads_plain_iff env (s.putBlob hash altered) file.chunks 0 0 file.size.val
  refine Iff.trans ⟨?_, ?_⟩ (reads.trans ⟨?_, ?_⟩)
  · rintro ⟨bytes, run⟩
    obtain ⟨file_key, pieces, key, chunks, rfl, size⟩ := materializeFile_ok_iff.mp run
    unfold KeyFor at key
    rw [plain] at key
    exact ⟨pieces, key ▸ chunks, (Nat.zero_add _).trans size⟩
  · rintro ⟨pieces, chunks, size⟩
    refine ⟨_, materializeFile_ok_iff.mpr ⟨none, pieces, ?_, chunks, rfl, (Nat.zero_add _).symm.trans size⟩⟩
    unfold KeyFor
    rw [plain]
  · rintro ⟨all, layout⟩
    refine ⟨fun chunk member same => ?_, fun chunk member other => ?_, layout⟩
    · obtain ⟨stored, held, length⟩ := all chunk member
      rw [get_putBlob_of, if_pos same] at held
      rw [Option.some.inj held, length]
    · obtain ⟨stored, held, length⟩ := all chunk member
      rw [get_putBlob_of, if_neg other] at held
      exact ⟨stored, held, length⟩
  · rintro ⟨same, others, layout⟩
    refine ⟨fun chunk member => ?_, layout⟩
    rw [get_putBlob_of]
    by_cases here : chunk.hash = hash
    · rw [if_pos here]
      exact ⟨altered, rfl, same chunk member here⟩
    · rw [if_neg here]
      exact others chunk member here

/-- No byte string that was not sealed opens: the altered bytes do not open with the file's key where
the chunk stands. -/
def Untampered (env : Env) (s : CoreState) (file : FileNode) (hash : Hash) (altered : Bytes) : Prop :=
  ∀ info key, file.encryption = some info → recoverFileKey env s info = .ok key →
    ∀ index chunk, file.chunks[index]? = some chunk → chunk.hash = hash →
      ∀ piece, openChunk env key index altered ≠ .ok piece

private theorem opened_of_reads {file_key : Hash} {index start position : Nat}
    {chunks : List ChunkRef} {pieces : List Bytes} {chunk : ChunkRef}
    (reads : Reads env t (some file_key) index start chunks pieces)
    (place : chunks[position]? = some chunk) :
    ∃ stored piece, t.blobs[chunk.hash]? = some stored ∧
      openChunk env file_key (index + position) stored = .ok piece := by
  induction chunks generalizing index start position pieces with
  | nil => cases place
  | cons first rest ih =>
      cases reads with
      | @cons _ _ _ _ stored piece _ held length offset opens later =>
          cases position with
          | zero =>
              obtain rfl := Option.some.inj place
              exact ⟨stored, piece, held, opens⟩
          | succ position =>
              have next := ih later place
              rwa [Nat.add_assoc, Nat.add_comm 1] at next

theorem sealed_altered_fails {file : FileNode} {info : FileEncryption}
    (encrypted : file.encryption = some info) {chunk : ChunkRef} (member : chunk ∈ file.chunks)
    {altered : Bytes} (unforged : Untampered env s file chunk.hash altered) (bytes : Bytes) :
    materializeFile env (s.putBlob chunk.hash altered) file ≠ .ok bytes := by
  intro run
  obtain ⟨file_key, pieces, key, reads, -⟩ := materializeFile_ok_iff.mp run
  unfold KeyFor at key
  rw [encrypted] at key
  obtain ⟨key, recovered, rfl⟩ := key
  obtain ⟨position, inside, place⟩ := List.getElem_of_mem member
  have here : file.chunks[position]? = some chunk := by
    rw [List.getElem?_eq_getElem inside, place]
  obtain ⟨stored, piece, held, opened⟩ := opened_of_reads reads here
  rw [get_putBlob_of, if_pos rfl] at held
  obtain rfl := Option.some.inj held
  rw [Nat.zero_add] at opened
  exact unforged info key encrypted recovered position chunk here rfl piece opened

def Detected (env : Env) (t : CoreState) (path : String) : Prop :=
  (∃ e, readFilePath env t path = .error e) ∧
    ∃ report, verifyRepository env t = .ok report ∧ path ∈ report.unreadable_files ∧ report.ok = false

def auditedChunk : ChunkRef := ⟨Lib.blake3 [1, 2, 3], 3, 3, 0⟩

def auditedState : CoreState :=
  (Event.apply (sampleOp 2 (.write sampleParent 0 [auditedChunk] 3 none))).run .stored
    ((Event.blob [1, 2, 3]).run .stored
      ((Event.apply (sampleOp 1 (.createFile rootInode "f" 0))).run .stored
        (booted .stored (CoreState.new 7))))

def auditedFile : FileNode := ⟨⟨1, 1⟩, 3, [auditedChunk], 0o100644, 0, 0, 0, 0, none⟩

def auditedNode : Hash := objectHash .stored (.fileNode auditedFile)

end Altered

end NexusFS.Core
