/- GID: NexusFS/Net/Overlays
   source: crates/core/src/apply.rs, crates/core/src/state.rs
   digest: When a partial write of stored content overlays it on the file. -/

import NexusFS.Core.Patched
import NexusFS.Net.Torn

set_option autoImplicit false
set_option relaxedAutoImplicit false

namespace NexusFS.Net

open NexusFS.Lib NexusFS.Lib.Effect NexusFS.Proto NexusFS.Core NexusFS.Crdt

section Overlays

variable {env : Env} {ids : Set OpId} {identity : Identity} {inode : U128} {a a' s t : CoreState}
  {op : FsOp} {reg : LwwReg ContentState} {offset new_size : U64} {chunks : List ChunkRef}
  {encryption : Option FileEncryption} {old bytes : Bytes}

/-- What a partial write of content that `a` stored needs to overlay it: its stored bytes end below
the largest offset and land as the content itself would, the result can be allocated, and its chunks
fit their fields. -/
structure Splices (env : Env) (a s : CoreState) (old bytes : Bytes) (offset new_size : U64) :
    Prop where
  ends : offset.val + (storedAs env a bytes).length < 2 ^ 64
  lands : LandsAs old bytes (storedAs env a bytes) offset.val new_size.val
  room : new_size.val < 2 ^ 63
  fits : Fits s new_size.val

theorem splices_of_plain (plain : a.cipher = none) (ends : offset.val + bytes.length < 2 ^ 64)
    (room : new_size.val < 2 ^ 63) (fits : Fits s new_size.val) :
    Splices env a s old bytes offset new_size := by
  refine ⟨by rwa [storedAs_plain plain], fun p start stop below => ?_, room, fits⟩
  rw [storedAs_plain plain] at stop ⊢
  rw [if_pos stop]

/-- The operation took the register of its file, and the file reads as the old bytes with the
content over them. -/
def Overlays (env : Env) (t : CoreState) (op : FsOp) (inode : U128) (old bytes : Bytes)
    (offset new_size : U64) : Prop :=
  (contentAt t inode).map LwwReg.orderKey = some (regKey op) ∧
    readFile env t inode = .ok (overlaid old bytes offset.val new_size.val)

private theorem overlays_of_spliced (ideal : Ideal env) (inj : Set.InjOn (inodeForOp env) ids)
    (decodes : ∀ object, env.decodeObject (env.encodeObject object) = some object)
    (shape : Shape env ids s) (keyed : Keyed env s) (member : op.id ∈ ids)
    (admits : Admits env op true s) (new : op.id ∉ s.applied)
    (kind : op.kind = .write inode offset chunks new_size encryption) (file : FileAt inode reg s)
    (wins : reg.orderKey < regKey op) (partly : ¬(offset = 0 ∧ chunksFormWholeFile chunks new_size))
    (held : ∀ chunk ∈ chunks, s.hasBlob chunk.hash)
    (splice : spliceWrite env (s.appendOp op) inode offset chunks new_size =
      .ok (some (spliceBytes old (heldBytes s chunks) offset.val new_size.val)))
    (queue : ∀ parked ∈ s.pendingOps, WritesTo inode parked → regKey parked ≤ regKey op)
    (apart : Apart env (s.appendOp op) (finalState (applyOp env op s))
      (storedBytes env (s.appendOp op) op)) :
    Overlays env (finalState (applyOp env op s)) op inode old bytes offset new_size ↔
      Fits s new_size.val ∧
        spliceBytes old (heldBytes s chunks) offset.val new_size.val =
          overlaid old bytes offset.val new_size.val := by
  obtain ⟨buffer, isBuffer⟩ : ∃ buffer,
      spliceBytes old (heldBytes s chunks) offset.val new_size.val = buffer := ⟨_, rfl⟩
  have length : buffer.length = new_size.val := isBuffer ▸ spliceBytes_length _ _ _ _
  rw [isBuffer] at splice ⊢
  obtain ⟨u, mutated, placed, pieces⟩ := mutate_spliced ideal apart (keyed.appendOp op).within_left kind
    file wins held partly splice fun b inside => .inl inside
  have queue' : ∀ parked ∈ s.pendingOps, ¬Outranks inode
      (contentOf op (objectHash env (contentObject env (s.appendOp op) buffer op.time_unix_ms
        (contentInfo env (s.appendOp op) buffer))) new_size) parked :=
    fun parked inside outranks => absurd outranks.2 (not_lt.mpr (queue parked inside outranks.1))
  have rests : Resting inode _ u (finalState (applyOp env op s)) :=
    rests_of_write inj shape member admits new mutated placed.file rfl queue'
  have kept : Extends u (finalState (applyOp env op s)) :=
    extends_of_keeps apart placed.within (keeps_applyOp env op s keyed).within_right rests.keeps
  have reads := spliced_reads ideal decodes length placed pieces kept rests.settings rests.file
  constructor
  · rintro ⟨-, result⟩
    have fits := reads.2 _ result
    exact ⟨fits, Except.ok.inj ((reads.1 fits).symm.trans result)⟩
  · rintro ⟨fits, equal⟩
    refine ⟨?_, equal ▸ reads.1 fits⟩
    rw [rests.file.contentAt]
    rfl

/-- A write whose splice is refused leaves nothing but its row in the log. -/
private theorem not_overlays_of_unspliced {e : Err} (admits : Admits env op true s)
    (new : op.id ∉ s.applied) (kind : op.kind = .write inode offset chunks new_size encryption)
    (file : FileAt inode reg s) (wins : reg.orderKey < regKey op)
    (partly : ¬(offset = 0 ∧ chunksFormWholeFile chunks new_size))
    (held : ∀ chunk ∈ chunks, s.hasBlob chunk.hash)
    (splice : spliceWrite env (s.appendOp op) inode offset chunks new_size = .error e) :
    ¬Overlays env (finalState (applyOp env op s)) op inode old bytes offset new_size := by
  have refused := mutate_unspliced kind (s := s.appendOp op) file wins held partly splice
  have unchanged : finalState (applyOp env op s) = s.appendOp op := by
    show finalState (applyOpInner env op true s) = s.appendOp op
    rw [applyOpInner_new admits new, attempt_run, refused]
    rfl
  rintro ⟨key, -⟩
  rw [unchanged, show contentAt (s.appendOp op) inode = some reg from file.contentAt] at key
  exact wins.ne (Option.some.inj key)

/-- A partial write of stored content, which no parked write outranks, overlays the content on the
file if and only if it splices. -/
theorem write_overlays_iff (ideal : Ideal env) (inj : Set.InjOn (inodeForOp env) ids)
    (decodes : ∀ object, env.decodeObject (env.encodeObject object) = some object)
    (run : NodeRun env identity (EachCall env identity fun _ call => call.Within ids) s)
    (member : op.id ∈ ids) (admits : Admits env op true s) (new : op.id ∉ s.applied)
    (kind : op.kind = .write inode offset chunks new_size encryption)
    {record : InodeRecord} (found : s.loadInode inode = some record)
    (wins : writeCanWin record.content op)
    (partly : ¬(offset = 0 ∧ chunksFormWholeFile chunks new_size))
    (author : storeContent env bytes a = .ok (chunks, encryption) a')
    (held : ∀ piece ∈ contentPieces env a bytes, s.blobs[env.blake3 piece]? = some piece)
    (read : readFile env s inode = .ok old)
    (justified : new_size.val ≤ max old.length (offset.val + bytes.length))
    (queue : ∀ parked ∈ s.pendingOps, WritesTo inode parked → regKey parked ≤ regKey op)
    (apart : Apart env (s.appendOp op) (finalState (applyOp env op s))
      (storedBytes env (s.appendOp op) op)) :
    Overlays env (finalState (applyOp env op s)) op inode old bytes offset new_size ↔
      Splices env a s old bytes offset new_size := by
  have shape : Shape env ids s := (run.orderly inj fun _ _ within => within).shape
  obtain ⟨d, stores⟩ := storeContent_eq ideal bytes a
  obtain rfl : contentRefs env a bytes = chunks := by
    rw [stores] at author
    injection author with same
    exact (Prod.mk.inj same).1
  have chunk_held : ∀ chunk ∈ contentRefs env a bytes, s.hasBlob chunk.hash := by
    intro chunk inside
    obtain ⟨piece, listed, same⟩ := hash_mem_contentRefs inside
    rw [hasBlob_iff_get, ← same, held piece listed]
    rfl
  have stored := heldBytes_contentRefs held
  have longer := length_le_storedAs ideal a bytes
  have kind_file : record.kind = .file := by
    by_contra other
    unfold readFile at read
    rw [found] at read
    dsimp only at read
    rw [if_pos other] at read
    cases read
  have file : FileAt inode record.content s := ⟨record, found, kind_file, rfl⟩
  have above : record.content.orderKey < regKey op := of_decide_eq_true wins
  have splice := @spliceWrite_run env inode (s.appendOp op) offset new_size (contentRefs env a bytes)
    old (tryReadFile_of_readFile ((readFile_appendOp env s op inode).trans read)) chunk_held
  have enough : new_size.val ≤
      max old.length (offset.val + (heldBytes s (contentRefs env a bytes)).length) := by
    rw [stored]
    omega
  rw [heldBytes_appendOp, if_neg (not_lt.mpr enough)] at splice
  by_cases ends : 2 ^ 64 ≤ offset.val + (heldBytes s (contentRefs env a bytes)).length
  · rw [if_pos ends] at splice
    refine iff_of_false (not_overlays_of_unspliced admits new kind file above partly chunk_held splice)
      fun splices => ?_
    rw [stored] at ends
    exact absurd splices.ends (not_lt.mpr ends)
  · rw [if_neg ends] at splice
    by_cases large : 2 ^ 63 ≤ new_size.val
    · rw [if_pos large] at splice
      exact iff_of_false (not_overlays_of_unspliced admits new kind file above partly chunk_held splice)
        fun splices => absurd splices.room (not_lt.mpr large)
    · rw [if_neg large] at splice
      rw [overlays_of_spliced ideal inj decodes shape run.keyed member admits new kind file above partly
        chunk_held splice queue apart, stored, spliceBytes_eq_overlaid_iff longer]
      rw [stored] at ends
      exact ⟨fun both => ⟨not_le.mp ends, both.2, not_le.mp large, both.1⟩,
        fun splices => ⟨splices.fits, splices.lands⟩⟩

def sparseNode (settings : CoreState) : CoreState :=
  (Act.store [7]).run .sealing sampleIdentity
    ((Act.receive (sampleOp 1 (.createFile rootInode "f" 0))).run .sealing sampleIdentity
      (booted .sealing settings))

def sparseWrite (a : CoreState) : FsOp :=
  sampleOp 2 (.write chunkFile 1 (contentRefs .sealing a [7]) 2 (contentInfo .sealing a [7]))

def sparseAuthor : CoreState :=
  (Act.receive (sampleOp 1 (.createFile rootInode "f" 0))).run .sealing sampleIdentity
    (booted .sealing sealingNode)

private theorem sparseNode_run (settings : CoreState) (blank : Blank settings)
    (empty : settings.blobs = ∅) (strangers : settings.peer_keys = ∅) :
    NodeRun .sealing sampleIdentity
      (EachCall .sealing sampleIdentity fun _ call => call.Within sampleIds) (sparseNode settings) := by
  refine .step (.step (.boot blank empty strangers) fun x member => ?_) fun x member => ?_
  · obtain rfl := List.mem_singleton.mp member
    exact Or.inl rfl
  · cases member

private theorem sampleIds_injOn_sealing : Set.InjOn (inodeForOp .sealing) sampleIds := sampleIds_injOn

/-- The sparse write of plain content to a plain node, and the states before and after. -/
def plainSparse : FsOp := sparseWrite (CoreState.new 8)

def plainLogged : CoreState := (sparseNode (CoreState.new 7)).appendOp plainSparse

def plainPatched : CoreState := finalState (applyOp .sealing plainSparse (sparseNode (CoreState.new 7)))

private theorem plainSparse_facts :
    Admits .sealing plainSparse true (sparseNode (CoreState.new 7)) ∧
    plainSparse.id ∉ (sparseNode (CoreState.new 7)).applied ∧
    ((sparseNode (CoreState.new 7)).loadInode chunkFile).map
      (fun r => writeCanWin r.content plainSparse) = some true ∧
    (∀ piece ∈ contentPieces .sealing (CoreState.new 8) [7],
      (sparseNode (CoreState.new 7)).blobs[Env.sealing.blake3 piece]? = some piece) ∧
    readFile .sealing (sparseNode (CoreState.new 7)) chunkFile = .ok [] ∧
    (sparseNode (CoreState.new 7)).pendingOps = [] ∧
    (sparseNode (CoreState.new 7)).chunk_size ≤ 2 ^ 32 - 1 - 16 ∧
    (∀ row ∈ plainLogged.blobs.toList, plainPatched.blobs[row.1]? = some row.2) ∧
    ∀ bytes ∈ storedBytes .sealing plainLogged plainSparse,
      plainPatched.blobs[Env.sealing.blake3 bytes]? = some bytes := by
  decide +kernel

theorem write_overlays_sample : Overlays .sealing plainPatched plainSparse chunkFile [] [7] 1 2 := by
  obtain ⟨admits, new, wins, held, read, idle, size, rows, listed⟩ := plainSparse_facts
  have run := sparseNode_run (CoreState.new 7) (blank_new 7) rfl rfl
  obtain ⟨record, found, wins⟩ := Option.map_eq_some_iff.mp wins
  obtain ⟨d, author⟩ := storeContent_eq sealing_ideal [7] (CoreState.new 8)
  have keyed : Keyed .sealing (sparseNode (CoreState.new 7)) := run.keyed
  have keyed' : Keyed .sealing plainPatched := keeps_applyOp .sealing plainSparse _ keyed
  have apart : Apart .sealing plainLogged plainPatched (storedBytes .sealing plainLogged plainSparse) :=
    apart_of_extends (keyed.appendOp _) keyed'
      (fun hash bytes here => rows (hash, bytes) ((BTreeMap.mem_toList _ _ _).mpr here)) listed
  refine (write_overlays_iff sealing_ideal sampleIds_injOn_sealing Env.stored_decode run
    (show plainSparse.id ∈ sampleIds from Or.inr rfl) admits new rfl found wins (fun whole => absurd whole.1 (by decide)) author held read (by decide)
    (fun parked inside => ?_) apart).mpr ?_
  · rw [idle] at inside
    cases inside
  · exact splices_of_plain rfl (by decide) (by decide) (fits_of_size size _)

/-- On a node that encrypts, and that can open the content, the write is applied and holds the register,
and the file ends with a byte of the ciphertext. -/
theorem write_overlays_ciphertext :
    NodeRun .sealing sampleIdentity
      (EachCall .sealing sampleIdentity fun _ call => call.Within sampleIds) (sparseNode sealingNode) ∧
    (contentInfo .sealing sparseAuthor [7]).map
      (fun info => (recoverFileKey .sealing (sparseNode sealingNode) info).toOption) =
        some (some (freshKey .sealing sparseAuthor)) ∧
    readFile .sealing (sparseNode sealingNode) chunkFile = .ok [] ∧
    (contentAt (finalState (applyOp .sealing (sparseWrite sparseAuthor) (sparseNode sealingNode)))
      chunkFile).map LwwReg.orderKey = some (regKey (sparseWrite sparseAuthor)) ∧
    readFile .sealing (finalState (applyOp .sealing (sparseWrite sparseAuthor)
      (sparseNode sealingNode))) chunkFile = .ok [0, 162] ∧
    overlaid [] [7] 1 2 = [0, 7] := by
  refine ⟨sparseNode_run sealingNode ⟨rfl, rfl, rfl, rfl, rfl, rfl, rfl, rfl, rfl, rfl⟩ rfl rfl, ?_⟩
  decide +kernel

end Overlays

end NexusFS.Net
