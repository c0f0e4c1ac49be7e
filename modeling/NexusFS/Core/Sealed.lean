/- GID: NexusFS/Core/Sealed
   source: crates/core/src/state.rs, crates/core/src/chunker.rs, crates/core/src/namespace.rs,
     crates/crypto/src/repo.rs, crates/crypto/src/envelope.rs
   digest: Stored content, plain or sealed, reads back as what was stored. -/

import NexusFS.Core.Reading
import NexusFS.Core.Postcard

set_option autoImplicit false
set_option relaxedAutoImplicit false

namespace NexusFS.Core

open NexusFS.Lib NexusFS.Lib.Effect NexusFS.Proto NexusFS.Crdt CoreState

/-- What is relied on of the ciphers: authenticated encryption undoes itself and adds a tag of
sixteen bytes, two parties agree on a secret, and a draw has the length that was asked for. -/
structure Ideal (env : Env) : Prop where
  opens : ∀ key nonce aad plain,
    env.aeadDecrypt key nonce aad (env.aeadEncrypt key nonce aad plain) = some plain
  tag : ∀ key nonce aad plain, (env.aeadEncrypt key nonce aad plain).length = plain.length + 16
  agrees : ∀ a b, env.x25519 a (env.x25519Public b) = env.x25519 b (env.x25519Public a)
  draws : ∀ i len, (env.osRandom i len).length = len

section Reads

variable {env : Env} {s t : CoreState} {file_key : Option Hash}

def Opens (env : Env) (file_key : Option Hash) (index : Nat) (stored piece : Bytes) : Prop :=
  match file_key with
  | some key => openChunk env key index stored = .ok piece
  | none => stored = piece

/-- The chunks are held as they say, lie end to end from `start`, and open to these pieces. -/
inductive Reads (env : Env) (s : CoreState) (file_key : Option Hash) :
    Nat → Nat → List ChunkRef → List Bytes → Prop
  | nil {index start : Nat} : Reads env s file_key index start [] []
  | cons {index start : Nat} {chunk : ChunkRef} {rest : List ChunkRef} {stored piece : Bytes}
      {pieces : List Bytes} (held : s.blobs[chunk.hash]? = some stored)
      (length : stored.length = chunk.len.val) (offset : chunk.offset.val = start)
      (opens : Opens env file_key index stored piece)
      (later : Reads env s file_key (index + 1) (start + piece.length) rest pieces) :
      Reads env s file_key index start (chunk :: rest) (piece :: pieces)

theorem Reads.readChunks {index : Nat} {chunks : List ChunkRef} {pieces : List Bytes} {out : Bytes}
    (reads : Reads env s file_key index out.length chunks pieces) :
    readChunks env s file_key index chunks out = .ok (out ++ pieces.flatten) := by
  generalize at_end : out.length = start at reads
  induction reads generalizing out with
  | nil => simp [Core.readChunks, pure, Except.pure]
  | @cons index start chunk rest stored piece pieces held length offset opens later ih =>
      subst at_end
      unfold Core.readChunks
      rw [held]
      dsimp only
      rw [if_neg (not_not.mpr length), if_neg (not_not.mpr offset)]
      have rest_read := @ih (out ++ piece) (by rw [List.length_append])
      rw [List.flatten_cons, ← List.append_assoc]
      cases file_key with
      | some key =>
          have opened : openChunk env key index stored = .ok piece := opens
          dsimp only
          rw [opened]
          exact rest_read
      | none =>
          have same : stored = piece := opens
          rw [same]
          exact rest_read

theorem reads_of_readChunks {index : Nat} {chunks : List ChunkRef} {out result : Bytes}
    (run : readChunks env s file_key index chunks out = .ok result) :
    ∃ pieces, Reads env s file_key index out.length chunks pieces ∧ result = out ++ pieces.flatten := by
  induction chunks generalizing index out with
  | nil =>
      cases run
      exact ⟨[], .nil, by simp⟩
  | cons chunk rest ih =>
      unfold readChunks at run
      cases held : s.blobs[chunk.hash]? with
      | none =>
          rw [held] at run
          cases run
      | some stored =>
          rw [held] at run
          dsimp only at run
          split at run
          · cases run
          · rename_i length
            split at run
            · cases run
            · rename_i offset
              have append : ∀ piece, Opens env file_key index stored piece →
                  Core.readChunks env s file_key (index + 1) rest (out ++ piece) = .ok result →
                  ∃ pieces, Reads env s file_key index out.length (chunk :: rest) pieces ∧
                    result = out ++ pieces.flatten := by
                intro piece opens later
                obtain ⟨pieces, reads, rfl⟩ := ih later
                rw [List.length_append] at reads
                exact ⟨piece :: pieces, .cons held (not_not.mp length) (not_not.mp offset) opens reads,
                  by simp⟩
              cases file_key with
              | none => exact append stored rfl run
              | some key =>
                  dsimp only at run
                  cases opened : openChunk env key index stored with
                  | error e =>
                      rw [opened] at run
                      cases run
                  | ok piece =>
                      rw [opened] at run
                      exact append piece opened run

theorem Reads.hasBlob {index start : Nat} {chunks : List ChunkRef} {pieces : List Bytes}
    (reads : Reads env s file_key index start chunks pieces) {chunk : ChunkRef}
    (member : chunk ∈ chunks) : s.hasBlob chunk.hash := by
  induction reads with
  | nil => cases member
  | cons held length offset opens later ih =>
      rcases List.mem_cons.mp member with rfl | inside
      · rw [CoreState.hasBlob, Std.ExtTreeMap.contains_eq_isSome_getElem?, held]
        rfl
      · exact ih inside

theorem readChunks_ok_iff {chunks : List ChunkRef} {result : Bytes} :
    readChunks env s file_key 0 chunks [] = .ok result ↔
      ∃ pieces, Reads env s file_key 0 0 chunks pieces ∧ result = pieces.flatten := by
  constructor
  · intro run
    obtain ⟨pieces, reads, same⟩ := reads_of_readChunks run
    exact ⟨pieces, reads, same⟩
  · rintro ⟨pieces, reads, rfl⟩
    exact @Reads.readChunks env s file_key 0 chunks pieces [] reads

def KeyFor (env : Env) (s : CoreState) (encryption : Option FileEncryption)
    (file_key : Option Hash) : Prop :=
  match encryption with
  | some info => ∃ key, recoverFileKey env s info = .ok key ∧ file_key = some key
  | none => file_key = none

theorem materializeFile_ok_iff {file : FileNode} {result : Bytes} :
    materializeFile env s file = .ok result ↔
      ∃ file_key pieces, KeyFor env s file.encryption file_key ∧
        Reads env s file_key 0 0 file.chunks pieces ∧ result = pieces.flatten ∧
          result.length = file.size.val := by
  have finish : ∀ file_key, (do
      let out ← readChunks env s file_key 0 file.chunks []
      if out.length ≠ file.size.val then throw (.fileSizeMismatch out.length file.size)
      else pure out : Except Err Bytes) = .ok result ↔
      ∃ pieces, Reads env s file_key 0 0 file.chunks pieces ∧ result = pieces.flatten ∧
        result.length = file.size.val := by
    intro file_key
    cases read : readChunks env s file_key 0 file.chunks [] with
    | error e =>
        refine iff_of_false (fun run => by cases run) ?_
        rintro ⟨pieces, reads, rfl, -⟩
        rw [readChunks_ok_iff.mpr ⟨pieces, reads, rfl⟩] at read
        cases read
    | ok out =>
        obtain ⟨pieces, reads, rfl⟩ := readChunks_ok_iff.mp read
        show (if pieces.flatten.length ≠ file.size.val then
          throw (.fileSizeMismatch pieces.flatten.length file.size) else pure pieces.flatten :
            Except Err Bytes) = .ok result ↔ _
        constructor
        · intro run
          split at run
          · cases run
          · rename_i size
            cases run
            exact ⟨pieces, reads, rfl, not_not.mp size⟩
        · rintro ⟨pieces', reads', rfl, size⟩
          rw [readChunks_ok_iff.mpr ⟨pieces', reads', rfl⟩] at read
          rw [← Except.ok.inj read, if_neg (not_not.mpr size)]
          rfl
  unfold materializeFile KeyFor
  cases enc : file.encryption with
  | none =>
      refine (finish none).trans ⟨?_, ?_⟩
      · rintro ⟨pieces, found⟩
        exact ⟨none, pieces, rfl, found⟩
      · rintro ⟨_, pieces, rfl, found⟩
        exact ⟨pieces, found⟩
  | some info =>
      dsimp only
      generalize recoverFileKey env s info = recovered
      cases recovered with
      | error e =>
          refine iff_of_false (fun run => by cases run) ?_
          rintro ⟨_, _, ⟨key, found, -⟩, -⟩
          cases found
      | ok key =>
          refine (finish (some key)).trans ⟨?_, ?_⟩
          · rintro ⟨pieces, found⟩
            exact ⟨some key, pieces, ⟨key, rfl, rfl⟩, found⟩
          · rintro ⟨_, pieces, ⟨_, found, rfl⟩, rest⟩
            cases found
            exact ⟨pieces, rest⟩

theorem materializeFile_length {file : FileNode} {plain : Bytes}
    (run : materializeFile env s file = .ok plain) : plain.length < 2 ^ 64 := by
  obtain ⟨_, _, _, _, _, size⟩ := materializeFile_ok_iff.mp run
  rw [size]
  exact file.size.isLt

end Reads

section Pieces

variable {env : Env} {s t : CoreState}

private theorem chunksOf_length_le {size fuel : Nat} {data piece : Bytes}
    (member : piece ∈ chunksOf size fuel data) : piece.length ≤ min data.length size := by
  induction fuel generalizing data with
  | zero => cases member
  | succ fuel ih =>
      unfold chunksOf at member
      split at member
      · cases member
      · rcases List.mem_cons.mp member with rfl | later
        · rw [List.length_take]
          omega
        · have shorter := ih later
          rw [List.length_drop] at shorter
          omega

theorem chunkBytes_length_le {data piece : Bytes} {chunk_size : Nat}
    (member : piece ∈ chunkBytes data chunk_size) :
    piece.length ≤ min data.length (max chunk_size 1) :=
  chunksOf_length_le member

theorem chunkBytes_cons {data : Bytes} (filled : data ≠ []) (chunk_size : Nat) :
    ∃ rest, chunkBytes data chunk_size = data.take (max chunk_size 1) :: rest := by
  unfold chunkBytes
  cases data with
  | nil => exact absurd rfl filled
  | cons b bytes => exact ⟨_, rfl⟩

def putAll (env : Env) (stored : List Bytes) (s : CoreState) : CoreState :=
  stored.foldl (fun s bytes => s.putBlob (env.blake3 bytes) bytes) s

theorem putAll_eq (stored : List Bytes) (s : CoreState) :
    putAll env stored s = { s with blobs := (putAll env stored s).blobs } := by
  induction stored generalizing s with
  | nil => rfl
  | cons bytes rest ih => exact ih (s.putBlob (env.blake3 bytes) bytes)

theorem putAll_draws (stored : List Bytes) (s : CoreState) (d : Nat) :
    putAll env stored { s with draws := d } = { putAll env stored s with draws := d } := by
  induction stored generalizing s with
  | nil => rfl
  | cons bytes rest ih => exact ih (s.putBlob (env.blake3 bytes) bytes)

/-- What is stored under a hash stays, unless other bytes of that hash are stored. -/
theorem get_putAll_kept {stored : List Bytes} {hash : Hash} {bytes : Bytes}
    (here : s.blobs[hash]? = some bytes)
    (apart : ∀ other ∈ stored, env.blake3 other = hash → other = bytes) :
    (putAll env stored s).blobs[hash]? = some bytes := by
  induction stored generalizing s with
  | nil => exact here
  | cons first rest ih =>
      refine ih ?_ fun other member => apart other (List.mem_cons_of_mem first member)
      show (s.blobs.insert (env.blake3 first) first)[hash]? = some bytes
      rw [BTreeMap.get_insert]
      split
      · rename_i same
        rw [apart first List.mem_cons_self same]
      · exact here

theorem get_putAll {stored : List Bytes} (apart : Set.InjOn env.blake3 {b | b ∈ stored})
    {bytes : Bytes} (member : bytes ∈ stored) :
    (putAll env stored s).blobs[env.blake3 bytes]? = some bytes := by
  induction stored generalizing s with
  | nil => cases member
  | cons first rest ih =>
      have later : Set.InjOn env.blake3 {b | b ∈ rest} :=
        apart.mono fun b inside => List.mem_cons_of_mem first inside
      rcases List.mem_cons.mp member with rfl | inside
      · show (putAll env rest (s.putBlob (env.blake3 bytes) bytes)).blobs[env.blake3 bytes]? = some bytes
        exact get_putAll_kept (get_putBlob _ _) fun other there same =>
          apart (List.mem_cons_of_mem _ there) List.mem_cons_self same
      · exact ih later inside

theorem storePlain_run (pieces : List Bytes) (offset : U64) (s : CoreState) :
    storePlain env pieces offset s = .ok (plainRefs env pieces offset) (putAll env pieces s) := by
  induction pieces generalizing s offset with
  | nil => rfl
  | cons piece rest ih =>
      unfold storePlain
      simp only [bind_run, modify_run, ih, pure_run]
      rfl

def sealedPieces (env : Env) (file_key : Hash) : Nat → List Bytes → List Bytes
  | _, [] => []
  | index, plain :: rest => sealChunk env file_key index plain :: sealedPieces env file_key (index + 1) rest

/-- The references `store_content` returns for them. -/
def sealedRefs (env : Env) (file_key : Hash) : Nat → List Bytes → U64 → List ChunkRef
  | _, [], _ => []
  | index, plain :: rest, offset =>
      ⟨env.blake3 (sealChunk env file_key index plain),
          Fin.ofNat (2 ^ 32) (sealChunk env file_key index plain).length,
          Fin.ofNat (2 ^ 32) plain.length, offset⟩ ::
        sealedRefs env file_key (index + 1) rest (offset + Fin.ofNat (2 ^ 64) plain.length)

theorem storeSealed_run (file_key : Hash) (index : Nat) (pieces : List Bytes) (offset : U64)
    (s : CoreState) : storeSealed env file_key index pieces offset s =
      .ok (sealedRefs env file_key index pieces offset)
        (putAll env (sealedPieces env file_key index pieces) s) := by
  induction pieces generalizing s offset index with
  | nil => rfl
  | cons piece rest ih =>
      unfold storeSealed
      simp only [bind_run, modify_run, ih, pure_run]
      rfl

private theorem ofNat_length {piece : Bytes} (short : piece.length < 2 ^ 32) :
    (Fin.ofNat (2 ^ 32) piece.length : U32).val = piece.length :=
  Nat.mod_eq_of_lt short

private theorem offset_advance {offset : U64} {piece : Bytes} {total : Nat}
    (fits : offset.val + (piece.length + total) < 2 ^ 64) :
    (offset + Fin.ofNat (2 ^ 64) piece.length : U64).val = offset.val + piece.length := by
  rw [Fin.val_add]
  show (offset.val + piece.length % 2 ^ 64) % 2 ^ 64 = _
  rw [Nat.mod_eq_of_lt (by omega : piece.length < 2 ^ 64), Nat.mod_eq_of_lt (by omega)]

theorem reads_plainRefs {pieces : List Bytes} (short : ∀ piece ∈ pieces, piece.length < 2 ^ 32)
    (held : ∀ piece ∈ pieces, t.blobs[env.blake3 piece]? = some piece) (index : Nat) {offset : U64}
    (fits : offset.val + pieces.flatten.length < 2 ^ 64) :
    Reads env t none index offset.val (plainRefs env pieces offset) pieces := by
  induction pieces generalizing index offset with
  | nil => exact .nil
  | cons piece rest ih =>
      rw [List.flatten_cons, List.length_append] at fits
      have next := offset_advance fits
      have advanced : (offset + Fin.ofNat (2 ^ 64) piece.length : U64).val + rest.flatten.length < 2 ^ 64 := by
        omega
      have later := ih (fun other member => short other (List.mem_cons_of_mem _ member))
        (fun other member => held other (List.mem_cons_of_mem _ member)) (index + 1)
        advanced
      rw [next] at later
      exact .cons (held piece List.mem_cons_self) (ofNat_length (short piece List.mem_cons_self)).symm rfl
        rfl later

theorem reads_sealedRefs (ideal : Ideal env) {file_key : Hash} {pieces : List Bytes} {index : Nat}
    (short : ∀ piece ∈ pieces, piece.length + 16 < 2 ^ 32)
    (held : ∀ stored ∈ sealedPieces env file_key index pieces,
      t.blobs[env.blake3 stored]? = some stored) {offset : U64}
    (fits : offset.val + pieces.flatten.length < 2 ^ 64) :
    Reads env t (some file_key) index offset.val (sealedRefs env file_key index pieces offset)
      pieces := by
  induction pieces generalizing index offset with
  | nil => exact .nil
  | cons piece rest ih =>
      rw [List.flatten_cons, List.length_append] at fits
      have next := offset_advance fits
      have advanced : (offset + Fin.ofNat (2 ^ 64) piece.length : U64).val + rest.flatten.length < 2 ^ 64 := by
        omega
      have later := ih (fun other member => short other (List.mem_cons_of_mem _ member))
        (fun other member => held other (List.mem_cons_of_mem _ member))
        advanced
      rw [next] at later
      have small := short piece List.mem_cons_self
      have length : (sealChunk env file_key index piece).length < 2 ^ 32 := by
        unfold sealChunk
        rw [ideal.tag]
        exact small
      have opened : openChunk env file_key index (sealChunk env file_key index piece) = .ok piece := by
        unfold openChunk sealChunk
        rw [ideal.opens]
        rfl
      exact .cons (held _ List.mem_cons_self) (ofNat_length length).symm rfl opened later

private theorem plain_len_advance {piece : Bytes} (short : piece.length < 2 ^ 32) :
    Fin.ofNat (2 ^ 64) (Fin.ofNat (2 ^ 32) piece.length : U32).val = Fin.ofNat (2 ^ 64) piece.length := by
  rw [ofNat_length short]

private theorem add_length (offset : U64) (piece : Bytes) (total : Nat) :
    offset + Fin.ofNat (2 ^ 64) piece.length + Fin.ofNat (2 ^ 64) total =
      offset + Fin.ofNat (2 ^ 64) (piece.length + total) := by
  apply Fin.ext
  simp only [Fin.val_add, Fin.val_ofNat]
  omega

theorem chunksContiguous_plainRefs {pieces : List Bytes}
    (short : ∀ piece ∈ pieces, piece.length < 2 ^ 32) (offset : U64) :
    chunksContiguous (plainRefs env pieces offset) offset =
      some (offset + Fin.ofNat (2 ^ 64) pieces.flatten.length) := by
  induction pieces generalizing offset with
  | nil => simp [plainRefs, chunksContiguous]
  | cons piece rest ih =>
      rw [plainRefs, chunksContiguous, if_neg (not_not.mpr rfl),
        plain_len_advance (short piece List.mem_cons_self),
        ih fun other member => short other (List.mem_cons_of_mem _ member), List.flatten_cons,
        List.length_append, add_length]

theorem chunksContiguous_sealedRefs {file_key : Hash} {pieces : List Bytes}
    (short : ∀ piece ∈ pieces, piece.length < 2 ^ 32) (index : Nat) (offset : U64) :
    chunksContiguous (sealedRefs env file_key index pieces offset) offset =
      some (offset + Fin.ofNat (2 ^ 64) pieces.flatten.length) := by
  induction pieces generalizing index offset with
  | nil => simp [sealedRefs, chunksContiguous]
  | cons piece rest ih =>
      rw [sealedRefs, chunksContiguous, if_neg (not_not.mpr rfl),
        plain_len_advance (short piece List.mem_cons_self),
        ih fun other member => short other (List.mem_cons_of_mem _ member), List.flatten_cons,
        List.length_append, add_length]

end Pieces

section Keys

variable {env : Env} {s t : CoreState} {file_key : Hash}

@[simp] theorem hashOfBytes_be256 (key : Hash) : hashOfBytes (be256 key) = some key := by
  have value : (be256 key).foldl (fun n b => n * 256 + b.toNat) 0 = key.val % 256 ^ 32 :=
    ofBytes_beBytes 32 key.val
  have small : key.val < 256 ^ 32 := by
    have := key.isLt
    omega
  unfold hashOfBytes
  rw [if_pos (show (be256 key).length = 32 from beBytes_length 32 key.val), value,
    Nat.mod_eq_of_lt small]
  exact congrArg some (Fin.ext (Nat.mod_eq_of_lt key.isLt))

def SealedFor (env : Env) (file_key recipient : Hash) (envelope : SealedFileKey) : Prop :=
  ∃ secret nonce, envelope = ⟨env.x25519Public secret, nonce,
    env.aeadEncrypt (envelopeKey env (env.x25519 secret recipient)) (be192 nonce)
      (envelopeAad recipient) (be256 file_key)⟩

theorem SealedFor.opens (ideal : Ideal env) {secret : Hash} {envelope : SealedFileKey}
    (made : SealedFor env file_key (env.x25519Public secret) envelope) :
    openEnvelope env secret envelope = some (be256 file_key) := by
  obtain ⟨ephemeral, nonce, rfl⟩ := made
  unfold openEnvelope
  rw [ideal.agrees secret ephemeral, ideal.opens]

private theorem sealEnvelope_run (recipient : Hash) (s : CoreState) : ∃ envelope d,
    sealEnvelope env recipient file_key s = .ok envelope { s with draws := d } ∧
      SealedFor env file_key recipient envelope :=
  ⟨_, _, rfl, _, _, rfl⟩

theorem sealEnvelopes_run (recipients : List Hash) (s : CoreState) : ∃ envelopes d,
    (recipients.mapM fun key => sealEnvelope env key file_key) s =
      .ok envelopes { s with draws := d } ∧
      List.Forall₂ (SealedFor env file_key) recipients envelopes := by
  induction recipients generalizing s with
  | nil => exact ⟨[], s.draws, rfl, .nil⟩
  | cons recipient rest ih =>
      obtain ⟨envelope, d, first, made⟩ := @sealEnvelope_run env file_key recipient s
      obtain ⟨envelopes, d', later, all⟩ := ih { s with draws := d }
      refine ⟨envelope :: envelopes, d', ?_, .cons made all⟩
      rw [List.mapM_cons]
      simp only [bind_run, first, later, pure_run]

/-- What protects a file key: the repository key on a node without a sealing key, and otherwise an
envelope for each recipient and a digest of all. -/
inductive Protected (env : Env) (s : CoreState) (file_key cipher : Hash) : FileEncryption → Prop
  | repository {nonce : Bytes} (without : s.sealing_secret = none) (length : nonce.length = 24) :
      Protected env s file_key cipher
        ⟨some (nonce ++ env.aeadEncrypt cipher nonce [] (be256 file_key)), [], none⟩
  | recipients {secret : Hash} {envelopes : List SealedFileKey} (own : s.sealing_secret = some secret)
      (made : List.Forall₂ (SealedFor env file_key) (s.sealingRecipientKeys env) envelopes) :
      Protected env s file_key cipher
        ⟨none, envelopes, some (recipientsDigest env file_key (s.sealingRecipientKeys env))⟩

theorem sealingRecipientKeys_own {secret : Hash} (own : s.sealing_secret = some secret) :
    ∃ rest, s.sealingRecipientKeys env = env.x25519Public secret :: rest := by
  have grows : ∀ (peers : List (DeviceId × Hash)) (keys : List Hash), ∃ rest,
      peers.foldl (fun keys p => if keys.contains p.2 then keys else keys ++ [p.2]) keys =
        keys ++ rest := by
    intro peers
    induction peers with
    | nil => exact fun keys => ⟨[], (List.append_nil keys).symm⟩
    | cons peer peers ih =>
        intro keys
        rw [List.foldl_cons]
        split
        · exact ih keys
        · obtain ⟨rest, same⟩ := ih (keys ++ [peer.2])
          exact ⟨peer.2 :: rest, by rw [same, List.append_assoc, List.singleton_append]⟩
  obtain ⟨rest, same⟩ := grows s.sealingRecipients [env.x25519Public secret]
  refine ⟨rest, ?_⟩
  unfold sealingRecipientKeys
  rw [own]
  exact same

theorem sealingRecipientKeys_none (without : s.sealing_secret = none) :
    s.sealingRecipientKeys env = [] := by
  unfold sealingRecipientKeys
  rw [without]

theorem protectFileKey_run (ideal : Ideal env) (cipher : Hash) (s : CoreState) : ∃ info d,
    protectFileKey env file_key cipher s = .ok info { s with draws := d } ∧
      Protected env s file_key cipher info := by
  unfold protectFileKey
  rw [bind_run, get_run]
  dsimp only
  rcases Option.eq_none_or_eq_some s.sealing_secret with own | ⟨secret, own⟩
  · rw [sealingRecipientKeys_none own]
    simp only [List.isEmpty_nil, if_true]
    exact ⟨_, _, rfl, .repository own (ideal.draws s.draws 24)⟩
  · obtain ⟨rest, keys⟩ := @sealingRecipientKeys_own env s secret own
    have filled : (s.sealingRecipientKeys env).isEmpty = false := by rw [keys]; rfl
    obtain ⟨envelopes, d, run, made⟩ :=
      @sealEnvelopes_run env file_key (s.sealingRecipientKeys env) s
    rw [if_neg (by rw [filled]; decide)]
    simp only [bind_run, run, pure_run]
    exact ⟨_, d, rfl, .recipients own made⟩

theorem recoverFileKey_own (ideal : Ideal env) {secret : Hash} {rest : List Hash}
    {envelopes : List SealedFileKey} {sealed_key : Option Bytes} {digest : Option Hash}
    (own : t.sealing_secret = some secret)
    (made : List.Forall₂ (SealedFor env file_key) (env.x25519Public secret :: rest) envelopes) :
    recoverFileKey env t ⟨sealed_key, envelopes, digest⟩ = .ok file_key := by
  cases made with
  | cons first others =>
      have opened := first.opens ideal
      unfold recoverFileKey
      rw [own]
      dsimp only [Option.bind_some, firstOpened]
      rw [List.findSome?_cons, opened]
      dsimp only
      rw [hashOfBytes_be256]
      rfl

theorem Protected.recover (ideal : Ideal env) {cipher : Hash} {info : FileEncryption}
    (made : Protected env s file_key cipher info) (secret : t.sealing_secret = s.sealing_secret)
    (key : t.cipher = some cipher) : recoverFileKey env t info = .ok file_key := by
  cases made with
  | @repository nonce without length =>
      unfold recoverFileKey
      rw [secret, without, key]
      show openFileKey env cipher (nonce ++ env.aeadEncrypt cipher nonce [] (be256 file_key)) = _
      unfold openFileKey
      rw [if_neg (by rw [List.length_append]; omega), ← length, List.take_left, List.drop_left,
        ideal.opens]
      dsimp only
      rw [hashOfBytes_be256]
      rfl
  | @recipients own_secret envelopes own made =>
      obtain ⟨rest, keys⟩ := @sealingRecipientKeys_own env s own_secret own
      rw [keys] at made
      exact recoverFileKey_own ideal (secret.trans own) made

end Keys

section Content

variable {env : Env} {s t u : CoreState}

def freshKey (env : Env) (s : CoreState) : Hash := (hashOfBytes (env.osRandom s.draws 32)).getD 0

def contentKey (env : Env) (s : CoreState) : Option Hash := s.cipher.map fun _ => freshKey env s

def contentPieces (env : Env) (s : CoreState) (data : Bytes) : List Bytes :=
  match contentKey env s with
  | none => chunkBytes data s.chunk_size
  | some key => sealedPieces env key 0 (chunkBytes data s.chunk_size)

def contentRefs (env : Env) (s : CoreState) (data : Bytes) : List ChunkRef :=
  match contentKey env s with
  | none => plainRefs env (chunkBytes data s.chunk_size) 0
  | some key => sealedRefs env key 0 (chunkBytes data s.chunk_size) 0

def tagLength (s : CoreState) : Nat := if s.cipher.isSome then 16 else 0

private theorem tagLength_le (s : CoreState) : tagLength s ≤ 16 := by
  unfold tagLength
  split <;> omega

def Fits (s : CoreState) (size : Nat) : Prop :=
  min size (max s.chunk_size 1) + tagLength s < 2 ^ 32

theorem fits_of_size (size : s.chunk_size ≤ 2 ^ 32 - 1 - 16) (length : Nat) : Fits s length := by
  have tag := tagLength_le s
  unfold Fits
  omega

theorem Fits.piece {data piece : Bytes} (fits : Fits s data.length)
    (member : piece ∈ chunkBytes data s.chunk_size) : piece.length + tagLength s < 2 ^ 32 := by
  have short := chunkBytes_length_le member
  unfold Fits at fits
  omega

private theorem chunkBytes_max (data : Bytes) (chunk_size : Nat) :
    chunkBytes data (max chunk_size 1) = chunkBytes data chunk_size := by
  unfold chunkBytes
  rw [max_assoc, max_self]

/-- The object goes under its hash, unless something is there. -/
theorem makeFilenode_run (chunks : List ChunkRef) (size now : U64)
    (encryption : Option FileEncryption) (s : CoreState) : ∃ t,
      makeFilenode env chunks size now encryption s =
        .ok (objectHash env (fileObject chunks size now encryption)) t ∧
      (¬s.hasBlob (objectHash env (fileObject chunks size now encryption)) →
        t.blobs[objectHash env (fileObject chunks size now encryption)]? =
          some (encodeObject env (fileObject chunks size now encryption))) ∧
      t = { s with blobs := t.blobs } ∧ Extends s t := by
  unfold makeFilenode putObject
  simp only [bind_run, modify_run, pure_run]
  refine ⟨_, rfl, ?_⟩
  split
  · rename_i present
    exact ⟨fun absent => absurd present absent, rfl, .refl s⟩
  · rename_i absent
    refine ⟨fun _ => ?_, rfl, fun other bytes here => ?_⟩
    · show (s.blobs.insert _ _)[_]? = some _
      rw [BTreeMap.get_insert]
      exact if_pos rfl
    · show (s.blobs.insert _ _)[other]? = some bytes
      rw [BTreeMap.get_insert, if_neg ?_]
      · exact here
      · intro same
        refine absent ?_
        rw [CoreState.hasBlob, Std.ExtTreeMap.contains_eq_isSome_getElem?, same, here]
        rfl

theorem storeContent_run (ideal : Ideal env) (data : Bytes) (s : CoreState) : ∃ info d,
    storeContent env data s =
      .ok (contentRefs env s data, info) { putAll env (contentPieces env s data) s with draws := d } ∧
    ((s.cipher = none ∧ info = none) ∨ ∃ cipher made, s.cipher = some cipher ∧ info = some made ∧
      Protected env s (freshKey env s) cipher made) := by
  rcases Option.eq_none_or_eq_some s.cipher with off | ⟨cipher, on⟩
  · have key : contentKey env s = none := by
      unfold contentKey
      rw [off]
      rfl
    refine ⟨none, s.draws, ?_, .inl ⟨off, rfl⟩⟩
    unfold storeContent contentRefs contentPieces
    simp only [bind_run, get_run, off, key, storePlain_run, pure_run]
    rw [← putAll_draws]
  · have key : contentKey env s = some (freshKey env s) := by
      unfold contentKey
      rw [on]
      rfl
    have drawn : putAll env (contentPieces env s data) { s with draws := s.draws + 1 } =
        { putAll env (contentPieces env s data) s with draws := s.draws + 1 } :=
      putAll_draws _ _ _
    obtain ⟨made, d, run, protects⟩ := @protectFileKey_run env (freshKey env s) ideal cipher
      (putAll env (contentPieces env s data) { s with draws := s.draws + 1 })
    refine ⟨some made, d, ?_, .inr ⟨cipher, made, on, rfl, ?_⟩⟩
    · have first : newFileKey env s = .ok (freshKey env s) { s with draws := s.draws + 1 } := rfl
      have pieces : contentPieces env s data =
          sealedPieces env (freshKey env s) 0 (chunkBytes data s.chunk_size) := by
        unfold contentPieces
        rw [key]
      have refs : contentRefs env s data =
          sealedRefs env (freshKey env s) 0 (chunkBytes data s.chunk_size) 0 := by
        unfold contentRefs
        rw [key]
      have branch : storeContent env data s = (do
          let file_key ← newFileKey env
          let refs ← storeSealed env file_key 0 (chunkBytes data (max s.chunk_size 1)) 0
          let encryption ← protectFileKey env file_key cipher
          return (refs, some encryption)) s := by
        unfold storeContent
        rw [bind_run, get_run]
        dsimp only
        rw [on]
      rw [branch, refs, chunkBytes_max]
      simp only [bind_run, first, storeSealed_run, ← pieces]
      rw [run]
      dsimp only
      rw [drawn]
      rfl
    · rw [putAll_eq] at protects
      cases protects with
      | repository without length => exact .repository without length
      | recipients own made => exact .recipients own made

theorem keyFor_content (ideal : Ideal env) {info : Option FileEncryption}
    (made : (s.cipher = none ∧ info = none) ∨ ∃ cipher made, s.cipher = some cipher ∧
      info = some made ∧ Protected env s (freshKey env s) cipher made)
    (secret : u.sealing_secret = s.sealing_secret) (cipher : u.cipher = s.cipher) :
    KeyFor env u info (contentKey env s) := by
  unfold KeyFor contentKey
  rcases made with ⟨off, rfl⟩ | ⟨key, made, on, rfl, protects⟩
  · rw [off]
    rfl
  · rw [on]
    exact ⟨freshKey env s, protects.recover ideal secret (cipher.trans on), rfl⟩

theorem contentRefs_whole {data : Bytes} (fits : Fits s data.length) :
    chunksFormWholeFile (contentRefs env s data) (Fin.ofNat (2 ^ 64) data.length) = true := by
  have short : ∀ piece ∈ chunkBytes data s.chunk_size, piece.length < 2 ^ 32 := fun piece member =>
    (Nat.le_add_right _ _).trans_lt (fits.piece member)
  unfold chunksFormWholeFile contentRefs
  cases contentKey env s with
  | none =>
      dsimp only
      rw [chunksContiguous_plainRefs short, flatten_chunkBytes, Fin.zero_add]
      exact decide_eq_true rfl
  | some key =>
      dsimp only
      rw [chunksContiguous_sealedRefs short, flatten_chunkBytes, Fin.zero_add]
      exact decide_eq_true rfl

theorem reads_contentRefs (ideal : Ideal env) {data : Bytes} (fits : Fits s data.length)
    (length : data.length < 2 ^ 64)
    (held : ∀ stored ∈ contentPieces env s data, u.blobs[env.blake3 stored]? = some stored) :
    Reads env u (contentKey env s) 0 0 (contentRefs env s data) (chunkBytes data s.chunk_size) := by
  have total : (0 : U64).val + (chunkBytes data s.chunk_size).flatten.length < 2 ^ 64 := by
    rw [flatten_chunkBytes]
    exact (Nat.zero_add _).trans_lt length
  have short := fun piece member => @Fits.piece s data piece fits member
  unfold tagLength at short
  unfold contentPieces at held
  unfold contentRefs
  unfold contentKey at held ⊢
  rcases Option.eq_none_or_eq_some s.cipher with off | ⟨cipher, on⟩
  · rw [off] at held ⊢
    exact reads_plainRefs (fun piece member => (Nat.le_add_right _ _).trans_lt (short piece member))
      held 0 total
  · rw [on] at held short ⊢
    exact @reads_sealedRefs env u ideal _ _ 0 short held 0 total

private theorem fits_of_first {chunk : ChunkRef} {rest : List ChunkRef} {file_key : Option Hash}
    {stored : Bytes} {index start : Nat} {pieces : List Bytes}
    (reads : Reads env u file_key index start (chunk :: rest) pieces)
    (held : u.blobs[chunk.hash]? = some stored)
    (field : chunk.len = Fin.ofNat (2 ^ 32) stored.length) : stored.length < 2 ^ 32 := by
  cases reads with
  | cons here length =>
      obtain rfl := Option.some.inj (here.symm.trans held)
      rw [length]
      exact chunk.len.isLt

theorem fits_of_reads (ideal : Ideal env) {data : Bytes} {file_key : Option Hash}
    {pieces : List Bytes} (reads : Reads env u file_key 0 0 (contentRefs env s data) pieces)
    (held : ∀ stored ∈ contentPieces env s data, u.blobs[env.blake3 stored]? = some stored) :
    Fits s data.length := by
  have tag := tagLength_le s
  unfold Fits
  by_cases empty : data = []
  · subst empty
    simp only [List.length_nil]
    omega
  · obtain ⟨rest, cut⟩ := chunkBytes_cons empty s.chunk_size
    unfold tagLength
    unfold contentPieces at held
    unfold contentRefs at reads
    unfold contentKey at held reads
    rcases Option.eq_none_or_eq_some s.cipher with off | ⟨cipher, on⟩
    · rw [off] at held reads ⊢
      simp only [Option.map_none, cut, plainRefs] at held reads
      have short := fits_of_first reads (held _ List.mem_cons_self) rfl
      rw [List.length_take] at short
      simp only [Option.isSome_none, Bool.false_eq_true, if_false]
      omega
    · rw [on] at held reads ⊢
      simp only [Option.map_some, cut, sealedRefs, sealedPieces] at held reads
      have short := fits_of_first reads (held _ List.mem_cons_self) rfl
      unfold sealChunk at short
      rw [ideal.tag, List.length_take] at short
      simp only [Option.isSome_some, if_true]
      omega

/-- Storing content returns references that cover it, and the file made of them, which is stored
under its hash unless something is there, reads back as what was stored, whether or not the node
encrypts. -/
theorem content_round_trip (ideal : Ideal env) {data : Bytes}
    (size : s.chunk_size ≤ 2 ^ 32 - 1 - 16) (length : data.length < 2 ^ 64)
    (apart : Set.InjOn env.blake3 {b | b ∈ contentPieces env s data}) (now : U64) :
    ∃ chunks encryption t hash u file,
      storeContent env data s = .ok (chunks, encryption) t ∧
      chunksFormWholeFile chunks (Fin.ofNat (2 ^ 64) data.length) = true ∧
      makeFilenode env chunks (Fin.ofNat (2 ^ 64) data.length) now encryption t = .ok hash u ∧
      fileObject chunks (Fin.ofNat (2 ^ 64) data.length) now encryption = .fileNode file ∧
      hash = objectHash env (.fileNode file) ∧
      (¬t.hasBlob hash → u.blobs[hash]? = some (encodeObject env (.fileNode file))) ∧
      materializeFile env u file = .ok data := by
  have fits := fits_of_size size data.length
  obtain ⟨info, d, run, made⟩ := storeContent_run ideal data s
  obtain ⟨u, puts, stored, only, kept⟩ := @makeFilenode_run env (contentRefs env s data)
    (Fin.ofNat (2 ^ 64) data.length) now info { putAll env (contentPieces env s data) s with draws := d }
  have settings : u.sealing_secret = s.sealing_secret ∧ u.cipher = s.cipher := by
    rw [only, putAll_eq]
    exact ⟨rfl, rfl⟩
  refine ⟨_, info, _, _, u, _, run, contentRefs_whole fits, puts, rfl, rfl, stored, ?_⟩
  refine materializeFile_ok_iff.mpr ⟨contentKey env s, chunkBytes data s.chunk_size,
    keyFor_content ideal made settings.1 settings.2, ?_, (flatten_chunkBytes _ _).symm,
    (Nat.mod_eq_of_lt length).symm⟩
  exact reads_contentRefs ideal fits length fun stored member => kept _ _ (get_putAll apart member)

def sealingTag (key : Hash) (nonce aad plain : Bytes) : Bytes :=
  (be256 (Lib.blake3Keyed (be256 key) (nonce ++ aad ++ plain))).take 16

private theorem sealingTag_length (key : Hash) (nonce aad plain : Bytes) :
    (sealingTag key nonce aad plain).length = 16 := by
  unfold sealingTag
  rw [List.length_take, show (be256 _).length = 32 from beBytes_length 32 _]
  rfl

def masked (bytes : Bytes) : Bytes := bytes.map (· ^^^ 165)

private theorem masked_masked (bytes : Bytes) : masked (masked bytes) = bytes := by
  unfold masked
  rw [List.map_map]
  have undone : ∀ b : UInt8, b ^^^ 165 ^^^ 165 = b := fun b => by
    rw [UInt8.xor_assoc, UInt8.xor_self, UInt8.xor_zero]
  exact List.map_id'' undone bytes

/-- Libraries that seal: the ciphertext is masked, with a tag over everything, two parties agree on
the sum of their secrets, and no two draws are equal. -/
def Env.sealing : Env :=
  { Env.stored with
    x25519 := fun secret pub => secret + pub
    aeadEncrypt := fun key nonce aad plain => masked plain ++ sealingTag key nonce aad plain
    aeadDecrypt := fun key nonce aad stored =>
      let plain := masked (stored.take (stored.length - 16))
      if stored = masked plain ++ sealingTag key nonce aad plain then some plain else none
    osRandom := fun i len => List.replicate len (UInt8.ofNat (i + 1)) }

theorem sealing_ideal : Ideal Env.sealing where
  opens key nonce aad plain := by
    have cut : (masked plain ++ sealingTag key nonce aad plain).take
        ((masked plain ++ sealingTag key nonce aad plain).length - 16) = masked plain := by
      rw [List.length_append, sealingTag_length, Nat.add_sub_cancel, List.take_left]
    simp only [Env.sealing, cut, masked_masked, if_true]
  tag key nonce aad plain := by
    simp only [Env.sealing, List.length_append, sealingTag_length, masked, List.length_map]
  agrees a b := by
    apply Fin.ext
    show (a.val + b.val) % 2 ^ 256 = (b.val + a.val) % 2 ^ 256
    rw [Nat.add_comm]
  draws _ _ := List.length_replicate

def sealingNode : CoreState :=
  { CoreState.new 7 with chunk_size := 4, cipher := some 9, sealing_secret := some 5 }

theorem content_round_trip_sample : ∃ chunks encryption t hash u file,
    storeContent .sealing [1, 2, 3] sealingNode = .ok (chunks, encryption) t ∧
      chunksFormWholeFile chunks 3 = true ∧
      makeFilenode .sealing chunks 3 1 encryption t = .ok hash u ∧
      fileObject chunks 3 1 encryption = .fileNode file ∧ hash = objectHash .sealing (.fileNode file) ∧
      (¬t.hasBlob hash → u.blobs[hash]? = some (encodeObject .sealing (.fileNode file))) ∧
      materializeFile .sealing u file = .ok [1, 2, 3] := by
  refine @content_round_trip .sealing sealingNode sealing_ideal [1, 2, 3] (by decide) (by decide)
    ?_ 1
  intro a here b there _
  have single : ∀ piece ∈ contentPieces .sealing sealingNode [1, 2, 3],
      piece = sealChunk .sealing (freshKey .sealing sealingNode) 0 [1, 2, 3] := by
    intro piece member
    exact List.mem_singleton.mp member
  rw [single a here, single b there]

end Content

end NexusFS.Core
