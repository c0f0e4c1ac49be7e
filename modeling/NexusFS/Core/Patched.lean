/- GID: NexusFS/Core/Patched
   source: crates/core/src/apply.rs, crates/core/src/namespace.rs
   digest: What a partial write of stored content leaves, and what its call leaves of that. -/

import NexusFS.Core.Intact

set_option autoImplicit false
set_option relaxedAutoImplicit false

namespace NexusFS.Core

open NexusFS.Lib NexusFS.Lib.Effect NexusFS.Proto NexusFS.Crdt CoreState

section Rests

variable {env : Env} {ids : Set OpId} {inode : U128} {s t u origin : CoreState} {op : FsOp}
  {reg : LwwReg ContentState} {check_policy : Bool}

/-- A file rests, and nothing parked would take its register. -/
structure Unrivalled (env : Env) (ids : Set OpId) (inode : U128) (reg : LwwReg ContentState)
    (origin t : CoreState) : Prop where
  shape : Shape env ids t
  rests : Resting inode reg origin t
  queue : ∀ {id : OpId} {parked}, t.pending[id]? = some parked → ¬Outranks inode reg parked

theorem unrivalledRule (inj : Set.InjOn (inodeForOp env) ids) (inode : U128)
    (reg : LwwReg ContentState) (origin : CoreState) :
    CallRule env (Unrivalled env ids inode reg origin)
      (fun op => op.id ∈ ids ∧ ¬Outranks inode reg op) (fun _ _ => True)
      (fun _ => Unrivalled env ids inode reg origin) where
  toAttemptRule := by
    refine .of_took ?_ ?_ ?_
    · rintro s t op still ⟨member, low⟩ new took
      refine ⟨still.shape.took inj member new took, still.rests.took inj still.shape member new low took,
        fun here => ?_⟩
      rw [took.pending, BTreeMap.get_erase] at here
      split at here
      · cases here
      · exact still.queue here
    · intro s op still _ _
      refine ⟨still.shape.clearPending _, still.rests.same rfl rfl ⟨rfl, rfl, rfl⟩, fun {id parked} here => ?_⟩
      have erased : (s.pending.erase op.id)[id]? = some parked := here
      rw [BTreeMap.get_erase] at erased
      split at erased
      · cases erased
      · exact still.queue erased
    · intro s op id still here
      obtain ⟨same, member⟩ := still.shape.parked here
      exact ⟨same ▸ member, still.queue here⟩
  logged still _ := ⟨still.shape.appendOp _, still.rests.same rfl rfl ⟨rfl, rfl, rfl⟩, still.queue⟩
  aside := by
    rintro s t still aside
    have shape := still.shape.aside aside
    have rests := still.rests.aside aside
    obtain ⟨_, _, _, _, _, -, rfl⟩ := aside
    exact ⟨shape, rests, still.queue⟩
  park := by
    rintro s op still ⟨member, low⟩ _
    refine ⟨still.shape.storePending member, still.rests.same rfl rfl ⟨rfl, rfl, rfl⟩,
      fun {id parked} here => ?_⟩
    have inserted : (s.pending.insert op.id op)[id]? = some parked := here
    rw [BTreeMap.get_insert] at inserted
    split at inserted
    · exact Option.some.inj inserted ▸ low
    · exact still.queue inserted

/-- A write that took the register has it at the end of its call, unless something parked takes it. -/
theorem rests_of_write (inj : Set.InjOn (inodeForOp env) ids) (shape : Shape env ids s)
    (member : op.id ∈ ids) (admits : Admits env op check_policy s) (new : op.id ∉ s.applied)
    (mutated : mutate env op (s.appendOp op) = .ok .done u) (file : FileAt inode reg u)
    (key : reg.orderKey = regKey op)
    (queue : ∀ parked ∈ s.pendingOps, ¬Outranks inode reg parked) :
    Resting inode reg u (finalState (applyOpInner env op check_policy s)) := by
  have low : ¬Outranks inode reg op := fun outranks => (key ▸ outranks.2).ne rfl
  refine ((unrivalledRule inj inode reg u).after_first admits new ⟨member, low⟩ ?_).rests
  obtain ⟨took, blobs, imap, keeps, same⟩ := took_of_mutate mutated
  have after := (shape.appendOp op).took inj member new took
  refine ⟨after, ?_, fun {id parked} here => queue parked ?_⟩
  · rw [same]
    exact ⟨file, ⟨rfl, rfl, rfl⟩, keeps⟩
  · rw [took.pending, BTreeMap.get_erase] at here
    split at here
    · cases here
    · exact mem_pendingOps.mpr ⟨id, here⟩

end Rests

section Bytes

/-- `old` cut or continued by zeros to `size` bytes, with `bytes` over it from `offset` on. -/
def overlaid (old bytes : Bytes) (offset size : Nat) : Bytes :=
  (List.range size).map fun p =>
    if offset ≤ p ∧ p < offset + bytes.length then padded bytes (p - offset) else padded old p

theorem overlaid_length (old bytes : Bytes) (offset size : Nat) :
    (overlaid old bytes offset size).length = size := by
  unfold overlaid
  rw [List.length_map, List.length_range]

theorem padded_overlaid (old bytes : Bytes) (offset size p : Nat) :
    padded (overlaid old bytes offset size) p =
      if size ≤ p then 0
      else if offset ≤ p ∧ p < offset + bytes.length then padded bytes (p - offset)
      else padded old p := by
  split
  · rename_i beyond
    exact List.getD_eq_default _ _ (by rw [overlaid_length]; exact beyond)
  · rename_i inside
    unfold padded overlaid
    rw [List.getD_eq_getElem?_getD, List.getElem?_map, List.getElem?_range (not_le.mp inside)]
    rfl

/-- Wherever `stored` lands below the new size it shows the byte of the overlay of `bytes`. -/
def LandsAs (old bytes stored : Bytes) (offset size : Nat) : Prop :=
  ∀ p, offset ≤ p → p < offset + stored.length → p < size →
    padded stored (p - offset) =
      if p < offset + bytes.length then padded bytes (p - offset) else padded old p

theorem spliceBytes_eq_overlaid_iff {old bytes stored : Bytes} {offset size : Nat}
    (longer : bytes.length ≤ stored.length) :
    spliceBytes old stored offset size = overlaid old bytes offset size ↔
      LandsAs old bytes stored offset size := by
  constructor
  · intro same p start stop below
    have point := congrArg (fun b => padded b p) same
    simp only [padded_spliceBytes, padded_overlaid, not_le.mpr below, if_false, start, stop, true_and,
      if_true] at point
    exact point
  · intro lands
    refine padded_injective (by rw [spliceBytes_length, overlaid_length]) (funext fun p => ?_)
    rw [padded_spliceBytes, padded_overlaid]
    split
    · rfl
    · rename_i below
      by_cases start : offset ≤ p
      · by_cases stop : p < offset + stored.length
        · simp only [start, stop, true_and, if_true]
          exact lands p start stop (not_le.mp below)
        · rw [if_neg fun inside => stop inside.2, if_neg fun inside => stop (by omega)]
      · rw [if_neg fun inside => start inside.1, if_neg fun inside => start inside.1]

end Bytes

section Stored

variable {env : Env} {a s t u : CoreState} {inode : U128} {bytes : Bytes}

def storedAs (env : Env) (a : CoreState) (bytes : Bytes) : Bytes := (contentPieces env a bytes).flatten

theorem storedAs_plain (plain : a.cipher = none) : storedAs env a bytes = bytes := by
  unfold storedAs contentPieces contentKey
  rw [plain]
  exact flatten_chunkBytes _ _

theorem heldBytes_appendOp (s : CoreState) (op : FsOp) (chunks : List ChunkRef) :
    heldBytes (s.appendOp op) chunks = heldBytes s chunks := rfl

private theorem heldBytes_sealedRefs (file_key : Hash) (pieces : List Bytes) (index : Nat)
    (offset : U64) (held : ∀ stored ∈ sealedPieces env file_key index pieces,
      s.blobs[env.blake3 stored]? = some stored) :
    heldBytes s (sealedRefs env file_key index pieces offset) =
      (sealedPieces env file_key index pieces).flatten := by
  induction pieces generalizing index offset with
  | nil => rfl
  | cons piece rest ih =>
      unfold heldBytes at ih ⊢
      rw [sealedRefs, sealedPieces, List.flatMap_cons, List.flatten_cons,
        held _ List.mem_cons_self,
        ih _ _ fun other member => held other (List.mem_cons_of_mem _ member)]
      rfl

theorem heldBytes_contentRefs
    (held : ∀ piece ∈ contentPieces env a bytes, s.blobs[env.blake3 piece]? = some piece) :
    heldBytes s (contentRefs env a bytes) = storedAs env a bytes := by
  unfold storedAs
  unfold contentPieces at held ⊢
  unfold contentRefs
  cases key : contentKey env a with
  | none =>
      rw [key] at held
      exact heldBytes_plainRefs _ _ held
  | some file_key =>
      rw [key] at held
      exact heldBytes_sealedRefs file_key _ 0 0 held

private theorem hash_mem_sealedRefs {file_key : Hash} {pieces : List Bytes} {index : Nat}
    {offset : U64} {chunk : ChunkRef} (member : chunk ∈ sealedRefs env file_key index pieces offset) :
    ∃ piece ∈ sealedPieces env file_key index pieces, env.blake3 piece = chunk.hash := by
  induction pieces generalizing index offset with
  | nil => cases member
  | cons piece rest ih =>
      rcases List.mem_cons.mp member with rfl | later
      · exact ⟨_, List.mem_cons_self, rfl⟩
      · obtain ⟨stored, inside, same⟩ := ih later
        exact ⟨stored, List.mem_cons_of_mem _ inside, same⟩

theorem hash_mem_contentRefs {chunk : ChunkRef} (member : chunk ∈ contentRefs env a bytes) :
    ∃ piece ∈ contentPieces env a bytes, env.blake3 piece = chunk.hash := by
  unfold contentPieces
  unfold contentRefs at member
  cases key : contentKey env a with
  | none =>
      rw [key] at member
      have hashed := List.mem_map_of_mem (f := ChunkRef.hash) member
      rw [map_hash_plainRefs] at hashed
      exact List.mem_map.mp hashed
  | some file_key =>
      rw [key] at member
      exact hash_mem_sealedRefs member

private theorem flatten_sealedPieces_length (ideal : Ideal env) (file_key : Hash) (pieces : List Bytes)
    (index : Nat) :
    pieces.flatten.length ≤ (sealedPieces env file_key index pieces).flatten.length := by
  induction pieces generalizing index with
  | nil => exact le_rfl
  | cons piece rest ih =>
      have later := ih (index + 1)
      rw [sealedPieces, List.flatten_cons, List.flatten_cons, List.length_append, List.length_append,
        sealChunk, ideal.tag]
      omega

theorem length_le_storedAs (ideal : Ideal env) (a : CoreState) (bytes : Bytes) :
    bytes.length ≤ (storedAs env a bytes).length := by
  have cut := flatten_chunkBytes bytes a.chunk_size
  unfold storedAs contentPieces
  cases contentKey env a with
  | none =>
      dsimp only
      rw [cut]
  | some file_key =>
      have longer := flatten_sealedPieces_length ideal file_key (chunkBytes bytes a.chunk_size) 0
      rwa [cut] at longer

theorem tryReadFile_of_readFile {old : Bytes} (read : readFile env s inode = .ok old) :
    tryReadFile env s inode = .ok (some old) := by
  unfold readFile at read
  unfold tryReadFile
  cases found : s.loadInode inode with
  | none =>
      rw [found] at read
      cases read
  | some record =>
      rw [found] at read
      dsimp only at read ⊢
      split at read
      · cases read
      · cases named : record.content.value.node_hash with
        | none =>
            rw [named] at read
            cases read
            rfl
        | some hash =>
            rw [named] at read
            dsimp only at read ⊢
            cases object : getObject env s hash with
            | error e =>
                rw [object] at read
                cases read
            | ok result =>
                rw [object] at read
                match result, read with
                | some (.fileNode file), read =>
                    have whole : materializeFile env s file = .ok old := read
                    obtain ⟨_, _, _, reads, -⟩ := materializeFile_ok_iff.mp whole
                    have all : (file.chunks.all fun chunk => s.hasBlob chunk.hash) = true :=
                      List.all_eq_true.mpr fun chunk member => reads.hasBlob member
                    show (if (file.chunks.all fun chunk => s.hasBlob chunk.hash) then
                      some <$> materializeFile env s file else pure none :
                        Except Err (Option Bytes)) = _
                    rw [if_pos all, whole]
                    rfl

end Stored

section Splices

theorem readFile_appendOp (env : Env) (s : CoreState) (op : FsOp) (inode : U128) :
    readFile env (s.appendOp op) inode = readFile env s inode :=
  readFile_congr rfl rfl rfl (fun _ _ _ _ => rfl) fun _ _ _ _ _ _ _ _ => rfl

end Splices

end NexusFS.Core
