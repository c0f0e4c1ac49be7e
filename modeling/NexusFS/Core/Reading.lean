/- GID: NexusFS/Core/Reading
   source: crates/core/src/chunker.rs, crates/core/src/apply.rs, crates/core/src/namespace.rs,
     crates/core/src/state.rs
   digest: What a splice leaves at each byte, and that stored plain content reads back. -/

import NexusFS.Core.Addressed
import Mathlib.Data.List.GetD

set_option autoImplicit false
set_option relaxedAutoImplicit false

namespace NexusFS.Core

open NexusFS.Lib NexusFS.Lib.Effect NexusFS.Proto NexusFS.Crdt CoreState

section Bytes

def padded (bytes : Bytes) (p : Nat) : UInt8 := bytes.getD p 0

theorem padded_injective {a b : Bytes} (length : a.length = b.length)
    (same : padded a = padded b) : a = b := by
  apply List.ext_getElem length
  intro p left right
  have point := congrFun same p
  unfold padded at point
  rwa [List.getD_eq_getElem _ _ left, List.getD_eq_getElem _ _ right] at point

theorem spliceBytes_length (existing incoming : Bytes) (start total : Nat) :
    (spliceBytes existing incoming start total).length = total := by
  unfold spliceBytes
  dsimp only
  split
  · simp only [List.length_append, List.length_take, List.length_drop, List.length_replicate]
    omega
  · simp only [List.length_append, List.length_take, List.length_replicate]
    omega

private theorem padded_base (existing : Bytes) (total p : Nat) :
    padded (existing.take total ++ List.replicate (total - existing.length) 0) p =
      if total ≤ p then 0 else padded existing p := by
  unfold padded
  simp only [List.getD_eq_getElem?_getD, List.getElem?_append, List.length_take,
    List.getElem?_take, List.getElem?_replicate]
  split
  · rename_i front
    rw [if_pos (by omega), if_neg (by omega)]
  · rename_i back
    by_cases beyond : total ≤ p
    · rw [if_neg (by omega), if_pos beyond]
      rfl
    · have short : existing.length ≤ p := by omega
      rw [if_pos (by omega), if_neg beyond, List.getElem?_eq_none short]
      rfl

theorem padded_spliceBytes (existing incoming : Bytes) (start total p : Nat) :
    padded (spliceBytes existing incoming start total) p =
      if total ≤ p then 0
      else if start ≤ p ∧ p < start + incoming.length then padded incoming (p - start)
      else padded existing p := by
  unfold spliceBytes
  dsimp only
  by_cases beyond : total ≤ p
  · rw [if_pos beyond]
    have length := spliceBytes_length existing incoming start total
    unfold spliceBytes at length
    dsimp only at length
    exact List.getD_eq_default _ _ (by omega)
  · rw [if_neg beyond]
    by_cases inside : start < total
    · rw [if_pos inside]
      have base := padded_base existing total p
      have size : (existing.take total ++ List.replicate (total - existing.length) 0).length =
          total := by
        simp only [List.length_append, List.length_take, List.length_replicate]
        omega
      rw [if_neg beyond] at base
      generalize existing.take total ++ List.replicate (total - existing.length) 0 = whole
        at base size
      unfold padded at base ⊢
      rw [← base]
      simp only [List.getD_eq_getElem?_getD, List.append_assoc, List.getElem?_append,
        List.length_take, List.getElem?_take, List.getElem?_drop, size]
      have front : min start total = start := by omega
      rw [front]
      by_cases early : p < start
      · rw [if_pos early, if_pos early, if_neg (by omega)]
      · rw [if_neg early]
        by_cases patched : p < start + incoming.length
        · rw [if_pos (by omega), if_pos (by omega), if_pos (by omega)]
        · rw [if_neg (by omega), if_neg (by omega)]
          congr 2
          omega
    · rw [if_neg inside, padded_base, if_neg beyond, if_neg (by omega)]

private theorem flatten_chunksOf (size fuel : Nat) (positive : 0 < size) (data : Bytes)
    (enough : data.length ≤ fuel) : (chunksOf size fuel data).flatten = data := by
  induction fuel generalizing data with
  | zero => simp [chunksOf, List.length_eq_zero_iff.mp (Nat.le_zero.mp enough)]
  | succ fuel ih =>
      unfold chunksOf
      split
      · rename_i empty
        simp [List.isEmpty_iff.mp empty]
      · rename_i some_left
        have filled : 0 < data.length :=
          List.length_pos_iff.mpr fun none_left => some_left (List.isEmpty_iff.mpr none_left)
        rw [List.flatten_cons, ih _ (by rw [List.length_drop]; omega), List.take_append_drop]

theorem flatten_chunkBytes (data : Bytes) (chunk_size : Nat) :
    (chunkBytes data chunk_size).flatten = data :=
  flatten_chunksOf _ _ (by omega) data le_rfl

end Bytes

section Chunks

variable {env : Env} {s t : CoreState}

def heldBytes (s : CoreState) (chunks : List ChunkRef) : Bytes :=
  chunks.flatMap fun chunk => (s.blobs[chunk.hash]?).getD []

theorem heldBytes_congr {chunks : List ChunkRef}
    (same : ∀ chunk ∈ chunks, t.blobs[chunk.hash]? = s.blobs[chunk.hash]?) :
    heldBytes t chunks = heldBytes s chunks := by
  unfold heldBytes
  induction chunks with
  | nil => rfl
  | cons chunk rest ih =>
      rw [List.flatMap_cons, List.flatMap_cons, same chunk List.mem_cons_self,
        ih fun other member => same other (List.mem_cons_of_mem chunk member)]

theorem incomingBytes_held {chunks : List ChunkRef}
    (held : ∀ chunk ∈ chunks, s.hasBlob chunk.hash) :
    incomingBytes s chunks = .ok (heldBytes s chunks) := by
  induction chunks with
  | nil => rfl
  | cons chunk rest ih =>
      have here := held chunk List.mem_cons_self
      rw [CoreState.hasBlob, Std.ExtTreeMap.contains_eq_isSome_getElem?] at here
      obtain ⟨bytes, found⟩ := Option.isSome_iff_exists.mp here
      unfold incomingBytes
      rw [found, ih fun other member => held other (List.mem_cons_of_mem chunk member)]
      unfold heldBytes
      rw [List.flatMap_cons, found]
      rfl

private theorem readChunks_plain (index : Nat) (chunks : List ChunkRef) (out : Bytes)
    {result : Bytes} (run : readChunks env s none index chunks out = .ok result) :
    result = out ++ heldBytes s chunks := by
  induction chunks generalizing index out with
  | nil =>
      cases run
      exact (List.append_nil _).symm
  | cons chunk rest ih =>
      unfold readChunks at run
      cases found : s.blobs[chunk.hash]? with
      | none =>
          rw [found] at run
          cases run
      | some stored =>
          rw [found] at run
          dsimp only at run
          split at run
          · cases run
          · split at run
            · cases run
            · rw [ih _ _ run, heldBytes, heldBytes, List.flatMap_cons, found, List.append_assoc]
              rfl

theorem materializeFile_plain {file : FileNode} (plain : file.encryption = none) {result : Bytes}
    (run : materializeFile env s file = .ok result) : result = heldBytes s file.chunks := by
  unfold materializeFile at run
  rw [plain] at run
  have opened : (do
      let out ← readChunks env s none 0 file.chunks []
      if out.length ≠ file.size.val then throw (.fileSizeMismatch out.length file.size)
      else pure out : Except Err Bytes) = .ok result := run
  cases read : readChunks env s none 0 file.chunks [] with
  | error e =>
      rw [read] at opened
      cases opened
  | ok out =>
      rw [read] at opened
      have checked : (if out.length ≠ file.size.val then
          throw (.fileSizeMismatch out.length file.size) else pure out : Except Err Bytes) =
          .ok result := opened
      split at checked
      · cases checked
      · cases checked
        exact readChunks_plain 0 file.chunks [] read

end Chunks

section Stored

variable {env : Env} {D : Set Bytes} {s t : CoreState}

def StoreIn (env : Env) (D : Set Bytes) (s : CoreState) : Prop :=
  ∀ (hash : Hash) bytes, s.blobs[hash]? = some bytes → bytes ∈ D ∧ env.blake3 bytes = hash

def Extends (s t : CoreState) : Prop :=
  ∀ (hash : Hash) bytes, s.blobs[hash]? = some bytes → t.blobs[hash]? = some bytes

theorem Extends.refl (s : CoreState) : Extends s s := fun _ _ here => here

theorem Extends.trans {a b c : CoreState} (first : Extends a b) (second : Extends b c) :
    Extends a c := fun hash bytes here => second hash bytes (first hash bytes here)

/-- What storing byte strings of `D` leaves: a store within `D` that has everything it had. -/
structure Grew (env : Env) (D : Set Bytes) (s t : CoreState) : Prop where
  only : t = { s with blobs := t.blobs }
  within : StoreIn env D t
  kept : Extends s t

theorem Grew.trans {a b c : CoreState} (first : Grew env D a b) (second : Grew env D b c) :
    Grew env D a c := by
  refine ⟨?_, second.within, first.kept.trans second.kept⟩
  have onlyC := second.only
  rw [first.only] at onlyC
  exact onlyC

/-- Storing a byte string of `D` under its hash leaves what was there. -/
theorem grew_putBlob (inj : Set.InjOn env.blake3 D) (within : StoreIn env D s) {bytes : Bytes}
    (member : bytes ∈ D) : Grew env D s (s.putBlob (env.blake3 bytes) bytes) := by
  refine ⟨rfl, fun hash found here => ?_, fun hash found here => ?_⟩
  · have inserted : (s.blobs.insert (env.blake3 bytes) bytes)[hash]? = some found := here
    rw [BTreeMap.get_insert] at inserted
    split at inserted
    · rename_i same
      obtain rfl := Option.some.inj inserted
      exact ⟨member, same⟩
    · exact within hash found inserted
  · show (s.blobs.insert (env.blake3 bytes) bytes)[hash]? = some found
    rw [BTreeMap.get_insert]
    split
    · rename_i same
      obtain ⟨inside, hashed⟩ := within hash found here
      rw [inj member inside (same.trans hashed.symm)]
    · exact here

theorem get_putBlob_of (s : CoreState) (hash other : Hash) (bytes : Bytes) :
    (s.putBlob hash bytes).blobs[other]? = if other = hash then some bytes else s.blobs[other]? := by
  show (s.blobs.insert hash bytes)[other]? = _
  rw [BTreeMap.get_insert]
  by_cases same : other = hash
  · rw [if_pos same, if_pos same.symm]
  · rw [if_neg same, if_neg (Ne.symm same)]

theorem get_putBlob (hash : Hash) (bytes : Bytes) :
    (s.putBlob hash bytes).blobs[hash]? = some bytes := by
  rw [get_putBlob_of, if_pos rfl]

/-- Storing an object of `D` leaves what was there, and the object can be found. -/
theorem grew_putObject (inj : Set.InjOn env.blake3 D) (within : StoreIn env D s)
    {object : Object} (member : encodeObject env object ∈ D) :
    ∃ t, putObject env object s = .ok (objectHash env object) t ∧ Grew env D s t ∧
      t.blobs[objectHash env object]? = some (encodeObject env object) := by
  by_cases here : s.hasBlob (objectHash env object)
  · refine ⟨s, ?_, ⟨rfl, within, .refl s⟩, ?_⟩
    · simp only [objectHash] at here
      simp [putObject, here, objectHash]
    · rw [CoreState.hasBlob, Std.ExtTreeMap.contains_eq_isSome_getElem?] at here
      obtain ⟨bytes, found⟩ := Option.isSome_iff_exists.mp here
      obtain ⟨inside, hashed⟩ := within _ _ found
      rw [found, inj inside member hashed]
  · refine ⟨s.putBlob (objectHash env object) (encodeObject env object), ?_,
      grew_putBlob inj within member, get_putBlob _ _⟩
    simp only [objectHash] at here
    simp [putObject, here, objectHash, CoreState.putBlob]

/-- The references `store_plain` returns. -/
def plainRefs (env : Env) : List Bytes → U64 → List ChunkRef
  | [], _ => []
  | chunk :: rest, offset =>
      ⟨env.blake3 chunk, Fin.ofNat (2 ^ 32) chunk.length, Fin.ofNat (2 ^ 32) chunk.length, offset⟩ ::
        plainRefs env rest (offset + Fin.ofNat (2 ^ 64) chunk.length)

theorem map_hash_plainRefs (pieces : List Bytes) (offset : U64) :
    (plainRefs env pieces offset).map ChunkRef.hash = pieces.map env.blake3 := by
  induction pieces generalizing offset with
  | nil => rfl
  | cons chunk rest ih => rw [plainRefs, List.map_cons, List.map_cons, ih]

/-- Storing pieces of `D` leaves what was there, and every piece can be found. -/
theorem grew_storePlain (inj : Set.InjOn env.blake3 D) (pieces : List Bytes)
    (members : ∀ piece ∈ pieces, piece ∈ D) (offset : U64) (within : StoreIn env D s) :
    ∃ t, storePlain env pieces offset s = .ok (plainRefs env pieces offset) t ∧ Grew env D s t ∧
      ∀ piece ∈ pieces, t.blobs[env.blake3 piece]? = some piece := by
  induction pieces generalizing s offset with
  | nil => exact ⟨s, rfl, ⟨rfl, within, .refl s⟩, by simp⟩
  | cons piece rest ih =>
      have first := grew_putBlob inj within (members piece List.mem_cons_self)
      obtain ⟨t, run, later, found⟩ := ih (fun other inside =>
        members other (List.mem_cons_of_mem piece inside))
        (offset + Fin.ofNat (2 ^ 64) piece.length) first.within
      refine ⟨t, ?_, first.trans later, List.forall_mem_cons.mpr ⟨?_, found⟩⟩
      · unfold storePlain
        simp only [bind_run, modify_run, run, pure_run]
        rfl
      · exact later.kept _ _ (get_putBlob _ _)

theorem heldBytes_plainRefs (pieces : List Bytes) (offset : U64)
    (found : ∀ piece ∈ pieces, t.blobs[env.blake3 piece]? = some piece) :
    heldBytes t (plainRefs env pieces offset) = pieces.flatten := by
  unfold heldBytes
  induction pieces generalizing offset with
  | nil => rfl
  | cons piece rest ih =>
      rw [plainRefs, List.flatMap_cons, List.flatten_cons, found piece List.mem_cons_self,
        ih _ fun other member => found other (List.mem_cons_of_mem piece member)]
      rfl

end Stored

end NexusFS.Core
