/- GID: NexusFS/Core/Stock
   source: crates/core/src/apply.rs
   digest: The content parked operations wait for, and how retrying them shrinks that set. -/

import NexusFS.Core.Run

set_option autoImplicit false
set_option relaxedAutoImplicit false

namespace NexusFS.Core

open NexusFS.Lib NexusFS.Lib.Effect NexusFS.Proto NexusFS.Crdt CoreState

section Wanted

variable {s : CoreState} {hash : Hash}

private theorem mem_wantChunks (chunks : List ChunkRef) (wanted : BTreeSet Hash) :
    hash ∈ chunks.foldl (fun wanted chunk =>
        if s.hasBlob chunk.hash then wanted else wanted.insert chunk.hash) wanted ↔
      (hash ∈ chunks.map ChunkRef.hash ∧ ¬s.hasBlob hash) ∨ hash ∈ wanted := by
  induction chunks generalizing wanted with
  | nil => simp
  | cons chunk chunks ih =>
      rw [List.foldl_cons, ih, List.map_cons, List.mem_cons]
      by_cases held : s.hasBlob chunk.hash
      · rw [if_pos held]
        constructor
        · rintro (⟨listed, missing⟩ | old)
          · exact .inl ⟨.inr listed, missing⟩
          · exact .inr old
        · rintro (⟨rfl | listed, missing⟩ | old)
          · exact absurd held missing
          · exact .inl ⟨listed, missing⟩
          · exact .inr old
      · rw [if_neg held, BTreeSet.mem_insert]
        constructor
        · rintro (⟨listed, missing⟩ | rfl | old)
          · exact .inl ⟨.inr listed, missing⟩
          · exact .inl ⟨.inl rfl, held⟩
          · exact .inr old
        · rintro (⟨rfl | listed, missing⟩ | old)
          · exact .inr (.inl rfl)
          · exact .inl ⟨listed, missing⟩
          · exact .inr (.inr old)

/-- The step of `missing_chunk_hashes` for one parked operation. -/
private def wantChunks (s : CoreState) (wanted : BTreeSet Hash) (op : FsOp) : BTreeSet Hash :=
  match op.kind with
  | .write _ _ chunks _ _ =>
      chunks.foldl
        (fun wanted chunk => if s.hasBlob chunk.hash then wanted else wanted.insert chunk.hash)
        wanted
  | _ => wanted

private theorem mem_wantChunks_op (wanted : BTreeSet Hash) (op : FsOp) :
    hash ∈ wantChunks s wanted op ↔ (hash ∈ opChunks op ∧ ¬s.hasBlob hash) ∨ hash ∈ wanted := by
  unfold wantChunks opChunks
  cases op.kind with
  | write inode offset chunks new_size encryption => exact mem_wantChunks chunks wanted
  | mkdir parent name mode => simp
  | createFile parent name mode => simp
  | rename old_parent old_name new_parent new_name observed => simp
  | unlink parent name observed => simp
  | setAttr inode mode uid gid => simp

private theorem mem_foldl_wantChunks (ops : List FsOp) (wanted : BTreeSet Hash) :
    hash ∈ ops.foldl (wantChunks s) wanted ↔
      ((∃ op ∈ ops, hash ∈ opChunks op) ∧ ¬s.hasBlob hash) ∨ hash ∈ wanted := by
  induction ops generalizing wanted with
  | nil => simp
  | cons op ops ih =>
      rw [List.foldl_cons, ih, mem_wantChunks_op]
      simp only [List.mem_cons, exists_eq_or_imp]
      generalize (∃ op, op ∈ ops ∧ hash ∈ opChunks op) = later
      tauto

theorem mem_missingChunkHashes :
    hash ∈ missingChunkHashes s ↔
      (∃ (id : OpId) (op : FsOp), s.pending[id]? = some op ∧ hash ∈ opChunks op) ∧
        ¬s.hasBlob hash := by
  have fold : missingChunkHashes s = s.pendingOps.foldl (wantChunks s) ∅ := rfl
  rw [fold, mem_foldl_wantChunks]
  simp only [mem_pendingOps, Std.ExtTreeSet.not_mem_empty, or_false]
  constructor
  · rintro ⟨⟨op, ⟨id, here⟩, listed⟩, missing⟩
    exact ⟨⟨id, op, here, listed⟩, missing⟩
  · rintro ⟨⟨id, op, here, listed⟩, missing⟩
    exact ⟨⟨op, ⟨id, here⟩, listed⟩, missing⟩

end Wanted

section Settles

variable {env : Env} {s t u : CoreState}

def Settles (s t : CoreState) : Prop :=
  (∀ {id : OpId} {op}, t.pending[id]? = some op → s.pending[id]? = some op) ∧
    ∀ hash, s.hasBlob hash → t.hasBlob hash

theorem Settles.trans (first : Settles s t) (second : Settles t u) : Settles s u :=
  ⟨fun here => first.1 (second.1 here), fun hash here => second.2 hash (first.2 hash here)⟩

theorem Took.settles {op : FsOp} (took : Took env op s t) : Settles s t := by
  constructor
  · intro id other here
    rw [took.pending, BTreeMap.get_erase] at here
    split at here
    · cases here
    · exact here
  · obtain ⟨v, effect, blobs, imap, keeps, rfl⟩ := took
    obtain ⟨dirs, inodes, parents, stored, draws, holds, rfl⟩ := effect.frame
    exact fun hash here => keeps hash (holds hash here)

theorem settles_of_aside (aside : Aside s t) : Settles s t := by
  obtain ⟨_, _, _, _, _, keeps, rfl⟩ := aside
  exact ⟨fun here => here, keeps⟩

theorem settlesRule (env : Env) (s : CoreState) :
    AttemptRule env (Settles s) (fun _ => True) (fun _ _ => True) (fun _ => Settles s) where
  tried := by
    intro t op settles _ _ _
    have spec := attempt_spec env op t
    cases run : attempt env op t with
    | error e u =>
        rw [run] at spec
        rcases spec with ⟨rfl, -⟩ | ⟨took, -⟩
        · exact settles
        · exact settles.trans took.settles
    | ok outcome u =>
        rw [run] at spec
        cases outcome with
        | unmet reason =>
            obtain ⟨rfl, -⟩ := spec
            exact settles
        | done => exact settles.trans spec.settles
  cleared := by
    intro t op settles _ _
    refine settles.trans ⟨?_, fun _ here => here⟩
    intro id other here
    have erased : (t.pending.erase op.id)[id]? = some other := here
    rw [BTreeMap.get_erase] at erased
    split at erased
    · cases erased
    · exact erased
  parked := fun _ _ => trivial

theorem settles_retryPending (env : Env) (s : CoreState) :
    Settles s (finalState (retryPending env s)) := by
  have ends := (settlesRule env s).drainPending ⟨fun here => here, fun _ here => here⟩
    (fun _ _ => trivial)
  rw [retryPending_run]
  cases run : drainPending env s with
  | error e t =>
      rw [run] at ends
      exact ends
  | ok n t =>
      rw [run] at ends
      dsimp only [finalState_ok]
      split
      · exact Settles.trans ends (settles_of_aside (aside_buildSnapshot env t))
      · exact ends

theorem Settles.missing (settles : Settles s t) {hash : Hash} (here : hash ∈ missingChunkHashes t) :
    hash ∈ missingChunkHashes s := by
  rw [mem_missingChunkHashes] at here ⊢
  obtain ⟨⟨id, op, parked, listed⟩, missing⟩ := here
  exact ⟨⟨id, op, settles.1 parked, listed⟩, fun held => missing (settles.2 hash held)⟩

end Settles

end NexusFS.Core
