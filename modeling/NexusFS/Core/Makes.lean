/- GID: NexusFS/Core/Makes
   source: crates/core/src/state.rs, crates/core/src/apply.rs, crates/core/src/chunker.rs
   digest: The byte strings that a node can come to store without hearing from anyone. -/

import NexusFS.Core.Written

/-!
Between two messages a node stores the content that it is given, objects, and what parked
partial writes splice together. A blob that is none of these has to come from a peer.
-/

set_option autoImplicit false
set_option relaxedAutoImplicit false

namespace NexusFS.Core

open NexusFS.Lib NexusFS.Lib.Effect NexusFS.Proto NexusFS.Crdt CoreState

section Makes

variable (env : Env) (own : Set Bytes) (origin : CoreState)

def Partial (op : FsOp) : Prop :=
  ∃ inode offset chunks new_size encryption, op.kind = .write inode offset chunks new_size encryption ∧
    ¬(offset = 0 ∧ chunksFormWholeFile chunks new_size)

/-- The byte strings that `origin` holds, or can come to store: objects, the pieces of content in
`own`, and the pieces of what the partial writes that are parked make of such byte strings. -/
inductive Makes : Bytes → Prop
  | held {hash : Hash} {bytes : Bytes} (here : origin.blobs[hash]? = some bytes) : Makes bytes
  | object (object : Object) : Makes (encodeObject env object)
  | own {data piece : Bytes} {u : CoreState} (member : data ∈ own) (keys : SameKeys origin u)
      (inside : piece ∈ contentPieces env u data) : Makes piece
  | spliced {id : OpId} {op : FsOp} {inode : U128} {offset new_size : U64} {chunks : List ChunkRef}
      {encryption : Option FileEncryption} {u v : CoreState} {buffer piece : Bytes}
      (parked : origin.pending[id]? = some op)
      (shape : op.kind = .write inode offset chunks new_size encryption)
      (partly : ¬(offset = 0 ∧ chunksFormWholeFile chunks new_size))
      (known : ∀ (hash : Hash) bytes, u.blobs[hash]? = some bytes → Makes bytes)
      (keys : SameKeys origin u)
      (splice : spliceWrite env u inode offset chunks new_size = .ok (some buffer))
      (keys' : SameKeys origin v) (inside : piece ∈ contentPieces env v buffer) : Makes piece

/-- A node that holds nothing else, with the keys and at most the partial writes of `origin`. -/
structure Stays (u : CoreState) : Prop where
  known : ∀ (hash : Hash) bytes, u.blobs[hash]? = some bytes → Makes env own origin bytes
  keys : SameKeys origin u
  queue : ∀ {id : OpId} {op}, u.pending[id]? = some op → Partial op →
    ∃ id : OpId, origin.pending[id]? = some op

def Beyond (world : Set Bytes) (hash : Hash) : Prop :=
  ∀ bytes ∈ world, Makes env own origin bytes → env.blake3 bytes ≠ hash

end Makes

section Stays

variable {env : Env} {own world : Set Bytes} {origin s t : CoreState} {hash : Hash}

theorem Stays.refl (env : Env) (own : Set Bytes) (s : CoreState) : Stays env own s s :=
  ⟨fun _ _ here => .held here, .refl s, fun here _ => ⟨_, here⟩⟩

theorem Beyond.not_held (beyond : Beyond env own origin world hash) (stays : Stays env own origin t)
    (within : StoreIn env world t) : ¬t.hasBlob hash := by
  intro held
  obtain ⟨bytes, here⟩ := Option.isSome_iff_exists.mp (hasBlob_iff_get.mp held)
  obtain ⟨inside, hashed⟩ := within hash bytes here
  exact beyond bytes inside (stays.known hash bytes here) hashed

theorem mem_putAll {stored : List Bytes} {bytes : Bytes}
    (here : (putAll env stored s).blobs[hash]? = some bytes) :
    (bytes ∈ stored ∧ env.blake3 bytes = hash) ∨ s.blobs[hash]? = some bytes := by
  induction stored generalizing s with
  | nil => exact .inr here
  | cons first rest ih =>
      rcases ih here with ⟨listed, hashed⟩ | found
      · exact .inl ⟨List.mem_cons_of_mem first listed, hashed⟩
      · rw [get_putBlob_of] at found
        split at found
        · rename_i same
          obtain rfl := Option.some.inj found
          exact .inl ⟨List.mem_cons_self, same.symm⟩
        · exact .inr found

theorem Stays.storeContent (ideal : Ideal env) {data : Bytes}
    (makes : ∀ u, SameKeys origin u → ∀ piece ∈ contentPieces env u data, Makes env own origin piece) :
    Keeps (Stays env own origin) (storeContent env data) := by
  intro s stays
  obtain ⟨d, run⟩ := storeContent_eq ideal data s
  rw [run, putAll_eq]
  refine ⟨fun hash bytes here => ?_, stays.keys.trans ⟨⟨rfl, rfl, rfl⟩, rfl, rfl⟩, stays.queue⟩
  rcases mem_putAll here with ⟨listed, -⟩ | found
  · exact makes s stays.keys bytes listed
  · exact stays.known hash bytes found

theorem staysStorage (ideal : Ideal env) (own : Set Bytes) (origin : CoreState) :
    Storage env {op | Partial op → ∃ id : OpId, origin.pending[id]? = some op}
      (Stays env own origin) where
  beside stays beside :=
    ⟨fun hash bytes here => stays.known hash bytes (beside.blobs ▸ here), stays.keys.trans beside.keys,
      fun here => stays.queue (beside.queue here)⟩
  object object stays := by
    refine ⟨fun hash bytes here => ?_, stays.keys.trans ⟨⟨rfl, rfl, rfl⟩, rfl, rfl⟩, stays.queue⟩
    rw [get_putBlob_of] at here
    split at here
    · exact Option.some.inj here ▸ .object object
    · exact stays.known hash bytes here
  park {s op} member stays := by
    refine ⟨stays.known, stays.keys.trans ⟨⟨rfl, rfl, rfl⟩, rfl, rfl⟩, fun {id other} here partly => ?_⟩
    have row : (s.pending.insert op.id op)[id]? = some other := here
    rw [BTreeMap.get_insert] at row
    split at row
    · exact Option.some.inj row ▸ member (Option.some.inj row ▸ partly)
    · exact stays.queue row partly
  queued stays here partly := stays.queue here partly
  splice {s op inode offset chunks new_size encryption buffer} stays member shape partly splice := by
    obtain ⟨id, parked⟩ := member ⟨inode, offset, chunks, new_size, encryption, shape, partly⟩
    exact Stays.storeContent ideal fun v keys piece inside =>
      .spliced parked shape partly stays.known stays.keys splice keys inside

/-- Programs that try operations of `ops` park no other. -/
theorem queueStorage (env : Env) (ops : Set FsOp) :
    Storage env ops fun s => ∀ (id : OpId) op, s.pending[id]? = some op → op ∈ ops where
  beside parked beside := fun id op here => parked id op (beside.queue here)
  object _ parked := parked
  park {s op} member parked := by
    intro id other here
    have row : (s.pending.insert op.id op)[id]? = some other := here
    rw [BTreeMap.get_insert] at row
    split at row
    · exact Option.some.inj row ▸ member
    · exact parked id other row
  queued parked here := parked _ _ here
  splice {s op inode offset chunks new_size encryption buffer} _ _ _ _ _ := by
    intro u parked
    obtain ⟨_, t, run, _, _, -, rfl⟩ := storesOnly_storeContent env buffer u
    rw [run]
    exact parked

end Stays

end NexusFS.Core
