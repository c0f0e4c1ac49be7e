/- GID: NexusFS/Core/Intact
   source: crates/core/src/apply.rs, crates/core/src/namespace.rs
   digest: A write that takes effect leaves a file that reads back, exactly when it is intact. -/

import NexusFS.Core.Written
import NexusFS.Core.Call

set_option autoImplicit false
set_option relaxedAutoImplicit false

namespace NexusFS.Core

open NexusFS.Lib NexusFS.Lib.Effect NexusFS.Proto NexusFS.Crdt CoreState

section Chunks

variable {env : Env} {s t : CoreState}

/-- Every chunk is held with the length its reference states, as stored and as plaintext, and the
lengths add up without wrapping. -/
def ChunksHold (s : CoreState) (chunks : List ChunkRef) : Prop :=
  (∀ chunk ∈ chunks, ∃ stored, s.blobs[chunk.hash]? = some stored ∧
    stored.length = chunk.len.val ∧ chunk.len = chunk.plain_len) ∧
  (chunks.map fun chunk => chunk.plain_len.val).sum < 2 ^ 64

theorem chunksHold_congr {chunks : List ChunkRef}
    (same : ∀ chunk ∈ chunks, t.blobs[chunk.hash]? = s.blobs[chunk.hash]?) :
    ChunksHold t chunks ↔ ChunksHold s chunks := by
  refine and_congr_left fun _ => forall₂_congr fun chunk member => ?_
  rw [same chunk member]

private theorem length_of_advance {start : U64} {plain_len : U32} {length : Nat}
    (short : length < 2 ^ 32)
    (same : (start + Fin.ofNat (2 ^ 64) plain_len.val : U64).val = start.val + length) :
    length = plain_len.val := by
  have bound := plain_len.isLt
  have next : (start.val + plain_len.val % 2 ^ 64) % 2 ^ 64 = start.val + length := by
    rw [← same, Fin.val_add]
    rfl
  omega

private theorem advance_of_length {start : U64} {plain_len : U32} {total : Nat}
    (fits : start.val + (plain_len.val + total) < 2 ^ 64) :
    (start + Fin.ofNat (2 ^ 64) plain_len.val : U64).val = start.val + plain_len.val := by
  rw [Fin.val_add]
  show (start.val + plain_len.val % 2 ^ 64) % 2 ^ 64 = _
  omega

theorem reads_iff_lengths {chunks : List ChunkRef} {index : Nat} {start total : U64}
    (covers : chunksContiguous chunks start = some total) :
    (∃ pieces, Reads env s none index start.val chunks pieces ∧
      start.val + pieces.flatten.length = total.val) ↔
    (∀ chunk ∈ chunks, ∃ stored, s.blobs[chunk.hash]? = some stored ∧
      stored.length = chunk.len.val ∧ chunk.len = chunk.plain_len) ∧
    start.val + (chunks.map fun chunk => chunk.plain_len.val).sum < 2 ^ 64 := by
  induction chunks generalizing index start with
  | nil =>
      obtain rfl := Option.some.inj covers
      refine iff_of_true ⟨[], .nil, rfl⟩ ⟨by simp, ?_⟩
      simp
  | cons chunk rest ih =>
      unfold chunksContiguous at covers
      split at covers
      · cases covers
      · rename_i offset
        have later := @ih (index + 1) (start + Fin.ofNat (2 ^ 64) chunk.plain_len.val) covers
        rw [List.map_cons, List.sum_cons]
        constructor
        · rintro ⟨_, ⟨⟩ | ⟨held, length, at_start, opens, reads⟩, size⟩
          rename_i stored piece pieces
          obtain rfl : stored = piece := opens
          rw [List.flatten_cons, List.length_append] at size
          -- Where the next chunk starts is checked by its own offset, or by the total size.
          have next : (start + Fin.ofNat (2 ^ 64) chunk.plain_len.val : U64).val =
              start.val + stored.length := by
            cases reads with
            | nil =>
                obtain rfl := Option.some.inj covers
                exact size.symm
            | cons held' length' offset' =>
                unfold chunksContiguous at covers
                split at covers
                · cases covers
                · rename_i same
                  rw [← not_not.mp same, offset']
          have short : stored.length < 2 ^ 32 := by
            rw [length]
            exact chunk.len.isLt
          have stated := length_of_advance short next
          rw [← next] at reads
          obtain ⟨others, sum⟩ := later.mp ⟨pieces, reads, by omega⟩
          refine ⟨List.forall_mem_cons.mpr ⟨⟨stored, held, length, ?_⟩, others⟩, by omega⟩
          exact Fin.ext (by omega)
        · rintro ⟨all, sum⟩
          obtain ⟨⟨stored, held, length, stated⟩, others⟩ := List.forall_mem_cons.mp all
          have next := advance_of_length sum
          obtain ⟨pieces, reads, size⟩ := later.mpr ⟨others, by omega⟩
          have same : chunk.plain_len.val = stored.length := by rw [length, stated]
          rw [next, same] at reads size
          refine ⟨stored :: pieces, .cons held length ?_ rfl reads, ?_⟩
          · rw [not_not.mp offset]
          · rw [List.flatten_cons, List.length_append]
            omega

end Chunks

section Reads

variable {env : Env} {D : Set Bytes} {inode : U128} {w u t : CoreState} {op : FsOp}
  {reg : LwwReg ContentState} {offset new_size : U64} {chunks : List ChunkRef}

/-- What a write needs for its file to read back: a whole one, that its chunks hold what it states,
and a partial one, that the lengths of the chunks it leaves fit their fields. -/
def Intact (s : CoreState) (offset : U64) (chunks : List ChunkRef) (new_size : U64) : Prop :=
  if offset = 0 ∧ chunksFormWholeFile chunks new_size then ChunksHold s chunks
  else Fits s new_size.val

def ReadsInFull (env : Env) (t : CoreState) (inode : U128) : Prop :=
  ∃ bytes record, readFile env t inode = .ok bytes ∧ t.loadInode inode = some record ∧
    bytes.length = record.content.value.size.val

private theorem FileAt.readsInFull (file : FileAt inode reg t) :
    ReadsInFull env t inode ↔
      ∃ bytes, readFile env t inode = .ok bytes ∧ bytes.length = reg.value.size.val := by
  obtain ⟨record, found, -, rfl⟩ := file
  constructor
  · rintro ⟨bytes, record', read, found', size⟩
    obtain rfl := Option.some.inj (found'.symm.trans found)
    exact ⟨bytes, read, size⟩
  · rintro ⟨bytes, read, size⟩
    exact ⟨bytes, record, read, found, size⟩

private theorem chunksHold_of_kept (kept : Extends w t) (held : ∀ chunk ∈ chunks, w.hasBlob chunk.hash) :
    ChunksHold t chunks ↔ ChunksHold w chunks :=
  chunksHold_congr fun chunk member => kept.get (held chunk member)

private theorem whole_reads_iff
    (decodes : ∀ object, env.decodeObject (env.encodeObject object) = some object)
    (placed : Placed env D op inode (fileObject chunks new_size op.time_unix_ms none) new_size w u)
    (held : ∀ chunk ∈ chunks, w.hasBlob chunk.hash)
    (covers : chunksFormWholeFile chunks new_size) (kept : Extends u t)
    (file : FileAt inode
      (contentOf op (objectHash env (fileObject chunks new_size op.time_unix_ms none)) new_size) t) :
    ReadsInFull env t inode ↔ ChunksHold w chunks := by
  have whole : chunksContiguous chunks 0 = some new_size := of_decide_eq_true covers
  have lengths := @reads_iff_lengths env t chunks 0 0 new_size whole
  have size : ∀ n, (0 : U64).val + n = n := Nat.zero_add
  rw [file.readsInFull, placed.read decodes kept file,
    ← chunksHold_of_kept (placed.kept.trans kept) held]
  refine Iff.trans ⟨?_, ?_⟩ (lengths.trans (and_congr_right fun _ => by rw [size]))
  · rintro ⟨bytes, read, length⟩
    obtain ⟨_, pieces, rfl, reads, rfl, -⟩ := materializeFile_ok_iff.mp read
    exact ⟨pieces, reads, (size _).trans length⟩
  · rintro ⟨pieces, reads, length⟩
    exact ⟨_, materializeFile_ok_iff.mpr ⟨none, pieces, rfl, reads, rfl, (size _).symm.trans length⟩,
      (size _).symm.trans length⟩

theorem spliced_reads (ideal : Ideal env)
    (decodes : ∀ object, env.decodeObject (env.encodeObject object) = some object)
    {buffer : Bytes} (length : buffer.length = new_size.val)
    (placed : Placed env D op inode
      (contentObject env w buffer op.time_unix_ms (contentInfo env w buffer)) new_size w u)
    (pieces : ∀ piece ∈ contentPieces env w buffer, u.blobs[env.blake3 piece]? = some piece)
    (kept : Extends u t) (settings : SameSettings u t)
    (file : FileAt inode (contentOf op (objectHash env
      (contentObject env w buffer op.time_unix_ms (contentInfo env w buffer))) new_size) t) :
    (Fits w new_size.val → readFile env t inode = .ok buffer) ∧
      ∀ bytes, readFile env t inode = .ok bytes → Fits w new_size.val := by
  have small : buffer.length < 2 ^ 64 := length ▸ new_size.isLt
  have recorded : (Fin.ofNat (2 ^ 64) buffer.length : U64).val = buffer.length :=
    Nat.mod_eq_of_lt small
  have held : ∀ piece ∈ contentPieces env w buffer, t.blobs[env.blake3 piece]? = some piece :=
    fun piece member => kept _ _ (pieces piece member)
  have same := placed.settings.trans settings
  rw [placed.read decodes kept file, ← length]
  refine ⟨fun fits => ?_, fun bytes read => ?_⟩
  · exact materializeFile_ok_iff.mpr ⟨contentKey env w, chunkBytes buffer w.chunk_size,
      keyFor_content ideal (contentInfo_protects ideal buffer w) same.sealing_secret same.cipher,
      reads_contentRefs ideal fits small held, (flatten_chunkBytes _ _).symm, recorded.symm⟩
  · obtain ⟨_, _, _, reads, -⟩ := materializeFile_ok_iff.mp read
    exact fits_of_reads ideal reads held

private theorem partly_reads_iff (ideal : Ideal env)
    (decodes : ∀ object, env.decodeObject (env.encodeObject object) = some object)
    {buffer : Bytes} (length : buffer.length = new_size.val)
    (placed : Placed env D op inode
      (contentObject env w buffer op.time_unix_ms (contentInfo env w buffer)) new_size w u)
    (pieces : ∀ piece ∈ contentPieces env w buffer, u.blobs[env.blake3 piece]? = some piece)
    (kept : Extends u t) (settings : SameSettings u t)
    (file : FileAt inode (contentOf op (objectHash env
      (contentObject env w buffer op.time_unix_ms (contentInfo env w buffer))) new_size) t) :
    ReadsInFull env t inode ↔ Fits w new_size.val := by
  have spliced := spliced_reads ideal decodes length placed pieces kept settings file
  rw [file.readsInFull]
  exact ⟨fun ⟨bytes, read, _⟩ => spliced.2 bytes read,
    fun fits => ⟨buffer, spliced.1 fits, length⟩⟩

/-- A write that took a file's register leaves it readable, with its recorded size, if and only if
it was intact. `t` is any later state in which the register is still the one it left. -/
theorem readsInFull_iff (ideal : Ideal env) (inj : Set.InjOn env.blake3 D) (within : StoreIn env D w)
    (decodes : ∀ object, env.decodeObject (env.encodeObject object) = some object)
    (shape : op.kind = .write inode offset chunks new_size none) (file : FileAt inode reg w)
    (wins : reg.orderKey < regKey op) (hashed : ∀ bytes ∈ storedBytes env w op, bytes ∈ D)
    (run : mutate env op w = .ok .done u) (within' : StoreIn env D t)
    (keeps : ∀ hash, u.hasBlob hash → t.hasBlob hash) (settings : SameSettings u t)
    (still : ∃ reg', FileAt inode reg' u ∧ FileAt inode reg' t) :
    ReadsInFull env t inode ↔ Intact w offset chunks new_size := by
  obtain ⟨held, splices⟩ := held_of_mutate shape file wins run
  obtain ⟨reg', before, after⟩ := still
  unfold Intact
  by_cases covers : offset = 0 ∧ chunksFormWholeFile chunks new_size
  · rw [if_pos covers]
    obtain ⟨u', run', placed⟩ := mutate_whole inj within shape file wins held covers hashed
    obtain rfl : u' = u := by
      rw [run] at run'
      injection run' with _ same
      exact same.symm
    obtain rfl := Option.some.inj (before.contentAt.symm.trans placed.file.contentAt)
    exact whole_reads_iff decodes placed held covers.2
      (extends_of_keeps inj placed.within within' keeps) after
  · rw [if_neg covers]
    obtain ⟨buffer, splice⟩ := splices covers
    obtain ⟨u', run', placed, pieces⟩ :=
      mutate_spliced ideal inj within shape file wins held covers splice hashed
    obtain rfl : u' = u := by
      rw [run] at run'
      injection run' with _ same
      exact same.symm
    obtain ⟨existing, -, rfl⟩ := spliceWrite_some held splice
    obtain rfl := Option.some.inj (before.contentAt.symm.trans placed.file.contentAt)
    exact partly_reads_iff ideal decodes (spliceBytes_length _ _ _ _) placed pieces
      (extends_of_keeps inj placed.within within' keeps) settings after

end Reads

section Lasting

variable {env : Env} {s t u w : CoreState} {op : FsOp}

/-- What every later state of a call keeps of a state in it: its blobs and the settings. -/
def Lasts (u t : CoreState) : Prop :=
  (∀ hash, u.hasBlob hash → t.hasBlob hash) ∧ SameSettings u t

private theorem Lasts.congr (lasts : Lasts u s) (blobs : t.blobs = s.blobs) (cipher : t.cipher = s.cipher)
    (secret : t.sealing_secret = s.sealing_secret) (size : t.chunk_size = s.chunk_size) :
    Lasts u t := by
  refine ⟨fun hash here => ?_, lasts.2.trans ⟨cipher, secret, size⟩⟩
  unfold CoreState.hasBlob
  rw [blobs]
  exact lasts.1 hash here

theorem lastsRule (env : Env) (u : CoreState) :
    CallRule env (Lasts u) (fun _ => True) (fun _ _ => True) (fun _ => Lasts u) where
  toAttemptRule := by
    refine .of_took ?_ (fun lasts _ _ => lasts.congr rfl rfl rfl rfl) fun _ _ => trivial
    intro s t op lasts _ _ took
    exact ⟨fun hash here => took.keeps hash (lasts.1 hash here), lasts.2.trans took.settings⟩
  logged := fun lasts _ => lasts.congr rfl rfl rfl rfl
  aside := by
    rintro s t lasts ⟨_, _, _, _, _, keeps, rfl⟩
    exact ⟨fun hash here => keeps hash (lasts.1 hash here), lasts.2.trans ⟨rfl, rfl, rfl⟩⟩
  park := fun lasts _ _ => lasts.congr rfl rfl rfl rfl

theorem keeps_attempt (env : Env) (op : FsOp) : Keeps (Keyed env) (attempt env op) :=
  (keyedStorage env).keeps_attempt trivial

theorem keyedRule (env : Env) :
    AttemptRule env (Keyed env) (fun _ => True) (fun _ _ => True) (fun _ => Keyed env) where
  tried := fun {s op} keyed _ _ _ => Ends.of_finalState (keeps_attempt env op s keyed)
  cleared := fun keyed _ _ => keyed
  parked := fun _ _ => trivial

theorem took_of_mutate (run : mutate env op w = .ok .done u) :
    Took env op w (finalState (attempt env op w)) ∧
      OnlyMap (u.noteApplied op) (finalState (attempt env op w)) := by
  have settled : finalState (attempt env op w) = finalState (settleApplied env op u) := by
    rw [attempt_run, run]
    dsimp only
    cases settleApplied env op u <;> rfl
  have only : OnlyMap (u.noteApplied op) (finalState (attempt env op w)) := by
    rw [settled]
    exact onlyMap_maintain env op (u.noteApplied op)
  have effect := mutate_spec env op w
  rw [run] at effect
  exact ⟨⟨u, effect, only⟩, only⟩

theorem Call.lasts {call : Call} (attempted : (w, op) ∈ call.attempts env s)
    (run : mutate env op w = .ok .done u) : Lasts u (call.run env s) := by
  refine (lastsRule env u).onward attempted ?_
  obtain ⟨-, blobs, imap, keeps, only⟩ := took_of_mutate run
  show Lasts u (finalState (attempt env op w))
  rw [only]
  exact ⟨keeps, ⟨rfl, rfl, rfl⟩⟩

end Lasting

end NexusFS.Core
