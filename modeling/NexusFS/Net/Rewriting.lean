/- GID: NexusFS/Net/Rewriting
   source: crates/core/src/ops.rs, crates/core/src/apply.rs
   digest: What a local write of a whole file leaves, whether or not it takes the register. -/

import NexusFS.Core.Makes
import NexusFS.Core.Retried
import NexusFS.Net.Local

set_option autoImplicit false
set_option relaxedAutoImplicit false

namespace NexusFS.Net

open NexusFS.Lib NexusFS.Lib.Effect NexusFS.Proto NexusFS.Core NexusFS.Crdt

section Rewriting

variable {env : Env} {identity : Identity} {absent : Hash → Prop} {now : U64} {kind : FsOpKind}
  {s t u v w : CoreState} {inode : U128} {reg : LwwReg ContentState} {chunks : List ChunkRef}
  {size : U64} {encryption : Option FileEncryption} {op : FsOp}

def writeKey (now : U64) (s : CoreState) : OrderKey := orderKeyOf now s.device_id (s.next_counter + 1)

def writtenReg (now : U64) (s : CoreState) (hash : Hash) (size : U64) : LwwReg ContentState :=
  ⟨⟨some hash, size, now⟩, now, s.device_id, s.next_counter + 1⟩

theorem lasts_applyLocal (env : Env) (identity : Identity) (kind : FsOpKind) (now : U64)
    (s : CoreState) : Lasts s (finalState (applyLocal env identity kind now s)) := by
  have applied : Lasts s (finalState (applyOpInner env (authoredOp env identity kind now s)
      (!s.proofs.generates) (counted s))) :=
    @CallRule.run env (counted s) (Lasts s) (fun _ => True) (lastsRule env s)
      ⟨fun _ here => here, rfl, rfl, rfl⟩
      (.apply (authoredOp env identity kind now s) (!s.proofs.generates))
      (fun _ _ _ => trivial) fun _ collects => nomatch collects
  rcases applyLocal_final env identity kind now s with same | ⟨proven, -, same⟩
  · rw [same]
    exact applied
  · rw [same]
    exact ⟨applied.1, applied.2.trans ⟨rfl, rfl, rfl⟩⟩

theorem Stays.applyLocal {own : Set Bytes} {origin : CoreState} (ideal : Ideal env)
    (whole : ∀ op : FsOp, op.kind = kind → ¬Partial op) :
    Keeps (Stays env own origin) (applyLocal env identity kind now) := by
  intro s stays
  have storage := staysStorage ideal own origin
  have begun : Stays env own origin (counted s) :=
    storage.beside stays ⟨rfl, ⟨⟨rfl, rfl, rfl⟩, rfl, rfl⟩, fun here => here⟩
  have applied : Stays env own origin (finalState (applyOpInner env (authoredOp env identity kind now s)
      (!s.proofs.generates) (counted s))) :=
    storage.keeps_applyOpInner (fun partly => absurd partly (whole _ rfl)) _ _ begun
  rcases applyLocal_final env identity kind now s with same | ⟨proven, -, same⟩
  · rw [same]
    exact applied
  · rw [same]
    exact storage.beside applied ⟨rfl, ⟨⟨rfl, rfl, rfl⟩, rfl, rfl⟩, fun here => here⟩

theorem kept_counted (s : CoreState) : Core.Kept ∅ ∅ s (counted s) :=
  .same rfl rfl (fun _ here => here) ⟨⟨rfl, rfl, rfl⟩, rfl, rfl⟩ rfl rfl

theorem kept_appendOp (s : CoreState) (op : FsOp) : Core.Kept ∅ ∅ s (s.appendOp op) :=
  .same rfl rfl (fun _ here => here) ⟨⟨rfl, rfl, rfl⟩, rfl, rfl⟩ rfl rfl

theorem Closes.kept (closes : Closes s t) : Core.Kept ∅ ∅ s t := by
  obtain ⟨_, log, ⟨_, _, _, _, _, keeps, rfl⟩, rfl⟩ := closes
  exact .same rfl rfl keeps ⟨⟨rfl, rfl, rfl⟩, rfl, rfl⟩ rfl rfl

theorem Performed.rest (performed : Performed env identity kind now s w u v t) {changed : Set U128}
    (filed : ∀ {id : OpId} {op}, u.pending[id]? = some op → op.id = id)
    (confined : ∀ {id : OpId} {op}, u.pending[id]? = some op → Confined env absent changed u op) :
    Arrived absent t ∨ Core.Kept changed ∅ u t := by
  obtain ⟨n, drained⟩ := performed.drained
  have ends := (confinedRule env absent changed u filed confined).drainPending
    ⟨fun here => here, .inr ((Core.Kept.refl u).mono (Set.empty_subset _) (Set.Subset.refl _))⟩
    (fun _ _ => trivial)
  rw [drained] at ends
  have last := performed.closes.kept
  rcases (ends : Sheltered absent changed u v).kept with arrived | kept
  · exact .inl (arrived.mono last.blobs)
  · exact .inr ((kept.trans last).mono (by simp) (by simp))

theorem Performed.started
    (performed : Performed env identity (.write inode 0 chunks size encryption) now s w u v t) :
    Core.Kept {inode} {nextId s} s u ∧
      ∃ later, contentAt u inode = some later ∧ writeKey now s ≤ later.orderKey := by
  have shape : (authoredOp env identity (.write inode 0 chunks size encryption) now s).kind =
      .write inode 0 chunks size encryption := rfl
  obtain ⟨dirs, kinds, others⟩ := mutate_write_frame shape performed.mutated
  have first : Core.Kept {inode} {nextId s} _ u := kept_of_mutated performed.mutated performed.mapped
    dirs kinds others (mutate_write_raised ⟨0, chunks, size, encryption, shape⟩ performed.mutated)
  refine ⟨(((kept_counted s).trans (kept_appendOp _ _)).trans first).mono (by simp) (by simp), ?_⟩
  have reaches := mutate_write_reaches shape performed.mutated
  obtain ⟨_, _, -, rfl⟩ := performed.mapped
  exact reaches

theorem Performed.rewrites {changed : Set U128}
    (performed : Performed env identity (.write inode 0 chunks size encryption) now s w u v t)
    (keyed : Keyed env s) (keyed' : Keyed env t) (file : FileAt inode reg s)
    (covers : chunksFormWholeFile chunks size)
    (apart : Apart env s t [encodeObject env (fileObject chunks size now encryption)])
    (rest : Core.Kept changed ∅ u t) (spared : inode ∉ changed) :
    (¬reg.orderKey < writeKey now s ∧ Core.Kept changed {nextId s} s t) ∨
      (reg.orderKey < writeKey now s ∧ Core.Kept (insert inode changed) {nextId s} s t ∧
        FileAt inode (writtenReg now s (objectHash env (fileObject chunks size now encryption)) size) t ∧
        t.blobs[objectHash env (fileObject chunks size now encryption)]? =
          some (encodeObject env (fileObject chunks size now encryption))) := by
  obtain ⟨made, isMade⟩ : ∃ made, authoredOp env identity (.write inode 0 chunks size encryption)
      now s = made := ⟨_, rfl⟩
  have shape : made.kind = .write inode 0 chunks size encryption := isMade ▸ rfl
  have key : regKey made = writeKey now s := isMade ▸ rfl
  have time : made.time_unix_ms = now := isMade ▸ rfl
  have id : made.id = nextId s := isMade ▸ rfl
  have value : ∀ hash, contentOf made hash size = writtenReg now s hash size := isMade ▸ fun _ => rfl
  obtain ⟨base, isBase⟩ : ∃ base, (counted s).appendOp made = base := ⟨_, rfl⟩
  have before : Core.Kept ∅ ∅ s base :=
    isBase ▸ ((kept_counted s).trans (kept_appendOp _ made)).mono (by simp) (by simp)
  have blobs : base.blobs = s.blobs := isBase ▸ rfl
  have file' : FileAt inode reg base := before.fileAt (by simp) file
  have started := performed.started.1
  have mutated := performed.mutated
  have mapped := performed.mapped
  rw [isMade] at mutated mapped
  rw [isBase] at mutated
  by_cases wins : reg.orderKey < regKey made
  · have hashed : ∀ bytes ∈ storedBytes env base made,
        bytes ∈ heldOr s t [encodeObject env (fileObject chunks size now encryption)] := by
      intro bytes member
      simp only [storedBytes, shape, covers, and_self, if_true, time] at member
      exact .inl member
    have within : StoreIn env (heldOr s t [encodeObject env (fileObject chunks size now encryption)])
        base := by
      intro hash bytes here
      rw [blobs] at here
      exact keyed.within_left hash bytes here
    obtain ⟨held, -⟩ := held_of_mutate shape file' wins mutated
    obtain ⟨w', again, placed⟩ := mutate_whole apart within shape file' wins held ⟨rfl, covers⟩ hashed
    obtain rfl : w' = w := by
      rw [mutated] at again
      injection again with _ same
      exact same.symm
    have file_w := placed.file
    have stored := placed.stored
    rw [time] at file_w stored
    rw [value] at file_w
    have file_u : FileAt inode (writtenReg now s
        (objectHash env (fileObject chunks size now encryption)) size) u := by
      obtain ⟨_, _, -, rfl⟩ := mapped
      exact file_w
    refine .inr ⟨key ▸ wins, (started.trans rest).mono (Set.singleton_union.subset) (by simp),
      rest.fileAt spared file_u, ?_⟩
    refine extends_of_keeps apart placed.within keyed'.within_right (fun hash here => ?_) _ _ stored
    obtain ⟨_, _, keeps, rfl⟩ := mapped
    exact rest.blobs hash (keeps hash here)
  · obtain rfl := mutate_write_lost shape file' wins mutated
    have first : Core.Kept ∅ {made.id} w u :=
      kept_of_mutated mutated mapped rfl (fun _ => rfl) (fun _ _ => rfl)
        fun i reg here => ⟨reg, here, le_rfl⟩
    rw [id] at first
    exact .inl ⟨key ▸ wins, ((before.trans first).trans rest).mono (by simp) (by simp)⟩

theorem Performed.confines {changed : Set U128} {parked : FsOp}
    (performed : Performed env identity (.write inode 0 chunks size encryption) now s w u v t)
    (spared : Confined env absent changed s parked ∨
      (WritesTo inode parked ∧ ¬writeKey now s < regKey parked)) :
    Confined env absent changed u parked := by
  obtain ⟨started, later, here, reaches⟩ := performed.started
  rcases spared with confined | ⟨⟨_, _, _, _, shape⟩, low⟩
  · exact started.confined confined
  · refine .inl (.loses shape fun reg there wins => low ?_)
    obtain rfl := Option.some.inj (here.symm.trans there)
    exact reaches.trans_lt wins

/-- The byte strings that the attempts of a local operation store are in `D`, and so is what they leave. -/
def AttemptsIn (env : Env) (identity : Identity) (kind : FsOpKind) (now : U64) (D : Set Bytes)
    (s : CoreState) : Prop :=
  ∀ x ∈ localAttempts env identity kind now s, (∀ bytes ∈ storedBytes env x.1 x.2, bytes ∈ D) ∧
    StoreIn env D (finalState (attempt env x.2 x.1))

theorem Performed.retried {changed free : Set U128} {good : Object → Prop} {D : Set Bytes}
    (ideal : Ideal env) (inj : Set.InjOn env.blake3 D)
    (performed : Performed env identity kind now s w u v t)
    (filed : ∀ {id : OpId} {op}, u.pending[id]? = some op → op.id = id)
    (confined : ∀ {id : OpId} {op}, u.pending[id]? = some op → Confined env absent changed u op)
    (leaves : ∀ {id : OpId} {op}, u.pending[id]? = some op → ∀ i ∈ free, WritesTo i op →
      Harmless env absent u op ∨ Leaves env good u op)
    (within_t : StoreIn env D t) (along : AttemptsIn env identity kind now D s) :
    Arrived absent t ∨ (Core.Kept changed ∅ u t ∧ ∀ i, Sourced env absent free good u t i) := by
  obtain ⟨n, drained⟩ := performed.drained
  unfold AttemptsIn at along
  rw [performed.attempts] at along
  have within := (along _ List.mem_cons_self).2
  rw [performed.tried] at within
  have ends := (retriedRule ideal inj absent changed free good u filed confined leaves).drainPending
    ⟨fun here => here, within, .inr ⟨(Core.Kept.refl u).mono (Set.empty_subset _) (Set.Subset.refl _),
      fun _ => .inl rfl⟩⟩
    fun x member => along x (List.mem_cons_of_mem _ member)
  rw [drained] at ends
  obtain ⟨-, within_v, last⟩ : Retried env absent changed free good D u v := ends
  have closed := performed.closes.kept
  have contents : ∀ i, contentAt t i = contentAt v i := fun i => closed.content i (Set.notMem_empty i)
  rcases last with arrived | ⟨kept, sourced⟩
  · exact .inl (arrived.mono closed.blobs)
  · exact .inr ⟨(kept.trans closed).mono (by simp) (by simp), fun i =>
      (sourced i).later (contents i) (extends_of_keeps inj within_v within_t closed.blobs)⟩

/-- A local write of a whole file either loses the register and leaves the file, or takes it. -/
inductive Rewrote (env : Env) (now : U64) (changed : Set U128) (inode : U128)
    (reg : LwwReg ContentState) (object : Object) (size : U64) (s t : CoreState) : Prop
  | lost (lost : nextId s ∈ s.applied ∨ ¬reg.orderKey < writeKey now s)
      (kept : Core.Kept changed {nextId s} s t)
  | took (new : nextId s ∉ s.applied) (wins : reg.orderKey < writeKey now s)
      (kept : Core.Kept (insert inode changed) {nextId s} s t)
      (file : FileAt inode (writtenReg now s (objectHash env object) size) t)
      (stored : t.blobs[objectHash env object]? = some (encodeObject env object))

/-- What a pass lets a parked operation do, while it writes `inode`: no harm, or write a file in `changed`,
leaving a `good` object if it is `free`, or write the same file under a lower key. -/
def Spared (env : Env) (absent : Hash → Prop) (changed free : Set U128) (good : Object → Prop)
    (now : U64) (inode : U128) (s : CoreState) (op : FsOp) : Prop :=
  Harmless env absent s op ∨
    (∃ i ∈ changed, WritesTo i op ∧ (i ∈ free → Leaves env good s op)) ∨
    (WritesTo inode op ∧ regKey op < writeKey now s)

theorem applyLocal_rewrites {changed free : Set U128} {good : Object → Prop} {D : Set Bytes}
    (ideal : Ideal env) (inj : Set.InjOn env.blake3 D)
    (run : applyLocal env identity (.write inode 0 chunks size encryption) now s = .ok op t)
    (keyed : Keyed env s) (keyed' : Keyed env t) (file : FileAt inode reg s)
    (covers : chunksFormWholeFile chunks size)
    (filed : ∀ {id : OpId} {op}, s.pending[id]? = some op → op.id = id)
    (spared : ∀ {id : OpId} {op}, s.pending[id]? = some op →
      Spared env absent changed free good now inode s op)
    (outside : inode ∉ changed)
    (within : StoreIn env D s) (within_t : StoreIn env D t)
    (along : AttemptsIn env identity (.write inode 0 chunks size encryption) now D s) :
    Arrived absent t ∨
      (Rewrote env now changed inode reg (fileObject chunks size now encryption) size s t ∧
        ∀ i, i ≠ inode → Sourced env absent free good s t i) := by
  obtain ⟨-, repeated | ⟨w, u, v, performed⟩⟩ := applyLocal_ok run
  · have kept := (kept_counted s).trans repeated.closes.kept
    exact .inr ⟨.lost (.inl repeated.known) (kept.mono (by simp) (by simp)),
      fun i _ => .inl (kept.content i (by simp))⟩
  have started := performed.started.1
  have own : ∀ {other : Set U128} {parked : FsOp}, WritesTo inode parked → regKey parked < writeKey now s →
      Confined env absent other u parked := fun writes low => performed.confines (.inr ⟨writes, low.not_gt⟩)
  have first := along
  unfold AttemptsIn at first
  rw [performed.attempts] at first
  obtain ⟨hashed, within_u⟩ := first _ List.mem_cons_self
  rw [performed.tried] at within_u
  have apart : Apart env s t [encodeObject env (fileObject chunks size now encryption)] := by
    refine inj.mono ?_
    rintro bytes (listed | ⟨hash, here⟩ | ⟨hash, here⟩)
    · refine hashed bytes ?_
      have stored : storedBytes env ((counted s).appendOp
          (authoredOp env identity (.write inode 0 chunks size encryption) now s))
          (authoredOp env identity (.write inode 0 chunks size encryption) now s) =
          [encodeObject env (fileObject chunks size now encryption)] := if_pos ⟨rfl, covers⟩
      rwa [stored]
    · exact (within hash bytes here).1
    · exact (within_t hash bytes here).1
  have rest : Arrived absent t ∨ (Core.Kept changed ∅ u t ∧ ∀ i, Sourced env absent free good u t i) := by
    refine performed.retried ideal inj (fun here => filed (started.queue here)) (fun {id parked} here => ?_)
      (fun {id parked} here i inside writes => ?_) within_t along
    · rcases spared (started.queue here) with none_so | ⟨i, inside, writes, -⟩ | ⟨writes, low⟩
      · exact performed.confines (.inl (.inl none_so))
      · exact performed.confines (.inl (.inr ⟨i, inside, writes⟩))
      · exact own writes low
    · rcases spared (started.queue here) with none_so | ⟨i', -, writes', leaves⟩ | ⟨writes', low⟩
      · exact .inl (started.harmless none_so)
      · obtain rfl := writes.unique writes'
        exact .inr ((leaves inside).congr started.keys)
      · exact .inl ((own writes' low).resolve_right fun ⟨_, nowhere, _⟩ => Set.notMem_empty _ nowhere)
  refine rest.imp_right fun ⟨kept, sourced⟩ => ⟨?_, fun i other => ?_⟩
  · rcases performed.rewrites keyed keyed' file covers apart kept outside with
      ⟨lost, kept⟩ | ⟨wins, kept, file, stored⟩
    · exact .lost (.inr lost) kept
    · exact .took performed.new wins kept file stored
  · have same : Sourced env absent free good s u i := .inl (started.content i other)
    exact same.trans (sourced i) started (extends_of_keeps inj within_u within_t kept.blobs)

end Rewriting

end NexusFS.Net
