/- GID: NexusFS/Core/Retried
   source: crates/core/src/apply.rs
   digest: What the retries of parked writes leave in the files that they write. -/

import NexusFS.Core.Harmless

set_option autoImplicit false
set_option relaxedAutoImplicit false

namespace NexusFS.Core

open NexusFS.Lib NexusFS.Lib.Effect NexusFS.Proto NexusFS.Crdt CoreState

section Retried

variable {env : Env} {absent : Hash → Prop} {changed free : Set U128} {good : Object → Prop}
  {D : Set Bytes} {s t u w : CoreState} {op : FsOp} {inode i : U128} {reg : LwwReg ContentState}

theorem WritesTo.unique (one : WritesTo inode op) (two : WritesTo i op) : inode = i := by
  obtain ⟨_, _, _, _, shape⟩ := one
  obtain ⟨_, _, _, _, shape'⟩ := two
  cases shape.symm.trans shape'
  rfl

/-- Whatever the write makes of its file is `good`, whenever the node comes to apply it. -/
def Leaves (env : Env) (good : Object → Prop) (s : CoreState) (op : FsOp) : Prop :=
  ∀ inode offset chunks new_size encryption, op.kind = .write inode offset chunks new_size encryption →
    (offset = 0 ∧ chunksFormWholeFile chunks new_size →
      good (fileObject chunks new_size op.time_unix_ms encryption)) ∧
    (¬(offset = 0 ∧ chunksFormWholeFile chunks new_size) → ∀ u buffer, SameKeys s u →
      good (contentObject env u buffer op.time_unix_ms (contentInfo env u buffer)))

theorem Leaves.congr (leaves : Leaves env good s op) (keys : SameKeys s t) : Leaves env good t op :=
  fun inode offset chunks new_size encryption shape =>
    (leaves inode offset chunks new_size encryption shape).imp id fun partly other u buffer same =>
      partly other u buffer (keys.trans same)

def Carries (env : Env) (good : Object → Prop) (u : CoreState) (reg : LwwReg ContentState) : Prop :=
  ∃ object, reg.value.node_hash = some (objectHash env object) ∧
    u.blobs[objectHash env object]? = some (encodeObject env object) ∧ good object

theorem Carries.later (carries : Carries env good s reg) (grew : Extends s t) : Carries env good t reg := by
  obtain ⟨object, named, stored, holds⟩ := carries
  exact ⟨object, named, grew _ _ stored, holds⟩

theorem mutate_write_leaves (ideal : Ideal env) (inj : Set.InjOn env.blake3 D) (within : StoreIn env D u)
    (writes : WritesTo inode op) (hashed : ∀ bytes ∈ storedBytes env u op, bytes ∈ D)
    (run : mutate env op u = .ok .done w) :
    w = u ∨ (StoreIn env D w ∧ ∃ reg, contentAt w inode = some reg ∧ reg.orderKey = regKey op ∧
      (Leaves env good u op → Carries env good w reg)) := by
  obtain ⟨offset, chunks, new_size, encryption, shape⟩ := writes
  obtain ⟨reg, file⟩ := file_of_mutate_write shape run
  by_cases wins : reg.orderKey < regKey op
  · obtain ⟨held, spliced⟩ := held_of_mutate shape file wins run
    by_cases covers : offset = 0 ∧ chunksFormWholeFile chunks new_size
    · obtain ⟨w', again, placed⟩ := mutate_whole inj within shape file wins held covers hashed
      cases run.symm.trans again
      exact .inr ⟨placed.within, _, placed.file.contentAt, rfl, fun leaves =>
        ⟨_, rfl, placed.stored, (leaves _ _ _ _ _ shape).1 covers⟩⟩
    · obtain ⟨buffer, splice⟩ := spliced covers
      obtain ⟨w', again, placed, -⟩ :=
        mutate_spliced ideal inj within shape file wins held covers splice hashed
      cases run.symm.trans again
      exact .inr ⟨placed.within, _, placed.file.contentAt, rfl, fun leaves =>
        ⟨_, rfl, placed.stored, (leaves _ _ _ _ _ shape).2 covers u buffer (.refl u)⟩⟩
  · exact .inl (mutate_write_lost shape file wins run)

/-- The register of a file is the one that `s` has, or has the key of a parked write that was not
harmless, and names a `good` object if the file is `free`. -/
def Sourced (env : Env) (absent : Hash → Prop) (free : Set U128) (good : Object → Prop)
    (s u : CoreState) (i : U128) : Prop :=
  contentAt u i = contentAt s i ∨ ∃ (id : OpId) (op : FsOp) (reg : LwwReg ContentState),
    s.pending[id]? = some op ∧ ¬Harmless env absent s op ∧ WritesTo i op ∧
      contentAt u i = some reg ∧ reg.orderKey = regKey op ∧ (i ∈ free → Carries env good u reg)

theorem Sourced.later (sourced : Sourced env absent free good s t i)
    (same : contentAt u i = contentAt t i) (grew : Extends t u) : Sourced env absent free good s u i := by
  rcases sourced with old | ⟨id, op, reg, parked, rival, writes, here, key, carries⟩
  · exact .inl (same.trans old)
  · exact .inr ⟨id, op, reg, parked, rival, writes, same.trans here, key,
      fun inside => (carries inside).later grew⟩

theorem Sourced.trans {spent : Set OpId} (first : Sourced env absent free good s t i)
    (second : Sourced env absent free good t u i) (kept : Kept changed spent s t) (grew : Extends t u) :
    Sourced env absent free good s u i := by
  rcases second with same | ⟨id, op, reg, parked, rival, writes, here, key, carries⟩
  · exact first.later same grew
  · exact .inr ⟨id, op, reg, kept.queue parked, fun none_so => rival (kept.harmless none_so), writes, here,
      key, carries⟩

/-- What the retries of a call have done so far, if no absent chunk arrived. -/
structure Retried (env : Env) (absent : Hash → Prop) (changed free : Set U128) (good : Object → Prop)
    (D : Set Bytes) (s u : CoreState) : Prop where
  queue : ∀ {id : OpId} {op}, u.pending[id]? = some op → s.pending[id]? = some op
  within : StoreIn env D u
  kept : Arrived absent u ∨ (Kept changed ∅ s u ∧ ∀ i, Sourced env absent free good s u i)

private theorem Retried.done (ideal : Ideal env) (inj : Set.InjOn env.blake3 D)
    (kept : Kept changed ∅ s u) (sourced : ∀ i, Sourced env absent free good s u i)
    (parked : s.pending[op.id]? = some op) (confined : Confined env absent changed s op)
    (leaves : ∀ i ∈ free, WritesTo i op → Harmless env absent s op ∨ Leaves env good s op)
    (within : StoreIn env D u) (within_t : StoreIn env D t)
    (hashed : ∀ bytes ∈ storedBytes env u op, bytes ∈ D) (run : mutate env op u = .ok .done w)
    (mapped : OnlyMap (w.noteApplied op) t) (took : Took env op u t) :
    Arrived absent t ∨ (Kept changed ∅ s t ∧ ∀ i, Sourced env absent free good s t i) := by
  have grew : Extends u t := extends_of_keeps inj within within_t took.keeps
  have contents : ∀ i, contentAt t i = contentAt w i := by
    obtain ⟨_, _, -, rfl⟩ := mapped
    exact fun i => rfl
  have blobs : ∀ hash, w.hasBlob hash → t.hasBlob hash := by
    obtain ⟨_, _, keeps, rfl⟩ := mapped
    exact keeps
  rcases (kept.confined confined).kept run mapped with arrived | last
  · exact .inl (arrived.mono took.keeps)
  have kept_t : Kept changed ∅ s t := by
    refine { (kept.trans last).mono (by simp) (Set.Subset.refl _) with applied := fun {id} here => ?_ }
    rcases (kept.trans last).applied here with old | waited | none_of_it | rfl
    · exact .inl old
    · exact .inr (.inl waited)
    · exact none_of_it.elim
    · exact .inr (.inl (by rw [parked]; rfl))
  by_cases none_so : Harmless env absent s op
  · rcases (kept.harmless none_so).mutate run with arrived | ⟨-, -, same⟩
    · exact .inl (Arrived.mono arrived took.keeps)
    · exact .inr ⟨kept_t, fun i => (sourced i).later ((contents i).trans (same i)) grew⟩
  · obtain ⟨inode, -, writes⟩ := confined.resolve_left none_so
    refine .inr ⟨kept_t, fun i => ?_⟩
    rcases @mutate_write_leaves env good D u w op inode ideal inj within writes hashed run with
      rfl | ⟨within_w, reg, here, key, carries⟩
    · exact (sourced i).later (contents i) grew
    · by_cases own : i = inode
      · subst own
        refine .inr ⟨op.id, op, reg, parked, none_so, writes, (contents i).trans here, key, fun inside => ?_⟩
        have left := ((leaves i inside writes).resolve_left none_so).congr kept.keys
        exact (carries left).later (extends_of_keeps inj within_w within_t blobs)
      · obtain ⟨_, _, _, _, shape⟩ := writes
        exact (sourced i).later ((contents i).trans ((mutate_write_frame shape run).2.2 i own)) grew

theorem retriedRule (ideal : Ideal env) (inj : Set.InjOn env.blake3 D) (absent : Hash → Prop)
    (changed free : Set U128) (good : Object → Prop) (s : CoreState)
    (filed : ∀ {id : OpId} {op}, s.pending[id]? = some op → op.id = id)
    (confined : ∀ {id : OpId} {op}, s.pending[id]? = some op → Confined env absent changed s op)
    (leaves : ∀ {id : OpId} {op}, s.pending[id]? = some op → ∀ i ∈ free, WritesTo i op →
      Harmless env absent s op ∨ Leaves env good s op) :
    AttemptRule env (Retried env absent changed free good D s) (fun op => s.pending[op.id]? = some op)
      (fun u op => (∀ bytes ∈ storedBytes env u op, bytes ∈ D) ∧
        StoreIn env D (finalState (attempt env op u)))
      (fun _ => Retried env absent changed free good D s) where
  tried := by
    rintro u op ⟨queue, within, inv⟩ parked ⟨hashed, within_t⟩ new
    have ends : Retried env absent changed free good D s (finalState (attempt env op u)) := by
      cases run : mutate env op u with
      | error e t =>
          have spec := mutate_spec env op u
          rw [run] at spec
          obtain ⟨rfl, -⟩ := spec
          rw [attempt_run, run]
          exact ⟨queue, within, inv⟩
      | ok outcome t =>
          have spec := mutate_spec env op u
          rw [run] at spec
          cases outcome with
          | unmet reason =>
              obtain ⟨rfl, -⟩ := spec
              rw [attempt_run, run]
              exact ⟨queue, within, inv⟩
          | done =>
              obtain ⟨took, mapped⟩ := took_of_mutate run
              refine ⟨fun {id other} here => ?_, within_t, ?_⟩
              · rw [took.pending, BTreeMap.get_erase] at here
                split at here
                · cases here
                · exact queue here
              rcases inv with arrived | ⟨kept, sourced⟩
              · exact .inl (arrived.mono took.keeps)
              · exact Retried.done ideal inj kept sourced parked (confined parked) (leaves parked) within
                  within_t hashed run mapped took
    exact Ends.of_finalState ends
  cleared := by
    rintro u op ⟨queue, within, inv⟩ _ _
    have erased : ∀ {id : OpId} {other}, (u.pending.erase op.id)[id]? = some other →
        u.pending[id]? = some other := by
      intro id other here
      rw [BTreeMap.get_erase] at here
      split at here
      · cases here
      · exact here
    refine ⟨fun here => queue (erased here), within, inv.imp_right fun ⟨kept, sourced⟩ => ⟨?_, sourced⟩⟩
    exact ⟨kept.dirs, kept.kinds, kept.content, kept.raised, kept.blobs,
      kept.keys.trans ⟨⟨rfl, rfl, rfl⟩, rfl, rfl⟩, fun here => kept.queue (erased here), kept.known, kept.applied⟩
  parked := by
    rintro u op id ⟨queue, -, -⟩ here
    rw [filed (queue here)]
    exact queue here

end Retried

end NexusFS.Core
