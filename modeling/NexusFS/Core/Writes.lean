/- GID: NexusFS/Core/Writes
   source: crates/core/src/apply.rs
   digest: When writes to one file converge: the last one has to cover what the others change. -/

import NexusFS.Core.Written
import Mathlib.Data.List.Permutation

set_option autoImplicit false
set_option relaxedAutoImplicit false

namespace NexusFS.Core

open NexusFS.Lib NexusFS.Lib.Effect NexusFS.Proto NexusFS.Crdt CoreState

section Deliveries

variable {env : Env} {D : Set Bytes} {ids : Set OpId} {inode : U128} {s t u : CoreState}
  {op : FsOp} {ops rest : List FsOp} {base : LwwReg ContentState}

def appliesAll (env : Env) : CoreState → List FsOp → Bool
  | _, [] => true
  | t, op :: rest =>
      match applyOp env op t with
      | .ok (.pending _) _ => false
      | .ok _ u => appliesAll env u rest
      | .error _ _ => false

/-- The byte strings a delivery of writes has to do with: what is held at each call, and what the
call hashes to store it. -/
def seenBytes (env : Env) : CoreState → List FsOp → List Bytes
  | t, [] => t.blobs.toList.map Prod.snd
  | t, op :: rest =>
      t.blobs.toList.map Prod.snd ++
        (hashedBytes env (t.appendOp op) op ++ seenBytes env (finalState (applyOp env op t)) rest)

private theorem appliesAll_next (applies : appliesAll env t (op :: rest) = true) :
    appliesAll env (finalState (applyOp env op t)) rest = true := by
  unfold appliesAll at applies
  split at applies
  · cases applies
  · rename_i run
    rw [run]
    exact applies
  · cases applies

private theorem held_mem_seenBytes {hash : Hash} {bytes : Bytes} (order : List FsOp)
    (here : t.blobs[hash]? = some bytes) : bytes ∈ seenBytes env t order := by
  have listed : bytes ∈ t.blobs.toList.map Prod.snd :=
    List.mem_map.mpr ⟨(hash, bytes), (BTreeMap.mem_toList _ _ _).mpr here, rfl⟩
  cases order with
  | nil => exact listed
  | cons op rest => exact List.mem_append_left _ listed

private theorem attempt_of_applies (admits : Admits env op true t) (new : op.id ∉ t.applied)
    (applies : appliesAll env t (op :: rest) = true) :
    ∃ u v, mutate env op (t.appendOp op) = .ok .done u ∧
      attempt env op (t.appendOp op) = .ok .done v ∧ OnlyMap (u.noteApplied op) v := by
  have call : applyOp env op t = applyOpInner env op true t := rfl
  unfold appliesAll at applies
  rw [call, applyOpInner_new admits new] at applies
  have steps := @attempt_run env op (t.appendOp op)
  cases run : attempt env op (t.appendOp op) with
  | error e v =>
      rw [run] at applies
      cases applies
  | ok outcome v =>
      rw [run] at applies steps
      cases outcome with
      | unmet reason =>
          dsimp only at applies
          cases drained : drainPending env (v.storePending op) with
          | error e w =>
              rw [drained] at applies
              cases applies
          | ok n w =>
              rw [drained] at applies
              cases applies
      | done =>
          cases mutated : mutate env op (t.appendOp op) with
          | error e w =>
              rw [mutated] at steps
              cases steps
          | ok result w =>
              rw [mutated] at steps
              cases result with
              | unmet reason => cases steps
              | done =>
                  have only := onlyMap_maintain env op (w.noteApplied op)
                  have settle : settleApplied env op w =
                      maintainInodeMap env op (w.noteApplied op) := rfl
                  dsimp only at steps
                  rw [settle] at steps
                  cases later : maintainInodeMap env op (w.noteApplied op) with
                  | error e v' =>
                      rw [later] at steps
                      cases steps
                  | ok _ v' =>
                      rw [later] at steps only
                      cases steps
                      exact ⟨w, v, rfl, rfl, only⟩

def Simulates (env : Env) (D : Set Bytes) (s : CoreState) (inode : U128) (ops : List FsOp)
    (base : LwwReg ContentState) (x : Overlay.Register OrderKey Nat UInt8) (t : CoreState) : Prop :=
  ∃ reg, reg.orderKey = x.key ∧ Delivered env D s inode ops base reg x.value t

private theorem Watched.write (injIds : Set.InjOn (inodeForOp env) ids)
    (inj : Set.InjOn env.blake3 D)
    (decodes : ∀ object, env.decodeObject (env.encodeObject object) = some object)
    (plain : s.cipher = none) (held : ContentHeld env s base) (before : FileAt inode base s)
    (writes : ∀ op ∈ ops, op.id ∈ ids ∧ PlainWrite s inode op) (member : op ∈ ops)
    {policy : ProofPolicy} {done : Set OpId} {x : Overlay.Register OrderKey Nat UInt8}
    (applies : appliesAll env t (op :: rest) = true)
    (seen : ∀ bytes ∈ seenBytes env t (op :: rest), bytes ∈ D)
    (watched : Watched env ids (WritesTo inode) (Simulates env D s inode ops base x) ops policy
      done t) (admits : Admits env op true t) (new : op.id ∉ t.applied) :
    Watched env ids (WritesTo inode)
      (Simulates env D s inode ops base (Overlay.put regKey (writtenByte s) x op)) ops policy
      (insert op.id done) (finalState (applyOp env op t)) := by
  obtain ⟨reg, key, delivered⟩ := watched.holds
  obtain ⟨x_key, value⟩ := x
  obtain rfl : reg.orderKey = x_key := key
  obtain ⟨u, v, mutated, first, only⟩ := attempt_of_applies admits new applies
  have logged : Delivered env D s inode ops base reg value (t.appendOp op) :=
    ⟨delivered.file, delivered.content.mono (.refl t), delivered.settings.trans ⟨rfl, rfl, rfl⟩,
      delivered.within, delivered.kept⟩
  have hashed : ∀ bytes ∈ hashedBytes env (t.appendOp op) op, bytes ∈ D := fun bytes inside =>
    seen bytes (List.mem_append_right _ (List.mem_append_left _ inside))
  obtain ⟨reg', key', after⟩ := logged.write inj decodes plain held before
    (fun o inside => (writes o inside).2) member hashed mutated
  have took : Took env op (t.appendOp op) v := by
    have effect := mutate_spec env op (t.appendOp op)
    rw [mutated] at effect
    exact ⟨u, effect, only⟩
  have rests : Resting inode reg' u v := by
    obtain ⟨blobs, imap, keeps, rfl⟩ := only
    exact ⟨after.file, ⟨rfl, rfl, rfl⟩, keeps⟩
  have onward : Watched env ids (WritesTo inode) (Simulates env D s inode ops base ⟨_, value⟩) ops
      policy done (t.appendOp op) :=
    ⟨watched.shape.appendOp op, ⟨reg, rfl, logged⟩, watched.policy, watched.queue, watched.done⟩
  have closed := Watched.close injIds (resting_undisturbed injIds reg' u) admits new (.inl first)
    (onward.took injIds (writes op member).1 new took rests)
  refine closed.imp ⟨reg', key', ?_⟩
  have keyed : Keyed env (finalState (applyOp env op t)) :=
    keeps_applyOp env op t fun hash bytes here => (delivered.within hash bytes here).2
  have within : StoreIn env D (finalState (applyOp env op t)) := fun hash bytes here =>
    ⟨seen bytes (List.mem_append_right _ (List.mem_append_right _ (held_mem_seenBytes rest here))),
      keyed hash bytes here⟩
  have kept := extends_of_keeps inj after.within within closed.holds.keeps
  exact ⟨closed.holds.file, after.content.mono kept, after.settings.trans closed.holds.settings,
    within, after.kept.trans kept⟩

end Deliveries

section Converge

variable {env : Env} {ids : Set OpId} {inode : U128} {s : CoreState} {ops : List FsOp}
  {base : LwwReg ContentState}

def HashesApart (env : Env) (s : CoreState) (ops : List FsOp) : Prop :=
  Set.InjOn env.blake3 {bytes | ∃ l : List FsOp, l.Perm ops ∧ bytes ∈ seenBytes env s l}

/-- Where the highest accepted write gives no byte, every other accepted write that is above the
file's register gives the byte the file has. -/
def PatchesSettled (env : Env) (s : CoreState) (inode : U128) (base : LwwReg ContentState)
    (ops : List FsOp) : Prop :=
  Overlay.Redundant regKey (writtenByte s) ⟨base.orderKey, padded (baseBytes env s inode)⟩
    (ops.filter (accepted env s))

/-- Writes to one file converge exactly when their patches are settled. -/
theorem writes_converge_iff (injIds : Set.InjOn (inodeForOp env) ids)
    (run : Run env (fun _ e => e.Within ids) s) (keyed : Keyed env s)
    (decodes : ∀ object, env.decodeObject (env.encodeObject object) = some object)
    (plain : s.cipher = none) (file : FileAt inode base s) (held : ContentHeld env s base)
    (distinct : (ops.map FsOp.id).Nodup)
    (writes : ∀ op ∈ ops, op.id ∈ ids ∧ PlainWrite s inode op)
    (unparked : ∀ parked ∈ s.pendingOps, ¬WritesTo inode parked ∧ ∀ op ∈ ops, op.id ≠ parked.id)
    (clean : HashesApart env s ops) :
    (PatchesSettled env s inode base ops → ∀ l₁ l₂ : List FsOp, l₁.Perm ops → l₂.Perm ops →
      appliesAll env s l₁ = true → appliesAll env s l₂ = true →
        SameContent env inode (deliver env s l₁) (deliver env s l₂)) ∧
    ((∀ l : List FsOp, l.Perm ops → appliesAll env s l = true) →
      ((∀ l₁ l₂ : List FsOp, l₁.Perm ops → l₂.Perm ops →
        SameContent env inode (deliver env s l₁) (deliver env s l₂)) ↔
          PatchesSettled env s inode base ops)) := by
  have shape := run.shape injIds fun _ _ within => within
  have plainWrites : ∀ op ∈ ops, PlainWrite s inode op := fun op member => (writes op member).2
  have keys : ∀ a ∈ ops.filter (accepted env s), ∀ b ∈ ops.filter (accepted env s),
      regKey a = regKey b → a = b := fun a left b right same =>
    op_of_key distinct (List.mem_of_mem_filter left) (List.mem_of_mem_filter right) same
  obtain ⟨D, isD⟩ : ∃ D : Set Bytes,
      D = {bytes | ∃ l : List FsOp, l.Perm ops ∧ bytes ∈ seenBytes env s l} := ⟨_, rfl⟩
  have inj : Set.InjOn env.blake3 D := isD ▸ clean
  obtain ⟨first, isFirst⟩ : ∃ first : Overlay.Register OrderKey Nat UInt8,
      first = ⟨base.orderKey, padded (baseBytes env s inode)⟩ := ⟨_, rfl⟩
  have start : Simulates env D s inode ops base first s := by
    refine ⟨base, by rw [isFirst], file, by rw [isFirst]; exact .kept, ⟨rfl, rfl, rfl⟩,
      fun hash bytes here => ⟨?_, keyed hash bytes here⟩, .refl s⟩
    rw [isD]
    exact ⟨ops, .refl ops, held_mem_seenBytes ops here⟩
  have delivered : ∀ l : List FsOp, l.Perm ops → appliesAll env s l = true →
      Simulates env D s inode ops base
        ((l.filter (accepted env s)).foldl (Overlay.put regKey (writtenByte s)) first)
        (deliver env s l) := by
    intro l perm applies
    refine @Watched.deliver env ids (WritesTo inode) ops s.proofs _ s s _
      (Simulates env D s inode ops base) (Overlay.put regKey (writtenByte s))
      (fun t order => appliesAll env t order = true ∧ ∀ bytes ∈ seenBytes env t order, bytes ∈ D)
      (fun {x done t op rest} along member watched admits new =>
        watched.write injIds inj decodes plain held file writes member along.1 along.2 admits new)
      (fun {t op rest} along => ⟨appliesAll_next along.1, fun bytes here =>
        along.2 bytes (List.mem_append_right _ (List.mem_append_right _ here))⟩)
      l (fun op here => perm.mem_iff.mp here) ((perm.map FsOp.id).nodup_iff.mpr distinct)
      ⟨applies, fun bytes here => isD ▸ ⟨l, perm, here⟩⟩ first rfl
      (shape.watched start unparked) fun _ _ => Iff.rfl
  have same_iff : ∀ l₁ l₂ : List FsOp, l₁.Perm ops → l₂.Perm ops → appliesAll env s l₁ = true →
      appliesAll env s l₂ = true →
      (SameContent env inode (deliver env s l₁) (deliver env s l₂) ↔
        (l₁.filter (accepted env s)).foldl (Overlay.put regKey (writtenByte s)) first =
          (l₂.filter (accepted env s)).foldl (Overlay.put regKey (writtenByte s)) first) := by
    intro l₁ l₂ perm₁ perm₂ applies₁ applies₂
    obtain ⟨reg₁, key₁, left⟩ := delivered l₁ perm₁ applies₁
    obtain ⟨reg₂, key₂, right⟩ := delivered l₂ perm₂ applies₂
    constructor
    · intro same
      have register := same.register
      rw [left.file.contentAt, right.file.contentAt, Option.some.injEq] at register
      subst register
      ext p
      · rw [← key₁, key₂]
      · rw [left.value_eq right inj decodes distinct]
    · intro same
      rw [same] at key₁ left
      exact left.agree right decodes distinct held file plainWrites (key₁.trans key₂.symm)
  have settled_iff := @Overlay.orders_agree_iff FsOp OrderKey Nat UInt8 _ regKey (writtenByte s) first
    (ops.filter (accepted env s)) keys
  unfold PatchesSettled
  rw [← isFirst]
  refine ⟨fun settled l₁ l₂ perm₁ perm₂ applies₁ applies₂ => ?_, fun applies => ⟨?_, ?_⟩⟩
  · exact (same_iff l₁ l₂ perm₁ perm₂ applies₁ applies₂).mpr
      (settled_iff.mpr settled _ _ (perm₁.filter _) (perm₂.filter _))
  · intro agree
    refine settled_iff.mp fun m₁ m₂ perm₁ perm₂ => ?_
    obtain ⟨l₁, all₁, rfl⟩ := exists_order perm₁
    obtain ⟨l₂, all₂, rfl⟩ := exists_order perm₂
    exact (same_iff l₁ l₂ all₁ all₂ (applies l₁ all₁) (applies l₂ all₂)).mp (agree l₁ l₂ all₁ all₂)
  · intro settled l₁ l₂ perm₁ perm₂
    exact (same_iff l₁ l₂ perm₁ perm₂ (applies l₁ perm₁) (applies l₂ perm₂)).mpr
      (settled_iff.mpr settled _ _ (perm₁.filter _) (perm₂.filter _))

def plainChunk (bytes : Bytes) (offset : U64) : ChunkRef :=
  ⟨Env.stored.blake3 bytes, Fin.ofNat (2 ^ 32) bytes.length, Fin.ofNat (2 ^ 32) bytes.length, offset⟩

def spliceEvents : List Event :=
  [.apply (sampleOp 1 (.createFile rootInode "f" 0)), .blob [0, 0], .blob [1], .blob [2],
    .apply (sampleOp 2 (.write sampleParent 0 [plainChunk [0, 0] 0] 2 none))]

def spliceState : CoreState :=
  spliceEvents.foldl (fun s e => e.run .stored s) (booted .stored (CoreState.new 7))

/-- A write of the first byte, and two later ones: of the second byte, and of the first again. -/
def frontWrite : FsOp := sampleOp 3 (.write sampleParent 0 [plainChunk [1] 0] 2 none)

def backWrite : FsOp := sampleOp 4 (.write sampleParent 1 [plainChunk [2] 1] 2 none)

def coverWrite : FsOp := sampleOp 4 (.write sampleParent 0 [plainChunk [2] 0] 2 none)

private theorem spliceState_run :
    Run .stored (fun _ e => e.Within {id | id ∈ firstIds 4}) spliceState := by
  refine Run.foldl spliceEvents (.boot (blank_new 7)) fun s e member => ?_
  simp only [spliceEvents, List.mem_cons, List.not_mem_nil, or_false] at member
  rcases member with rfl | rfl | rfl | rfl | rfl
  · exact (by decide +kernel : (⟨7, 1⟩ : OpId) ∈ firstIds 4)
  · exact trivial
  · exact trivial
  · exact trivial
  · exact (by decide +kernel : (⟨7, 2⟩ : OpId) ∈ firstIds 4)

private theorem hashesApart_pair {a b : FsOp}
    (distinct : ((seenBytes env s [a, b] ++ seenBytes env s [b, a]).dedup.map env.blake3).Nodup) :
    HashesApart env s [a, b] := by
  have listed : ∀ bytes, (∃ l : List FsOp, l.Perm [a, b] ∧ bytes ∈ seenBytes env s l) →
      bytes ∈ (seenBytes env s [a, b] ++ seenBytes env s [b, a]).dedup := by
    rintro bytes ⟨l, perm, here⟩
    rw [List.mem_dedup, List.mem_append]
    rcases List.perm_pair.mp perm with rfl | rfl
    · exact .inl here
    · exact .inr here
  intro x left y right same
  exact List.inj_on_of_nodup_map distinct (listed x left) (listed y right) same

theorem writes_converge_sample :
    (∀ l : List FsOp, l.Perm [frontWrite, coverWrite] → appliesAll .stored spliceState l = true) ∧
      ∀ l₁ l₂ : List FsOp, l₁.Perm [frontWrite, coverWrite] → l₂.Perm [frontWrite, coverWrite] →
        SameContent .stored sampleParent (deliver .stored spliceState l₁)
          (deliver .stored spliceState l₂) := by
  have applies : ∀ l : List FsOp, l.Perm [frontWrite, coverWrite] →
      appliesAll .stored spliceState l = true := by
    intro l perm
    rcases List.perm_pair.mp perm with rfl | rfl
    · decide +kernel
    · decide +kernel
  refine ⟨applies, ?_⟩
  have inj : Set.InjOn (inodeForOp .stored) {id | id ∈ firstIds 4} :=
    firstIds_injOn (by decide +kernel)
  have facts : (∀ row ∈ spliceState.blobs.toList, Env.stored.blake3 row.2 = row.1) ∧
      spliceState.cipher = none ∧ spliceState.pendingOps = [] ∧
      (spliceState.loadInode sampleParent).map InodeRecord.kind = some .file ∧
      spliceState.hasBlob (Env.stored.blake3 [1]) = true ∧
      spliceState.hasBlob (Env.stored.blake3 [2]) = true ∧
      (heldBytes spliceState [plainChunk [1] 0]).length = 1 ∧
      (heldBytes spliceState [plainChunk [2] 0]).length = 1 := by decide +kernel
  obtain ⟨rows, plain, idle, kind, first, second, one, two⟩ := facts
  have keyed : Keyed .stored spliceState := fun hash bytes here =>
    rows (hash, bytes) ((BTreeMap.mem_toList _ _ _).mpr here)
  obtain ⟨record, found, isFile⟩ := Option.map_eq_some_iff.mp kind
  have file : FileAt sampleParent record.content spliceState := ⟨record, found, isFile, rfl⟩
  have read : tryReadFile .stored spliceState sampleParent = .ok (some [0, 0]) := by
    decide +kernel
  have held : ContentHeld .stored spliceState record.content := contentHeld_of_read file read
  have writes : ∀ op ∈ [frontWrite, coverWrite],
      op.id ∈ {id | id ∈ firstIds 4} ∧ PlainWrite spliceState sampleParent op := by
    intro op member
    simp only [List.mem_cons, List.not_mem_nil, or_false] at member
    rcases member with rfl | rfl
    · refine ⟨(by decide +kernel : (⟨7, 3⟩ : OpId) ∈ firstIds 4), 0, _, 2, rfl, ?_⟩
      simpa [plainChunk] using first
    · refine ⟨(by decide +kernel : (⟨7, 4⟩ : OpId) ∈ firstIds 4), 0, _, 2, rfl, ?_⟩
      simpa [plainChunk] using second
  have clean : HashesApart .stored spliceState [frontWrite, coverWrite] :=
    hashesApart_pair (by decide +kernel)
  have gives : ∀ op ∈ [frontWrite, coverWrite], ∀ p,
      writtenByte spliceState op p = none ↔ p = 1 := by
    have covered : ∀ (counter : U64) (chunk : ChunkRef),
        (heldBytes spliceState [chunk]).length = 1 → chunksFormWholeFile [chunk] 2 = false → ∀ p,
        writtenByte spliceState (sampleOp counter (.write sampleParent 0 [chunk] 2 none)) p = none ↔
          p = 1 := by
      intro counter chunk length partly p
      have size : (2 : U64).val = 2 := rfl
      have start : (0 : U64).val = 0 := rfl
      simp only [writtenByte, sampleOp, partly, length, size, start, Bool.false_eq_true, and_false,
        if_false]
      split
      · simp only [reduceCtorEq, false_iff]
        omega
      · split
        · simp only [reduceCtorEq, false_iff]
          omega
        · simp only [true_iff]
          omega
    intro op member p
    simp only [List.mem_cons, List.not_mem_nil, or_false] at member
    rcases member with rfl | rfl
    · exact covered 3 _ one (by decide +kernel) p
    · exact covered 4 _ two (by decide +kernel) p
  have settled : PatchesSettled .stored spliceState sampleParent record.content
      [frontWrite, coverWrite] := by
    intro top isTop w contends p free v given
    obtain rfl := (gives top (List.mem_of_mem_filter isTop.1.1) p).mp free
    rw [(gives w (List.mem_of_mem_filter contends.1) 1).mpr rfl] at given
    cases given
  exact ((writes_converge_iff inj spliceState_run keyed Env.stored_decode plain file held
    (by decide +kernel) writes (by simp [idle]) clean).2 applies).mpr settled

/-- A later write of the other byte: the first one's byte is there in one order and not in the
other. -/
theorem partial_writes_split :
    verifyOp .stored frontWrite = .ok () ∧ verifyOp .stored backWrite = .ok () ∧
      frontWrite.id ≠ backWrite.id ∧
      spliceState.hasBlob (Env.stored.blake3 [1]) = true ∧
      spliceState.hasBlob (Env.stored.blake3 [2]) = true ∧
      appliesAll .stored spliceState [frontWrite, backWrite] = true ∧
      appliesAll .stored spliceState [backWrite, frontWrite] = true ∧
      readFile .stored (deliver .stored spliceState [frontWrite, backWrite]) sampleParent =
        .ok [1, 2] ∧
      readFile .stored (deliver .stored spliceState [backWrite, frontWrite]) sampleParent =
        .ok [0, 2] ∧
      contentAt (deliver .stored spliceState [frontWrite, backWrite]) sampleParent ≠
        contentAt (deliver .stored spliceState [backWrite, frontWrite]) sampleParent := by
  decide +kernel

end Converge

end NexusFS.Core
