/- GID: NexusFS/Net/Session
   source: crates/net/src/session.rs
   digest: The operation phase of a pull, and when it ends with nothing left to fetch. -/

import NexusFS.Core.Log
import NexusFS.Core.Reachable

/-!
The transport is left out: a `Have` message carries the puller's clock summary to
the responder, and the reply is what `serve_session` computes from its own log.
-/

set_option autoImplicit false
set_option relaxedAutoImplicit false

namespace NexusFS.Net

open NexusFS.Lib NexusFS.Lib.Effect NexusFS.Proto NexusFS.Core

def opsBatch : Nat := 256

def maxOpsPerSession : Nat := 100000

/-- The reply of `serve_session` to a `Have`: the operations, and whether to ask again. -/
def serveHave (responder : CoreState) (summary : ClockSummary) : List FsOp × Bool :=
  let ops := opsMissingFor responder summary opsBatch
  (ops, decide (ops.length = opsBatch))

/-- Why the operation phase stopped early. -/
inductive PullError where
  | tooManyOperations
  deriving DecidableEq

section Pull

variable (env : Env)

def applyBatch (s : CoreState) (ops : List FsOp) : CoreState :=
  ops.foldl (fun s op => finalState (applyOp env op s)) s

/-- The rounds of the operation phase, with the number of operations received so far. Every round
but the last receives a full batch, so the session limit bounds their number. -/
def pullRounds (responder : CoreState) : Nat → Nat → CoreState → Except PullError Unit × CoreState
  | 0, _, s => (.error .tooManyOperations, s)
  | fuel + 1, received, s =>
      let summary := clockSummary s
      let (ops, more) := serveHave responder summary
      if ops.isEmpty && !more then (.ok (), s)
      else if maxOpsPerSession < received + ops.length then (.error .tooManyOperations, s)
      else
        let s' := applyBatch env s ops
        if !more then (.ok (), s')
        else if clockSummary s' = summary then (.ok (), s')
        else pullRounds responder fuel (received + ops.length) s'

/-- The operation phase of `pull_from_peer`. -/
def pullOps (responder s : CoreState) : Except PullError Unit × CoreState :=
  pullRounds env responder (maxOpsPerSession + 1) 0 s

end Pull

section Rounds

variable {env : Env} {s r : CoreState}

theorem applyBatch_spec (ops : List FsOp) (logged : Logged s) :
    Logged (applyBatch env s ops) ∧ (applyBatch env s ops).proofs = s.proofs ∧
      ∀ id, id ∈ (applyBatch env s ops).oplog ↔
        id ∈ s.oplog ∨ ∃ op ∈ ops, op.id = id ∧ Admits env op true s := by
  induction ops generalizing s with
  | nil => exact ⟨logged, rfl, by simp [applyBatch]⟩
  | cons op ops ih =>
      obtain ⟨after, policy, -⟩ := logged.applyOp env op
      obtain ⟨final, policy', mem⟩ := ih after
      have admits : ∀ other, Admits env other true (finalState (applyOp env op s)) ↔
          Admits env other true s := by
        intro other
        simp only [Admits, policy]
      refine ⟨final, policy'.trans policy, fun id => ?_⟩
      refine (mem id).trans ?_
      rw [logged.mem_applyOp]
      simp only [admits, List.mem_cons, exists_eq_or_imp]
      constructor
      · rintro ((old | ⟨rfl, ok⟩) | later)
        · exact .inl old
        · exact .inr (.inl ⟨rfl, ok⟩)
        · exact .inr (.inr later)
      · rintro (old | ⟨rfl, ok⟩ | later)
        · exact .inl (.inl old)
        · exact .inl (.inr ⟨rfl, ok⟩)
        · exact .inr later

theorem pullRounds_grows (fuel received : Nat) (logged : Logged s) {id : OpId}
    (here : id ∈ s.oplog) : id ∈ (pullRounds env r fuel received s).2.oplog := by
  induction fuel generalizing received s with
  | zero => exact here
  | succ fuel ih =>
      obtain ⟨after, -, mem⟩ :=
        @applyBatch_spec env s (serveHave r (clockSummary s)).1 logged
      have kept := (mem id).mpr (.inl here)
      unfold pullRounds
      dsimp only
      split
      · exact here
      · split
        · exact here
        · split
          · exact kept
          · split
            · exact kept
            · exact ih _ after kept

private theorem pullOps_first (logged : Logged s) {id : OpId}
    (here : id ∈ (applyBatch env s (opsMissingFor r (clockSummary s) opsBatch)).oplog) :
    id ∈ (pullOps env r s).2.oplog := by
  obtain ⟨after, -, -⟩ :=
    @applyBatch_spec env s (opsMissingFor r (clockSummary s) opsBatch) logged
  have short : (opsMissingFor r (clockSummary s) opsBatch).length ≤ opsBatch := by
    rw [opsMissingFor_eq r _ (by decide)]
    exact List.length_take_le _ _
  unfold pullOps pullRounds serveHave
  dsimp only
  split
  · rename_i idle
    have none_missing : opsMissingFor r (clockSummary s) opsBatch = [] := by
      simpa using (Bool.and_eq_true_iff.mp idle).1
    rw [none_missing] at here
    exact here
  · split
    · rename_i many
      have bound : opsBatch ≤ maxOpsPerSession := by decide
      omega
    · split
      · exact here
      · split
        · exact here
        · exact pullRounds_grows _ _ after here

private theorem pullOps_stalled (logged : Logged s)
    (stale : ∀ op ∈ opsMissingFor r (clockSummary s) opsBatch,
      Admits env op true s → op.id ∈ s.oplog) {id : OpId}
    (here : id ∈ (pullOps env r s).2.oplog) : id ∈ s.oplog := by
  obtain ⟨-, -, mem⟩ :=
    @applyBatch_spec env s (opsMissingFor r (clockSummary s) opsBatch) logged
  have same : ∀ id, id ∈ (applyBatch env s (opsMissingFor r (clockSummary s) opsBatch)).oplog ↔
      id ∈ s.oplog := by
    intro id
    rw [mem]
    constructor
    · rintro (old | ⟨op, member, rfl, admits⟩)
      · exact old
      · exact stale op member admits
    · exact .inl
  unfold pullOps pullRounds serveHave at here
  dsimp only at here
  rw [if_pos (clockSummary_congr same)] at here
  split at here
  · exact here
  · split at here
    · exact here
    · split at here <;> exact (same id).mp here

end Rounds

section Complete

variable {env : Env} {s r : CoreState}

def Outstanding (s r : CoreState) (op : FsOp) : Prop :=
  r.oplog[op.id]? = some op ∧ op.id ∉ s.oplog

/-- If the phase adds no operation to the log, every outstanding operation is refused by
`verify_op` or `check_proof`. -/
def SyncComplete (env : Env) (s r : CoreState) : Prop :=
  (∀ id, id ∈ (pullOps env r s).2.oplog → id ∈ s.oplog) →
    ∀ op, Outstanding s r op → ¬Admits env op true s

/-- Some outstanding operation that the puller accepts is among the first `OPS_BATCH` that the
responder lists for the puller's clock summary. -/
def WindowOpens (env : Env) (s r : CoreState) : Prop :=
  ∃ op ∈ opsMissingFor r (clockSummary s) opsBatch, Outstanding s r op ∧ Admits env op true s

/-- A phase that adds nothing leaves only refused operations outstanding, for every reachable
puller and responder, exactly when the first window does not hide all acceptable ones. -/
theorem sync_complete_iff {pulls serves : CoreState → Event → Prop} (puller : Run env pulls s)
    (responder : Run env serves r) :
    SyncComplete env s r ↔
      ((∃ op, Outstanding s r op ∧ Admits env op true s) → WindowOpens env s r) := by
  have puller := puller.logged
  have responder := responder.logged
  constructor
  · rintro complete ⟨op, outstanding, admits⟩
    by_contra shut
    refine complete (fun id here => pullOps_stalled puller ?_ here) op outstanding admits
    intro other member ok
    by_contra absent
    have held := responder.of_mem_opsMissingFor (by decide) member
    exact shut ⟨other, member, ⟨held, absent⟩, ok⟩
  · intro opens idle op outstanding admits
    obtain ⟨other, member, ⟨-, absent⟩, ok⟩ := opens ⟨op, outstanding, admits⟩
    refine absent (idle _ (pullOps_first puller ?_))
    exact ((applyBatch_spec _ puller).2.2 _).mpr (.inr ⟨other, member, rfl, ok⟩)

theorem sync_complete_sample :
    SyncComplete .plain (booted .plain (CoreState.new 9)) sampleState := by
  have puller : Run .plain (fun _ _ => True) (booted .plain (CoreState.new 9)) :=
    .boot (blank_new 9)
  have policy : (booted .plain (CoreState.new 9)).proofs = .none := by decide +kernel
  refine (sync_complete_iff puller sampleState_run).mpr fun _ => ?_
  refine ⟨sampleOp 1 (.mkdir rootInode "a" 0), by decide +kernel,
    ⟨by decide +kernel, by decide +kernel⟩, rfl, fun _ => ?_⟩
  rw [policy]
  rfl

end Complete

section Hidden

variable {env : Env} {s : CoreState}

theorem run_applyBatch (ops : List FsOp) (run : Run env (fun _ _ => True) s) :
    Run env (fun _ _ => True) (applyBatch env s ops) := by
  induction ops generalizing s with
  | nil => exact run
  | cons op ops ih => exact ih (run.step (e := .apply op) trivial)

theorem applyBatch_oplog (ops : List FsOp) (logged : Logged s)
    (admitted : ∀ op ∈ ops, Admits env op true s) (new : ∀ op ∈ ops, op.id ∉ s.oplog)
    (distinct : ops.Pairwise fun a b => a.id ≠ b.id) :
    (applyBatch env s ops).oplog = ops.foldl (fun log op => log.insert op.id op) s.oplog := by
  induction ops generalizing s with
  | nil => rfl
  | cons op ops ih =>
      rw [List.pairwise_cons] at distinct
      obtain ⟨after, policy, log⟩ := logged.applyOp env op
      have first := new op List.mem_cons_self
      rw [if_pos ⟨admitted op List.mem_cons_self, fun known => first (logged.applied known)⟩] at log
      rw [List.foldl_cons, ← log]
      refine ih after ?_ ?_ distinct.2
      · intro other member
        have ok := admitted other (List.mem_cons_of_mem op member)
        simpa only [Admits, policy] using ok
      · intro other member here
        rw [log, Std.ExtTreeMap.mem_insert, compare_eq_iff_eq] at here
        rcases here with same | old
        · exact distinct.1 other member same
        · exact new other (List.mem_cons_of_mem op member) old

def provenEnv : Env := { Env.plain with decodeProof := fun _ => some ⟨none, some 0, []⟩ }

/-- One device's history: 256 operations from before it attached proofs, then one with a proof. -/
def historyOp (i : Nat) : FsOp where
  id := ⟨7, Fin.ofNat _ (i + 1)⟩
  time_unix_ms := 0
  ctx := ⟨[]⟩
  kind := .setAttr rootInode none none none
  author_pubkey := 0
  sig := List.replicate 64 1
  proof := if i < 256 then none else some ⟨.transparent, []⟩

def history : List FsOp := (List.range 257).map historyOp

def historyLog : BTreeMap OpId FsOp := history.foldl (fun log op => log.insert op.id op) ∅

def strictPuller : CoreState := booted provenEnv { CoreState.new 9 with proofs := .required }

def laxResponder : CoreState := applyBatch provenEnv (booted provenEnv (CoreState.new 8)) history

theorem strictPuller_run : Run provenEnv (fun _ _ => True) strictPuller :=
  .boot ⟨rfl, rfl, rfl, rfl, rfl, rfl, rfl, rfl, rfl, rfl⟩

theorem laxResponder_run : Run provenEnv (fun _ _ => True) laxResponder :=
  run_applyBatch _ (.boot ⟨rfl, rfl, rfl, rfl, rfl, rfl, rfl, rfl, rfl, rfl⟩)

private theorem history_distinct : history.Pairwise fun a b => a.id ≠ b.id := by
  unfold history
  rw [List.pairwise_map]
  refine List.nodup_range.imp_of_mem ?_
  intro i j left right apart same
  have counters := congrArg (fun id => id.counter.val) same
  simp only [historyOp, Fin.val_ofNat] at counters
  rw [List.mem_range] at left right
  omega

private theorem laxResponder_oplog :
    laxResponder.oplog = historyLog := by
  have start : Run provenEnv (fun _ _ => True) (booted provenEnv (CoreState.new 8)) :=
    .boot ⟨rfl, rfl, rfl, rfl, rfl, rfl, rfl, rfl, rfl, rfl⟩
  have empty : (booted provenEnv (CoreState.new 8)).oplog = ∅ := by
    obtain ⟨_, _, _, _, _, _, _, -, same⟩ := (booted_spec provenEnv
      (⟨rfl, rfl, rfl, rfl, rfl, rfl, rfl, rfl, rfl, rfl⟩ : Blank (CoreState.new 8))).records
    rw [same]
    rfl
  have lax : (booted provenEnv (CoreState.new 8)).proofs = .none := by decide +kernel
  unfold historyLog
  rw [← empty]
  refine applyBatch_oplog history start.logged ?_ ?_ history_distinct
  · intro op member
    obtain ⟨i, -, rfl⟩ := List.mem_map.mp member
    refine ⟨rfl, fun _ => ?_⟩
    rw [lax]
    rfl
  · intro op member
    rw [empty]
    exact Std.ExtTreeMap.not_mem_empty

/-- The whole history but its last operation fills the window of the strict puller, which refuses
all of it and never sees the last operation, which it would accept. -/
theorem sync_stalls_behind_window :
    Run provenEnv (fun _ _ => True) strictPuller ∧
      Run provenEnv (fun _ _ => True) laxResponder ∧
      ¬SyncComplete provenEnv strictPuller laxResponder := by
  refine ⟨strictPuller_run, laxResponder_run, fun complete => ?_⟩
  have policy : strictPuller.proofs = .required := by decide +kernel
  have window : opsMissingFor laxResponder (clockSummary strictPuller) opsBatch =
      ((historyLog.toList.filter fun row => !holdsCounter (clockSummary strictPuller) row.1).map
        Prod.snd).take opsBatch := by
    rw [opsMissingFor_eq _ _ (by decide), uncovered, laxResponder_oplog]
  refine complete (fun id here => pullOps_stalled strictPuller_run.logged ?_ here) (historyOp 256)
    ⟨?_, by decide +kernel⟩ ⟨rfl, fun _ => ?_⟩
  · rw [window]
    intro op member admits
    have refused : ∀ op ∈ ((historyLog.toList.filter fun row =>
        !holdsCounter (clockSummary strictPuller) row.1).map Prod.snd).take opsBatch,
          checkProof provenEnv op .required ≠ .ok () := by decide +kernel
    have passed := admits.2 rfl
    rw [policy] at passed
    exact absurd passed (refused op member)
  · rw [laxResponder_oplog]
    decide +kernel
  · rw [policy]
    rfl

end Hidden

end NexusFS.Net
