/- GID: NexusFS/Core/Log
   source: crates/core/src/state.rs, crates/core/src/apply.rs
   digest: The operation log over whole runs, and what a clock summary makes of it. -/

import NexusFS.Core.Boot
import NexusFS.Core.Sweep

set_option autoImplicit false
set_option relaxedAutoImplicit false

namespace NexusFS.Core

open NexusFS.Lib NexusFS.Lib.Effect NexusFS.Proto NexusFS.Crdt CoreState

section Logged

variable {env : Env} {s t : CoreState} {op : FsOp}

/-- The log files operations under their ids, and holds all that were applied or parked. -/
structure Logged (s : CoreState) : Prop where
  keyed : ∀ {id : OpId} {op}, s.oplog[id]? = some op → op.id = id
  applied : ∀ {id}, id ∈ s.applied → id ∈ s.oplog
  parked : ∀ {id : OpId} {op}, s.pending[id]? = some op → op.id = id ∧ id ∈ s.oplog

theorem Logged.congr (logged : Logged s) (oplog : t.oplog = s.oplog)
    (applied : t.applied = s.applied) (pending : t.pending = s.pending) : Logged t := by
  constructor
  · intro id op here
    exact logged.keyed (oplog ▸ here)
  · intro id here
    rw [oplog]
    exact logged.applied (applied ▸ here)
  · intro id op here
    rw [oplog]
    exact logged.parked (pending ▸ here)

theorem Logged.took (logged : Logged s) (here : op.id ∈ s.oplog) (took : Took env op s t) :
    Logged t := by
  constructor
  · intro id other held
    rw [took.oplog] at held
    exact logged.keyed held
  · intro id member
    rw [took.applied, BTreeSet.mem_insert] at member
    rw [took.oplog]
    rcases member with rfl | old
    · exact here
    · exact logged.applied old
  · intro id other held
    rw [took.pending, BTreeMap.get_erase] at held
    rw [took.oplog]
    split at held
    · cases held
    · exact logged.parked held

theorem Logged.appendOp (logged : Logged s) (op : FsOp) : Logged (s.appendOp op) := by
  have grows : ∀ {id}, id ∈ s.oplog → id ∈ (s.appendOp op).oplog := by
    intro id here
    exact Std.ExtTreeMap.mem_insert.mpr (.inr here)
  constructor
  · intro id other held
    have inserted : (s.oplog.insert op.id op)[id]? = some other := held
    rw [BTreeMap.get_insert] at inserted
    split at inserted
    · rename_i same
      obtain rfl := Option.some.inj inserted
      exact same
    · exact logged.keyed inserted
  · intro id member
    exact grows (logged.applied member)
  · intro id other held
    exact ⟨(logged.parked held).1, grows (logged.parked held).2⟩

/-- `t` has the log of `s`, and what `s` authors and checks operations by. -/
structure SameLog (s t : CoreState) : Prop where
  oplog : t.oplog = s.oplog
  proofs : t.proofs = s.proofs
  device_id : t.device_id = s.device_id
  next_counter : t.next_counter = s.next_counter

theorem SameLog.refl (s : CoreState) : SameLog s s := ⟨rfl, rfl, rfl, rfl⟩

theorem SameLog.trans {u : CoreState} (first : SameLog s t) (second : SameLog t u) : SameLog s u :=
  ⟨second.oplog.trans first.oplog, second.proofs.trans first.proofs,
    second.device_id.trans first.device_id, second.next_counter.trans first.next_counter⟩

theorem Took.sameLog (took : Took env op s t) : SameLog s t := by
  obtain ⟨u, effect, blobs, imap, -, rfl⟩ := took
  obtain ⟨dirs, inodes, parents, stored, draws, -, rfl⟩ := effect.frame
  exact ⟨rfl, rfl, rfl, rfl⟩

theorem sameLog_aside (aside : Aside s t) : SameLog s t := by
  obtain ⟨_, _, _, _, _, -, rfl⟩ := aside
  exact ⟨rfl, rfl, rfl, rfl⟩

theorem Logged.aside (logged : Logged s) (aside : Aside s t) : Logged t := by
  obtain ⟨_, _, _, _, _, -, rfl⟩ := aside
  exact logged.congr rfl rfl rfl

theorem logRule (env : Env) (s : CoreState) :
    AttemptRule env (fun t => SameLog s t ∧ Logged t) (fun op => op.id ∈ s.oplog)
      (fun _ _ => True) (fun _ t => SameLog s t ∧ Logged t) := by
  refine .of_took ?_ ?_ ?_
  · rintro t u op ⟨same, logged⟩ here _ took
    exact ⟨same.trans took.sameLog, logged.took (same.oplog ▸ here) took⟩
  · rintro t op ⟨same, logged⟩ _ _
    refine ⟨⟨same.oplog, same.proofs, same.device_id, same.next_counter⟩, logged.keyed,
      logged.applied, ?_⟩
    intro id other held
    have erased : (t.pending.erase op.id)[id]? = some other := held
    rw [BTreeMap.get_erase] at erased
    split at erased
    · cases erased
    · exact logged.parked erased
  · rintro t op id ⟨same, logged⟩ held
    obtain ⟨rfl, member⟩ := logged.parked held
    exact same.oplog ▸ member

theorem Logged.applyOpInner (logged : Logged s) (env : Env) (op : FsOp) (check_policy : Bool) :
    Logged (finalState (applyOpInner env op check_policy s)) ∧
      SameLog (if Admits env op check_policy s ∧ op.id ∉ s.applied then s.appendOp op else s)
        (finalState (applyOpInner env op check_policy s)) := by
  by_cases admits : Admits env op check_policy s
  · by_cases known : op.id ∈ s.applied
    · rw [applyOpInner_known admits known, if_neg fun both => both.2 known]
      exact ⟨logged, .refl s⟩
    · have here : op.id ∈ (s.appendOp op).oplog := Std.ExtTreeMap.mem_insert_self
      have ends := (logRule env (s.appendOp op)).applyOpInner admits known
        ⟨.refl _, logged.appendOp op⟩ here
        (fun {t} held new => by
          obtain ⟨same, order⟩ := held
          refine ⟨⟨same.oplog, same.proofs, same.device_id, same.next_counter⟩, order.keyed,
            order.applied, ?_⟩
          intro id other parked
          have inserted : (t.pending.insert op.id op)[id]? = some other := parked
          rw [BTreeMap.get_insert] at inserted
          split at inserted
          · rename_i equal
            obtain rfl := Option.some.inj inserted
            exact ⟨equal, equal ▸ same.oplog ▸ here⟩
          · exact order.parked inserted)
        (fun _ _ => trivial : ∀ x ∈ applyAttempts env op check_policy s, True)
      have final := Ends.finalState (ends.imp
        (q := fun t => SameLog (s.appendOp op) t ∧ Logged t)
        (by
          rintro t ⟨u, ⟨same, order⟩, aside⟩
          exact ⟨same.trans (sameLog_aside aside), order.aside aside⟩)
        fun _ _ held => held)
      rw [if_pos ⟨admits, known⟩]
      exact final.symm
  · obtain ⟨e, run⟩ := applyOpInner_refused admits
    rw [run, if_neg fun both => admits both.1]
    exact ⟨logged, .refl s⟩

theorem Logged.applyOp (logged : Logged s) (env : Env) (op : FsOp) :
    Logged (finalState (applyOp env op s)) ∧
      (finalState (applyOp env op s)).proofs = s.proofs ∧
      (finalState (applyOp env op s)).oplog =
        open Classical in
        if Admits env op true s ∧ op.id ∉ s.applied then s.oplog.insert op.id op else s.oplog := by
  obtain ⟨after, same⟩ := logged.applyOpInner env op true
  refine ⟨after, ?_, ?_⟩
  · refine same.proofs.trans ?_
    split <;> rfl
  · refine same.oplog.trans ?_
    by_cases filed : Admits env op true s ∧ op.id ∉ s.applied
    · rw [if_pos filed, if_pos filed]
      rfl
    · rw [if_neg filed, if_neg filed]

theorem Logged.retryPending (logged : Logged s) (env : Env) :
    Logged (finalState (retryPending env s)) ∧ SameLog s (finalState (retryPending env s)) := by
  have ends := (logRule env s).drainPending ⟨.refl s, logged⟩ (fun _ _ => trivial)
  rw [retryPending_run]
  cases run : drainPending env s with
  | error e t =>
      rw [run] at ends
      exact ends.symm
  | ok n t =>
      rw [run] at ends
      dsimp only [finalState_ok]
      split
      · exact ⟨ends.2.aside (aside_buildSnapshot env t),
          ends.1.trans (sameLog_aside (aside_buildSnapshot env t))⟩
      · exact ends.symm

theorem Logged.collectGarbage (logged : Logged s) (env : Env) (dry_run : Bool) :
    Logged (finalState (collectGarbage env dry_run s)) ∧
      SameLog s (finalState (collectGarbage env dry_run s)) := by
  rcases collectGarbage_run env s dry_run with same | ⟨marked, keep, -, -, same⟩
  · rw [same]
    exact ⟨logged, .refl s⟩
  · rw [same]
    exact ⟨logged.congr rfl rfl rfl, rfl, rfl, rfl, rfl⟩

theorem Logged.mem_applyOp (logged : Logged s) (env : Env) (op : FsOp) (id : OpId) :
    id ∈ (finalState (Core.applyOp env op s)).oplog ↔
      id ∈ s.oplog ∨ (id = op.id ∧ Admits env op true s) := by
  obtain ⟨-, -, log⟩ := logged.applyOp env op
  rw [log]
  split
  · rename_i both
    rw [Std.ExtTreeMap.mem_insert, compare_eq_iff_eq]
    constructor
    · rintro (rfl | here)
      · exact .inr ⟨rfl, both.1⟩
      · exact .inl here
    · rintro (here | ⟨rfl, -⟩)
      · exact .inr here
      · exact .inl rfl
  · rename_i other
    constructor
    · exact .inl
    · rintro (here | ⟨rfl, admits⟩)
      · exact here
      · by_contra absent
        exact other ⟨admits, fun known => absent (logged.applied known)⟩

theorem Logged.event (logged : Logged s) (e : Event) : Logged (e.run env s) := by
  cases e with
  | apply op => exact (logged.applyOp env op).1
  | retry => exact (logged.retryPending env).1
  | blob bytes => exact logged.congr rfl rfl rfl
  | collect dry_run => exact (logged.collectGarbage env dry_run).1

theorem logged_booted (env : Env) (blank : Blank s) : Logged (booted env s) := by
  obtain ⟨_, _, _, _, _, _, _, -, same⟩ := (booted_spec env blank).records
  have start : Logged (genesis s) := by
    constructor
    · intro id op here
      have empty : s.oplog[id]? = some op := here
      rw [blank.oplog, Std.ExtTreeMap.getElem?_empty] at empty
      cases empty
    · intro id here
      have empty : id ∈ s.applied := here
      rw [blank.applied] at empty
      exact absurd empty Std.ExtTreeSet.not_mem_empty
    · intro id op here
      have empty : s.pending[id]? = some op := here
      rw [blank.pending, Std.ExtTreeMap.getElem?_empty] at empty
      cases empty
  rw [same]
  exact start.congr rfl rfl rfl

theorem Run.logged {meets : CoreState → Event → Prop} (run : Run env meets s) : Logged s :=
  run.invariant (fun blank => logged_booted env blank) fun logged _ => logged.event _

end Logged

section Summary

variable {s t : CoreState}

theorem clockSummary_congr (same : ∀ id, id ∈ t.oplog ↔ id ∈ s.oplog) :
    clockSummary t = clockSummary s := by
  have keys : t.oplog.keys = s.oplog.keys := BTreeMap.keys_eq_of_mem_iff same
  simp only [clockSummary, seenCounters, keys]

def uncovered (s : CoreState) (remote : ClockSummary) : List FsOp :=
  (s.oplog.toList.filter fun row => !holdsCounter remote row.1).map Prod.snd

private theorem collectMissing_eq (remote : ClockSummary) (limit : Nat)
    (rows : List (OpId × FsOp)) (out : List FsOp) (room : out.length < limit) :
    collectMissing remote limit rows out =
      (out ++ (rows.filter fun row => !holdsCounter remote row.1).map Prod.snd).take limit := by
  induction rows generalizing out with
  | nil =>
      simp only [collectMissing, List.filter_nil, List.map_nil, List.append_nil]
      exact (List.take_of_length_le room.le).symm
  | cons row rows ih =>
      obtain ⟨id, op⟩ := row
      unfold collectMissing
      by_cases held : holdsCounter remote id
      · simp only [held, if_true, Bool.not_true, List.filter_cons, Bool.false_eq_true, if_false]
        exact ih out room
      · have length : (out ++ [op]).length = out.length + 1 := by simp
        simp only [held, Bool.not_false, List.filter_cons, if_true, List.map_cons,
          Bool.false_eq_true, if_false]
        rw [List.append_cons out op (List.map Prod.snd _)]
        by_cases full : limit ≤ (out ++ [op]).length
        · have exactly : (out ++ [op]).length = limit := by omega
          rw [if_pos full, List.take_append_of_le_length exactly.ge, ← exactly, List.take_length]
        · rw [if_neg full]
          exact ih _ (by omega)

theorem opsMissingFor_eq (s : CoreState) (remote : ClockSummary) {limit : Nat} (room : 0 < limit) :
    opsMissingFor s remote limit = (uncovered s remote).take limit := by
  unfold opsMissingFor uncovered
  rw [collectMissing_eq remote limit _ [] room, List.nil_append]

theorem Logged.of_mem_opsMissingFor (logged : Logged s) {remote : ClockSummary} {limit : Nat}
    (room : 0 < limit) {op : FsOp} (member : op ∈ opsMissingFor s remote limit) :
    s.oplog[op.id]? = some op := by
  rw [opsMissingFor_eq s remote room] at member
  obtain ⟨⟨id, found⟩, row, rfl⟩ := List.mem_map.mp (List.mem_of_mem_take member)
  have held := (s.oplog.mem_toList _ _).mp (List.mem_filter.mp row).1
  rw [logged.keyed held]
  exact held

end Summary

end NexusFS.Core
