/- GID: NexusFS/Core/Clock
   source: crates/core/src/state.rs
   digest: What a clock summary says of a log, and which operations a diff against it carries. -/

import NexusFS.Core.Log
import NexusFS.Core.Reachable

set_option autoImplicit false
set_option relaxedAutoImplicit false

namespace NexusFS.Core

open NexusFS.Lib NexusFS.Lib.Effect NexusFS.Proto NexusFS.Crdt CoreState

section Held

variable {s : CoreState} {device : DeviceId} {counter : U64}

def CoreState.heldCounters (s : CoreState) (device : DeviceId) : BTreeSet U64 :=
  s.seenCounters[device]?.getD ∅

/-- The step of `clock_summary` that files one operation id. -/
private def fileCounter (seen : BTreeMap DeviceId (BTreeSet U64)) (id : OpId) :
    BTreeMap DeviceId (BTreeSet U64) :=
  seen.insert id.device_id ((seen[id.device_id]?.getD ∅).insert id.counter)

private theorem mem_fileCounter (seen : BTreeMap DeviceId (BTreeSet U64)) (id : OpId) :
    counter ∈ (fileCounter seen id)[device]?.getD ∅ ↔
      id = ⟨device, counter⟩ ∨ counter ∈ seen[device]?.getD ∅ := by
  unfold fileCounter
  rw [BTreeMap.get_insert]
  obtain ⟨other, number⟩ := id
  by_cases same : other = device
  · subst same
    simp
  · simp [same]

private theorem mem_foldl_fileCounter (ids : List OpId)
    (seen : BTreeMap DeviceId (BTreeSet U64)) :
    counter ∈ (ids.foldl fileCounter seen)[device]?.getD ∅ ↔
      ⟨device, counter⟩ ∈ ids ∨ counter ∈ seen[device]?.getD ∅ := by
  induction ids generalizing seen with
  | nil => simp
  | cons id ids ih =>
      rw [List.foldl_cons, ih, mem_fileCounter, List.mem_cons, eq_comm (a := id)]
      tauto

theorem mem_heldCounters : counter ∈ s.heldCounters device ↔ ⟨device, counter⟩ ∈ s.oplog := by
  unfold heldCounters
  have fold : s.seenCounters = s.oplog.keys.foldl fileCounter ∅ := rfl
  rw [fold, mem_foldl_fileCounter, BTreeMap.mem_keys_iff]
  simp

theorem le_contiguousFrom {start : U64} {counters : List U64}
    (below : counter ≤ contiguousFrom start counters) : counter ≤ start ∨ counter ∈ counters := by
  induction counters generalizing start with
  | nil => exact .inl below
  | cons c rest ih =>
      unfold contiguousFrom at below
      split at below
      · rename_i next
        rcases ih below with low | later
        · rcases eq_or_lt_of_le low with rfl | lower
          · exact .inr List.mem_cons_self
          · refine .inl ?_
            have bound := Fin.lt_def.mp lower
            rw [next, Fin.val_add] at bound
            have one : (1 : U64).val = 1 := rfl
            have wraps := Nat.mod_le (start.val + (1 : U64).val) (2 ^ 64)
            exact Fin.le_def.mpr (by omega)
        · exact .inr (List.mem_cons_of_mem c later)
      · exact .inl below

theorem mem_of_le_watermark {counters : BTreeSet U64} (positive : counter ≠ 0)
    (below : counter ≤ watermark counters) : counter ∈ counters := by
  rcases le_contiguousFrom below with zero | inside
  · exact absurd (le_antisymm zero (Fin.zero_le counter)) positive
  · exact (counters.mem_toList counter).mp inside

theorem mem_of_mem_extras {counters : BTreeSet U64} (listed : counter ∈ extras counters) :
    counter ∈ counters :=
  (counters.mem_toList counter).mp (List.mem_filter.mp (List.mem_of_mem_take listed)).1

def aboveWatermark (counters : BTreeSet U64) : List U64 :=
  counters.toList.filter fun c => watermark counters < c

/-- Nothing is cut off when there are at most `MAX_ABOVE_PER_DEVICE` counters above. -/
theorem mem_extras_of_few {counters : BTreeSet U64}
    (few : (aboveWatermark counters).length ≤ maxAbovePerDevice) (held : counter ∈ counters)
    (above : watermark counters < counter) : counter ∈ extras counters := by
  have room : (watermark counters).val + 1 < 2 ^ 64 := by
    have bound := Fin.lt_def.mp above
    have top := counter.isLt
    omega
  have next : (watermark counters + 1).val = (watermark counters).val + 1 := by
    rw [Fin.val_add]
    exact Nat.mod_eq_of_lt room
  have same : ∀ c : U64, watermark counters + 1 ≤ c ↔ watermark counters < c := by
    intro c
    rw [Fin.le_def, Fin.lt_def, next]
    omega
  unfold extras
  simp only [same]
  unfold aboveWatermark at few
  rw [List.take_of_length_le few]
  exact List.mem_filter.mpr ⟨(counters.mem_toList counter).mpr held, by simpa using above⟩

end Held

section Summary

variable {s : CoreState} {device : DeviceId}

theorem knownCounters_clockSummary (s : CoreState) (device : DeviceId) :
    (knownCounters (clockSummary s))[device]?.getD 0 = watermark (s.heldCounters device) := by
  have rows : (clockSummary s).entries = s.seenCounters.toList.filterMap
      fun row => (some (watermark row.2)).map (Prod.mk row.1) := by
    simp only [clockSummary, Option.map_some]
    rw [← List.filterMap_eq_map]
    rfl
  have read := s.seenCounters.get_foldl_filterMap (fun counters => some (watermark counters)) device
  have known : knownCounters (clockSummary s) = (clockSummary s).entries.foldl
      (fun n row => n.insert row.1 row.2) ∅ := rfl
  rw [known, rows, read, heldCounters]
  cases s.seenCounters[device]? <;> rfl

theorem aboveCounters_clockSummary (s : CoreState) (device : DeviceId) :
    (aboveCounters (clockSummary s))[device]?.getD [] = extras (s.heldCounters device) := by
  let listed : BTreeSet U64 → Option (List U64) := fun counters =>
    if (extras counters).isEmpty then none else some (extras counters)
  have rows : (clockSummary s).above = s.seenCounters.toList.filterMap
      fun row => (listed row.2).map (Prod.mk row.1) := by
    simp only [clockSummary, listed]
    congr 1
    funext row
    split <;> rfl
  have read := s.seenCounters.get_foldl_filterMap listed device
  have above : aboveCounters (clockSummary s) = (clockSummary s).above.foldl
      (fun n row => n.insert row.1 row.2) ∅ := rfl
  rw [above, rows, read, heldCounters]
  cases s.seenCounters[device]? with
  | none => rfl
  | some counters =>
      simp only [Option.bind_some, listed, Option.getD_some]
      split
      · rename_i empty
        exact (List.isEmpty_iff.mp empty).symm
      · rfl

theorem holdsCounter_clockSummary (s : CoreState) (id : OpId) :
    holdsCounter (clockSummary s) id ↔
      id.counter ≤ watermark (s.heldCounters id.device_id) ∨
        id.counter ∈ extras (s.heldCounters id.device_id) := by
  unfold holdsCounter
  rw [knownCounters_clockSummary, aboveCounters_clockSummary]
  simp

theorem counter_eq_zero_of_covered {id : OpId} (covered : holdsCounter (clockSummary s) id)
    (absent : id ∉ s.oplog) : id.counter = 0 := by
  by_contra positive
  apply absent
  apply mem_heldCounters.mp
  rcases (holdsCounter_clockSummary s id).mp covered with low | listed
  · exact mem_of_le_watermark positive low
  · exact mem_of_mem_extras listed

theorem holdsCounter_zero (s : CoreState) {id : OpId} (zero : id.counter = 0) :
    holdsCounter (clockSummary s) id := by
  rw [holdsCounter_clockSummary, zero]
  exact .inl (Fin.zero_le _)

def FewAbove (s : CoreState) : Prop :=
  ∀ device, (aboveWatermark (s.heldCounters device)).length ≤ maxAbovePerDevice

theorem FewAbove.covers (few : FewAbove s) {id : OpId} (held : id ∈ s.oplog) :
    holdsCounter (clockSummary s) id := by
  rw [holdsCounter_clockSummary]
  rcases le_or_gt id.counter (watermark (s.heldCounters id.device_id)) with low | above
  · exact .inl low
  · exact .inr (mem_extras_of_few (few id.device_id) (mem_heldCounters.mpr held) above)

end Summary

section Diff

variable {env : Env} {a : CoreState} {limit : Nat}

def LacksOf (a b : CoreState) (op : FsOp) : Prop := a.oplog[op.id]? = some op ∧ op.id ∉ b.oplog

/-- A diff against a summary carries all that its node lacks, and exactly that when the summary
cuts nothing off. -/
def DiffComplete (a b : CoreState) (limit : Nat) : Prop :=
  (∀ op, LacksOf a b op → op ∈ opsMissingFor a (clockSummary b) limit) ∧
    (FewAbove b → ∀ op, op ∈ opsMissingFor a (clockSummary b) limit ↔ LacksOf a b op)

theorem Logged.mem_opsMissingFor (logged : Logged a) (remote : ClockSummary)
    (room : a.oplog.size < limit) (op : FsOp) :
    op ∈ opsMissingFor a remote limit ↔ a.oplog[op.id]? = some op ∧ ¬holdsCounter remote op.id := by
  have short : (uncovered a remote).length ≤ limit := by
    unfold uncovered
    rw [List.length_map]
    have rows := List.length_filter_le (fun row => !holdsCounter remote row.1) a.oplog.toList
    rw [Std.ExtTreeMap.length_toList] at rows
    omega
  rw [opsMissingFor_eq a remote (by omega), List.take_of_length_le short]
  unfold uncovered
  rw [List.mem_map]
  constructor
  · rintro ⟨⟨id, found⟩, row, rfl⟩
    obtain ⟨member, free⟩ := List.mem_filter.mp row
    have held := (a.oplog.mem_toList _ _).mp member
    rw [logged.keyed held]
    exact ⟨held, by simpa using free⟩
  · rintro ⟨held, free⟩
    exact ⟨(op.id, op), List.mem_filter.mpr ⟨(a.oplog.mem_toList _ _).mpr held, by simpa using free⟩,
      rfl⟩

/-- A diff of a reachable node against any other is complete exactly when none of the operations
the other lacks has the counter zero. -/
theorem diffComplete_iff {meets : CoreState → Event → Prop} (run : Run env meets a) (b : CoreState)
    (room : a.oplog.size < limit) :
    DiffComplete a b limit ↔ ∀ op, LacksOf a b op → op.id.counter ≠ 0 := by
  have listed := run.logged.mem_opsMissingFor (clockSummary b) room
  constructor
  · rintro ⟨carried, -⟩ op lacks zero
    exact ((listed op).mp (carried op lacks)).2 (holdsCounter_zero b zero)
  · intro positive
    have carried : ∀ op, LacksOf a b op → op ∈ opsMissingFor a (clockSummary b) limit := by
      intro op lacks
      refine (listed op).mpr ⟨lacks.1, fun covered => positive op lacks ?_⟩
      exact counter_eq_zero_of_covered covered lacks.2
    refine ⟨carried, fun few op => ⟨fun member => ?_, carried op⟩⟩
    obtain ⟨held, free⟩ := (listed op).mp member
    exact ⟨held, fun here => free (few.covers here)⟩

theorem diffComplete_sample :
    DiffComplete sampleState (booted .plain (CoreState.new 9)) 3 := by
  refine (diffComplete_iff sampleState_run _ (by decide +kernel)).mpr ?_
  rintro op ⟨held, -⟩ zero
  have counters : ∀ row ∈ sampleState.oplog.toList, row.1.counter ≠ 0 := by decide +kernel
  exact counters (op.id, op) ((sampleState.oplog.mem_toList _ _).mpr held) zero

def zeroHolder : CoreState :=
  Event.run .plain (booted .plain (CoreState.new 7))
    (.apply (sampleOp 0 (.mkdir rootInode "a" 0)))

/-- An operation under the counter zero is accepted, applied and logged, and is offered to no
one. -/
theorem counter_zero_never_offered :
    Run .plain (fun _ _ => True) zeroHolder ∧
      Run .plain (fun _ _ => True) (booted .plain (CoreState.new 9)) ∧
      zeroHolder.oplog.size < 2 ∧ ¬DiffComplete zeroHolder (booted .plain (CoreState.new 9)) 2 := by
  refine ⟨.step (.boot (blank_new 7)) trivial, .boot (blank_new 9), by decide +kernel, ?_⟩
  rintro ⟨carried, -⟩
  have listed := carried (sampleOp 0 (.mkdir rootInode "a" 0))
    ⟨by decide +kernel, by decide +kernel⟩
  have none_listed : opsMissingFor zeroHolder (clockSummary (booted .plain (CoreState.new 9))) 2 =
      [] := by decide +kernel
  rw [none_listed] at listed
  cases listed

end Diff

end NexusFS.Core
