/- GID: NexusFS/Core/Notify
   source: crates/core/src/state.rs
   digest: When a notification wakes a node, against what a pull would bring it. -/

import NexusFS.Core.Clock

set_option autoImplicit false
set_option relaxedAutoImplicit false

namespace NexusFS.Core

open NexusFS.Lib NexusFS.Proto NexusFS.Crdt CoreState

section Behind

variable {a b : CoreState} {device : DeviceId} {counter : U64}

private theorem succ_val {w : U64} (room : w.val + 1 < 2 ^ 64) : (w + 1).val = w.val + 1 := by
  rw [Fin.val_add]
  exact Nat.mod_eq_of_lt room

private theorem start_le_contiguousFrom {start : U64} {counters : List U64}
    (sorted : counters.Pairwise (· < ·)) (higher : ∀ c ∈ counters, start < c) :
    start ≤ contiguousFrom start counters := by
  induction counters generalizing start with
  | nil => exact le_rfl
  | cons c rest ih =>
      obtain ⟨below, later⟩ := List.pairwise_cons.mp sorted
      unfold contiguousFrom
      split
      · exact (higher c List.mem_cons_self).le.trans (ih later below)
      · exact le_rfl

private theorem succ_contiguousFrom_not_mem {start : U64} {counters : List U64}
    (sorted : counters.Pairwise (· < ·)) (higher : ∀ c ∈ counters, start < c)
    (room : (contiguousFrom start counters).val + 1 < 2 ^ 64) :
    contiguousFrom start counters + 1 ∉ counters := by
  induction counters generalizing start with
  | nil => simp
  | cons c rest ih =>
      obtain ⟨below, later⟩ := List.pairwise_cons.mp sorted
      unfold contiguousFrom at room ⊢
      intro listed
      split at room
      · rename_i follows
        rw [if_pos follows] at listed
        rcases List.mem_cons.mp listed with same | member
        · have value := congrArg Fin.val same
          rw [succ_val room] at value
          have bound := Fin.le_def.mp (start_le_contiguousFrom later below)
          omega
        · exact ih later below room member
      · rename_i jumps
        rw [if_neg jumps] at listed
        rcases List.mem_cons.mp listed with same | member
        · exact jumps same.symm
        · have first := Fin.lt_def.mp (higher c List.mem_cons_self)
          have second := Fin.lt_def.mp (below _ member)
          rw [succ_val room] at second
          omega

private theorem succ_watermark_not_mem {counters : BTreeSet U64} (positive : 0 ∉ counters)
    (room : (watermark counters).val + 1 < 2 ^ 64) : watermark counters + 1 ∉ counters := by
  have sorted : counters.toList.Pairwise (· < ·) :=
    Std.ExtTreeSet.ordered_toList.imp fun order => compare_lt_iff_lt.mp order
  have higher : ∀ c ∈ counters.toList, 0 < c := by
    intro c member
    refine lt_of_le_of_ne (Fin.zero_le c) ?_
    rintro rfl
    exact positive ((counters.mem_toList _).mp member)
  exact fun here => succ_contiguousFrom_not_mem sorted higher room
    ((counters.mem_toList _).mpr here)

private theorem watermark_of_zero {counters : BTreeSet U64} (zero : 0 ∈ counters) :
    watermark counters = 0 := by
  have sorted : counters.toList.Pairwise (· < ·) :=
    Std.ExtTreeSet.ordered_toList.imp fun order => compare_lt_iff_lt.mp order
  have listed := (counters.mem_toList _).mpr zero
  unfold watermark
  cases rows : counters.toList with
  | nil => rfl
  | cons c rest =>
      rw [rows] at sorted listed
      have first : c = 0 := by
        rcases List.mem_cons.mp listed with same | later
        · exact same.symm
        · exact absurd ((List.pairwise_cons.mp sorted).1 0 later) (Fin.not_lt_zero c)
      unfold contiguousFrom
      rw [first]
      exact if_neg (by decide)

/-- What `is_behind` compares when the summary is that of another node. -/
theorem isBehind_clockSummary (a b : CoreState) :
    isBehind b (clockSummary a) = true ↔ ∃ device,
      watermark (b.heldCounters device) < watermark (a.heldCounters device) ∨
        ∃ counter ∈ extras (a.heldCounters device),
          watermark (b.heldCounters device) < counter ∧
            counter ∉ extras (b.heldCounters device) := by
  have held : ∀ {device counters}, a.seenCounters[device]? = some counters →
      a.heldCounters device = counters := by
    intro device counters row
    rw [heldCounters, row]
    rfl
  have missing : ∀ (l : List U64) c, (!l.contains c) = true ↔ c ∉ l := by
    intro l c
    simp
  unfold isBehind
  simp only [knownCounters_clockSummary, aboveCounters_clockSummary, Bool.or_eq_true,
    List.any_eq_true, Prod.exists, Bool.and_eq_true, decide_eq_true_eq, missing]
  constructor
  · rintro (⟨device, mark, listed, lower⟩ | ⟨device, counters, listed, counter, member, rest⟩)
    · obtain ⟨⟨_, found⟩, row, same⟩ := List.mem_map.mp listed
      cases same
      refine ⟨device, .inl ?_⟩
      rw [held ((a.seenCounters.mem_toList _ _).mp row)]
      exact lower
    · obtain ⟨⟨_, found⟩, row, same⟩ := List.mem_filterMap.mp listed
      dsimp only at same
      split at same
      · cases same
      · cases same
        refine ⟨device, .inr ⟨counter, ?_, rest⟩⟩
        rw [held ((a.seenCounters.mem_toList _ _).mp row)]
        exact member
  · rintro ⟨device, newer⟩
    cases row : a.seenCounters[device]? with
    | none =>
        have empty : a.heldCounters device = ∅ := by
          rw [heldCounters, row]
          rfl
        rw [empty] at newer
        rcases newer with lower | ⟨counter, listed, -⟩
        · exact absurd lower (Fin.not_lt_zero _)
        · exact absurd (mem_of_mem_extras listed) Std.ExtTreeSet.not_mem_empty
    | some counters =>
        have member := (a.seenCounters.mem_toList _ _).mpr row
        rw [held row] at newer
        rcases newer with lower | ⟨counter, listed, rest⟩
        · exact .inl ⟨device, _, List.mem_map.mpr ⟨_, member, rfl⟩, lower⟩
        · refine .inr ⟨device, extras counters, List.mem_filterMap.mpr ⟨_, member, ?_⟩,
            counter, listed, rest⟩
          have some_listed : ¬(extras counters).isEmpty = true := by
            intro none_listed
            rw [List.isEmpty_iff.mp none_listed] at listed
            cases listed
          exact if_neg some_listed

theorem opsMissingFor_eq_nil (a : CoreState) (remote : ClockSummary) (limit : Nat) :
    opsMissingFor a remote limit = [] ↔ ∀ id, id ∈ a.oplog → holdsCounter remote id := by
  have loop : ∀ (rows : List (OpId × FsOp)) out, collectMissing remote limit rows out = [] ↔
      out = [] ∧ ∀ row ∈ rows, holdsCounter remote row.1 := by
    intro rows
    induction rows with
    | nil => simp [collectMissing]
    | cons row rows ih =>
        intro out
        obtain ⟨id, op⟩ := row
        unfold collectMissing
        split
        · rename_i covered
          rw [ih, List.forall_mem_cons]
          exact and_congr_right fun _ => ⟨fun rest => ⟨covered, rest⟩, And.right⟩
        · rename_i free
          have stays : ¬(out = [] ∧ ∀ row ∈ (id, op) :: rows, holdsCounter remote row.1) :=
            fun all => free (all.2 _ List.mem_cons_self)
          have longer : out ++ [op] ≠ [] := by simp
          split
          · exact ⟨fun none_out => absurd none_out longer, fun all => absurd all stays⟩
          · rw [ih]
            exact ⟨fun none_out => absurd none_out.1 longer, fun all => absurd all stays⟩
  unfold opsMissingFor
  rw [loop]
  constructor
  · rintro ⟨-, covered⟩ id here
    obtain ⟨op, row⟩ := (a.oplog.mem_iff_get id).mp here
    exact covered (id, op) ((a.oplog.mem_toList _ _).mpr row)
  · intro covered
    refine ⟨rfl, fun row member => covered row.1 ?_⟩
    exact (a.oplog.mem_iff_get _).mpr ⟨row.2, (a.oplog.mem_toList row.1 row.2).mp member⟩

/-- The counter zero hides that nothing is missing: the node holds it for a device, so its watermark
for that device is zero, while the other node has a watermark there and nothing new. -/
def ZeroHides (a b : CoreState) : Prop :=
  (∃ device, ⟨device, 0⟩ ∈ b.oplog ∧ ⟨device, 0⟩ ∉ a.oplog ∧ ⟨device, 1⟩ ∈ a.oplog) ∧
    ∀ id, id ∈ a.oplog → holdsCounter (clockSummary b) id

theorem FewAbove.notices (few : FewAbove a) {id : OpId} (held : id ∈ a.oplog)
    (free : ¬holdsCounter (clockSummary b) id) : isBehind b (clockSummary a) = true := by
  rw [holdsCounter_clockSummary, not_or] at free
  have higher := not_le.mp free.1
  refine (isBehind_clockSummary a b).mpr ⟨id.device_id, ?_⟩
  rcases le_or_gt id.counter (watermark (a.heldCounters id.device_id)) with low | above
  · exact .inl (lt_of_lt_of_le higher low)
  · exact .inr ⟨id.counter,
      mem_extras_of_few (few id.device_id) (mem_heldCounters.mpr held) above, higher, free.2⟩

/-- What is noticed would be pulled, unless the counter zero hides it. -/
private theorem zeroHides_of_behind (behind : isBehind b (clockSummary a) = true)
    (covered : ∀ id, id ∈ a.oplog → holdsCounter (clockSummary b) id) : ZeroHides a b := by
  have reported : ∀ {device counter}, counter ∈ a.heldCounters device →
      counter ≤ watermark (b.heldCounters device) ∨ counter ∈ extras (b.heldCounters device) :=
    fun {device counter} here =>
      (holdsCounter_clockSummary b ⟨device, counter⟩).mp (covered _ (mem_heldCounters.mp here))
  obtain ⟨device, lower | ⟨counter, listed, higher, unlisted⟩⟩ :=
    (isBehind_clockSummary a b).mp behind
  · have bound := Fin.lt_def.mp lower
    have top := (watermark (a.heldCounters device)).isLt
    have room : (watermark (b.heldCounters device)).val + 1 < 2 ^ 64 := by omega
    have zero : 0 ∈ b.heldCounters device := by
      by_contra positive
      have next : watermark (b.heldCounters device) + 1 ∈ a.heldCounters device := by
        refine mem_of_le_watermark ?_ ?_
        · intro wraps
          have value := congrArg Fin.val wraps
          rw [succ_val room] at value
          exact absurd value (Nat.succ_ne_zero _)
        · rw [Fin.le_def, succ_val room]
          omega
      rcases reported next with low | listed
      · rw [Fin.le_def, succ_val room] at low
        omega
      · exact succ_watermark_not_mem positive room (mem_of_mem_extras listed)
    refine ⟨⟨device, mem_heldCounters.mp zero, fun here => ?_, mem_heldCounters.mp ?_⟩, covered⟩
    · rw [watermark_of_zero (mem_heldCounters.mpr here)] at lower
      exact absurd lower (Fin.not_lt_zero _)
    · refine mem_of_le_watermark (by decide) ?_
      rw [watermark_of_zero zero] at bound
      exact Fin.le_def.mpr bound
  · rcases reported (mem_of_mem_extras listed) with low | inside
    · exact absurd higher (not_lt.mpr low)
    · exact absurd inside unlisted

/-- A notification wakes the node exactly when a pull would bring something, unless the counter
zero hides that nothing is missing. -/
theorem notification_matches_pull_iff (few : FewAbove a) (limit : Nat) :
    (isBehind b (clockSummary a) = true ↔ opsMissingFor a (clockSummary b) limit ≠ []) ↔
      ¬ZeroHides a b := by
  rw [Ne, opsMissingFor_eq_nil]
  constructor
  · rintro agree ⟨⟨device, zero, absent, one⟩, covered⟩
    refine agree.mp ((isBehind_clockSummary a b).mpr ⟨device, .inl ?_⟩) covered
    rw [watermark_of_zero (mem_heldCounters.mpr zero)]
    refine lt_of_le_of_ne (Fin.zero_le _) fun stopped => ?_
    have gap := succ_watermark_not_mem (mt mem_heldCounters.mp absent)
      (show (watermark (a.heldCounters device)).val + 1 < 2 ^ 64 by rw [← stopped]; decide)
    rw [← stopped] at gap
    exact gap (mem_heldCounters.mpr one)
  · intro visible
    constructor
    · exact fun behind covered => visible (zeroHides_of_behind behind covered)
    · intro uncovered_some
      push Not at uncovered_some
      obtain ⟨id, held, free⟩ := uncovered_some
      exact few.notices held free

theorem fewAbove_of_short {s : CoreState} (short : s.oplog.size ≤ maxAbovePerDevice) :
    FewAbove s := by
  intro device
  have listed : ((s.heldCounters device).toList.map fun c => (⟨device, c⟩ : OpId)).Subperm
      s.oplog.keys := by
    refine List.subperm_of_subset ?_ fun id member => ?_
    · refine (BTreeSet.nodup_toList _).map fun c d same => ?_
      exact (OpId.mk.inj same).2
    · obtain ⟨c, here, rfl⟩ := List.mem_map.mp member
      exact (s.oplog.mem_keys_iff _).mpr (mem_heldCounters.mp ((BTreeSet.mem_toList _ _).mp here))
  have filtered := List.length_filter_le (fun c => decide (watermark (s.heldCounters device) < c))
    (s.heldCounters device).toList
  have keys := listed.length_le
  rw [List.length_map, Std.ExtTreeMap.length_keys] at keys
  exact filtered.trans (keys.trans short)

theorem notification_matches_pull_sample :
    FewAbove sampleState ∧ (isBehind (booted .plain (CoreState.new 9)) (clockSummary sampleState)
      = true ↔ opsMissingFor sampleState (clockSummary (booted .plain (CoreState.new 9))) 256 ≠ [])
        := by
  have few : FewAbove sampleState := fewAbove_of_short (by decide +kernel)
  refine ⟨few, (notification_matches_pull_iff few 256).mpr ?_⟩
  rintro ⟨⟨device, zero, -⟩, -⟩
  exact absurd zero (by
    have empty : (booted .plain (CoreState.new 9)).oplog = ∅ := rfl
    rw [empty]
    exact Std.ExtTreeMap.not_mem_empty)

/-- Both nodes hold an operation of the sample device, one of them also its counter zero. -/
def zeroAndOneHolder : CoreState :=
  Event.run .plain zeroHolder (.apply (sampleOp 1 (.mkdir rootInode "b" 0)))

def oneHolder : CoreState :=
  Event.run .plain (booted .plain (CoreState.new 9))
    (.apply (sampleOp 1 (.mkdir rootInode "b" 0)))

/-- A node that has all the other one has is woken by its notifications. -/
theorem counter_zero_wakes_for_nothing :
    Run .plain (fun _ _ => True) oneHolder ∧ Run .plain (fun _ _ => True) zeroAndOneHolder ∧
      FewAbove oneHolder ∧
      ¬(isBehind zeroAndOneHolder (clockSummary oneHolder) = true ↔
        opsMissingFor oneHolder (clockSummary zeroAndOneHolder) 256 ≠ []) := by
  have behind : isBehind zeroAndOneHolder (clockSummary oneHolder) = true := by decide +kernel
  have nothing : opsMissingFor oneHolder (clockSummary zeroAndOneHolder) 256 = [] := by
    decide +kernel
  refine ⟨.step (.boot (blank_new 9)) trivial, .step (.step (.boot (blank_new 7)) trivial) trivial,
    fewAbove_of_short (by decide +kernel), fun agree => ?_⟩
  exact agree.mp behind nothing

end Behind
end NexusFS.Core
