/- GID: NexusFS/Energy/Scheduler
   source: crates/energy/src/scheduler.rs, crates/energy/src/telemetry.rs
   digest: The energy plan: a ladder over the device readings, held to the free space. -/

import Mathlib.Data.Rat.Init
import Mathlib.Data.ENat.Lattice
import NexusFS.Proto.Types

/-!
A plan is monotone in the readings but for one pair of rungs: heat and a metered link are looked
at before the battery, so they lift a paused device back to metadata.
-/

set_option autoImplicit false
set_option relaxedAutoImplicit false

namespace NexusFS.Energy

open NexusFS.Proto

/-- `u8`. -/
abbrev U8 := Fin (2 ^ 8)

/-- `i16`. -/
abbrev I16 := {z : Int // -2 ^ 15 ≤ z ∧ z < 2 ^ 15}

def u64Max : U64 := ⟨2 ^ 64 - 1, by omega⟩

inductive PowerSource where
  | mains
  | battery
  | unknown
  deriving DecidableEq

inductive LinkCost where
  | unmetered
  | metered
  | unknown
  deriving DecidableEq

/-- The readings a plan looks at; what could not be read is unknown. -/
structure Telemetry where
  power : PowerSource
  battery_pct : Option U8
  temp_c : Option I16
  link : LinkCost
  storage_free_bytes : Option U64

structure BacklogView where
  pending_ops : U64
  missing_chunks : U64

/-- How much work replication may do on one pass. Every scale is one that `f32` holds exactly. -/
structure SyncBudget where
  sync : Bool
  content : Bool
  max_content_bytes : U64
  interval_scale : ℚ
  reason : String

namespace SyncBudget

def unlimited : SyncBudget := ⟨true, true, u64Max, 1, "no constraints apply"⟩

def metadataOnly (reason : String) (interval_scale : ℚ) : SyncBudget :=
  ⟨true, false, 0, interval_scale, reason⟩

def capped (reason : String) (max_content_bytes : U64) (interval_scale : ℚ) : SyncBudget :=
  ⟨true, true, max_content_bytes, interval_scale, reason⟩

def paused (reason : String) : SyncBudget := ⟨false, false, 0, 4, reason⟩

end SyncBudget

structure Thresholds where
  battery_low_pct : U8
  battery_critical_pct : U8
  temp_high_c : I16
  conserving_content_bytes : U64
  storage_reserve_bytes : U64

def Thresholds.default : Thresholds where
  battery_low_pct := 20
  battery_critical_pct := 5
  temp_high_c := ⟨70, by omega⟩
  conserving_content_bytes := ⟨8 * 1024 * 1024, by omega⟩
  storage_reserve_bytes := ⟨1024 * 1024 * 1024, by omega⟩

def Thresholds.fromConfig (battery_low_pct : U8) (temp_high_c : I16) (storage_reserve_mb : U64) :
    Thresholds :=
  { Thresholds.default with
    battery_low_pct
    battery_critical_pct := min (max ⟨battery_low_pct.val / 4, by omega⟩ 2) battery_low_pct
    temp_high_c
    storage_reserve_bytes := ⟨min (storage_reserve_mb.val * (1024 * 1024)) (2 ^ 64 - 1), by omega⟩ }

/-- The ladder is in order: pausing is the rung below metadata only. -/
def Thresholds.Ordered (t : Thresholds) : Prop := t.battery_critical_pct ≤ t.battery_low_pct

theorem Thresholds.fromConfig_ordered (low : U8) (high : I16) (reserve_mb : U64) :
    (Thresholds.fromConfig low high reserve_mb).Ordered :=
  min_le_right _ _

theorem Thresholds.default_ordered : Thresholds.default.Ordered := by
  unfold Thresholds.Ordered
  decide

section Text

def roundHalfEven (a b : Nat) : Nat :=
  if 2 * (a % b) < b then a / b
  else if b < 2 * (a % b) then a / b + 1
  else a / b + a / b % 2

def asF64 (n : U64) : Nat :=
  let ulp := 2 ^ (Nat.log2 n.val - 52)
  roundHalfEven n.val ulp * ulp

def humanBytes (n : U64) : String :=
  let units := [(1024 ^ 4, "TB"), (1024 ^ 3, "GB"), (1024 ^ 2, "MB"), (1024, "KB")]
  match units.find? fun unit => unit.1 ≤ n.val with
  | some (scale, unit) =>
      let tenths := roundHalfEven (10 * asF64 n) scale
      toString (tenths / 10) ++ "." ++ toString (tenths % 10) ++ unit
  | none => toString n.val ++ "B"

example : humanBytes ⟨1024 ^ 3 + 1024 ^ 3 / 2, by omega⟩ = "1.5GB" := by decide +kernel

end Text

/-- `saturating_mul(2).min(100)`: the top of the band in which content still moves, capped. -/
def Thresholds.comfortable (t : Thresholds) : U8 :=
  ⟨min (min (t.battery_low_pct.val * 2) 255) 100, by omega⟩

def ladder (t : Thresholds) (telemetry : Telemetry) (backlog : BacklogView) : SyncBudget :=
  if telemetry.power ≠ .battery then .unlimited
  else
    match telemetry.battery_pct with
    | none => .capped "on battery with an unreadable charge level" t.conserving_content_bytes (3 / 2)
    | some pct =>
        if pct ≤ t.battery_critical_pct then
          .paused ("battery " ++ toString pct.val ++ "% is at or below the critical " ++
            toString t.battery_critical_pct.val ++ "%")
        else if pct ≤ t.battery_low_pct then
          .metadataOnly ("battery " ++ toString pct.val ++ "% is at or below the low threshold " ++
            toString t.battery_low_pct.val ++ "%") 2
        else if pct ≤ t.comfortable ∧ 0 < backlog.missing_chunks then
          .capped ("battery " ++ toString pct.val ++ "% is within the conserving band up to " ++
            toString t.comfortable.val ++ "%") t.conserving_content_bytes 1
        else .unlimited

def grade (t : Thresholds) (telemetry : Telemetry) (backlog : BacklogView) : SyncBudget :=
  match telemetry.temp_c.filter fun temp => t.temp_high_c.val ≤ temp.val with
  | some temp =>
      .metadataOnly ("temperature " ++ toString temp.val ++ "°C is at or above the " ++
        toString t.temp_high_c.val ++ "°C limit") 2
  | none =>
      if telemetry.link = .metered then .metadataOnly "link is metered" 2
      else ladder t telemetry backlog

/-- `free.checked_sub(reserve).filter(|s| *s > 0)`. -/
def Thresholds.spare (t : Thresholds) (free : U64) : Option U64 :=
  if t.storage_reserve_bytes < free then some ⟨free.val - t.storage_reserve_bytes.val, by omega⟩
  else none

def limitToHeadroom (t : Thresholds) (budget : SyncBudget) (telemetry : Telemetry) : SyncBudget :=
  match telemetry.storage_free_bytes with
  | none => budget
  | some free =>
      if !budget.content then budget
      else
        match t.spare free with
        | none =>
            .metadataOnly (humanBytes free ++ " free is at or below the " ++
              humanBytes t.storage_reserve_bytes ++ " reserve") budget.interval_scale
        | some spare =>
            if budget.max_content_bytes ≤ spare then budget
            else
              let reason :=
                if budget.max_content_bytes = u64Max then
                  "content held to the " ++ humanBytes spare ++ " free above the reserve"
                else
                  budget.reason ++ ", and further held to the " ++ humanBytes spare ++
                    " free above the reserve"
              .capped reason spare budget.interval_scale

structure RuleBasedScheduler where
  thresholds : Thresholds
  enabled : Bool

namespace RuleBasedScheduler

def new (thresholds : Thresholds) : RuleBasedScheduler := ⟨thresholds, true⟩

def disabled : RuleBasedScheduler := ⟨.default, false⟩

def plan (scheduler : RuleBasedScheduler) (telemetry : Telemetry) (backlog : BacklogView) :
    SyncBudget :=
  if !scheduler.enabled then .unlimited
  else limitToHeadroom scheduler.thresholds (grade scheduler.thresholds telemetry backlog) telemetry

end RuleBasedScheduler

/-- `a` permits at most what `b` does. -/
structure SyncBudget.AtMost (a b : SyncBudget) : Prop where
  sync : a.sync = true → b.sync = true
  content : a.content = true → b.content = true
  bytes : a.max_content_bytes ≤ b.max_content_bytes

/-- The same readings are known, and the second is at least as constrained in each. -/
structure Constrained (first second : Telemetry) : Prop where
  power_known : first.power = .unknown ↔ second.power = .unknown
  power : first.power = .battery → second.power = .battery
  charge : Option.Rel (fun p q => first.power = .battery → q ≤ p) first.battery_pct second.battery_pct
  temp : Option.Rel (· ≤ ·) first.temp_c second.temp_c
  link_known : first.link = .unknown ↔ second.link = .unknown
  link : first.link = .metered → second.link = .metered
  free : Option.Rel (· ≥ ·) first.storage_free_bytes second.storage_free_bytes

def Thresholds.Overrides (t : Thresholds) (telemetry : Telemetry) : Prop :=
  (∃ temp, telemetry.temp_c = some temp ∧ t.temp_high_c ≤ temp) ∨ telemetry.link = .metered

def Thresholds.Critical (t : Thresholds) (telemetry : Telemetry) : Prop :=
  telemetry.power = .battery ∧
    ∃ pct, telemetry.battery_pct = some pct ∧ pct ≤ t.battery_critical_pct

/-- Content is taken only in a pass that syncs, and only it has bytes. -/
structure SyncBudget.Coherent (budget : SyncBudget) : Prop where
  sync : budget.content = true → budget.sync = true
  bytes : budget.content = false → budget.max_content_bytes = 0

namespace SyncBudget.Coherent

theorem unlimited : SyncBudget.unlimited.Coherent :=
  ⟨fun _ => rfl, nofun⟩

theorem metadataOnly (reason : String) (scale : ℚ) : (SyncBudget.metadataOnly reason scale).Coherent :=
  ⟨nofun, fun _ => rfl⟩

theorem capped (reason : String) (bytes : U64) (scale : ℚ) :
    (SyncBudget.capped reason bytes scale).Coherent :=
  ⟨fun _ => rfl, nofun⟩

theorem paused (reason : String) : (SyncBudget.paused reason).Coherent :=
  ⟨nofun, fun _ => rfl⟩

end SyncBudget.Coherent

def Thresholds.room (t : Thresholds) (telemetry : Telemetry) : ℕ∞ :=
  telemetry.storage_free_bytes.elim ⊤ fun free => (free.val - t.storage_reserve_bytes.val : ℕ)

section Ladder

variable {t : Thresholds} {x first second : Telemetry} {backlog : BacklogView}

open SyncBudget

theorem grade_overridden (backlog : BacklogView) (overridden : t.Overrides x) :
    ∃ reason, grade t x backlog = metadataOnly reason 2 := by
  unfold grade
  split
  · exact ⟨_, rfl⟩
  · rename_i cool
    rcases overridden with ⟨temp, read, hot⟩ | metered
    · simp [read, Option.filter, hot] at cool
    · exact ⟨_, if_pos metered⟩

theorem grade_not_overridden (under : ¬t.Overrides x) : grade t x backlog = ladder t x backlog := by
  obtain ⟨cool, unmetered⟩ := not_or.mp under
  unfold grade
  split
  · rename_i temp kept
    obtain ⟨read, hot⟩ := Option.filter_eq_some_iff.mp kept
    exact absurd ⟨temp, read, of_decide_eq_true hot⟩ cool
  · exact if_neg unmetered

theorem ladder_coherent (t : Thresholds) (x : Telemetry) (backlog : BacklogView) :
    (ladder t x backlog).Coherent := by
  unfold ladder
  split
  · exact .unlimited
  · split
    · exact .capped _ _ _
    · split_ifs
      · exact .paused _
      · exact .metadataOnly _ _
      · exact .capped _ _ _
      · exact .unlimited

theorem grade_coherent (t : Thresholds) (x : Telemetry) (backlog : BacklogView) :
    (grade t x backlog).Coherent := by
  by_cases overridden : t.Overrides x
  · obtain ⟨reason, is_it⟩ := grade_overridden backlog overridden
    rw [is_it]
    exact .metadataOnly reason 2
  · rw [grade_not_overridden overridden]
    exact ladder_coherent t x backlog

theorem SyncBudget.AtMost.refl (b : SyncBudget) : AtMost b b := ⟨id, id, le_rfl⟩

theorem atMost_unlimited (b : SyncBudget) : AtMost b unlimited :=
  ⟨fun _ => rfl, fun _ => rfl, Nat.le_sub_one_of_lt b.max_content_bytes.isLt⟩

theorem atMost_of_no_content {a b : SyncBudget} (coherent : a.Coherent) (none_taken : a.content = false)
    (syncs : b.sync = true) : AtMost a b := by
  refine ⟨fun _ => syncs, fun taken => ?_, ?_⟩
  · rw [none_taken] at taken
    cases taken
  · rw [coherent.bytes none_taken]
    exact Fin.zero_le _

theorem paused_atMost (reason : String) (b : SyncBudget) : AtMost (paused reason) b :=
  ⟨nofun, nofun, Fin.zero_le _⟩

theorem ladder_atMost (constrained : Constrained first second) :
    AtMost (ladder t second backlog) (ladder t first backlog) := by
  by_cases battery : first.power = .battery
  · have battery' := constrained.power battery
    have charge := constrained.charge
    unfold ladder
    rw [if_neg (not_not.mpr battery), if_neg (not_not.mpr battery')]
    generalize first.battery_pct = p at charge
    generalize second.battery_pct = q at charge
    cases charge with
    | none => exact .refl _
    | some lower =>
        rename_i p q
        have below := lower battery
        dsimp only
        by_cases critical : q ≤ t.battery_critical_pct
        · rw [if_pos critical]
          exact paused_atMost _ _
        · have above : ¬p ≤ t.battery_critical_pct := fun here => critical (below.trans here)
          rw [if_neg critical, if_neg above]
          by_cases low : q ≤ t.battery_low_pct
          · rw [if_pos low]
            refine atMost_of_no_content (.metadataOnly _ _) rfl ?_
            split_ifs <;> rfl
          · have higher : ¬p ≤ t.battery_low_pct := fun here => low (below.trans here)
            rw [if_neg low, if_neg higher]
            by_cases band : p ≤ t.comfortable ∧ 0 < backlog.missing_chunks
            · rw [if_pos band, if_pos ⟨below.trans band.1, band.2⟩]
              exact ⟨id, id, le_rfl⟩
            · rw [if_neg band]
              exact atMost_unlimited _
  · have free_of : ladder t first backlog = unlimited := if_pos battery
    rw [free_of]
    exact atMost_unlimited _

theorem limit_spec {b : SyncBudget} (coherent : b.Coherent) (t : Thresholds) (x : Telemetry) :
    (limitToHeadroom t b x).sync = b.sync ∧
    ((limitToHeadroom t b x).content = true ↔ b.content = true ∧ 0 < t.room x) ∧
    ((limitToHeadroom t b x).max_content_bytes.val : ℕ∞) =
      min (b.max_content_bytes.val : ℕ∞) (t.room x) := by
  unfold limitToHeadroom Thresholds.room
  cases x.storage_free_bytes with
  | none => simp
  | some free =>
      cases taken : b.content with
      | false => simp [taken, coherent.bytes taken]
      | true =>
          have syncs := coherent.sync taken
          simp only [Bool.not_true, Bool.false_eq_true, if_false, Option.elim_some, true_and]
          unfold Thresholds.spare
          by_cases room : t.storage_reserve_bytes < free
          · rw [if_pos room]
            have positive : 0 < free.val - t.storage_reserve_bytes.val := Nat.sub_pos_of_lt room
            dsimp only
            split
            · rename_i wide
              have narrow : b.max_content_bytes.val ≤ free.val - t.storage_reserve_bytes.val := wide
              refine ⟨rfl, iff_of_true taken (by exact_mod_cast positive), ?_⟩
              rw [min_eq_left (by exact_mod_cast narrow)]
            · rename_i wide
              have narrow : free.val - t.storage_reserve_bytes.val ≤ b.max_content_bytes.val :=
                le_of_lt (not_le.mp wide)
              refine ⟨syncs.symm, iff_of_true rfl (by exact_mod_cast positive), ?_⟩
              rw [min_eq_right (by exact_mod_cast narrow)]
              rfl
          · rw [if_neg room]
            have none_left : free.val - t.storage_reserve_bytes.val = 0 :=
              Nat.sub_eq_zero_of_le (not_lt.mp room)
            rw [none_left]
            exact ⟨syncs.symm, by simp [metadataOnly], by simp [metadataOnly]⟩

theorem room_antitone (constrained : Constrained first second) : t.room second ≤ t.room first := by
  have free := constrained.free
  unfold Thresholds.room
  generalize first.storage_free_bytes = p at free
  generalize second.storage_free_bytes = q at free
  cases free with
  | none => exact le_rfl
  | some less => exact Nat.cast_le.mpr (Nat.sub_le_sub_right less _)

theorem limit_atMost {a b : SyncBudget} (at_most : AtMost a b) (left : a.Coherent) (right : b.Coherent)
    (constrained : Constrained first second) :
    AtMost (limitToHeadroom t a second) (limitToHeadroom t b first) := by
  obtain ⟨sync, content, bytes⟩ := limit_spec left t second
  obtain ⟨sync', content', bytes'⟩ := limit_spec right t first
  have less := room_antitone (t := t) constrained
  refine ⟨?_, ?_, ?_⟩
  · rw [sync, sync']
    exact at_most.sync
  · rw [content, content']
    exact fun taken => ⟨at_most.content taken.1, taken.2.trans_le less⟩
  · have cast : ((limitToHeadroom t a second).max_content_bytes.val : ℕ∞) ≤
        (limitToHeadroom t b first).max_content_bytes.val := by
      rw [bytes, bytes']
      exact min_le_min (by exact_mod_cast at_most.bytes) less
    exact_mod_cast cast

theorem Thresholds.Overrides.mono (overridden : t.Overrides first)
    (constrained : Constrained first second) : t.Overrides second := by
  rcases overridden with ⟨temp, read, hot⟩ | metered
  · have hotter := constrained.temp
    rw [read] at hotter
    generalize known : second.temp_c = q at hotter
    cases hotter with
    | some higher => exact .inl ⟨_, known, hot.trans higher⟩
  · exact .inr (constrained.link metered)

theorem ladder_critical (critical : t.Critical x) : (ladder t x backlog).sync = false := by
  obtain ⟨battery, pct, read, low⟩ := critical
  simp [ladder, battery, read, low, paused]

theorem ladder_sync (above : ¬t.Critical x) : (ladder t x backlog).sync = true := by
  unfold ladder
  split
  · rfl
  · rename_i battery
    split
    · rfl
    · rename_i pct read
      have high : ¬pct ≤ t.battery_critical_pct := fun low => above ⟨not_not.mp battery, pct, read, low⟩
      rw [if_neg high]
      split_ifs <;> rfl

theorem grade_lifted (backlog : BacklogView) (critical : t.Critical first) (before : ¬t.Overrides first)
    (overridden : t.Overrides second) :
    (grade t first backlog).sync = false ∧ (grade t second backlog).sync = true := by
  obtain ⟨reason, is_it⟩ := grade_overridden backlog overridden
  rw [is_it, grade_not_overridden before]
  exact ⟨ladder_critical critical, rfl⟩

theorem grade_atMost (constrained : Constrained first second)
    (not_lifted : ¬(t.Critical first ∧ ¬t.Overrides first ∧ t.Overrides second)) :
    AtMost (grade t second backlog) (grade t first backlog) := by
  by_cases overridden : t.Overrides second
  · obtain ⟨reason, is_it⟩ := grade_overridden backlog overridden
    rw [is_it]
    by_cases before : t.Overrides first
    · obtain ⟨reason', is_it'⟩ := grade_overridden backlog before
      rw [is_it']
      exact ⟨id, id, le_rfl⟩
    · rw [grade_not_overridden before]
      have above : ¬t.Critical first := fun critical => not_lifted ⟨critical, before, overridden⟩
      exact atMost_of_no_content (.metadataOnly reason 2) rfl (ladder_sync above)
  · have before : ¬t.Overrides first := fun here => overridden (here.mono constrained)
    rw [grade_not_overridden overridden, grade_not_overridden before]
    exact ladder_atMost constrained

theorem plan_within_room (t : Thresholds) (x : Telemetry) (backlog : BacklogView) {free : U64}
    (known : x.storage_free_bytes = some free) :
    ((RuleBasedScheduler.new t).plan x backlog).max_content_bytes.val ≤
      free.val - t.storage_reserve_bytes.val := by
  have held := (limit_spec (grade_coherent t x backlog) t x).2.2.trans_le (min_le_right _ _)
  rw [Thresholds.room, known] at held
  exact Nat.cast_le.mp held

end Ladder

/-- What a plan promises of two readings: the more constrained one permits at most as much, and both
hold content to the free space above the reserve. -/
structure PlansMonotone (t : Thresholds) (backlog : BacklogView) (first second : Telemetry) : Prop where
  at_most : SyncBudget.AtMost ((RuleBasedScheduler.new t).plan second backlog)
    ((RuleBasedScheduler.new t).plan first backlog)
  headroom : ∀ x ∈ [first, second], ∀ free, x.storage_free_bytes = some free →
    ((RuleBasedScheduler.new t).plan x backlog).content = true →
      ((RuleBasedScheduler.new t).plan x backlog).max_content_bytes.val ≤
        free.val - t.storage_reserve_bytes.val

/-- The plan is monotone exactly where no override comes on for a device at its critical charge. -/
theorem plan_monotone_iff (t : Thresholds) (backlog : BacklogView) (first second : Telemetry)
    (constrained : Constrained first second) :
    PlansMonotone t backlog first second ↔
      ¬(t.Critical first ∧ ¬t.Overrides first ∧ t.Overrides second) := by
  constructor
  · rintro monotone ⟨critical, before, overridden⟩
    obtain ⟨stops, syncs⟩ := grade_lifted backlog critical before overridden
    have plan_first := (limit_spec (grade_coherent t first backlog) t first).1.trans stops
    have plan_second := (limit_spec (grade_coherent t second backlog) t second).1.trans syncs
    exact Bool.noConfusion ((monotone.at_most.sync plan_second).symm.trans plan_first)
  · intro not_lifted
    refine ⟨limit_atMost (grade_atMost constrained not_lifted) (grade_coherent t second backlog)
      (grade_coherent t first backlog) constrained, ?_⟩
    exact fun x _ free known _ => plan_within_room t x backlog known

def cold : I16 := ⟨30, by omega⟩

def hot : I16 := ⟨85, by omega⟩

theorem plan_monotone_iff_sample :
    (Thresholds.fromConfig 20 hot 1024).Ordered ∧
      PlansMonotone (.fromConfig 20 hot 1024) ⟨0, 1⟩ ⟨.mains, some 90, some cold, .unmetered, some 2000000000⟩
        ⟨.battery, some 3, some hot, .unmetered, some 1500000000⟩ :=
  ⟨Thresholds.fromConfig_ordered 20 hot 1024, (plan_monotone_iff (.fromConfig 20 hot 1024) ⟨0, 1⟩ _ _
    ⟨by simp, by simp, .some (by simp), .some (by decide), by simp, by simp, .some (by decide)⟩).mpr
      fun both => nomatch both.1.1⟩

/-- A device at 3% stops contacting peers; once hot as well, it contacts them again. -/
theorem plan_not_monotone :
    let cool : Telemetry := ⟨.battery, some 3, some cold, .unmetered, none⟩
    let warm : Telemetry := ⟨.battery, some 3, some hot, .unmetered, none⟩
    Thresholds.default.Ordered ∧ Constrained cool warm ∧
      ((RuleBasedScheduler.new .default).plan cool ⟨0, 0⟩).sync = false ∧
      ((RuleBasedScheduler.new .default).plan warm ⟨0, 0⟩).sync = true ∧
      ¬PlansMonotone .default ⟨0, 0⟩ cool warm := by
  intro cool warm
  have stops : ((RuleBasedScheduler.new .default).plan cool ⟨0, 0⟩).sync = false := by decide
  have syncs : ((RuleBasedScheduler.new .default).plan warm ⟨0, 0⟩).sync = true := by decide
  refine ⟨Thresholds.default_ordered, ?_, stops, syncs, fun monotone => ?_⟩
  · exact ⟨Iff.rfl, id, .some fun _ => le_rfl, .some (by decide), Iff.rfl, id, .none⟩
  · exact Bool.noConfusion ((monotone.at_most.sync syncs).symm.trans stops)

end NexusFS.Energy
