/- GID: NexusFS/Crdt/OrMapMerge
   source: crates/crdt/src/or_map.rs
   digest: A run of the observed-remove map is its set of operations, and merging joins the runs. -/

import Mathlib.Data.List.Induction
import NexusFS.Crdt.OrMap

set_option autoImplicit false
set_option relaxedAutoImplicit false

namespace NexusFS.Crdt.OrMap

open NexusFS.Lib NexusFS.Proto

universe u v

variable {K : Type u} {V : Type v} [LinearOrder K]

/-- The calls that change a map. -/
inductive Op (K : Type u) (V : Type v) where
  | add (key : K) (dot : Dot) (value : V)
  | removeDots (key : K) (dots : List Dot)

def step (m : OrMap K V) : Op K V → OrMap K V
  | .add key dot value => m.add key dot value
  | .removeDots key dots => m.removeDots key dots

def run (ops : List (Op K V)) : OrMap K V := ops.foldl step ∅

/-- Each dot always comes with the same key and value. -/
structure Consistent (ops : List (Op K V)) : Prop where
  added : ∀ {k k' : K} {dot : Dot} {v v' : V},
    Op.add k dot v ∈ ops → Op.add k' dot v' ∈ ops → k = k' ∧ v = v'
  removed : ∀ {k k' : K} {dot : Dot} {v : V} {dots : List Dot},
    Op.add k dot v ∈ ops → Op.removeDots k' dots ∈ ops → dot ∈ dots → k = k'

omit [LinearOrder K] in
theorem Consistent.mono {l l' : List (Op K V)} (consistent : Consistent l') (inside : l ⊆ l') :
    Consistent l :=
  ⟨fun here there => consistent.added (inside here) (inside there),
    fun here there => consistent.removed (inside here) (inside there)⟩

/-- Joining the rows of two maps, by what `join` does where both may have the key. -/
private theorem get_union {W : Type v} [EmptyCollection W] (join : W → W → W) (m other : BTreeMap K W)
    (key : K) : (other.toList.foldl
      (fun rows row => rows.insert row.1 (join (rows[row.1]?.getD ∅) row.2)) m)[key]? =
        other[key]?.elim m[key]? fun w => some (join (m[key]?.getD ∅) w) := by
  have touches : BTreeMap.Touches
      (fun (rows : BTreeMap K W) (row : K × W) => rows.insert row.1 (join (rows[row.1]?.getD ∅) row.2))
      fun old w => join (old.getD ∅) w :=
    ⟨fun rows row => by rw [BTreeMap.get_insert, if_pos rfl],
      fun rows row a apart => by rw [BTreeMap.get_insert, if_neg apart]⟩
  exact touches.get_foldl_toList other m key

private theorem get_adds_merge (m other : OrMap K V) (key : K) :
    (m.merge other).adds[key]? =
      other.adds[key]?.elim m.adds[key]? fun vmap => some (orInsert (m.adds[key]?.getD ∅) vmap) :=
  get_union orInsert m.adds other.adds key

private theorem get_removes_merge (m other : OrMap K V) (key : K) :
    (m.merge other).removes[key]? =
      other.removes[key]?.elim m.removes[key]? fun rset => some (extend (m.removes[key]?.getD ∅) rset) :=
  get_union extend m.removes other.removes key

theorem get_orInsert (entry vmap : BTreeMap Dot V) (dot : Dot) :
    (orInsert entry vmap)[dot]? = entry[dot]?.or vmap[dot]? := by
  have touches : BTreeMap.Touches (fun (entry : BTreeMap Dot V) (p : Dot × V) => entry.insertIfNew p.1 p.2)
      fun old v => old.getD v := by
    constructor
    · intro entry p
      rw [Std.ExtTreeMap.getElem?_insertIfNew]
      cases here : entry[p.1]? with
      | none => simp [BTreeMap.mem_iff_get, here]
      | some v => simp [BTreeMap.mem_iff_get, here]
    · intro entry p a apart
      rw [Std.ExtTreeMap.getElem?_insertIfNew, if_neg fun both => apart (compare_eq_iff_eq.mp both.1)]
  rw [orInsert, touches.get_foldl_toList]
  cases vmap[dot]? <;> cases entry[dot]? <;> rfl

theorem mem_extend (seen rset : BTreeSet Dot) (dot : Dot) :
    dot ∈ extend seen rset ↔ dot ∈ seen ∨ dot ∈ rset := by
  rw [extend, BTreeSet.mem_foldl_insert (fun dot => dot) rset.toList seen dot]
  simp [BTreeSet.mem_toList]

theorem get_addsAt_merge (m other : OrMap K V) (key : K) (dot : Dot) :
    ((m.merge other).addsAt key)[dot]? =
      ((m.addsAt key)[dot]?).or (other.addsAt key)[dot]? := by
  unfold addsAt
  rw [get_adds_merge]
  cases other.adds[key]? with
  | none => simp
  | some vmap => exact get_orInsert _ vmap dot

theorem mem_removesAt_merge (m other : OrMap K V) (key : K) (dot : Dot) :
    dot ∈ (m.merge other).removesAt key ↔ dot ∈ m.removesAt key ∨ dot ∈ other.removesAt key := by
  unfold removesAt
  rw [get_removes_merge]
  cases other.removes[key]? with
  | none => simp [Std.ExtTreeSet.not_mem_empty]
  | some rset => exact mem_extend _ rset dot

theorem Tidy.merge {m other : OrMap K V} (left : Tidy m) (right : Tidy other) :
    Tidy (m.merge other) := by
  constructor
  · intro key inner stored
    rw [get_adds_merge] at stored
    cases there : other.adds[key]? with
    | none =>
        rw [there] at stored
        exact left.adds stored
    | some vmap =>
        rw [there] at stored
        -- a row of the other map has a dot, which the merged row still carries
        rintro rfl
        refine right.adds there (BTreeMap.ext_get fun dot => ?_)
        have dropped := get_orInsert (m.adds[key]?.getD ∅) vmap dot
        rw [Option.some.inj stored, Std.ExtTreeMap.getElem?_empty, eq_comm,
          Option.or_eq_none_iff] at dropped
        rw [dropped.2, Std.ExtTreeMap.getElem?_empty]
  · intro key inner stored
    rw [get_removes_merge] at stored
    cases there : other.removes[key]? with
    | none =>
        rw [there] at stored
        exact left.removes stored
    | some rset =>
        rw [there] at stored
        rintro rfl
        refine right.removes there (BTreeSet.ext_mem fun dot => ?_)
        have dropped := mem_extend (m.removes[key]?.getD ∅) rset dot
        rw [Option.some.inj stored] at dropped
        exact ⟨fun inside => dropped.mpr (.inr inside),
          fun inside => absurd inside Std.ExtTreeSet.not_mem_empty⟩

section Runs

variable {ops l l' l₁ l₂ l₃ : List (Op K V)} {key : K} {dot : Dot} {value : V}

private theorem run_concat (ops : List (Op K V)) (op : Op K V) : run (ops ++ [op]) = (run ops).step op := by
  simp [run]

theorem tidy_run (ops : List (Op K V)) : Tidy (run ops) := by
  induction ops using List.reverseRecOn with
  | nil => exact tidy_empty
  | append_singleton ops op ih =>
      rw [run_concat]
      cases op with
      | add key dot value => exact ih.add key dot value
      | removeDots key dots => exact ih.removeDots key dots

/-- The additions of a run are its `add` operations. -/
theorem get_addsAt_run (consistent : Consistent ops) :
    ((run ops).addsAt key)[dot]? = some value ↔ Op.add key dot value ∈ ops := by
  induction ops using List.reverseRecOn with
  | nil => simp [run]
  | append_singleton ops op ih =>
      have before := ih (consistent.mono (List.subset_append_left _ _))
      rw [run_concat]
      cases op with
      | add k d v =>
          rw [step, addsAt_add]
          by_cases same : k = key
          · rw [if_pos same, BTreeMap.get_insert]
            by_cases equal : d = dot
            · -- an addition overwrites, with the value that the dot always has
              subst same equal
              rw [if_pos rfl]
              refine ⟨fun value_is => ?_, fun member => ?_⟩
              · simp [Option.some.inj value_is]
              · exact congrArg some
                  (consistent.added (List.mem_append_right _ List.mem_cons_self) member).2
            · rw [if_neg equal, before]
              simp [Ne.symm equal]
          · rw [if_neg same, before]
            simp [Ne.symm same]
      | removeDots k dots =>
          rw [step, addsAt_removeDots, before]
          simp

/-- The removals of a run are the dots of its `removeDots` operations. -/
theorem mem_removesAt_run :
    dot ∈ (run ops).removesAt key ↔ ∃ dots, Op.removeDots key dots ∈ ops ∧ dot ∈ dots := by
  induction ops using List.reverseRecOn with
  | nil => simp [run, Std.ExtTreeSet.not_mem_empty]
  | append_singleton ops op ih =>
      rw [run_concat]
      cases op with
      | add k d v =>
          rw [step, removesAt_add, ih]
          simp
      | removeDots k dots =>
          rw [step, mem_removesAt_removeDots, ih]
          constructor
          · rintro (⟨rfl, inside⟩ | ⟨dots', member, inside⟩)
            · exact ⟨dots, by simp, inside⟩
            · exact ⟨dots', List.mem_append_left _ member, inside⟩
          · rintro ⟨dots', member, inside⟩
            rcases List.mem_append.mp member with earlier | last
            · exact .inr ⟨dots', earlier, inside⟩
            · obtain ⟨rfl, rfl⟩ := Op.removeDots.inj (List.mem_singleton.mp last)
              exact .inl ⟨rfl, inside⟩

theorem run_eq_of_mem_iff (consistent : Consistent l') (same : ∀ op, op ∈ l ↔ op ∈ l') :
    run l = run l' := by
  have consistent' : Consistent l := consistent.mono fun op inside => (same op).mp inside
  refine Tidy.ext (tidy_run l) (tidy_run l') (fun key dot => Option.ext fun value => ?_) fun key dot => ?_
  · rw [get_addsAt_run consistent', get_addsAt_run consistent, same]
  · simp only [mem_removesAt_run, same]

theorem merge_run (consistent : Consistent (l₁ ++ l₂)) :
    (run l₁).merge (run l₂) = run (l₁ ++ l₂) := by
  have first := consistent.mono (List.subset_append_left l₁ l₂)
  have second := consistent.mono (List.subset_append_right l₁ l₂)
  refine Tidy.ext ((tidy_run l₁).merge (tidy_run l₂)) (tidy_run _)
    (fun key dot => Option.ext fun value => ?_) fun key dot => ?_
  · rw [get_addsAt_merge, Option.or_eq_some_iff, get_addsAt_run first, get_addsAt_run second,
      get_addsAt_run consistent, List.mem_append]
    constructor
    · rintro (left | ⟨-, right⟩)
      · exact .inl left
      · exact .inr right
    · rintro (left | right)
      · exact .inl left
      · cases there : ((run l₁).addsAt key)[dot]? with
        | none => exact .inr ⟨rfl, right⟩
        | some kept =>
            -- the value that the merge keeps is the one the second run has
            have left := (get_addsAt_run first).mp there
            have equal := (consistent.added (List.mem_append_left _ left)
              (List.mem_append_right _ right)).2
            exact .inl (equal ▸ left)
  · rw [mem_removesAt_merge, mem_removesAt_run, mem_removesAt_run, mem_removesAt_run]
    simp only [List.mem_append, or_and_right, exists_or]

theorem mem_getAll_run (consistent : Consistent ops) :
    (dot, value) ∈ (run ops).getAll key ↔
      Op.add key dot value ∈ ops ∧ ∀ k dots, Op.removeDots k dots ∈ ops → dot ∉ dots := by
  rw [mem_getAll, Live, get_addsAt_run consistent, mem_removesAt_run]
  refine and_congr_right fun added => ⟨fun kept k dots removal inside => kept ?_, fun kept removed => ?_⟩
  · obtain rfl := consistent.removed added removal inside
    exact ⟨dots, removal, inside⟩
  · obtain ⟨dots, removal, inside⟩ := removed
    exact kept key dots removal inside

theorem getAll_strict (m : OrMap K V) (key : K) : (m.getAll key).Pairwise fun a b => a.1 < b.1 := by
  refine ((m.getAll_sorted key).and (m.getAll_nodup key)).imp_of_mem ?_
  rintro ⟨dot, value⟩ ⟨dot', value'⟩ here there ⟨order, apart⟩
  refine lt_of_le_of_ne order fun same => apart ?_
  obtain rfl : dot = dot' := same
  have left := ((m.mem_getAll key dot value).mp here).1
  have right := ((m.mem_getAll key dot value').mp there).1
  rw [left] at right
  rw [Option.some.inj right]

theorem mem_liveKeys_iff_getAll (m : OrMap K V) (key : K) : key ∈ m.liveKeys ↔ m.getAll key ≠ [] := by
  rw [mem_liveKeys, Ne, List.eq_nil_iff_forall_not_mem, not_forall_not]
  exact ⟨fun ⟨dot, value, live⟩ => ⟨(dot, value), (m.mem_getAll key dot value).mpr live⟩,
    fun ⟨(dot, value), member⟩ => ⟨dot, value, (m.mem_getAll key dot value).mp member⟩⟩

/-- The map agrees with its operations: a run depends on their set alone, merging joins the sets, and
what is read are the additions that no operation removed. -/
theorem runs_converge (consistent : Consistent (l₁ ++ l₂)) :
    (∀ l, (∀ op, op ∈ l ↔ op ∈ l₁) → run l = run l₁) ∧
    (run l₁).merge (run l₂) = run (l₁ ++ l₂) ∧
    (run l₁).merge (run l₂) = (run l₂).merge (run l₁) ∧
    (∀ l₃, Consistent (l₁ ++ l₂ ++ l₃) → ((run l₁).merge (run l₂)).merge (run l₃) =
      (run l₁).merge ((run l₂).merge (run l₃))) ∧
    (run l₁).merge (run l₁) = run l₁ ∧
    (∀ key, (∀ dot value, (dot, value) ∈ (run l₁).getAll key ↔ Op.add key dot value ∈ l₁ ∧
        ∀ k dots, Op.removeDots k dots ∈ l₁ → dot ∉ dots) ∧
      ((run l₁).getAll key).Pairwise fun a b => a.1 < b.1) ∧
    (run l₁).liveKeys.Nodup ∧ ∀ key, key ∈ (run l₁).liveKeys ↔ (run l₁).getAll key ≠ [] := by
  have first := consistent.mono (List.subset_append_left l₁ l₂)
  have swapped : Consistent (l₂ ++ l₁) := consistent.mono fun op => by simp [or_comm]
  have doubled : Consistent (l₁ ++ l₁) := first.mono fun op => by simp
  refine ⟨fun l same => run_eq_of_mem_iff first same, merge_run consistent, ?_, ?_, ?_, ?_,
    liveKeys_nodup _, mem_liveKeys_iff_getAll _⟩
  · rw [merge_run consistent, merge_run swapped]
    exact run_eq_of_mem_iff swapped fun op => by simp [or_comm]
  · intro l₃ whole
    have rest : Consistent (l₂ ++ l₃) := whole.mono fun op => by simp; tauto
    rw [merge_run consistent, merge_run whole, merge_run rest, merge_run (by rwa [← List.append_assoc]),
      List.append_assoc]
  · rw [merge_run doubled]
    exact run_eq_of_mem_iff first fun op => by simp
  · exact fun key => ⟨fun dot value => mem_getAll_run first, getAll_strict _ key⟩

theorem runs_converge_sample :
    let first : Dot := ⟨1, 1⟩
    let second : Dot := ⟨2, 1⟩
    let left : List (Op Nat Nat) := [.removeDots 4 [second], .add 4 first 7]
    let right : List (Op Nat Nat) := [.add 4 second 8, .removeDots 4 []]
    Consistent (left ++ right) ∧ (run left).merge (run right) = run (left ++ right) ∧
      (first, 7) ∈ (run left).getAll 4 := by
  intro first second left right
  have consistent : Consistent (left ++ right) := by
    constructor
    · intro k k' dot v v' here there
      simp only [left, right, List.cons_append, List.nil_append, List.mem_cons, List.not_mem_nil,
        or_false, reduceCtorEq, false_or, Op.add.injEq] at here there
      grind
    · intro k k' dot v dots here there inside
      simp only [left, right, List.cons_append, List.nil_append, List.mem_cons, List.not_mem_nil,
        or_false, reduceCtorEq, false_or, Op.add.injEq, Op.removeDots.injEq] at here there
      grind
  obtain ⟨-, merged, -, -, -, reads, -⟩ := runs_converge consistent
  refine ⟨consistent, merged, ((reads 4).1 first 7).mpr ⟨by simp [left], fun k dots removal => ?_⟩⟩
  obtain ⟨-, rfl⟩ : k = 4 ∧ dots = [second] := by simpa [left] using removal
  decide

end Runs

end NexusFS.Crdt.OrMap
