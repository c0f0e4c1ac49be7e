/- GID: NexusFS/Net/Passes
   source: crates/core/src/share.rs, crates/core/src/ops.rs
   digest: Passes over files that rewrite some of them, one local write after another. -/

import NexusFS.Core.Turns
import NexusFS.Net.Rewriting

/-!
Re-sealing and rotation go over the same list of files. A turn looks at the object that
a file named when the pass began, and passes on or makes new content of it and writes
that. Whether the write takes the register is for the register to say.
-/

set_option autoImplicit false
set_option relaxedAutoImplicit false

namespace NexusFS.Net

open NexusFS.Lib NexusFS.Lib.Effect NexusFS.Proto NexusFS.Core NexusFS.Crdt

section Own

def ownId (s : CoreState) (i : Nat) : OpId :=
  ⟨s.device_id, s.next_counter + 1 + Fin.ofNat (2 ^ 64) i⟩

def ownKeyAt (now : U64) (s : CoreState) (i : Nat) : OrderKey :=
  orderKeyOf now s.device_id (s.next_counter + 1 + Fin.ofNat (2 ^ 64) i)

private theorem count_zero (n : U64) : n + Fin.ofNat (2 ^ 64) 0 = n := by
  apply Fin.ext
  simp only [Fin.val_add, Fin.val_ofNat]
  omega

private theorem count_succ (n : U64) (i : Nat) :
    n + 1 + 1 + Fin.ofNat (2 ^ 64) i = n + 1 + Fin.ofNat (2 ^ 64) (i + 1) := by
  apply Fin.ext
  have one : (1 : U64).val = 1 := rfl
  simp only [Fin.val_add, Fin.val_ofNat, one]
  omega

theorem ownId_device (s : CoreState) (i : Nat) : (ownId s i).device_id = s.device_id := rfl

theorem ownId_zero (s : CoreState) : ownId s 0 = nextId s := by
  unfold ownId nextId
  rw [count_zero]

theorem ownKeyAt_zero (now : U64) (s : CoreState) : ownKeyAt now s 0 = writeKey now s := by
  unfold ownKeyAt writeKey
  rw [count_zero]

variable {s t : CoreState}

theorem ownId_succ (device : t.device_id = s.device_id) (counter : t.next_counter = s.next_counter + 1)
    (i : Nat) : ownId t i = ownId s (i + 1) := by
  unfold ownId
  rw [device, counter, count_succ]

theorem ownKeyAt_succ (device : t.device_id = s.device_id)
    (counter : t.next_counter = s.next_counter + 1) (now : U64) (i : Nat) :
    ownKeyAt now t i = ownKeyAt now s (i + 1) := by
  unfold ownKeyAt
  rw [device, counter, count_succ]

theorem ownId_inj {i j : Nat} (small : i < 2 ^ 64) (small' : j < 2 ^ 64)
    (same : ownId s i = ownId s j) : i = j := by
  unfold ownId at same
  injection same with _ counters
  have values := congrArg Fin.val counters
  simp only [Fin.val_add, Fin.val_ofNat] at values
  omega

end Own

section Pass

/-- What a turn does with a file, if anything: the program that makes its new content. -/
abbrev Plan := CoreState → U128 × Hash → Option (M Content)

/-- A turn that rewrote a file. -/
structure Rewrite where
  row : U128 × Hash
  start : CoreState
  content : Content
  before : CoreState
  finish : CoreState

variable (env : Env) (identity : Identity) (now : U64)

def Rewrite.kind (w : Rewrite) : FsOpKind := .write w.row.1 0 w.content.1 w.content.2.1 w.content.2.2

def Rewrite.object (w : Rewrite) : Object := fileObject w.content.1 w.content.2.1 now w.content.2.2

def rewrites (plan : Plan) : List (U128 × Hash) → CoreState → List Rewrite
  | [], _ => []
  | row :: rows, s =>
      match plan s row with
      | none => rewrites plan rows s
      | some make =>
          match make s with
          | .error _ _ => []
          | .ok content before =>
              let kind : FsOpKind := .write row.1 0 content.1 content.2.1 content.2.2
              let finish := finalState (applyLocal env identity kind now before)
              ⟨row, s, content, before, finish⟩ :: rewrites plan rows finish

/-- A pass: each turn leaves the state, or makes the content of its plan and writes it. -/
inductive Pass (plan : Plan) : CoreState → List (U128 × Hash) → List Rewrite → CoreState → Prop
  | nil (s : CoreState) : Pass plan s [] [] s
  | skip {s t : CoreState} {row : U128 × Hash} {rows : List (U128 × Hash)} {ws : List Rewrite}
      (idle : plan s row = none) (rest : Pass plan s rows ws t) : Pass plan s (row :: rows) ws t
  | turn {t : CoreState} {rows : List (U128 × Hash)} {ws : List Rewrite} {w : Rewrite}
      {make : M Content} {op : FsOp} (due : plan w.start w.row = some make)
      (made : make w.start = .ok w.content w.before)
      (ran : applyLocal env identity w.kind now w.before = .ok op w.finish)
      (rest : Pass plan w.finish rows ws t) : Pass plan w.start (w.row :: rows) (w :: ws) t

variable {env identity now} {plan : Plan} {s t : CoreState} {rows : List (U128 × Hash)}
  {ws : List Rewrite}

theorem Pass.rewrites (pass : Pass env identity now plan s rows ws t) :
    Net.rewrites env identity now plan rows s = ws := by
  induction pass with
  | nil => rfl
  | skip idle _ ih =>
      unfold Net.rewrites
      rw [idle]
      exact ih
  | @turn t rows ws w make op due made ran _ ih =>
      unfold Net.rewrites
      rw [due]
      dsimp only
      rw [made]
      dsimp only
      have finish : finalState (applyLocal env identity
          (.write w.row.1 0 w.content.1 w.content.2.1 w.content.2.2) now w.before) = w.finish :=
        congrArg finalState ran
      rw [finish, ih]

theorem Pass.sublist (pass : Pass env identity now plan s rows ws t) :
    (ws.map Rewrite.row).Sublist rows := by
  induction pass with
  | nil => exact .slnil
  | skip _ _ ih => exact ih.cons _
  | turn _ _ _ _ ih => exact ih.cons_cons _

theorem Pass.row_mem (pass : Pass env identity now plan s rows ws t) :
    ∀ w ∈ ws, w.row ∈ rows := fun _ member => pass.sublist.subset (List.mem_map_of_mem member)

def Plan.Stores (env : Env) (plan : Plan) : Prop :=
  ∀ s row make content b, plan s row = some make → make s = .ok content b →
    OnlyContent s b ∧ (Keyed env s → Keyed env b)

theorem Pass.blobs (pass : Pass env identity now plan s rows ws t) (stores : plan.Stores env) :
    ∀ hash, s.hasBlob hash → t.hasBlob hash := by
  induction pass with
  | nil => exact fun _ here => here
  | skip _ _ ih => exact ih
  | @turn t rows ws w make op due made ran _ ih =>
      obtain ⟨⟨blobs, draws, keeps, only⟩, -⟩ := stores _ _ _ _ _ due made
      have lasts := (lasts_applyLocal env identity w.kind now w.before).1
      rw [ran] at lasts
      intro hash here
      refine ih hash (lasts hash ?_)
      rw [only]
      exact keeps hash here

/-- The byte strings that a turn has to do with: what is stored before, in and after it, and what it
attempts to store. -/
def Rewrite.touched (env : Env) (identity : Identity) (now : U64) (w : Rewrite) : List Bytes :=
  (w.start.blobs.toList ++ w.before.blobs.toList ++ w.finish.blobs.toList).map Prod.snd ++
    (localAttempts env identity w.kind now w.before).flatMap fun x =>
      storedBytes env x.1 x.2 ++ (finalState (attempt env x.2 x.1)).blobs.toList.map Prod.snd

theorem mem_held {u : CoreState} {hash : Hash} {bytes : Bytes} (here : u.blobs[hash]? = some bytes) :
    bytes ∈ u.blobs.toList.map Prod.snd :=
  List.mem_map.mpr ⟨(hash, bytes), (BTreeMap.mem_toList _ _ _).mpr here, rfl⟩

/-- What one rewriting turn leaves of the store and the keys, with the byte strings in `D`. -/
structure Grown (env : Env) (identity : Identity) (now : U64) (D : Set Bytes) (w : Rewrite) : Prop where
  keys : SameKeys w.start w.finish
  prepared : Core.Kept ∅ ∅ w.start w.before
  before : Extends w.start w.before
  finish : Extends w.before w.finish
  keyed_before : Keyed env w.before
  keyed : Keyed env w.finish
  within_start : StoreIn env D w.start
  within_before : StoreIn env D w.before
  within : StoreIn env D w.finish
  attempts : AttemptsIn env identity w.kind now D w.before

private theorem grown {D : Set Bytes} {w : Rewrite} {make : M Content} {op : FsOp}
    (stores : plan.Stores env) (due : plan w.start w.row = some make)
    (made : make w.start = .ok w.content w.before)
    (ran : applyLocal env identity w.kind now w.before = .ok op w.finish) (keyed : Keyed env w.start)
    (inj : Set.InjOn env.blake3 D) (touched : ∀ bytes ∈ w.touched env identity now, bytes ∈ D) :
    Grown env identity now D w := by
  obtain ⟨⟨blobs, draws, keeps, only⟩, keeps_keyed⟩ := stores _ _ _ _ _ due made
  have keyed_b := keeps_keyed keyed
  have keyed_f : Keyed env w.finish := by
    have kept := keeps_applyLocal env identity w.kind now w.before keyed_b
    rw [ran] at kept
    exact kept
  have prepared : Core.Kept ∅ ∅ w.start w.before := by
    rw [only]
    exact .same rfl rfl keeps ⟨⟨rfl, rfl, rfl⟩, rfl, rfl⟩ rfl rfl
  have keys := sameKeys_applyLocal env identity w.kind now w.before
  rw [ran] at keys
  have lasts := (lasts_applyLocal env identity w.kind now w.before).1
  rw [ran] at lasts
  have stored : ∀ bytes ∈ (w.start.blobs.toList ++ w.before.blobs.toList ++
      w.finish.blobs.toList).map Prod.snd, bytes ∈ D :=
    fun bytes inside => touched bytes (List.mem_append_left _ inside)
  have attempted : ∀ x ∈ localAttempts env identity w.kind now w.before, ∀ bytes ∈ storedBytes env x.1 x.2 ++
      (finalState (attempt env x.2 x.1)).blobs.toList.map Prod.snd, bytes ∈ D :=
    fun x member bytes inside =>
      touched bytes (List.mem_append_right _ (List.mem_flatMap.mpr ⟨x, member, inside⟩))
  simp only [List.map_append, List.mem_append] at stored attempted
  have within_s : StoreIn env D w.start := fun hash bytes here =>
    ⟨stored bytes (.inl (.inl (mem_held here))), keyed hash bytes here⟩
  have within_b : StoreIn env D w.before := fun hash bytes here =>
    ⟨stored bytes (.inl (.inr (mem_held here))), keyed_b hash bytes here⟩
  have within_f : StoreIn env D w.finish := fun hash bytes here =>
    ⟨stored bytes (.inr (mem_held here)), keyed_f hash bytes here⟩
  refine ⟨prepared.keys.trans keys, prepared, extends_of_keeps inj within_s within_b prepared.blobs,
    extends_of_keeps inj within_b within_f lasts, keyed_b, keyed_f, within_s, within_b, within_f,
    fun x member => ⟨fun bytes inside => attempted x member bytes (.inl inside), fun hash bytes here =>
      ⟨attempted x member bytes (.inr (mem_held here)), ?_⟩⟩⟩
  have tried : Keyed env x.1 := @AttemptRule.traced env (counted w.before) (Keyed env) (keyedRule env)
    (fun _ keyed => keyed) (fun _ keyed => keyed) keyed_b
    (.apply (authoredOp env identity w.kind now w.before) (!w.before.proofs.generates)) x member
  exact keeps_attempt env x.2 x.1 tried hash bytes here

theorem Pass.made_by (pass : Pass env identity now plan s rows ws t) :
    ∀ w ∈ ws, ∃ make, plan w.start w.row = some make ∧ make w.start = .ok w.content w.before := by
  induction pass with
  | nil => simp
  | skip _ _ ih => exact ih
  | turn due made _ _ ih => exact List.forall_mem_cons.mpr ⟨⟨_, due, made⟩, ih⟩

def Wins (now : U64) (s : CoreState) (i : Nat) (reg : LwwReg ContentState) : Prop :=
  ownId s i ∉ s.applied ∧ reg.orderKey < ownKeyAt now s i

def Rewrite.register (env : Env) (now : U64) (w : Rewrite) : LwwReg ContentState :=
  writtenReg now w.before (objectHash env (w.object now)) w.content.2.1

/-- A rewritten file has the new object at the end of the pass if its turn wins, and is unchanged if
it does not. -/
inductive Landed (env : Env) (now : U64) (s t : CoreState) (i : Nat) (w : Rewrite)
    (reg : LwwReg ContentState) : Prop
  | lost (lost : ¬Wins now s i reg) (file : FileAt w.row.1 reg t)
  | took (wins : Wins now s i reg) (file : FileAt w.row.1 (w.register env now) t)
      (stored : t.blobs[objectHash env (w.object now)]? = some (encodeObject env (w.object now)))

/-- What a pass lets a parked operation do: no harm; or write a file in `loose`, which it does not rewrite,
and leave a `good` object if it is `free`; or write a file that it rewrites, under a key below that of
the turn. -/
def Tolerated (env : Env) (absent : Hash → Prop) (loose free : Set U128) (good : Object → Prop) (now : U64)
    (due : List (U128 × Hash)) (s : CoreState) (op : FsOp) : Prop :=
  Harmless env absent s op ∨
    (∃ i ∈ loose, WritesTo i op ∧ (i ∈ free → Leaves env good s op)) ∨
    ∃ (i : Nat) (row : U128 × Hash), due[i]? = some row ∧ WritesTo row.1 op ∧ ownId s i ∉ s.applied ∧
      regKey op < ownKeyAt now s i

/-- A pass as a whole: what it neither rewrites nor lets go is kept, each file it does not rewrite has what
it had or what a parked write made of it, and each turn lands. -/
structure Passed (env : Env) (absent : Hash → Prop) (loose free : Set U128) (good : Object → Prop)
    (now : U64) (s : CoreState) (ws : List Rewrite) (t : CoreState) : Prop where
  kept : Core.Kept (loose ∪ {i | ∃ w ∈ ws, w.row.1 = i}) {id | ∃ j < ws.length, id = ownId s j} s t
  stored : Extends s t
  sourced : ∀ i, (∀ w ∈ ws, w.row.1 ≠ i) → Sourced env absent free good s t i
  landed : ∀ i w, ws[i]? = some w → ∀ reg, FileAt w.row.1 reg s → Landed env now s t i w reg

/-- What the first turn has done, for those after it. -/
structure FirstTurn (env : Env) (absent : Hash → Prop) (changed free : Set U128) (good : Object → Prop)
    (now : U64) (w : Rewrite) (reg : LwwReg ContentState) : Prop where
  kept : Core.Kept (insert w.row.1 changed) {ownId w.start 0} w.start w.finish
  sourced : ∀ i, i ≠ w.row.1 → Sourced env absent free good w.start w.finish i
  landed : Landed env now w.start w.finish 0 w reg
  reaches : ownId w.start 0 ∉ w.start.applied →
    ∃ later, contentAt w.finish w.row.1 = some later ∧ ownKeyAt now w.start 0 ≤ later.orderKey
  shift : ∀ j, ownId w.finish j = ownId w.start (j + 1)
  shiftKey : ∀ j, ownKeyAt now w.finish j = ownKeyAt now w.start (j + 1)

private theorem firstTurn {D : Set Bytes} {absent : Hash → Prop} {changed free : Set U128}
    {good : Object → Prop} {w : Rewrite} {make : M Content} {op : FsOp} {reg : LwwReg ContentState}
    (ideal : Ideal env) (inj : Set.InjOn env.blake3 D) (grown : Grown env identity now D w)
    (stores : plan.Stores env) (due : plan w.start w.row = some make)
    (made : make w.start = .ok w.content w.before)
    (ran : applyLocal env identity w.kind now w.before = .ok op w.finish)
    (file : FileAt w.row.1 reg w.start) (covers : chunksFormWholeFile w.content.1 w.content.2.1)
    (filed : ∀ {id : OpId} {op}, w.start.pending[id]? = some op → op.id = id)
    (spared : ∀ {id : OpId} {op}, w.start.pending[id]? = some op → Harmless env absent w.start op ∨
      (∃ i ∈ changed, WritesTo i op ∧ (i ∈ free → Leaves env good w.start op)) ∨
        (WritesTo w.row.1 op ∧ regKey op < ownKeyAt now w.start 0))
    (outside : w.row.1 ∉ changed) :
    Arrived absent w.finish ∨ FirstTurn env absent changed free good now w reg := by
  obtain ⟨-, prepared, start_before, before_finish, keyed_b, keyed_f, -, within_b, within_f, along⟩ := grown
  obtain ⟨⟨blobs, draws, -, only⟩, -⟩ := stores _ _ _ _ _ due made
  have numbers : w.before.device_id = w.start.device_id ∧
      w.before.next_counter = w.start.next_counter ∧ w.before.applied = w.start.applied := by
    rw [only]
    exact ⟨rfl, rfl, rfl⟩
  have counted := numbers_applyLocal env identity w.kind now w.before
  rw [ran] at counted
  have device : w.finish.device_id = w.start.device_id := counted.1.trans numbers.1
  have counter : w.finish.next_counter = w.start.next_counter + 1 := by
    rw [← numbers.2.1]
    exact counted.2
  have id : nextId w.before = ownId w.start 0 := by
    rw [ownId_zero, nextId, numbers.1, numbers.2.1, nextId]
  have key : writeKey now w.before = ownKeyAt now w.start 0 := by
    rw [ownKeyAt_zero, writeKey, numbers.1, numbers.2.1, writeKey]
  have spared_b : ∀ {id : OpId} {op}, w.before.pending[id]? = some op →
      Spared env absent changed free good now w.row.1 w.before op := by
    intro id parked here
    rcases spared (prepared.queue here) with none_so | ⟨i, inside, writes, leaves⟩ | ⟨writes, low⟩
    · exact .inl (prepared.harmless none_so)
    · exact .inr (.inl ⟨i, inside, writes, fun member => (leaves member).congr prepared.keys⟩)
    · exact .inr (.inr ⟨writes, key ▸ low⟩)
  refine (applyLocal_rewrites ideal inj ran keyed_b keyed_f (prepared.fileAt (by simp) file) covers
    (fun here => filed (prepared.queue here)) spared_b outside within_b within_f along).imp_right ?_
  rintro ⟨rewrote, sourced⟩
  have moved : Core.Kept (insert w.row.1 changed) {nextId w.before} w.before w.finish := by
    cases rewrote with
    | lost _ kept => exact kept.mono (Set.subset_insert _ _) le_rfl
    | took _ _ kept => exact kept
  refine ⟨?_, fun i other => ?_, ?_, fun new => ?_, ownId_succ device counter,
    ownKeyAt_succ device counter now⟩
  · rw [← id]
    exact (prepared.trans moved).mono (by simp) (by simp)
  · have same : Sourced env absent free good w.start w.before i := .inl (prepared.content i (by simp))
    exact same.trans (sourced i other) prepared before_finish
  · cases rewrote with
    | lost lost kept =>
        rw [id, key, numbers.2.2] at lost
        refine .lost (fun wins => ?_) (kept.fileAt outside (prepared.fileAt (by simp) file))
        exact lost.elim wins.1 fun low => low wins.2
    | took new wins kept file stored =>
        rw [id, numbers.2.2] at new
        exact .took ⟨new, key ▸ wins⟩ file stored
  · cases rewrote with
    | lost lost kept =>
        rw [id, key, numbers.2.2] at lost
        exact ⟨reg, (kept.fileAt outside (prepared.fileAt (by simp) file)).contentAt,
          not_lt.mp (lost.resolve_left new)⟩
    | took _ _ _ file _ => exact ⟨_, file.contentAt, key.symm.le⟩

section Turns

variable {absent : Hash → Prop} {loose changed free : Set U128} {good : Object → Prop} {w : Rewrite}
  {reg : LwwReg ContentState} {due : List (U128 × Hash)} {i : Nat}

private theorem FirstTurn.applied_iff (first : FirstTurn env absent changed free good now w reg)
    (small : i + 1 < 2 ^ 64) (unparked : w.start.pending[ownId w.start (i + 1)]? = none) :
    ownId w.finish i ∈ w.finish.applied ↔ ownId w.start (i + 1) ∈ w.start.applied := by
  rw [first.shift]
  refine ⟨fun here => ?_, first.kept.known⟩
  rcases first.kept.applied here with old | parked | same
  · exact old
  · rw [unparked] at parked
    cases parked
  · exact absurd (ownId_inj small (Nat.two_pow_pos 64) same) i.succ_ne_zero

private theorem FirstTurn.tolerated (first : FirstTurn env absent changed free good now w reg)
    (few : due.length + 1 ≤ 2 ^ 64)
    (unparked : ∀ i < due.length + 1, w.start.pending[ownId w.start i]? = none) {op : FsOp}
    (tolerated : Tolerated env absent loose free good now (w.row :: due) w.start op) :
    Tolerated env absent loose free good now due w.finish op := by
  rcases tolerated with none_so | ⟨i, inside, writes, leaves⟩ | ⟨i, row, here, writes, new, low⟩
  · exact .inl (first.kept.harmless none_so)
  · exact .inr (.inl ⟨i, inside, writes, fun member => (leaves member).congr first.kept.keys⟩)
  · cases i with
    | zero =>
        obtain rfl := Option.some.inj here
        obtain ⟨_, _, _, _, shape⟩ := writes
        obtain ⟨later, there, reaches⟩ := first.reaches new
        refine .inl (.loses shape fun reg here wins => ?_)
        obtain rfl := Option.some.inj (there.symm.trans here)
        exact (low.trans_le reaches).not_gt wins
    | succ i =>
        have below : i < due.length := Nat.lt_of_succ_lt_succ (List.getElem?_eq_some_iff.mp here).1
        refine .inr (.inr ⟨i, row, here, writes, fun taken => new ?_, (first.shiftKey i).symm ▸ low⟩)
        exact (first.applied_iff (by omega) (unparked _ (by omega))).mp taken

/-- For the first turn, a parked write of a file whose turn is yet to come is one of the others. -/
private theorem Tolerated.first {op : FsOp} {ws : List Rewrite}
    (tolerated : Tolerated env absent loose free good now ((w :: ws).map Rewrite.row) w.start op)
    (inside : free ⊆ loose) (tight : ∀ x ∈ ws, x.row.1 ∉ loose) :
    Harmless env absent w.start op ∨
      (∃ i ∈ loose ∪ {i | ∃ x ∈ ws, x.row.1 = i}, WritesTo i op ∧
        (i ∈ free → Leaves env good w.start op)) ∨
      (WritesTo w.row.1 op ∧ regKey op < ownKeyAt now w.start 0) := by
  rcases tolerated with none_so | ⟨i, loosed, writes, leaves⟩ | ⟨i, row, turn, writes, -, low⟩
  · exact .inl none_so
  · exact .inr (.inl ⟨i, .inl loosed, writes, leaves⟩)
  · cases i with
    | zero =>
        obtain rfl := Option.some.inj turn
        exact .inr (.inr ⟨writes, low⟩)
    | succ i =>
        have later : (ws.map Rewrite.row)[i]? = some row := turn
        obtain ⟨x, member, rfl⟩ := List.mem_map.mp (List.mem_of_getElem? later)
        exact .inr (.inl ⟨x.row.1, .inr ⟨x, member, rfl⟩, writes,
          fun freed => absurd (inside freed) (tight x member)⟩)

private theorem Tolerated.against {op : FsOp} {ws : List Rewrite} {x : Rewrite}
    (tolerated : Tolerated env absent loose free good now (ws.map Rewrite.row) s op)
    (apart : (ws.map fun x => x.row.1).Nodup) (turn : ws[i]? = some x) (tight : x.row.1 ∉ loose)
    (writes : WritesTo x.row.1 op) :
    Harmless env absent s op ∨ (ownId s i ∉ s.applied ∧ regKey op < ownKeyAt now s i) := by
  rcases tolerated with none_so | ⟨j, loosed, writes', -⟩ | ⟨j, row, due, writes', new, low⟩
  · exact .inl none_so
  · exact absurd (writes.unique writes' ▸ loosed) tight
  · obtain ⟨y, turn_j, rfl⟩ := Option.map_eq_some_iff.mp (List.getElem?_map.symm.trans due)
    have below : i < (ws.map fun x => x.row.1).length := by
      rw [List.length_map]
      exact (List.getElem?_eq_some_iff.mp turn).1
    have same : i = j := by
      refine (List.getElem?_inj below apart).mp ?_
      rw [List.getElem?_map, List.getElem?_map, turn, turn_j]
      exact congrArg some (writes.unique writes')
    exact .inr (same ▸ ⟨new, low⟩)

private theorem Landed.still {u : CoreState} (landed : Landed env now s t i w reg)
    (file : ∀ {r}, FileAt w.row.1 r t → FileAt w.row.1 r u) (stored : Extends t u) :
    Landed env now s u i w reg := by
  cases landed with
  | lost lost there => exact .lost lost (file there)
  | took wins there held => exact .took wins (file there) (stored _ _ held)

private theorem FirstTurn.lands {x : Rewrite} {reg' : LwwReg ContentState}
    (first : FirstTurn env absent changed free good now w reg) (few : i + 1 < 2 ^ 64)
    (unparked : w.start.pending[ownId w.start (i + 1)]? = none)
    (tolerated : ∀ {id : OpId} {op}, w.start.pending[id]? = some op → WritesTo x.row.1 op →
      Harmless env absent w.start op ∨ (ownId w.start (i + 1) ∉ w.start.applied ∧
        regKey op < ownKeyAt now w.start (i + 1)))
    (other : x.row.1 ≠ w.row.1) (file : FileAt x.row.1 reg' w.start)
    (later : ∀ reg, FileAt x.row.1 reg w.finish → Landed env now w.finish t i x reg) :
    Landed env now w.start t (i + 1) x reg' := by
  have same : ∀ {r}, Wins now w.finish i r ↔ Wins now w.start (i + 1) r := by
    intro r
    unfold Wins
    rw [first.applied_iff few unparked, first.shiftKey]
  obtain ⟨last, file', le⟩ := first.kept.file file
  rcases first.sourced x.row.1 other with kept | ⟨id, op, r, parked, rival, writes, here, key, -⟩
  · rw [file'.contentAt, file.contentAt] at kept
    obtain rfl := Option.some.inj kept
    cases later last file' with
    | lost lost file => exact .lost (fun wins => lost (same.mpr wins)) file
    | took wins file stored => exact .took (same.mp wins) file stored
  · obtain ⟨new, low⟩ := (tolerated parked writes).resolve_left rival
    obtain rfl := Option.some.inj (here.symm.trans file'.contentAt)
    have wins : Wins now w.start (i + 1) r := ⟨new, key ▸ low⟩
    cases later r file' with
    | lost lost _ => exact absurd (same.mpr wins) lost
    | took _ file stored => exact .took ⟨new, le.trans_lt wins.2⟩ file stored

end Turns

theorem Pass.passed {D : Set Bytes} {absent : Hash → Prop} {loose free : Set U128}
    {good : Object → Prop} (ideal : Ideal env) (inj : Set.InjOn env.blake3 D)
    (pass : Pass env identity now plan s rows ws t) (stores : plan.Stores env)
    (keyed : Keyed env s) (distinct : (rows.map Prod.fst).Nodup)
    (files : ∀ row ∈ rows, ∃ reg, FileAt row.1 reg s)
    (filed : ∀ {id : OpId} {op}, s.pending[id]? = some op → op.id = id)
    (tolerated : ∀ {id : OpId} {op}, s.pending[id]? = some op →
      Tolerated env absent loose free good now (ws.map Rewrite.row) s op)
    (inside : free ⊆ loose) (tight : ∀ w ∈ ws, w.row.1 ∉ loose) (few : ws.length ≤ 2 ^ 64)
    (unparked : ∀ i < ws.length, s.pending[ownId s i]? = none)
    (covers : ∀ w ∈ ws, chunksFormWholeFile w.content.1 w.content.2.1)
    (touched : ∀ w ∈ ws, ∀ bytes ∈ w.touched env identity now, bytes ∈ D) :
    Arrived absent t ∨ Passed env absent loose free good now s ws t := by
  induction pass with
  | nil s =>
      exact .inr ⟨(Core.Kept.refl s).mono (by simp) (by simp), .refl s, fun i _ => .inl rfl,
        fun i w here => nomatch here⟩
  | skip idle rest ih =>
      exact ih keyed (List.nodup_cons.mp distinct).2
        (fun row member => files row (List.mem_cons_of_mem _ member)) filed tolerated tight few unparked
        covers touched
  | @turn t rows ws w make op due made ran rest ih =>
      have grown := grown stores due made ran keyed inj (touched w List.mem_cons_self)
      obtain ⟨reg, file⟩ := files w.row List.mem_cons_self
      have apart : ((w :: ws).map fun x => x.row.1).Nodup := by
        have rows := ((Pass.turn due made ran rest).sublist.map Prod.fst).nodup distinct
        rwa [List.map_map] at rows
      have other_row : ∀ x ∈ ws, x.row.1 ≠ w.row.1 := fun x member same =>
        (List.nodup_cons.mp apart).1 (List.mem_map.mpr ⟨x, member, same⟩)
      have outside : w.row.1 ∉ loose ∪ {i | ∃ x ∈ ws, x.row.1 = i} := by
        rintro (loosed | ⟨x, member, same⟩)
        · exact tight w List.mem_cons_self loosed
        · exact other_row x member same
      have length : (ws.map Rewrite.row).length = ws.length := List.length_map _
      rw [List.length_cons] at few unparked
      have firsts := @firstTurn env identity now plan D absent (loose ∪ {i | ∃ x ∈ ws, x.row.1 = i}) free
        good w make op reg ideal inj grown stores due made ran file (covers w List.mem_cons_self) filed
        (fun here => (tolerated here).first inside fun x member => tight x (List.mem_cons_of_mem _ member))
        outside
      rcases firsts with arrived | first
      · exact .inl (arrived.mono (rest.blobs stores))
      have later := ih grown.keyed (List.nodup_cons.mp distinct).2
        (fun row member => by
          obtain ⟨reg, file⟩ := files row (List.mem_cons_of_mem _ member)
          obtain ⟨last, file', -⟩ := first.kept.file file
          exact ⟨last, file'⟩)
        (fun here => filed (first.kept.queue here))
        (fun here => first.tolerated (by omega) (fun i below => unparked i (by omega))
          (tolerated (first.kept.queue here)))
        (fun x member => tight x (List.mem_cons_of_mem _ member)) (by omega)
        (fun i below => by
          rw [first.shift]
          have missing := unparked (i + 1) (by omega)
          by_contra parked
          obtain ⟨op, here⟩ := Option.ne_none_iff_exists'.mp parked
          rw [first.kept.queue here] at missing
          cases missing)
        (fun x member => covers x (List.mem_cons_of_mem _ member))
        (fun x member => touched x (List.mem_cons_of_mem _ member))
      refine later.imp_right fun passed => ⟨?_, ?_, fun i none_there => ?_, fun i x here reg' file' => ?_⟩
      · refine (first.kept.trans passed.kept).mono ?_ ?_
        · rintro i ((rfl | loosed | ⟨x, member, rfl⟩) | loosed | ⟨x, member, rfl⟩)
          · exact .inr ⟨w, List.mem_cons_self, rfl⟩
          · exact .inl loosed
          · exact .inr ⟨x, List.mem_cons_of_mem _ member, rfl⟩
          · exact .inl loosed
          · exact .inr ⟨x, List.mem_cons_of_mem _ member, rfl⟩
        · rintro x (rfl | ⟨j, below, rfl⟩)
          · exact ⟨0, Nat.succ_pos _, rfl⟩
          · exact ⟨j + 1, Nat.succ_lt_succ below, first.shift j⟩
      · exact (grown.before.trans grown.finish).trans passed.stored
      · exact (first.sourced i (none_there w List.mem_cons_self).symm).trans
          (passed.sourced i fun x member => none_there x (List.mem_cons_of_mem _ member)) first.kept
          passed.stored
      · cases i with
        | zero =>
            obtain rfl := Option.some.inj here
            obtain rfl := Option.some.inj (file.contentAt.symm.trans file'.contentAt)
            exact first.landed.still (passed.kept.fileAt outside) passed.stored
        | succ i =>
            have turn : ws[i]? = some x := here
            have below : i < ws.length := (List.getElem?_eq_some_iff.mp turn).1
            have member := List.mem_of_getElem? turn
            exact first.lands (by omega) (unparked (i + 1) (by omega))
              (fun parked writes => (tolerated parked).against apart here
                (tight x (List.mem_cons_of_mem _ member)) writes)
              (other_row x member) file' (passed.landed i x turn)

end Pass

section Steady

variable {env : Env} {identity : Identity} {now : U64} {plan : Plan} {own world : Set Bytes}
  {origin s t u : CoreState} {row : U128 × Hash} {rows : List (U128 × Hash)} {ws : List Rewrite}

theorem sameRow_of_stays (stays : Stays env own origin u) (grew : Extends origin u)
    (within : StoreIn env world u)
    (lacks : ∀ hash, Names env origin row hash → origin.hasBlob hash ∨ Beyond env own origin world hash) :
    SameRow env origin row u :=
  ⟨stays.keys, grew, fun hash named held => (lacks hash named).resolve_right fun beyond =>
    beyond.not_held stays within held⟩

/-- A pass comes to store nothing that the node could not, so each turn finds its row as it was at the start
and follows the plan of the start. -/
structure Stayed (env : Env) (plan : Plan) (own world : Set Bytes) (origin : CoreState)
    (rows : List (U128 × Hash)) (ws : List Rewrite) (t : CoreState) : Prop where
  stays : Stays env own origin t
  grew : Extends origin t
  within : StoreIn env world t
  same : ∀ w ∈ ws, SameRow env origin w.row w.start
  covers : ∀ w ∈ ws, chunksFormWholeFile w.content.1 w.content.2.1
  finish : ∀ w ∈ ws, Extends w.before t
  due : ws.map Rewrite.row = rows.filter fun row => (plan origin row).isSome

theorem Pass.stayed (ideal : Ideal env) (inj : Set.InjOn env.blake3 world)
    (pass : Pass env identity now plan s rows ws t) (stores : plan.Stores env) (keyed : Keyed env s)
    (stays : Stays env own origin s) (grew : Extends origin s) (within : StoreIn env world s)
    (lacks : ∀ row ∈ rows, ∀ hash, Names env origin row hash →
      origin.hasBlob hash ∨ Beyond env own origin world hash)
    (steady : ∀ row ∈ rows, ∀ u, SameRow env origin row u → plan u row = plan origin row)
    (makes : ∀ row ∈ rows, ∀ u make content b, plan origin row = some make → Stays env own origin u →
      make u = .ok content b → Stays env own origin b ∧ chunksFormWholeFile content.1 content.2.1)
    (touched : ∀ w ∈ ws, ∀ bytes ∈ w.touched env identity now, bytes ∈ world) :
    Stayed env plan own world origin rows ws t := by
  induction pass with
  | nil s => exact ⟨stays, grew, within, by simp, by simp, by simp, rfl⟩
  | @skip s t row rows ws idle rest ih =>
      have same := steady row List.mem_cons_self s (sameRow_of_stays stays grew within (lacks row List.mem_cons_self))
      obtain ⟨stays, grew, within, rows_same, covers, finish, due⟩ := ih keyed stays grew within
        (fun row member => lacks row (List.mem_cons_of_mem _ member))
        (fun row member => steady row (List.mem_cons_of_mem _ member))
        (fun row member => makes row (List.mem_cons_of_mem _ member)) touched
      refine ⟨stays, grew, within, rows_same, covers, finish, ?_⟩
      rw [List.filter_cons_of_neg (by rw [← same, idle]; decide)]
      exact due
  | @turn t rows ws w make op due made ran rest ih =>
      have grown := grown stores due made ran keyed inj (touched w List.mem_cons_self)
      have same_row := sameRow_of_stays stays grew within (lacks w.row List.mem_cons_self)
      have same := steady w.row List.mem_cons_self w.start same_row
      rw [same] at due
      obtain ⟨stays_b, covers⟩ := makes w.row List.mem_cons_self w.start make _ _ due stays made
      have stays_f : Stays env own origin w.finish := by
        have kept := @Stays.applyLocal env identity now w.kind own origin ideal (fun op shape => ?_) w.before
          stays_b
        · rwa [ran] at kept
        · rintro ⟨_, _, _, _, _, other, partly⟩
          cases shape.symm.trans other
          exact partly ⟨rfl, covers⟩
      have grew_f := (grew.trans grown.before).trans grown.finish
      have later := ih grown.keyed stays_f grew_f grown.within
        (fun row member => lacks row (List.mem_cons_of_mem _ member))
        (fun row member => steady row (List.mem_cons_of_mem _ member))
        (fun row member => makes row (List.mem_cons_of_mem _ member))
        (fun x member => touched x (List.mem_cons_of_mem _ member))
      have last : Extends w.finish t := by
        refine extends_of_keeps inj grown.within later.within (rest.blobs stores)
      refine ⟨later.stays, later.grew, later.within, List.forall_mem_cons.mpr ⟨same_row, later.same⟩,
        List.forall_mem_cons.mpr ⟨covers, later.covers⟩,
        List.forall_mem_cons.mpr ⟨grown.finish.trans last, later.finish⟩, ?_⟩
      rw [List.filter_cons_of_pos (by rw [due]; rfl), List.map_cons, later.due]

end Steady

end NexusFS.Net
