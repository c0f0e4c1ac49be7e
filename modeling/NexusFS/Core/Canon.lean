/- GID: NexusFS/Core/Canon
   source: crates/core/src/apply.rs
   digest: Every state is what its applied operations mean, whatever the order they came in. -/

import NexusFS.Core.Meaning

set_option autoImplicit false
set_option relaxedAutoImplicit false

namespace NexusFS.Core

open NexusFS.Lib NexusFS.Lib.Effect NexusFS.Proto NexusFS.Crdt CoreState

/-- A rename that its state treats as every other order would: the highest observed dot is live
and may be moved, or it has not been removed and the rename still waits for it. -/
def RenameSafe (s : CoreState) (op : FsOp) : Prop :=
  ∀ ⦃old_parent old_name new_parent new_name observed⦄,
    op.kind = .rename old_parent old_name new_parent new_name observed →
    s.isDir old_parent = true → s.isDir new_parent = true →
    ∀ top, IsTop observed top →
      (∃ value, s.Live old_parent old_name top value ∧
        (value.entry_type = .dir → subtreeContains s value.inode_id new_parent = .ok false)) ∨
      (¬s.Removed old_parent old_name top ∧
        ∀ dot ∈ observed, ∀ value, ¬s.Live old_parent old_name dot value)

def CoreState.done (s : CoreState) : Set OpId := {id | id ∈ s.applied}

/-- The directory maps are what the applied operations mean. -/
structure LinksCanon (env : Env) (ops : Finset FsOp) (s : CoreState) : Prop where
  adds : ∀ {p n d v}, s.added p n d = some v → Adds env ops s.done p n d v
  creates : ∀ {op kind p n mode}, op ∈ ops → op.id ∈ s.done → op.kind = creation kind p n mode →
    s.added p n op.id = some (createdValue env op kind)
  moves : ∀ {op p n q m observed top}, op ∈ ops → op.id ∈ s.done →
    op.kind = .rename p n q m observed → IsTop observed top →
    ∃ v, s.added p n top = some v ∧ s.added q m op.id = some (movedValue op v)
  removed : ∀ p n d, s.Removed p n d ↔ Removes ops s.done p n d
  tidy : ∀ p, (s.dirAt p).Tidy

/-- A record is what its inode started from and the writes and changes applied to it. -/
structure RecordCanon (env : Env) (ops : Finset FsOp) (done : Set OpId) (inode : U128)
    (first record : InodeRecord) : Prop where
  kind : record.kind = first.kind
  ctime : record.ctime_unix_ms = first.ctime_unix_ms
  content : LwwReg.Latest first.content (Writes env ops done inode) record.content
  attrs : LwwReg.Latest first.attrs (Sets ops done inode) record.attrs

def Touches (op : FsOp) (inode : U128) : Prop :=
  (∃ offset chunks new_size encryption, op.kind = .write inode offset chunks new_size encryption) ∨
    ∃ mode uid gid, op.kind = .setAttr inode mode uid gid

/-- The records are what the applied operations mean. -/
structure RecordsCanon (env : Env) (ops : Finset FsOp) (s : CoreState) : Prop where
  records : ∀ {i r}, s.loadInode i = some r →
    ∃ first, Born env ops s.done i first ∧ RecordCanon env ops s.done i first r
  born : ∀ {i first}, Born env ops s.done i first → ∃ r, s.loadInode i = some r
  touched : ∀ {op i}, op ∈ ops → op.id ∈ s.done → Touches op i → ∃ r, s.loadInode i = some r

def isRename (op : FsOp) : Bool :=
  match op.kind with
  | .rename _ _ _ _ _ => true
  | _ => false

def ParentsCanon (env : Env) (ops : Finset FsOp) (s : CoreState) : Prop :=
  ∀ i p, s.parentOf i = some p ↔ ∃ op ∈ ops, op.id ∈ s.done ∧ inodeForOp env op.id = i ∧
    ∃ kind name mode, op.kind = creation kind p name mode

/-- A state is what its applied operations mean, and each of them was enabled by others. -/
structure Canon (env : Env) (ops : Finset FsOp) (s : CoreState) : Prop where
  links : LinksCanon env ops s
  inodes : RecordsCanon env ops s
  parents : (∀ op ∈ ops, isRename op = false) → ParentsCanon env ops s
  parked : ∀ {id : OpId} {op}, s.pending[id]? = some op → op ∈ ops ∧ ¬Hopeless op
  least : ∀ later, ClosedUnder env ops later → s.done ⊆ later

section Steps

variable {env : Env} {ops : Finset FsOp} {s t : CoreState} {op : FsOp}

theorem Effect.done (effect : Effect env op s t) :
    (t.noteApplied op).done = insert op.id s.done := by
  obtain ⟨dirs, inodes, parents, blobs, draws, -, rfl⟩ := effect.frame
  ext id
  show id ∈ s.applied.insert op.id ↔ _
  rw [BTreeSet.mem_insert, Set.mem_insert_iff]
  exact or_congr eq_comm Iff.rfl

theorem RecordsCanon.isDir_iff (records : RecordsCanon env ops s) (batch : Batch env ops)
    (i : U128) : s.isDir i = true ↔ MadeDir env ops s.done i := by
  rw [CoreState.isDir_iff]
  constructor
  · rintro ⟨r, found, dir⟩
    obtain ⟨first, born, canon⟩ := records.records found
    exact ⟨first, born, canon.kind.symm.trans dir⟩
  · rintro ⟨first, born, dir⟩
    obtain ⟨r, found⟩ := records.born born
    obtain ⟨first', born', canon⟩ := records.records found
    obtain rfl := batch.born_unique born born'
    exact ⟨r, found, canon.kind.trans dir⟩

theorem LinksCanon.added_of_adds (links : LinksCanon env ops s) {p : U128} {n : String} {d : Dot}
    {v : DirEntryValue} (adds : Adds env ops s.done p n d v) : s.added p n d = some v := by
  induction adds with
  | created member applied shape => exact links.creates member applied shape
  | moved member applied shape highest _ ih =>
      obtain ⟨value, source, target⟩ := links.moves member applied shape highest
      rw [target, Option.some.inj (source.symm.trans ih)]

theorem RenameSafe.source {old_parent new_parent : U128} {old_name new_name : String}
    {observed : List OpId} {dot : Dot} {entry : DirEntryValue} (safe : RenameSafe s op)
    (shape : op.kind = .rename old_parent old_name new_parent new_name observed)
    (source : s.isDir old_parent = true) (target : s.isDir new_parent = true)
    (found : renameSource ((s.dirAt old_parent).getAll old_name) observed = some (dot, entry)) :
    IsTop observed dot ∧ s.Live old_parent old_name dot entry ∧
      (entry.entry_type = .dir → subtreeContains s entry.inode_id new_parent = .ok false) := by
  obtain ⟨member, seen, above⟩ := renameSource_eq_some found
  have live : s.Live old_parent old_name dot entry := (OrMap.mem_getAll _ _ _ _).mp member
  obtain ⟨top, highest⟩ := exists_isTop (List.ne_nil_of_mem seen)
  rcases safe shape source target top highest with ⟨value, here, outside⟩ | ⟨-, none_live⟩
  · have below : top ≤ dot := above (top, value) ((OrMap.mem_getAll _ _ _ _).mpr here) highest.1
    obtain rfl := le_antisymm below (highest.2 dot seen)
    obtain rfl := Option.some.inj (here.1.symm.trans live.1)
    exact ⟨highest, live, outside⟩
  · exact absurd live (none_live dot seen entry)

theorem Canon.enabled (canon : Canon env ops s) (batch : Batch env ops) (safe : RenameSafe s op)
    (effect : Effect env op s t) : Enabled env ops s.done op := by
  have madeDir : ∀ {i}, s.isDir i = true → MadeDir env ops s.done i := fun dir =>
    (canon.inodes.isDir_iff batch _).mp dir
  have file : ∀ {i r}, s.loadInode i = some r → r.kind = .file →
      ∃ first, Born env ops s.done i first ∧ first.kind = .file := by
    intro i r found isFile
    obtain ⟨first, born, record⟩ := canon.inodes.records found
    exact ⟨first, born, record.kind.symm.trans isFile⟩
  unfold Enabled
  cases effect with
  | @created parent name mode kind shape valid dir =>
      rw [shape]
      cases kind <;> exact ⟨valid, madeDir dir⟩
  | superseded shape found isFile =>
      rw [shape]
      exact file found isFile
  | wrote shape found isFile =>
      rw [shape]
      exact file found isFile
  | movedNothing shape valid source target =>
      rw [shape]
      refine ⟨valid, madeDir source, madeDir target, fun top highest => ?_⟩
      cases highest.1
  | @moved old_parent new_parent old_name new_name observed dot entry shape valid source target
      found =>
      obtain ⟨isTop, live, -⟩ := safe.source shape source target found
      rw [shape]
      refine ⟨valid, madeDir source, madeDir target, fun top highest => ⟨entry, ?_⟩⟩
      obtain rfl := isTop.unique highest
      exact canon.links.adds live.1
  | unlinked shape dir =>
      rw [shape]
      exact madeDir dir
  | changedAttrs shape found =>
      rw [shape]
      obtain ⟨first, born, -⟩ := canon.inodes.records found
      exact ⟨first, born⟩

private theorem applied_cases (batch : Batch env ops) (member : op ∈ ops)
    (done : t.done = insert op.id s.done) {other : FsOp} (inside : other ∈ ops)
    (applied : other.id ∈ t.done) : other = op ∨ other.id ∈ s.done := by
  rw [done, Set.mem_insert_iff] at applied
  exact applied.imp_left fun same => batch.distinct inside member same

private theorem LinksCanon.step (links : LinksCanon env ops s) (batch : Batch env ops)
    (member : op ∈ ops) (done : t.done = insert op.id s.done)
    (kept : ∀ {p n d v}, s.added p n d = some v → t.added p n d = some v)
    (fresh : ∀ {p n d v}, t.added p n d = some v →
      s.added p n d = some v ∨ Adds env ops t.done p n d v)
    (creates : ∀ {kind p n mode}, op.kind = creation kind p n mode →
      t.added p n op.id = some (createdValue env op kind))
    (moves : ∀ {p n q m observed top}, op.kind = .rename p n q m observed → IsTop observed top →
      ∃ v, t.added p n top = some v ∧ t.added q m op.id = some (movedValue op v))
    (removed : ∀ p n d, t.Removed p n d ↔ RemovesDot op p n d ∨ s.Removed p n d)
    (tidy : ∀ p, (t.dirAt p).Tidy) : LinksCanon env ops t := by
  have grows : s.done ⊆ t.done := done ▸ Set.subset_insert _ _
  have here : op.id ∈ t.done := done ▸ Set.mem_insert _ _
  refine ⟨?_, ?_, ?_, ?_, tidy⟩
  · intro p n d v added
    rcases fresh added with old | new
    · exact (links.adds old).mono grows
    · exact new
  · intro other kind p n mode inside applied shape
    rcases applied_cases batch member done inside applied with rfl | old
    · exact creates shape
    · exact kept (links.creates inside old shape)
  · intro other p n q m observed top inside applied shape highest
    rcases applied_cases batch member done inside applied with rfl | old
    · exact moves shape highest
    · obtain ⟨v, source, target⟩ := links.moves inside old shape highest
      exact ⟨v, kept source, kept target⟩
  · intro p n d
    rw [removed, links.removed]
    constructor
    · rintro (now | ⟨other, inside, old, removes⟩)
      · exact ⟨op, member, here, now⟩
      · exact ⟨other, inside, grows old, removes⟩
    · rintro ⟨other, inside, applied, removes⟩
      rcases applied_cases batch member done inside applied with rfl | old
      · exact .inl removes
      · exact .inr ⟨other, inside, old, removes⟩

private theorem LinksCanon.idle (links : LinksCanon env ops s) (batch : Batch env ops)
    (member : op ∈ ops) (done : t.done = insert op.id s.done) (dirs : t.dirs = s.dirs)
    (noCreation : ∀ kind p n mode, op.kind ≠ creation kind p n mode)
    (noRemoval : ∀ p n d, ¬RemovesDot op p n d) : LinksCanon env ops t := by
  have dirAt : ∀ p, t.dirAt p = s.dirAt p := fun p => by
    simp only [CoreState.dirAt, loadDir, dirs]
  have added : ∀ p n d, t.added p n d = s.added p n d := fun p n d => by
    simp only [CoreState.added, dirAt]
  refine links.step batch member done ?_ ?_ ?_ ?_ ?_ ?_
  · intro p n d v here
    exact (added p n d).trans here
  · intro p n d v here
    exact .inl ((added p n d).symm.trans here)
  · intro kind p n mode shape
    exact absurd shape (noCreation kind p n mode)
  · intro p n q m observed top shape highest
    exact absurd ⟨observed, highest.1, .inr ⟨q, m, shape⟩⟩ (noRemoval p n top)
  · intro p n d
    simp only [CoreState.Removed, dirAt, noRemoval, false_or]
  · intro p
    rw [dirAt]
    exact links.tidy p

private theorem LinksCanon.created (links : LinksCanon env ops s) (batch : Batch env ops)
    (shape : Shape env (batchIds ops) s) (member : op ∈ ops) (new : op.id ∉ s.applied)
    {parent : U128} {name : String} {mode : U32} {kind : EntryType}
    (kindIs : op.kind = creation kind parent name mode) (dir : s.isDir parent = true)
    (done : ((linkCreated env op parent name mode kind s).noteApplied op).done =
      insert op.id s.done) :
    LinksCanon env ops ((linkCreated env op parent name mode kind s).noteApplied op) := by
  have inIds : op.id ∈ batchIds ops := ⟨op, member, rfl⟩
  have fresh := shape.loadDir_fresh batch.separate inIds new
  have other : inodeForOp env op.id ≠ parent := by
    rintro rfl
    simp [isDir, shape.loadInode_fresh batch.separate inIds new] at dir
  have added := @added_linkCreated env op parent name mode kind s other fresh
  have removed := @removed_linkCreated env op parent name mode kind s other fresh
  refine links.step batch member done ?_ ?_ ?_ ?_ ?_ ?_
  · intro p n d v here
    rw [added_noteApplied, added, if_neg, here]
    rintro ⟨-, -, rfl⟩
    exact new (shape.dotApplied here)
  · intro p n d v here
    rw [added_noteApplied, added] at here
    split at here
    · rename_i spot
      obtain ⟨rfl, rfl, rfl⟩ := spot
      rw [← Option.some.inj here, done]
      exact .inr (.created member (Set.mem_insert _ _) kindIs)
    · exact .inl here
  · intro kind' p n mode' kindIs'
    obtain ⟨rfl, rfl, rfl, rfl⟩ := creation_inj (kindIs.symm.trans kindIs')
    rw [added_noteApplied, added, if_pos ⟨rfl, rfl, rfl⟩]
  · intro p n q m observed top kindIs'
    rw [kindIs] at kindIs'
    cases kind <;> cases kindIs'
  · intro p n d
    rw [removed_noteApplied, removed]
    refine ⟨.inr, ?_⟩
    rintro (⟨observed, -, kindIs' | ⟨q, m, kindIs'⟩⟩ | old)
    · rw [kindIs] at kindIs'
      cases kind <;> cases kindIs'
    · rw [kindIs] at kindIs'
      cases kind <;> cases kindIs'
    · exact old
  · intro p
    rw [dirAt_noteApplied, dirAt_linkCreated other fresh]
    split
    · exact (links.tidy p).add _ _ _
    · exact links.tidy p

private theorem LinksCanon.tidy_removed (links : LinksCanon env ops s) (parent : U128)
    (name : String) (observed : List OpId) (p : U128) :
    ((s.storeDir parent ((s.dirAt parent).removeDots name observed)).dirAt p).Tidy := by
  rw [dirAt_storeDir]
  split
  · exact (links.tidy parent).removeDots _ _
  · exact links.tidy p

private theorem LinksCanon.unlinked (links : LinksCanon env ops s) (batch : Batch env ops)
    (member : op ∈ ops) {parent : U128} {name : String} {observed : List OpId}
    (kindIs : op.kind = .unlink parent name observed)
    (done : ((s.storeDir parent ((s.dirAt parent).removeDots name observed)).noteApplied op).done
      = insert op.id s.done) :
    LinksCanon env ops
      ((s.storeDir parent ((s.dirAt parent).removeDots name observed)).noteApplied op) := by
  refine links.step batch member done ?_ ?_ ?_ ?_ ?_ ?_
  · intro p n d v here
    rwa [added_noteApplied, added_removeDots]
  · intro p n d v here
    rw [added_noteApplied, added_removeDots] at here
    exact .inl here
  · intro kind p n mode kindIs'
    rw [kindIs] at kindIs'
    cases kind <;> cases kindIs'
  · intro p n q m observed' top kindIs'
    rw [kindIs] at kindIs'
    cases kindIs'
  · intro p n d
    rw [removed_noteApplied, removed_removeDots]
    refine or_congr ⟨?_, ?_⟩ Iff.rfl
    · rintro ⟨rfl, rfl, seen⟩
      exact ⟨observed, seen, .inl kindIs⟩
    · rintro ⟨observed', seen, kindIs' | ⟨q, m, kindIs'⟩⟩
      · rw [kindIs] at kindIs'
        cases kindIs'
        exact ⟨rfl, rfl, seen⟩
      · rw [kindIs] at kindIs'
        cases kindIs'
  · intro p
    rw [dirAt_noteApplied]
    exact links.tidy_removed parent name observed p

private theorem LinksCanon.moved (links : LinksCanon env ops s) (batch : Batch env ops)
    (shape : Shape env (batchIds ops) s) (member : op ∈ ops) (new : op.id ∉ s.applied)
    {old_parent new_parent : U128} {old_name new_name : String} {observed : List OpId} {dot : Dot}
    {entry : DirEntryValue}
    (kindIs : op.kind = .rename old_parent old_name new_parent new_name observed)
    (highest : IsTop observed dot) (live : s.Live old_parent old_name dot entry)
    (done : ((moveEntry op entry old_parent old_name new_parent new_name observed s).noteApplied
      op).done = insert op.id s.done) :
    LinksCanon env ops
      ((moveEntry op entry old_parent old_name new_parent new_name observed s).noteApplied op) := by
  have kept : ∀ {p n d v}, s.added p n d = some v →
      ((moveEntry op entry old_parent old_name new_parent new_name observed s).noteApplied
        op).added p n d = some v := by
    intro p n d v here
    rw [added_noteApplied, added_moveEntry, if_neg, here]
    rintro ⟨-, -, rfl⟩
    exact new (shape.dotApplied here)
  refine links.step batch member done (fun here => kept here) ?_ ?_ ?_ ?_ ?_
  · intro p n d v here
    rw [added_noteApplied, added_moveEntry] at here
    split at here
    · rename_i spot
      obtain ⟨rfl, rfl, rfl⟩ := spot
      rw [← Option.some.inj here, done]
      exact .inr (.moved member (Set.mem_insert _ _) kindIs highest
        ((links.adds live.1).mono (Set.subset_insert _ _)))
    · exact .inl here
  · intro kind p n mode kindIs'
    rw [kindIs] at kindIs'
    cases kind <;> cases kindIs'
  · intro p n q m observed' top kindIs' highest'
    rw [kindIs] at kindIs'
    cases kindIs'
    obtain rfl := highest.unique highest'
    refine ⟨entry, kept live.1, ?_⟩
    rw [added_noteApplied, added_moveEntry, if_pos ⟨rfl, rfl, rfl⟩]
  · intro p n d
    rw [removed_noteApplied, removed_moveEntry]
    refine or_congr ⟨?_, ?_⟩ Iff.rfl
    · rintro ⟨rfl, rfl, seen⟩
      exact ⟨observed, seen, .inr ⟨new_parent, new_name, kindIs⟩⟩
    · rintro ⟨observed', seen, kindIs' | ⟨q, m, kindIs'⟩⟩
      · rw [kindIs] at kindIs'
        cases kindIs'
      · rw [kindIs] at kindIs'
        cases kindIs'
        exact ⟨rfl, rfl, seen⟩
  · intro p
    have removed := links.tidy_removed old_parent old_name observed p
    rw [dirAt_noteApplied, dirAt_moveEntry]
    split
    · exact removed.add _ _ _
    · exact removed

theorem LinksCanon.effect (links : LinksCanon env ops s) (batch : Batch env ops)
    (shape : Shape env (batchIds ops) s) (member : op ∈ ops) (new : op.id ∉ s.applied)
    (safe : RenameSafe s op) (effect : Effect env op s t) :
    LinksCanon env ops (t.noteApplied op) := by
  have done := effect.done
  have plain : ∀ {u : CoreState}, (u.noteApplied op).done = insert op.id s.done →
      u.dirs = s.dirs → (∀ kind p n mode, op.kind ≠ creation kind p n mode) →
      (∀ p n d, ¬RemovesDot op p n d) → LinksCanon env ops (u.noteApplied op) :=
    fun done dirs noCreation noRemoval =>
      links.idle batch member done dirs noCreation noRemoval
  cases effect with
  | created kindIs _ dir => exact links.created batch shape member new kindIs dir done
  | superseded kindIs =>
      refine plain done rfl ?_ ?_
      · intro kind p n mode
        cases kind <;> simp [kindIs, creation]
      · simp [RemovesDot, kindIs]
  | wrote kindIs _ _ _ content =>
      obtain ⟨blobs, draws, -, rfl⟩ := content
      refine plain done rfl ?_ ?_
      · intro kind p n mode
        cases kind <;> simp [kindIs, creation]
      · simp [RemovesDot, kindIs]
  | movedNothing kindIs =>
      refine plain done rfl ?_ ?_
      · intro kind p n mode
        cases kind <;> simp [kindIs, creation]
      · rintro p n d ⟨observed, seen, kindIs' | ⟨q, m, kindIs'⟩⟩
        · rw [kindIs] at kindIs'
          cases kindIs'
        · rw [kindIs] at kindIs'
          cases kindIs'
          cases seen
  | moved kindIs _ source target found =>
      obtain ⟨highest, live, -⟩ := safe.source kindIs source target found
      exact links.moved batch shape member new kindIs highest live done
  | unlinked kindIs => exact links.unlinked batch member kindIs done
  | changedAttrs kindIs =>
      refine plain done rfl ?_ ?_
      · intro kind p n mode
        cases kind <;> simp [kindIs, creation]
      · simp [RemovesDot, kindIs]

private def WritesNow (env : Env) (op : FsOp) (i : U128) (c : LwwReg ContentState) : Prop :=
  ∃ offset chunks new_size encryption, op.kind = .write i offset chunks new_size encryption ∧
    c = contentOf op (objectHash env (fileObject chunks new_size op.time_unix_ms encryption)) new_size

private def SetsNow (op : FsOp) (i : U128) (c : LwwReg AttrState) : Prop :=
  ∃ mode uid gid, op.kind = .setAttr i (some mode) (some uid) (some gid) ∧
    c = ⟨⟨mode, uid, gid⟩, op.time_unix_ms, op.id.device_id, op.id.counter⟩

private theorem writes_step (batch : Batch env ops) (member : op ∈ ops)
    (done : t.done = insert op.id s.done) (i : U128) (c : LwwReg ContentState) :
    Writes env ops t.done i c ↔ WritesNow env op i c ∨ Writes env ops s.done i c := by
  constructor
  · rintro ⟨other, inside, applied, writes⟩
    rcases applied_cases batch member done inside applied with rfl | old
    · exact .inl writes
    · exact .inr ⟨other, inside, old, writes⟩
  · rw [done]
    rintro (now | ⟨other, inside, old, writes⟩)
    · exact ⟨op, member, Set.mem_insert _ _, now⟩
    · exact ⟨other, inside, Set.mem_insert_of_mem _ old, writes⟩

private theorem sets_step (batch : Batch env ops) (member : op ∈ ops)
    (done : t.done = insert op.id s.done) (i : U128) (c : LwwReg AttrState) :
    Sets ops t.done i c ↔ SetsNow op i c ∨ Sets ops s.done i c := by
  constructor
  · rintro ⟨other, inside, applied, sets⟩
    rcases applied_cases batch member done inside applied with rfl | old
    · exact .inl sets
    · exact .inr ⟨other, inside, old, sets⟩
  · rw [done]
    rintro (now | ⟨other, inside, old, sets⟩)
    · exact ⟨op, member, Set.mem_insert _ _, now⟩
    · exact ⟨other, inside, Set.mem_insert_of_mem _ old, sets⟩

private theorem RecordCanon.untouched {i : U128} {first r : InodeRecord}
    (canon : RecordCanon env ops s.done i first r) (batch : Batch env ops) (member : op ∈ ops)
    (done : t.done = insert op.id s.done) (apart : ¬Touches op i) :
    RecordCanon env ops t.done i first r := by
  refine ⟨canon.kind, canon.ctime, canon.content.congr fun c => ?_, canon.attrs.congr fun c => ?_⟩
  · rw [writes_step batch member done]
    refine or_iff_right ?_
    rintro ⟨offset, chunks, new_size, encryption, kindIs, -⟩
    exact apart (.inl ⟨offset, chunks, new_size, encryption, kindIs⟩)
  · rw [sets_step batch member done]
    refine or_iff_right ?_
    rintro ⟨mode, uid, gid, kindIs, -⟩
    exact apart (.inr ⟨some mode, some uid, some gid, kindIs⟩)

private theorem RecordCanon.written {i : U128} {first r : InodeRecord} {offset : U64}
    {chunks : List ChunkRef} {new_size : U64} {encryption : Option FileEncryption}
    (canon : RecordCanon env ops s.done i first r) (batch : Batch env ops) (member : op ∈ ops)
    (done : t.done = insert op.id s.done)
    (kindIs : op.kind = .write i offset chunks new_size encryption) :
    RecordCanon env ops t.done i first { r with
      content := r.content.merge (contentOf op
        (objectHash env (fileObject chunks new_size op.time_unix_ms encryption)) new_size) } := by
  refine ⟨canon.kind, canon.ctime, canon.content.merge fun c => ?_, canon.attrs.congr fun c => ?_⟩
  · rw [writes_step batch member done]
    refine or_congr ⟨?_, ?_⟩ Iff.rfl
    · rintro ⟨offset', chunks', new_size', encryption', kindIs', rfl⟩
      rw [kindIs] at kindIs'
      cases kindIs'
      rfl
    · rintro rfl
      exact ⟨offset, chunks, new_size, encryption, kindIs, rfl⟩
  · rw [sets_step batch member done]
    refine or_iff_right ?_
    rintro ⟨mode, uid, gid, kindIs', -⟩
    rw [kindIs] at kindIs'
    cases kindIs'

private theorem RecordCanon.changed {i : U128} {first r : InodeRecord} {mode uid gid : U32}
    (canon : RecordCanon env ops s.done i first r) (batch : Batch env ops) (member : op ∈ ops)
    (done : t.done = insert op.id s.done)
    (kindIs : op.kind = .setAttr i (some mode) (some uid) (some gid)) :
    RecordCanon env ops t.done i first { r with
      attrs := r.attrs.merge
        ⟨⟨mode, uid, gid⟩, op.time_unix_ms, op.id.device_id, op.id.counter⟩ } := by
  refine ⟨canon.kind, canon.ctime, canon.content.congr fun c => ?_, canon.attrs.merge fun c => ?_⟩
  · rw [writes_step batch member done]
    refine or_iff_right ?_
    rintro ⟨offset, chunks, new_size, encryption, kindIs', -⟩
    rw [kindIs] at kindIs'
    cases kindIs'
  · rw [sets_step batch member done]
    refine or_congr ⟨?_, ?_⟩ Iff.rfl
    · rintro ⟨mode', uid', gid', kindIs', rfl⟩
      rw [kindIs] at kindIs'
      cases kindIs'
      rfl
    · rintro rfl
      exact ⟨mode, uid, gid, kindIs, rfl⟩

private theorem RecordsCanon.step (records : RecordsCanon env ops s) (batch : Batch env ops)
    (member : op ∈ ops) (done : t.done = insert op.id s.done)
    (keeps : ∀ {i r}, s.loadInode i = some r → ∃ r', t.loadInode i = some r')
    (updated : ∀ {i r'}, t.loadInode i = some r' →
      (∃ r, s.loadInode i = some r ∧ ∀ {first}, RecordCanon env ops s.done i first r →
        RecordCanon env ops t.done i first r') ∨
      ∃ first, Born env ops t.done i first ∧ RecordCanon env ops t.done i first r')
    (creates : ∀ {kind p n mode}, op.kind = creation kind p n mode →
      ∃ r, t.loadInode (inodeForOp env op.id) = some r)
    (touches : ∀ {i}, Touches op i → ∃ r, s.loadInode i = some r) : RecordsCanon env ops t := by
  have grows : s.done ⊆ t.done := done ▸ Set.subset_insert _ _
  refine ⟨?_, ?_, ?_⟩
  · intro i r' found
    rcases updated found with ⟨r, old, canon⟩ | new
    · obtain ⟨first, born, before⟩ := records.records old
      exact ⟨first, born.mono grows, canon before⟩
    · exact new
  · intro i first born
    cases born with
    | root =>
        obtain ⟨r, old⟩ := records.born (.root : Born env ops s.done _ _)
        exact keeps old
    | created inside applied shape =>
        rcases applied_cases batch member done inside applied with rfl | old
        · exact creates shape
        · obtain ⟨r, found⟩ := records.born (.created inside old shape)
          exact keeps found
  · intro other i inside applied touch
    rcases applied_cases batch member done inside applied with rfl | old
    · obtain ⟨r, found⟩ := touches touch
      exact keeps found
    · obtain ⟨r, found⟩ := records.touched inside old touch
      exact keeps found

private theorem not_touches_creation {kind : EntryType} {parent : U128} {name : String}
    {mode : U32} (kindIs : op.kind = creation kind parent name mode) (i : U128) :
    ¬Touches op i := by
  cases kind <;> simp [Touches, kindIs, creation]

private theorem RecordsCanon.created (records : RecordsCanon env ops s) (batch : Batch env ops)
    (shape : Shape env (batchIds ops) s) (member : op ∈ ops) (new : op.id ∉ s.applied)
    {parent : U128} {name : String} {mode : U32} {kind : EntryType}
    (kindIs : op.kind = creation kind parent name mode)
    (done : ((linkCreated env op parent name mode kind s).noteApplied op).done =
      insert op.id s.done) :
    RecordsCanon env ops ((linkCreated env op parent name mode kind s).noteApplied op) := by
  have missing := shape.loadInode_fresh batch.separate ⟨op, member, rfl⟩ new
  have load := @loadInode_linkCreated env op parent name mode kind s
  refine records.step batch member done ?_ ?_ ?_ ?_
  · intro i r found
    rw [loadInode_noteApplied, load]
    split
    · exact ⟨_, rfl⟩
    · exact ⟨r, found⟩
  · intro i r' found
    rw [loadInode_noteApplied, load] at found
    split at found
    · rename_i same
      subst same
      obtain rfl := Option.some.inj found
      refine .inr ⟨_, .created member (done ▸ Set.mem_insert _ _) kindIs, rfl, rfl,
        .init _ fun c => ?_, .init _ fun c => ?_⟩
      · rw [writes_step batch member done]
        rintro (⟨_, _, _, _, kindIs', -⟩ | ⟨other, inside, old, _, _, _, _, writes, -⟩)
        · exact not_touches_creation kindIs _ (.inl ⟨_, _, _, _, kindIs'⟩)
        · obtain ⟨r, here⟩ := records.touched inside old (.inl ⟨_, _, _, _, writes⟩)
          rw [missing] at here
          cases here
      · rw [sets_step batch member done]
        rintro (⟨_, _, _, kindIs', -⟩ | ⟨other, inside, old, _, _, _, sets, -⟩)
        · exact not_touches_creation kindIs _ (.inr ⟨_, _, _, kindIs'⟩)
        · obtain ⟨r, here⟩ := records.touched inside old (.inr ⟨_, _, _, sets⟩)
          rw [missing] at here
          cases here
    · exact .inl ⟨r', found, fun canon =>
        canon.untouched batch member done (not_touches_creation kindIs _)⟩
  · intro kind' p n mode' _
    rw [loadInode_noteApplied, load, if_pos rfl]
    exact ⟨_, rfl⟩
  · intro i touch
    exact absurd touch (not_touches_creation kindIs i)

private theorem RecordsCanon.idle (records : RecordsCanon env ops s) (batch : Batch env ops)
    (member : op ∈ ops) (done : t.done = insert op.id s.done)
    (same : ∀ i, t.loadInode i = s.loadInode i)
    (noCreation : ∀ kind p n mode, op.kind ≠ creation kind p n mode)
    (untouched : ∀ i, ¬Touches op i) : RecordsCanon env ops t := by
  refine records.step batch member done ?_ ?_ ?_ ?_
  · intro i r found
    exact ⟨r, (same i).trans found⟩
  · intro i r' found
    exact .inl ⟨r', (same i).symm.trans found,
      fun canon => canon.untouched batch member done (untouched i)⟩
  · intro kind p n mode kindIs
    exact absurd kindIs (noCreation kind p n mode)
  · intro i touch
    exact absurd touch (untouched i)

private theorem RecordsCanon.replaced (records : RecordsCanon env ops s) (batch : Batch env ops)
    (member : op ∈ ops) (done : t.done = insert op.id s.done) {inode : U128}
    {record record' : InodeRecord} (found : s.loadInode inode = some record)
    (load : ∀ i, t.loadInode i = if inode = i then some record' else s.loadInode i)
    (noCreation : ∀ kind p n mode, op.kind ≠ creation kind p n mode)
    (touches : ∀ i, Touches op i → inode = i)
    (canon : ∀ {first}, RecordCanon env ops s.done inode first record →
      RecordCanon env ops t.done inode first record') : RecordsCanon env ops t := by
  refine records.step batch member done ?_ ?_ ?_ ?_
  · intro i r here
    rw [load]
    split
    · exact ⟨_, rfl⟩
    · exact ⟨r, here⟩
  · intro i r' here
    rw [load] at here
    split at here
    · rename_i same
      subst same
      obtain rfl := Option.some.inj here
      exact .inl ⟨record, found, canon⟩
    · rename_i other
      exact .inl ⟨r', here, fun before =>
        before.untouched batch member done fun touch => other (touches i touch)⟩
  · intro kind p n mode kindIs
    exact absurd kindIs (noCreation kind p n mode)
  · intro i touch
    exact ⟨record, touches i touch ▸ found⟩

theorem RecordsCanon.effect (records : RecordsCanon env ops s) (batch : Batch env ops)
    (shape : Shape env (batchIds ops) s) (member : op ∈ ops) (new : op.id ∉ s.applied)
    (effect : Effect env op s t) : RecordsCanon env ops (t.noteApplied op) := by
  have done := effect.done
  have tame := batch.tame op member
  unfold Tame at tame
  cases effect with
  | created kindIs => exact records.created batch shape member new kindIs done
  | @superseded inode offset chunks new_size encryption record kindIs found _ loses =>
      have load : ∀ i, (s.noteApplied op).loadInode i =
          if inode = i then some record else s.loadInode i := by
        intro i
        rw [loadInode_noteApplied]
        split
        · rename_i same
          exact same ▸ found
        · rfl
      refine records.replaced batch member done found load ?_ ?_ ?_
      · intro kind p n mode
        cases kind <;> simp [kindIs, creation]
      · rintro i (⟨_, _, _, _, kindIs'⟩ | ⟨_, _, _, kindIs'⟩)
        · rw [kindIs] at kindIs'
          cases kindIs'
          rfl
        · rw [kindIs] at kindIs'
          cases kindIs'
      · intro first canon
        have after := canon.written batch member done kindIs
        have lost : ¬record.content.orderKey < regKey op := by simpa [writeCanWin] using loses
        have kept : record.content.merge (contentOf op (objectHash env
            (fileObject chunks new_size op.time_unix_ms encryption)) new_size) = record.content :=
          if_neg lost
        rwa [kept] at after
  | @wrote inode offset chunks new_size encryption record node_hash stored kindIs found _ _ content
      whole =>
      simp only [kindIs] at tame
      obtain rfl := whole ⟨tame.1, tame.2.1⟩
      obtain ⟨blobs, draws, -, rfl⟩ := content
      refine records.replaced batch member done found (loadInode_storeInode s inode · _) ?_ ?_ ?_
      · intro kind p n mode
        cases kind <;> simp [kindIs, creation]
      · rintro i (⟨_, _, _, _, kindIs'⟩ | ⟨_, _, _, kindIs'⟩)
        · rw [kindIs] at kindIs'
          cases kindIs'
          rfl
        · rw [kindIs] at kindIs'
          cases kindIs'
      · intro first canon
        exact canon.written batch member done kindIs
  | movedNothing kindIs =>
      refine records.idle batch member done (fun _ => rfl) ?_ ?_
      · intro kind p n mode
        cases kind <;> simp [kindIs, creation]
      · simp [Touches, kindIs]
  | moved kindIs =>
      refine records.idle batch member done ?_ ?_ ?_
      · intro i
        rw [loadInode_noteApplied, loadInode_moveEntry]
      · intro kind p n mode
        cases kind <;> simp [kindIs, creation]
      · simp [Touches, kindIs]
  | unlinked kindIs =>
      refine records.idle batch member done (fun _ => rfl) ?_ ?_
      · intro kind p n mode
        cases kind <;> simp [kindIs, creation]
      · simp [Touches, kindIs]
  | @changedAttrs inode mode uid gid record kindIs found =>
      simp only [kindIs, Option.isSome_iff_exists] at tame
      obtain ⟨⟨mode, rfl⟩, ⟨uid, rfl⟩, ⟨gid, rfl⟩⟩ := tame
      refine records.replaced batch member done found (loadInode_storeInode s inode · _) ?_ ?_ ?_
      · intro kind p n mode
        cases kind <;> simp [kindIs, creation]
      · rintro i (⟨_, _, _, _, kindIs'⟩ | ⟨_, _, _, kindIs'⟩)
        · rw [kindIs] at kindIs'
          cases kindIs'
        · rw [kindIs] at kindIs'
          cases kindIs'
          rfl
      · intro first canon
        exact canon.changed batch member done kindIs

/-- Every effect but a rename's keeps the recorded parents those of the creations. -/
private theorem ParentsCanon.effect (parents : ParentsCanon env ops s) (batch : Batch env ops)
    (member : op ∈ ops) (still : isRename op = false) (effect : Effect env op s t) :
    ParentsCanon env ops (t.noteApplied op) := by
  have done := effect.done
  have idle : (∀ i, (t.noteApplied op).parentOf i = s.parentOf i) →
      (∀ kind p n mode, op.kind ≠ creation kind p n mode) →
      ParentsCanon env ops (t.noteApplied op) := by
    intro same noCreation i p
    rw [same, parents i p]
    constructor
    · rintro ⟨other, inside, old, rest⟩
      exact ⟨other, inside, done ▸ Set.mem_insert_of_mem _ old, rest⟩
    · rintro ⟨other, inside, applied, allocated, kind, n, mode, kindIs⟩
      rcases applied_cases batch member done inside applied with rfl | old
      · exact absurd kindIs (noCreation kind p n mode)
      · exact ⟨other, inside, old, allocated, kind, n, mode, kindIs⟩
  unfold isRename at still
  cases effect with
  | @created parent name mode kind kindIs =>
      intro i p
      have recorded := @parentOf_linkCreated env op parent name mode kind s i
      show (linkCreated env op parent name mode kind s).parentOf i = some p ↔ _
      rw [recorded]
      constructor
      · intro here
        split at here
        · rename_i same
          obtain rfl := Option.some.inj here
          exact ⟨op, member, done ▸ Set.mem_insert _ _, same, kind, name, mode, kindIs⟩
        · obtain ⟨other, inside, old, rest⟩ := (parents i p).mp here
          exact ⟨other, inside, done ▸ Set.mem_insert_of_mem _ old, rest⟩
      · rintro ⟨other, inside, applied, allocated, kind', n, mode', kindIs'⟩
        rcases applied_cases batch member done inside applied with rfl | old
        · rw [if_pos allocated]
          obtain ⟨-, rfl, -, -⟩ := creation_inj (kindIs.symm.trans kindIs')
          rfl
        · split
          · rename_i same
            obtain rfl := batch.inodes_apart inside member (allocated.trans same.symm)
            obtain ⟨-, rfl, -, -⟩ := creation_inj (kindIs.symm.trans kindIs')
            rfl
          · exact (parents i p).mpr ⟨other, inside, old, allocated, kind', n, mode', kindIs'⟩
  | superseded kindIs =>
      refine idle (fun _ => rfl) fun kind p n mode => ?_
      cases kind <;> simp [kindIs, creation]
  | wrote kindIs _ _ _ content =>
      obtain ⟨blobs, draws, -, rfl⟩ := content
      refine idle (fun _ => rfl) fun kind p n mode => ?_
      cases kind <;> simp [kindIs, creation]
  | movedNothing kindIs =>
      rw [kindIs] at still
      cases still
  | moved kindIs =>
      rw [kindIs] at still
      cases still
  | unlinked kindIs =>
      refine idle (fun _ => rfl) fun kind p n mode => ?_
      cases kind <;> simp [kindIs, creation]
  | changedAttrs kindIs =>
      refine idle (fun _ => rfl) fun kind p n mode => ?_
      cases kind <;> simp [kindIs, creation]

theorem Canon.congr (canon : Canon env ops s) (dirs : t.dirs = s.dirs) (inodes : t.inodes = s.inodes)
    (parents : t.parents = s.parents) (applied : t.applied = s.applied)
    (parked : ∀ {id : OpId} {op}, t.pending[id]? = some op → op ∈ ops ∧ ¬Hopeless op) :
    Canon env ops t := by
  have done : t.done = s.done := by simp only [CoreState.done, applied]
  have dirAt : ∀ p, t.dirAt p = s.dirAt p := fun p => by
    simp only [CoreState.dirAt, loadDir, dirs]
  have load : ∀ i, t.loadInode i = s.loadInode i := fun i => by simp only [loadInode, inodes]
  have parentOf : ∀ i, t.parentOf i = s.parentOf i := fun i => by
    simp only [CoreState.parentOf, parents]
  have added : ∀ p n d, t.added p n d = s.added p n d := fun p n d => by
    simp only [CoreState.added, dirAt]
  have removed : ∀ p n d, t.Removed p n d ↔ s.Removed p n d := fun p n d => by
    simp only [CoreState.Removed, dirAt]
  refine ⟨⟨?_, ?_, ?_, ?_, ?_⟩, ⟨?_, ?_, ?_⟩, ?_, parked, ?_⟩
  · simp only [added, done]
    exact canon.links.adds
  · simp only [added, done]
    exact canon.links.creates
  · simp only [added, done]
    exact canon.links.moves
  · simp only [removed, done]
    exact canon.links.removed
  · simp only [dirAt]
    exact canon.links.tidy
  · simp only [load, done]
    exact canon.inodes.records
  · simp only [load, done]
    exact canon.inodes.born
  · simp only [load, done]
    exact canon.inodes.touched
  · intro still
    have before := canon.parents still
    simpa only [ParentsCanon, parentOf, done] using before
  · rw [done]
    exact canon.least

theorem Canon.effect (canon : Canon env ops s) (batch : Batch env ops)
    (shape : Shape env (batchIds ops) s) (member : op ∈ ops) (new : op.id ∉ s.applied)
    (safe : RenameSafe s op) (effect : Effect env op s t) : Canon env ops (t.noteApplied op) := by
  refine ⟨canon.links.effect batch shape member new safe effect,
    canon.inodes.effect batch shape member new effect, ?_, ?_, ?_⟩
  · intro still
    exact (canon.parents still).effect batch member (still op member) effect
  · intro id parked here
    have pending : t.pending = s.pending := by
      obtain ⟨dirs, inodes, parents, blobs, draws, -, rfl⟩ := effect.frame
      rfl
    have erased : (t.pending.erase op.id)[id]? = some parked := here
    rw [BTreeMap.get_erase, pending] at erased
    split at erased
    · cases erased
    · exact canon.parked erased
  · intro later closed
    have before := canon.least later closed
    have enabled := (canon.enabled batch safe effect).mono before
    rw [effect.done]
    exact Set.insert_subset (closed op member enabled) before

end Steps

end NexusFS.Core
