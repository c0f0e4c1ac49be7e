/- GID: NexusFS/Core/Shape
   source: crates/core/src/apply.rs, crates/core/src/gc.rs
   digest: The namespace stays a forest of uniquely linked inodes under every applied effect. -/

import NexusFS.Core.Links
import Mathlib.Data.List.TakeWhile

/-!
`ids` is the set of operation ids a run delivers. Inode allocation is assumed to
separate these ids and no others, since it maps more ids than there are inodes.
-/

set_option autoImplicit false
set_option relaxedAutoImplicit false

namespace NexusFS.Core

open NexusFS.Lib NexusFS.Proto NexusFS.Crdt CoreState Relation

/-- The shape of the stored namespace, over all directory maps, reachable or detached. -/
structure Shape (env : Env) (ids : Set OpId) (s : CoreState) : Prop where
  known : ∀ {id}, id ∈ s.applied → id ∈ ids
  parked : ∀ {id op}, s.pending[id]? = some op → op.id = id ∧ id ∈ ids
  dotApplied : ∀ {p n d v}, s.added p n d = some v → d ∈ s.applied
  targetApplied : ∀ {p n d v}, s.added p n d = some v →
    ∃ id, id ∈ s.applied ∧ v.inode_id = inodeForOp env id
  recordApplied : ∀ {i r}, s.loadInode i = some r →
    i = rootInode ∨ ∃ id, id ∈ s.applied ∧ i = inodeForOp env id
  mapped : ∀ p, (s.loadDir p).isSome ↔ s.isDir p = true
  root : s.isDir rootInode = true
  single : ∀ {p n d v q m e w}, s.Live p n d v → s.Live q m e w → v.inode_id = w.inode_id →
    p = q ∧ n = m ∧ d = e
  forest : Forest s.Linked
  kinds : ∀ {p n d v r}, s.Live p n d v → s.loadInode v.inode_id = some r →
    r.kind = v.entry_type
  parents : ∀ {p n d v r}, s.Live p n d v → s.loadInode v.inode_id = some r →
    s.parentOf v.inode_id = some p

namespace Shape

variable {env : Env} {ids : Set OpId} {s : CoreState}

theorem linkedAs_dir (shape : Shape env ids s) {p i j : U128} (here : s.Linked p i)
    (below : s.Linked i j) : s.LinkedAs .dir p i := by
  obtain ⟨record, found, kind⟩ :=
    (s.isDir_iff i).mp ((shape.mapped i).mp (s.loadDir_of_linked below))
  obtain ⟨name, dot, value, live, rfl⟩ := here
  exact ⟨name, dot, value, live, rfl, (shape.kinds live found).symm.trans kind⟩

theorem dirPath (shape : Shape env ids s) {a b c : U128} (path : ReflTransGen s.Linked a b)
    (below : s.Linked b c) : ReflTransGen (s.LinkedAs .dir) a b := by
  induction path generalizing c with
  | refl => exact .refl
  | tail _ edge ih => exact (ih edge).tail (shape.linkedAs_dir edge below)

theorem loadInode_fresh (shape : Shape env ids s) (inj : Set.InjOn (inodeForOp env) ids)
    {id : OpId} (member : id ∈ ids) (new : id ∉ s.applied) :
    s.loadInode (inodeForOp env id) = none := by
  cases found : s.loadInode (inodeForOp env id) with
  | none => rfl
  | some record =>
      rcases shape.recordApplied found with root | ⟨other, applied, same⟩
      · exact absurd root (inodeForOp_ne_rootInode env id)
      · exact absurd (inj member (shape.known applied) same ▸ applied) new

theorem loadDir_fresh (shape : Shape env ids s) (inj : Set.InjOn (inodeForOp env) ids)
    {id : OpId} (member : id ∈ ids) (new : id ∉ s.applied) :
    s.loadDir (inodeForOp env id) = none := by
  have noRecord := shape.loadInode_fresh inj member new
  have notDir : ¬s.isDir (inodeForOp env id) = true := by simp [isDir, noRecord]
  simpa using mt (shape.mapped _).mp notDir

theorem not_linked_fresh (shape : Shape env ids s) (inj : Set.InjOn (inodeForOp env) ids)
    {id : OpId} (member : id ∈ ids) (new : id ∉ s.applied) (p : U128) :
    ¬s.Linked p (inodeForOp env id) := by
  rintro ⟨name, dot, value, ⟨here, -⟩, target⟩
  obtain ⟨other, applied, same⟩ := shape.targetApplied here
  have equal := inj member (shape.known applied) (target.symm.trans same)
  exact new (equal ▸ applied)

theorem not_linked_root (shape : Shape env ids s) (p : U128) : ¬s.Linked p rootInode := by
  rintro ⟨name, dot, value, ⟨here, -⟩, target⟩
  obtain ⟨id, -, same⟩ := shape.targetApplied here
  exact inodeForOp_ne_rootInode env id (same.symm.trans target)

theorem congr (shape : Shape env ids s) {s' : CoreState} (dirs : s'.dirs = s.dirs)
    (parents : s'.parents = s.parents)
    (kinds : ∀ i, (s'.loadInode i).map InodeRecord.kind = (s.loadInode i).map InodeRecord.kind)
    (grows : ∀ {id}, id ∈ s.applied → id ∈ s'.applied)
    (known : ∀ {id}, id ∈ s'.applied → id ∈ ids)
    (parked : ∀ {id op}, s'.pending[id]? = some op → op.id = id ∧ id ∈ ids) :
    Shape env ids s' := by
  have dirAt : ∀ p, s'.dirAt p = s.dirAt p := fun p => by
    simp only [CoreState.dirAt, loadDir, dirs]
  have added : ∀ p n d, s'.added p n d = s.added p n d := fun p n d => by
    simp only [CoreState.added, dirAt]
  have removed : ∀ p n d, s'.Removed p n d ↔ s.Removed p n d := fun p n d => by
    simp only [CoreState.Removed, dirAt]
  have live : ∀ {p n d v}, s'.Live p n d v ↔ s.Live p n d v := fun {p n d v} => by
    simp only [CoreState.Live, added, removed]
  have linked : s'.Linked = s.Linked := by
    funext p i
    simp only [CoreState.Linked, live]
  have record : ∀ {i r}, s'.loadInode i = some r →
      ∃ r', s.loadInode i = some r' ∧ r'.kind = r.kind := by
    intro i r found
    have same := kinds i
    rw [found] at same
    cases old : s.loadInode i with
    | none => simp [old] at same
    | some r' => exact ⟨r', rfl, by simpa [old] using same.symm⟩
  have isDir : ∀ i, s'.isDir i = s.isDir i := by
    intro i
    have same := kinds i
    unfold CoreState.isDir
    cases new : s'.loadInode i <;> cases old : s.loadInode i <;> simp_all
  refine ⟨known, parked, ?_, ?_, ?_, ?_, ?_, ?_, ?_, ?_, ?_⟩
  · intro p n d v here
    exact grows (shape.dotApplied ((added p n d).symm.trans here))
  · intro p n d v here
    obtain ⟨id, applied, target⟩ := shape.targetApplied ((added p n d).symm.trans here)
    exact ⟨id, grows applied, target⟩
  · intro i r found
    obtain ⟨r', old, -⟩ := record found
    rcases shape.recordApplied old with root | ⟨id, applied, same⟩
    · exact .inl root
    · exact .inr ⟨id, grows applied, same⟩
  · intro p
    rw [isDir, ← shape.mapped]
    simp only [loadDir, dirs]
  · rw [isDir]
    exact shape.root
  · intro p n d v q m e w left right
    exact shape.single (live.mp left) (live.mp right)
  · rw [linked]
    exact shape.forest
  · intro p n d v r here found
    obtain ⟨r', old, same⟩ := record found
    exact same.symm.trans (shape.kinds (live.mp here) old)
  · intro p n d v r here found
    obtain ⟨r', old, -⟩ := record found
    have parent := shape.parents (live.mp here) old
    simpa only [parentOf, parents] using parent

end Shape

section Subtree

variable {s : CoreState} {target : U128}

private theorem subtreeLoop_false (fuel : Nat) (stack : List U128) (seen : BTreeSet U128)
    (result : subtreeLoop s target fuel stack seen = .ok false) :
    ∃ closed : Set U128, (∀ i, i ∈ seen → i ∈ closed) ∧ (∀ i ∈ stack, i ∈ closed) ∧
      ∀ i ∈ closed, i ∉ seen →
        ¬s.Linked i target ∧ ∀ j, s.LinkedAs .dir i j → j ∈ closed := by
  induction fuel generalizing stack seen with
  | zero =>
      unfold subtreeLoop at result
      split at result
      · rename_i done
        refine ⟨{i | i ∈ seen}, fun i here => here, ?_, fun i here out => absurd here out⟩
        intro i member
        simpa using List.dropWhile_eq_nil_iff.mp done i member
      · cases result
  | succ fuel ih =>
      unfold subtreeLoop at result
      split at result
      · rename_i done
        refine ⟨{i | i ∈ seen}, fun i here => here, ?_, fun i here out => absurd here out⟩
        intro i member
        simpa using List.dropWhile_eq_nil_iff.mp done i member
      · rename_i inode rest pending
        dsimp only at result
        split at result
        · cases result
        · rename_i miss
          obtain ⟨closed, old, onStack, step⟩ := ih _ _ result
          refine ⟨closed, fun i here => old i ((BTreeSet.mem_insert _ _ _).mpr (.inr here)), ?_, ?_⟩
          · intro i member
            rw [← List.takeWhile_append_dropWhile (p := fun inode => seen.contains inode)
              (l := stack), List.mem_append, pending, List.mem_cons] at member
            rcases member with front | rfl | back
            · have inSeen : seen.contains i = true := List.mem_takeWhile_imp front
              exact old i ((BTreeSet.mem_insert _ _ _).mpr
                (.inr (Std.ExtTreeSet.contains_iff_mem.mp inSeen)))
            · exact old i ((BTreeSet.mem_insert _ _ _).mpr (.inl rfl))
            · exact onStack i (List.mem_append_right _ back)
          · intro i inClosed out
            by_cases same : inode = i
            · subst same
              constructor
              · intro link
                obtain ⟨e, member, hit⟩ := (s.exists_mem_materializeDir _ _).mpr link
                exact miss (List.any_eq_true.mpr ⟨e, member, by simpa using hit⟩)
              · intro j link
                obtain ⟨e, member, rfl, kind⟩ := (s.mem_materializeDir _ _ _).mpr link
                refine onStack _ (List.mem_append_left _ (List.mem_reverse.mpr ?_))
                exact List.mem_map_of_mem (List.mem_filter.mpr ⟨member, by simpa using kind⟩)
            · exact step i inClosed fun here =>
                ((BTreeSet.mem_insert _ _ _).mp here).elim same out

/-- A directory outside whose subtree `target` lies cannot reach it. -/
theorem Shape.not_below_of_subtree {env : Env} {ids : Set OpId} (shape : Shape env ids s)
    {root : U128} (outside : subtreeContains s root target = .ok false) :
    ¬ReflTransGen s.Linked root target := by
  unfold subtreeContains at outside
  split at outside
  · cases outside
  · rename_i different
    obtain ⟨closed, -, onStack, step⟩ := subtreeLoop_false _ _ _ outside
    have inClosed : ∀ {x}, ReflTransGen (s.LinkedAs .dir) root x → x ∈ closed := by
      intro x path
      induction path with
      | refl => exact onStack root (by simp)
      | tail _ edge ih => exact (step _ ih Std.ExtTreeSet.not_mem_empty).2 _ edge
    intro path
    rcases path.cases_tail with same | ⟨x, front, edge⟩
    · exact different same.symm
    · exact (step x (inClosed (shape.dirPath front edge)) Std.ExtTreeSet.not_mem_empty).1 edge

end Subtree

section Effects

variable {env : Env} {ids : Set OpId} {s s' : CoreState} {op : FsOp}

private theorem Shape.relink (shape : Shape env ids s) {parent : U128} {name : String}
    {value : DirEntryValue} (member : op.id ∈ ids)
    (added : ∀ p n d v, s'.added p n d = some v →
      (p = parent ∧ n = name ∧ d = op.id ∧ v = value) ∨ s.added p n d = some v)
    (live : ∀ p n d v, s'.Live p n d v →
      (p = parent ∧ n = name ∧ d = op.id ∧ v = value) ∨
        (s.Live p n d v ∧ v.inode_id ≠ value.inode_id))
    (free : ¬ReflTransGen s.Linked value.inode_id parent)
    (target : ∃ id, (id = op.id ∨ id ∈ s.applied) ∧ value.inode_id = inodeForOp env id)
    (applied : s'.applied = s.applied.insert op.id) (pending : s'.pending = s.pending)
    (others : ∀ i, i ≠ value.inode_id →
      s'.loadInode i = s.loadInode i ∧ s'.parentOf i = s.parentOf i)
    (record : ∀ r, s'.loadInode value.inode_id = some r →
      r.kind = value.entry_type ∧ s'.parentOf value.inode_id = some parent)
    (mapped : ∀ p, (s'.loadDir p).isSome ↔ s'.isDir p = true)
    (root : s'.isDir rootInode = true) : Shape env ids s' := by
  have grows : ∀ {id}, id = op.id ∨ id ∈ s.applied → id ∈ s'.applied := by
    intro id here
    rw [applied, BTreeSet.mem_insert]
    exact here.imp_left Eq.symm
  have linked : ∀ a b, s'.Linked a b →
      (s.Linked a b ∧ b ≠ value.inode_id) ∨ (a = parent ∧ b = value.inode_id) := by
    rintro a b ⟨n, d, v, here, rfl⟩
    rcases live a n d v here with ⟨rfl, -, -, rfl⟩ | ⟨old, different⟩
    · exact .inr ⟨rfl, rfl⟩
    · exact .inl ⟨⟨n, d, v, old, rfl⟩, different⟩
  refine ⟨?_, ?_, ?_, ?_, ?_, mapped, root, ?_, shape.forest.move free linked, ?_, ?_⟩
  · intro id here
    rw [applied, BTreeSet.mem_insert] at here
    rcases here with rfl | old
    · exact member
    · exact shape.known old
  · intro id parked here
    rw [pending] at here
    exact shape.parked here
  · intro p n d v here
    rcases added p n d v here with ⟨-, -, rfl, -⟩ | old
    · exact grows (.inl rfl)
    · exact grows (.inr (shape.dotApplied old))
  · intro p n d v here
    rcases added p n d v here with ⟨-, -, -, rfl⟩ | old
    · obtain ⟨id, isApplied, same⟩ := target
      exact ⟨id, grows isApplied, same⟩
    · obtain ⟨id, isApplied, same⟩ := shape.targetApplied old
      exact ⟨id, grows (.inr isApplied), same⟩
  · intro i r found
    by_cases same : i = value.inode_id
    · obtain ⟨id, isApplied, allocated⟩ := target
      exact .inr ⟨id, grows isApplied, same.trans allocated⟩
    · rw [(others i same).1] at found
      rcases shape.recordApplied found with isRoot | ⟨id, isApplied, allocated⟩
      · exact .inl isRoot
      · exact .inr ⟨id, grows (.inr isApplied), allocated⟩
  · intro p n d v q m e w left right same
    rcases live p n d v left with ⟨rfl, rfl, rfl, rfl⟩ | ⟨oldLeft, notLeft⟩
    · rcases live q m e w right with ⟨rfl, rfl, rfl, -⟩ | ⟨-, notRight⟩
      · exact ⟨rfl, rfl, rfl⟩
      · exact absurd same.symm notRight
    · rcases live q m e w right with ⟨-, -, -, rfl⟩ | ⟨oldRight, -⟩
      · exact absurd same notLeft
      · exact shape.single oldLeft oldRight same
  · intro p n d v r here found
    rcases live p n d v here with ⟨-, -, -, rfl⟩ | ⟨old, different⟩
    · exact (record r found).1
    · rw [(others _ different).1] at found
      exact shape.kinds old found
  · intro p n d v r here found
    rcases live p n d v here with ⟨rfl, -, -, rfl⟩ | ⟨old, different⟩
    · exact (record r found).2
    · rw [(others _ different).1] at found
      rw [(others _ different).2]
      exact shape.parents old found

private theorem Shape.created (shape : Shape env ids s) (inj : Set.InjOn (inodeForOp env) ids)
    (member : op.id ∈ ids) (new : op.id ∉ s.applied) {parent : U128} {name : String} {mode : U32}
    {kind : EntryType} (dir : s.isDir parent = true) :
    Shape env ids ((linkCreated env op parent name mode kind s).markOpApplied op.id) := by
  have noRecord := shape.loadInode_fresh inj member new
  have fresh := shape.loadDir_fresh inj member new
  have other : inodeForOp env op.id ≠ parent := by
    rintro rfl
    simp [isDir, noRecord] at dir
  have added : ∀ p n d v, (linkCreated env op parent name mode kind s).added p n d = some v →
      (p = parent ∧ n = name ∧ d = op.id ∧ v = createdValue env op kind) ∨
        s.added p n d = some v := by
    intro p n d v here
    rw [added_linkCreated other fresh] at here
    split at here
    · rename_i same
      exact .inl ⟨same.1.symm, same.2.1.symm, same.2.2.symm, (Option.some.inj here).symm⟩
    · exact .inr here
  have isDir' : ∀ p, (linkCreated env op parent name mode kind s).isDir p = true ↔
      (kind = .dir ∧ inodeForOp env op.id = p) ∨ s.isDir p = true := by
    intro p
    rw [isDir_iff, loadInode_linkCreated]
    by_cases same : inodeForOp env op.id = p
    · subst same
      simp [isDir_iff, noRecord, InodeRecord.new]
    · simp [same, isDir_iff]
  have applied : (linkCreated env op parent name mode kind s).applied = s.applied := by
    cases kind <;> rfl
  have records := fun i => @loadInode_linkCreated env op parent name mode kind s i
  have parentsOf := fun i => @parentOf_linkCreated env op parent name mode kind s i
  refine shape.relink member added ?_ ?_ ⟨op.id, .inl rfl, rfl⟩
    (congrArg (fun ids => ids.insert op.id) applied) ?_ ?_ ?_ ?_ ?_
  · rintro p n d v ⟨here, kept⟩
    rcases added p n d v here with now | old
    · exact .inl now
    · refine .inr ⟨⟨old, mt (removed_linkCreated other fresh p n d).mpr kept⟩, fun same => ?_⟩
      obtain ⟨id, applied, allocated⟩ := shape.targetApplied old
      have equal := inj member (shape.known applied) (same.symm.trans allocated)
      exact new (equal ▸ applied)
  · intro path
    rcases path.cases_head with same | ⟨x, edge, -⟩
    · exact other same
    · have mapped := s.loadDir_of_linked edge
      simp [createdValue, fresh] at mapped
  · cases kind <;> rfl
  · intro i different
    have different : ¬inodeForOp env op.id = i := fun same => different same.symm
    exact ⟨(records i).trans (if_neg different), (parentsOf i).trans (if_neg different)⟩
  · intro r found
    have made := ((records (inodeForOp env op.id)).trans (if_pos rfl)).symm.trans found
    refine ⟨?_, (parentsOf (inodeForOp env op.id)).trans (if_pos rfl)⟩
    rw [← Option.some.inj made]
    rfl
  · intro p
    have dirs : ((linkCreated env op parent name mode kind s).loadDir p).isSome ↔
        (linkCreated env op parent name mode kind s).isDir p = true := by
      rw [loadDir_linkCreated, isDir', shape.mapped]
      constructor
      · rintro (rfl | now | old)
        · exact .inr dir
        · exact .inl now
        · exact .inr old
      · exact .inr
    exact dirs
  · exact (isDir' rootInode).mpr (.inr shape.root)

theorem Shape.not_below_source (shape : Shape env ids s) {old_parent new_parent : U128}
    {old_name : String} {dot : Dot} {entry : DirEntryValue}
    (origin : s.Live old_parent old_name dot entry) (target : s.isDir new_parent = true)
    (outside : entry.entry_type = .dir →
      subtreeContains s entry.inode_id new_parent = .ok false) :
    ¬ReflTransGen s.Linked entry.inode_id new_parent := by
  intro path
  cases kind : entry.entry_type with
  | dir => exact shape.not_below_of_subtree (outside kind) path
  | file =>
      obtain ⟨record, here, isDir⟩ : ∃ record, s.loadInode entry.inode_id = some record ∧
          record.kind = .dir := by
        rcases path.cases_head with same | ⟨x, edge, -⟩
        · exact (s.isDir_iff _).mp (same ▸ target)
        · exact (s.isDir_iff _).mp ((shape.mapped _).mp (s.loadDir_of_linked edge))
      have wrong := (shape.kinds origin here).symm.trans isDir
      simp [kind] at wrong

private theorem Shape.moved (shape : Shape env ids s) (member : op.id ∈ ids)
    {old_parent new_parent : U128} {old_name new_name : String}
    {observed : List OpId} {dot : Dot} {entry : DirEntryValue}
    (source : s.isDir old_parent = true) (target : s.isDir new_parent = true)
    (found : renameSource ((s.dirAt old_parent).getAll old_name) observed = some (dot, entry))
    (outside : entry.entry_type = .dir →
      subtreeContains s entry.inode_id new_parent = .ok false) :
    Shape env ids
      ((moveEntry op entry old_parent old_name new_parent new_name observed s).markOpApplied
        op.id) := by
  obtain ⟨survives, seen, -⟩ := renameSource_eq_some found
  have origin : s.Live old_parent old_name dot entry := (OrMap.mem_getAll _ _ _ _).mp survives
  have added : ∀ p n d v,
      (moveEntry op entry old_parent old_name new_parent new_name observed s).added p n d = some v →
        (p = new_parent ∧ n = new_name ∧ d = op.id ∧ v = movedValue op entry) ∨
          s.added p n d = some v := by
    intro p n d v here
    rw [added_moveEntry] at here
    split at here
    · rename_i same
      exact .inl ⟨same.1.symm, same.2.1.symm, same.2.2.symm, (Option.some.inj here).symm⟩
    · exact .inr here
  have records := fun i =>
    @loadInode_moveEntry op entry old_parent new_parent old_name new_name observed s i
  have parentsOf := fun i =>
    @parentOf_moveEntry op entry old_parent new_parent old_name new_name observed s i
  have isDir' : ∀ p, (moveEntry op entry old_parent old_name new_parent new_name observed s).isDir p
      = s.isDir p := by
    intro p
    unfold CoreState.isDir
    rw [loadInode_moveEntry]
  refine shape.relink member added ?_ ?_ ?_ ?_ ?_ ?_ ?_ ?_ ?_
  · rintro p n d v ⟨here, kept⟩
    rcases added p n d v here with now | old
    · exact .inl now
    · have kept' := mt (removed_moveEntry p n d).mpr kept
      refine .inr ⟨⟨old, fun gone => kept' (.inr gone)⟩, fun same => kept' (.inl ?_)⟩
      obtain ⟨rfl, rfl, rfl⟩ := shape.single origin ⟨old, fun gone => kept' (.inr gone)⟩ same.symm
      exact ⟨rfl, rfl, seen⟩
  · have free := shape.not_below_source origin target outside
    exact free
  · obtain ⟨id, applied, allocated⟩ := shape.targetApplied origin.1
    exact ⟨id, .inr applied, allocated⟩
  · unfold moveEntry
    dsimp only
    split <;> rfl
  · unfold moveEntry
    dsimp only
    split <;> rfl
  · intro i different
    have different : ¬entry.inode_id = i := fun same => different same.symm
    exact ⟨records i, (parentsOf i).trans (if_neg different)⟩
  · intro r here
    have kind : r.kind = entry.entry_type :=
      shape.kinds origin ((records entry.inode_id).symm.trans here)
    exact ⟨kind, (parentsOf entry.inode_id).trans (if_pos rfl)⟩
  · intro p
    have dirs := @loadDir_moveEntry op entry old_parent new_parent old_name new_name observed s p
    rw [shape.mapped] at dirs
    refine dirs.trans ?_
    rw [show ((moveEntry op entry old_parent old_name new_parent new_name observed s).markOpApplied
      op.id).isDir p = s.isDir p from isDir' p]
    constructor
    · rintro (rfl | rfl | old)
      · exact source
      · exact target
      · exact old
    · exact fun old => .inr (.inr old)
  · exact (isDir' rootInode).trans shape.root

private theorem Shape.unlinked (shape : Shape env ids s) (member : op.id ∈ ids) {parent : U128}
    {name : String} {observed : List OpId} (dir : s.isDir parent = true) :
    Shape env ids
      ((s.storeDir parent ((s.dirAt parent).removeDots name observed)).markOpApplied op.id) := by
  have live : ∀ {p n d v},
      (s.storeDir parent ((s.dirAt parent).removeDots name observed)).Live p n d v →
        s.Live p n d v := by
    rintro p n d v ⟨here, kept⟩
    rw [added_removeDots] at here
    exact ⟨here, fun gone => kept ((removed_removeDots _ _ _ _ _ _).mpr (.inr gone))⟩
  have grows : ∀ {id}, id ∈ s.applied → id ∈ s.applied.insert op.id := fun here =>
    (BTreeSet.mem_insert _ _ _).mpr (.inr here)
  refine ⟨?_, shape.parked, ?_, ?_, ?_, ?_, shape.root, ?_, ?_, ?_, ?_⟩
  · intro id here
    rcases (BTreeSet.mem_insert _ _ _).mp here with rfl | old
    · exact member
    · exact shape.known old
  · intro p n d v here
    exact grows (shape.dotApplied ((added_removeDots parent name observed p n d).symm.trans here))
  · intro p n d v here
    obtain ⟨id, applied, allocated⟩ := shape.targetApplied
      ((added_removeDots parent name observed p n d).symm.trans here)
    exact ⟨id, grows applied, allocated⟩
  · intro i r found
    rcases shape.recordApplied found with isRoot | ⟨id, applied, allocated⟩
    · exact .inl isRoot
    · exact .inr ⟨id, grows applied, allocated⟩
  · intro p
    have dirs : ((s.storeDir parent ((s.dirAt parent).removeDots name observed)).loadDir p).isSome ↔
        s.isDir p = true := by
      rw [loadDir_storeDir, ← shape.mapped]
      split
      · rename_i same
        subst same
        simpa using (shape.mapped parent).mpr dir
      · rfl
    exact dirs
  · intro p n d v q m e w left right
    exact shape.single (live left) (live right)
  · refine shape.forest.subrelation ?_
    rintro a b ⟨n, d, v, here, same⟩
    exact ⟨n, d, v, live here, same⟩
  · intro p n d v r here found
    exact shape.kinds (live here) found
  · intro p n d v r here found
    exact shape.parents (live here) found

private theorem Shape.rerecorded (shape : Shape env ids s) (member : op.id ∈ ids)
    {inode : U128} {record record' : InodeRecord} (found : s.loadInode inode = some record)
    (same : record'.kind = record.kind) {stored : CoreState} (content : OnlyContent s stored) :
    Shape env ids ((stored.storeInode inode record').markOpApplied op.id) := by
  obtain ⟨blobs, draws, -, rfl⟩ := content
  refine shape.congr rfl rfl ?_ ?_ ?_ shape.parked
  · intro i
    have updated : ((s.storeInode inode record').loadInode i).map InodeRecord.kind =
        (s.loadInode i).map InodeRecord.kind := by
      rw [loadInode_storeInode]
      split
      · rename_i here
        rw [← here, found]
        simp [same]
      · rfl
    exact updated
  · intro id here
    exact (BTreeSet.mem_insert _ _ _).mpr (.inr here)
  · intro id here
    rcases (BTreeSet.mem_insert _ _ _).mp here with rfl | old
    · exact member
    · exact shape.known old

theorem Shape.effect (shape : Shape env ids s) (inj : Set.InjOn (inodeForOp env) ids)
    (member : op.id ∈ ids) (new : op.id ∉ s.applied) (effect : Effect env op s s') :
    Shape env ids (s'.markOpApplied op.id) := by
  have marked : Shape env ids (s.markOpApplied op.id) := by
    refine shape.congr rfl rfl (fun _ => rfl) ?_ ?_ shape.parked
    · intro id here
      exact (BTreeSet.mem_insert _ _ _).mpr (.inr here)
    · intro id here
      rcases (BTreeSet.mem_insert _ _ _).mp here with rfl | old
      · exact member
      · exact shape.known old
  cases effect with
  | created _ _ dir => exact shape.created inj member new dir
  | superseded => exact marked
  | wrote _ found _ _ content _ =>
      refine shape.rerecorded member found ?_ content
      rfl
  | movedNothing => exact marked
  | moved _ _ source target found outside => exact shape.moved member source target found outside
  | unlinked _ dir => exact shape.unlinked member dir
  | changedAttrs _ found =>
      refine shape.rerecorded member found ?_ (.refl s)
      rfl

theorem Shape.noteApplied (shape : Shape env ids s) (inj : Set.InjOn (inodeForOp env) ids)
    (member : op.id ∈ ids) (new : op.id ∉ s.applied) (effect : Effect env op s s') :
    Shape env ids (s'.noteApplied op) := by
  have after := shape.effect inj member new effect
  refine after.congr rfl rfl (fun _ => rfl) (fun here => here) after.known ?_
  intro id parked here
  have erased : (s'.pending.erase op.id)[id]? = some parked := here
  rw [BTreeMap.get_erase] at erased
  split at erased
  · cases erased
  · exact after.parked erased

end Effects

end NexusFS.Core
