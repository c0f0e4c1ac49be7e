/- GID: NexusFS/Core/Walk
   source: crates/core/src/snapshot.rs, crates/core/src/ops.rs
   digest: The full walk visits each directory once and records exactly the live tree. -/

import NexusFS.Core.Shape
import NexusFS.Core.Ops
import Mathlib.Data.List.Nodup

set_option autoImplicit false
set_option relaxedAutoImplicit false

namespace NexusFS.Core

open NexusFS.Lib NexusFS.Lib.Effect NexusFS.Proto NexusFS.Crdt CoreState Relation

section Tree

variable (env : Env) (s : CoreState)

def DirBelow (root inode : U128) : Prop := ReflTransGen (s.LinkedAs .dir) root inode

/-- The entry an inode of the subtree has in the map: a directory the hash of its current object,
a file with content its content hash. -/
def EntryBelow (root inode : U128) (hash : Hash) : Prop :=
  (DirBelow s root inode ∧ hash = dirHash env s inode) ∨
    ∃ parent, DirBelow s root parent ∧ s.LinkedAs .file parent inode ∧
      contentHash s inode = some hash

def TreeEntry (inode : U128) (hash : Hash) : Prop := EntryBelow env s rootInode inode hash

def EntryPart (entry : DirEntry) (inode : U128) (hash : Hash) : Prop :=
  match entry.entry_type with
  | .dir => EntryBelow env s entry.inode_id inode hash
  | .file => entry.inode_id = inode ∧ contentHash s inode = some hash

def DirPart (entry : DirEntry) (inode : U128) : Prop :=
  entry.entry_type = .dir ∧ DirBelow s entry.inode_id inode

end Tree

section Split

variable {env : Env} {s : CoreState}

theorem dirBelow_iff (root inode : U128) :
    DirBelow s root inode ↔ root = inode ∨ ∃ e ∈ s.materializeDir root, DirPart s e inode := by
  constructor
  · intro path
    rcases path.cases_head with same | ⟨child, link, rest⟩
    · exact .inl same
    · obtain ⟨e, member, rfl, kind⟩ := (s.mem_materializeDir _ _ _).mpr link
      exact .inr ⟨e, member, kind, rest⟩
  · rintro (rfl | ⟨e, member, kind, rest⟩)
    · exact .refl
    · exact .head ((s.mem_materializeDir _ _ _).mp ⟨e, member, rfl, kind⟩) rest

theorem entryBelow_iff (root inode : U128) (hash : Hash) :
    EntryBelow env s root inode hash ↔
      (root = inode ∧ hash = dirHash env s inode) ∨
        ∃ e ∈ s.materializeDir root, EntryPart env s e inode hash := by
  constructor
  · rintro (⟨path, rfl⟩ | ⟨parent, path, link, content⟩)
    · rcases (dirBelow_iff root inode).mp path with same | ⟨e, member, kind, rest⟩
      · exact .inl ⟨same, rfl⟩
      · refine .inr ⟨e, member, ?_⟩
        simp only [EntryPart, kind]
        exact .inl ⟨rest, rfl⟩
    · rcases (dirBelow_iff root parent).mp path with rfl | ⟨e, member, kind, rest⟩
      · obtain ⟨e, member, rfl, kind⟩ := (s.mem_materializeDir _ _ _).mpr link
        refine .inr ⟨e, member, ?_⟩
        simp only [EntryPart, kind]
        exact ⟨trivial, content⟩
      · refine .inr ⟨e, member, ?_⟩
        simp only [EntryPart, kind]
        exact .inr ⟨parent, rest, link, content⟩
  · rintro (⟨rfl, rfl⟩ | ⟨e, member, part⟩)
    · exact .inl ⟨.refl, rfl⟩
    · cases kind : e.entry_type with
      | dir =>
          have link : s.LinkedAs .dir root e.inode_id :=
            (s.mem_materializeDir _ _ _).mp ⟨e, member, rfl, kind⟩
          simp only [EntryPart, kind] at part
          rcases part with ⟨path, same⟩ | ⟨parent, path, file, content⟩
          · exact .inl ⟨.head link path, same⟩
          · exact .inr ⟨parent, .head link path, file, content⟩
      | file =>
          have link : s.LinkedAs .file root e.inode_id :=
            (s.mem_materializeDir _ _ _).mp ⟨e, member, rfl, kind⟩
          simp only [EntryPart, kind] at part
          obtain ⟨rfl, content⟩ := part
          exact .inr ⟨root, .refl, link, content⟩

end Split

namespace Shape

variable {env : Env} {ids : Set OpId} {s : CoreState}

theorem linkedAs_kind (shape : Shape env ids s) {a b : EntryType} {p q i : U128}
    (left : s.LinkedAs a p i) (right : s.LinkedAs b q i) : a = b := by
  obtain ⟨n, d, v, here, target, rfl⟩ := left
  obtain ⟨m, e, w, there, target', rfl⟩ := right
  obtain ⟨rfl, rfl, rfl⟩ := shape.single here there (target.trans target'.symm)
  rw [Option.some.inj (here.1.symm.trans there.1)]

theorem not_linkedAs_file (shape : Shape env ids s) {p i : U128}
    (path : DirBelow s rootInode i) : ¬s.LinkedAs .file p i := by
  intro file
  rcases path.cases_tail with same | ⟨q, -, link⟩
  · exact shape.not_linked_root p (same ▸ file.linked)
  · exact absurd (shape.linkedAs_kind link file) (by simp)

theorem treeEntry_functional (shape : Shape env ids s) {i : U128} {x y : Hash}
    (left : TreeEntry env s i x) (right : TreeEntry env s i y) : x = y := by
  rcases left with ⟨path, rfl⟩ | ⟨p, -, file, content⟩
  · rcases right with ⟨-, rfl⟩ | ⟨q, -, file, -⟩
    · rfl
    · exact absurd file (shape.not_linkedAs_file path)
  · rcases right with ⟨path, -⟩ | ⟨q, -, -, content'⟩
    · exact absurd file (shape.not_linkedAs_file path)
    · exact Option.some.inj (content.symm.trans content')

theorem dirForest (shape : Shape env ids s) : Forest (s.LinkedAs .dir) :=
  shape.forest.subrelation fun _ _ link => link.linked

theorem nodup_targets (shape : Shape env ids s) (inode : U128) :
    ((s.materializeDir inode).map DirEntry.inode_id).Nodup := by
  unfold materializeDir
  cases found : s.loadDir inode with
  | none => simp
  | some map =>
      have dirAt : s.dirAt inode = map := by simp [CoreState.dirAt, found]
      have live : ∀ {name p}, p ∈ map.getAll name → s.Live inode name p.1 p.2 := by
        intro name p member
        have here := (OrMap.mem_getAll _ _ _ _).mp member
        rw [← dirAt] at here
        exact here
      have targets : (map.liveKeys.flatMap fun name => entriesFor name (map.getAll name)).map
          DirEntry.inode_id = map.liveKeys.flatMap fun name =>
            (map.getAll name).map fun p => p.2.inode_id := by
        rw [List.map_flatMap]
        congr
        funext name
        rw [entriesFor, List.map_map]
        conv_rhs => rw [← List.zipIdx_map_fst 0 (map.getAll name), List.map_map]
        rfl
      have sorted := (List.perm_insertionSort (fun a b => (compareDirEntries a b).isLE)
        (map.liveKeys.flatMap fun name => entriesFor name (map.getAll name))).map DirEntry.inode_id
      show ((listing map).map DirEntry.inode_id).Nodup
      unfold listing sortDirEntries
      rw [sorted.nodup_iff, targets, List.nodup_flatMap]
      constructor
      · intro name _
        refine List.Nodup.map_on ?_ (map.getAll_nodup name)
        rintro ⟨d, v⟩ left ⟨e, w⟩ right same
        obtain ⟨-, -, rfl⟩ := shape.single (live left) (live right) same
        rw [Prod.mk.injEq]
        exact ⟨rfl, Option.some.inj ((live left).1.symm.trans (live right).1)⟩
      · refine (map.liveKeys_nodup).imp_of_mem ?_
        intro n m _ _ different i left right
        obtain ⟨p, memberP, rfl⟩ := List.mem_map.mp left
        obtain ⟨q, memberQ, same⟩ := List.mem_map.mp right
        exact different (shape.single (live memberP) (live memberQ) same.symm).2.1

end Shape

section WalkSpec

variable {env : Env} {ids : Set OpId} {s : CoreState}

theorem materializeTree_succ (store : Bool) (fuel : Nat) (inode : U128) (w : Walk) :
    materializeTree env s store (fuel + 1) inode w =
      if w.visited.contains inode then .error (.treeCycle inode) w
      else if maxTreeNodes < (w.visit inode).visited.size then .error .treeExceeded (w.visit inode)
      else
        (do
          (s.materializeDir inode).forM (walkEntry s (materializeTree env s store fuel))
          modify fun w =>
            if store then
              w.putBlob (dirHash env s inode) (encodeObject env (currentDirObject s inode))
            else w
          modify fun w => w.record inode (dirHash env s inode)
          return dirHash env s inode : EStateM Err Walk Hash) (w.visit inode) := by
  unfold materializeTree
  simp only [bind_run, get_run]
  split
  · rfl
  · by_cases full : maxTreeNodes < (w.visit inode).visited.size
    · simp only [full, if_true]
      rfl
    · simp only [full, if_false]
      rfl

/-- What a walk has written so far belongs to the live tree. -/
structure WalkSound (env : Env) (s : CoreState) (w : Walk) : Prop where
  entries : ∀ k x, w.inode_map[k]? = some x → TreeEntry env s k x
  dirs : ∀ j, j ∈ w.visited → DirBelow s rootInode j

/-- A walk that has added exactly these entries and these directories. -/
structure Walked (entries : U128 → Hash → Prop) (dirs : U128 → Prop) (w w' : Walk) : Prop where
  map : ∀ k x, w'.inode_map[k]? = some x ↔ w.inode_map[k]? = some x ∨ entries k x
  visited : ∀ j, j ∈ w'.visited ↔ j ∈ w.visited ∨ dirs j
  grows : w.visited.size ≤ w'.visited.size

def Overfull (s : CoreState) (w : Walk) : Prop :=
  maxTreeNodes < w.visited.size ∧ ∀ j, j ∈ w.visited → DirBelow s rootInode j

def WalkOutcome {α : Type} (s : CoreState) (entries : U128 → Hash → Prop) (dirs : U128 → Prop)
    (w : Walk) : EStateM.Result Err Walk α → Prop
  | .ok _ w' => Walked entries dirs w w'
  | .error e w' => e = .treeExceeded ∧ Overfull s w'

theorem WalkSound.walked {w w' : Walk} {entries : U128 → Hash → Prop} {dirs : U128 → Prop}
    (sound : WalkSound env s w) (walked : Walked entries dirs w w')
    (inTree : ∀ k x, entries k x → TreeEntry env s k x)
    (dirsInTree : ∀ j, dirs j → DirBelow s rootInode j) : WalkSound env s w' where
  entries := fun k x here => ((walked.map k x).mp here).elim (sound.entries k x) (inTree k x)
  dirs := fun j here => ((walked.visited j).mp here).elim (sound.dirs j) (dirsInTree j)

theorem Shape.walked_record (shape : Shape env ids s) {w : Walk} (sound : WalkSound env s w)
    {inode : U128} {hash : Hash} (entry : TreeEntry env s inode hash) :
    Walked (fun k x => inode = k ∧ hash = x) (fun _ => False) w (w.record inode hash) := by
  refine ⟨?_, fun j => by simp [Walk.record], le_rfl⟩
  intro k x
  simp only [Walk.record, BTreeMap.get_insert]
  by_cases same : inode = k
  · subst same
    rw [if_pos rfl]
    constructor
    · intro here
      exact .inr ⟨rfl, Option.some.inj here⟩
    · rintro (old | ⟨-, rfl⟩)
      · rw [shape.treeEntry_functional entry (sound.entries inode x old)]
      · rfl
  · simp [same]

private theorem entryPart_inTree {inode : U128} (reach : DirBelow s rootInode inode) {e : DirEntry}
    (member : e ∈ s.materializeDir inode) :
    (∀ k x, EntryPart env s e k x → TreeEntry env s k x) ∧
      ∀ j, DirPart s e j → DirBelow s rootInode j := by
  constructor
  · intro k x part
    have below := (entryBelow_iff inode k x).mpr (.inr ⟨e, member, part⟩)
    rcases below with ⟨path, same⟩ | ⟨p, path, file, content⟩
    · exact .inl ⟨reach.trans path, same⟩
    · exact .inr ⟨p, reach.trans path, file, content⟩
  · intro j part
    exact reach.trans ((dirBelow_iff inode j).mpr (.inr ⟨e, member, part⟩))

private theorem walkEntry_spec (shape : Shape env ids s) (store : Bool) (fuel : Nat) {e : DirEntry}
    {inode : U128} (reach : DirBelow s rootInode inode) (member : e ∈ s.materializeDir inode)
    {w : Walk} (sound : WalkSound env s w)
    (nested : e.entry_type = .dir →
      WalkOutcome s (EntryBelow env s e.inode_id) (DirBelow s e.inode_id) w
        (materializeTree env s store fuel e.inode_id w)) :
    WalkOutcome s (EntryPart env s e) (DirPart s e) w
      (walkEntry s (materializeTree env s store fuel) e w) := by
  obtain ⟨inTree, -⟩ := @entryPart_inTree env s inode reach e member
  unfold walkEntry
  cases kind : e.entry_type with
  | dir =>
      have inner := nested kind
      simp only [bind_run]
      cases run : materializeTree env s store fuel e.inode_id w with
      | ok hash w' =>
          rw [run] at inner
          refine ⟨fun k x => ?_, fun j => ?_, inner.grows⟩
          · simp only [EntryPart, kind]
            exact inner.map k x
          · simp only [DirPart, kind, true_and]
            exact inner.visited j
      | error err w' =>
          rw [run] at inner
          exact inner
  | file =>
      cases content : contentHash s e.inode_id with
      | none =>
          refine ⟨fun k x => ?_, fun j => ?_, le_rfl⟩
          · simp only [EntryPart, kind]
            constructor
            · exact .inl
            · rintro (old | ⟨rfl, here⟩)
              · exact old
              · rw [content] at here
                cases here
          · simp [DirPart, kind]
      | some hash =>
          have entry : TreeEntry env s e.inode_id hash := inTree _ _ (by
            simp only [EntryPart, kind]
            exact ⟨trivial, content⟩)
          have recorded := shape.walked_record sound entry
          refine ⟨fun k x => (recorded.map k x).trans ?_, fun j => ?_, recorded.grows⟩
          · simp only [EntryPart, kind]
            refine or_congr_right ⟨?_, ?_⟩
            · rintro ⟨rfl, rfl⟩
              exact ⟨rfl, content⟩
            · rintro ⟨rfl, here⟩
              exact ⟨rfl, Option.some.inj (content.symm.trans here)⟩
          · rw [recorded.visited]
            simp [DirPart, kind]

private theorem entriesLoop_spec (shape : Shape env ids s) (store : Bool) (fuel : Nat)
    (nested : ∀ (child : U128) (w : Walk), DirBelow s rootInode child → WalkSound env s w →
      (∀ j, DirBelow s child j → j ∉ w.visited) → maxTreeNodes + 1 ≤ fuel + w.visited.size →
      WalkOutcome s (EntryBelow env s child) (DirBelow s child) w
        (materializeTree env s store fuel child w))
    {inode : U128} (reach : DirBelow s rootInode inode) (l : List DirEntry)
    (members : ∀ e ∈ l, e ∈ s.materializeDir inode)
    (distinct : (l.map DirEntry.inode_id).Nodup) (w : Walk) (sound : WalkSound env s w)
    (fresh : ∀ e ∈ l, ∀ j, DirPart s e j → j ∉ w.visited)
    (enough : maxTreeNodes + 1 ≤ fuel + w.visited.size) :
    WalkOutcome s (fun k x => ∃ e ∈ l, EntryPart env s e k x)
      (fun j => ∃ e ∈ l, DirPart s e j) w
      (l.forM (walkEntry s (materializeTree env s store fuel)) w) := by
  induction l generalizing w with
  | nil => exact ⟨by simp, by simp, le_rfl⟩
  | cons e l ih =>
      have member := members e List.mem_cons_self
      have link : ∀ {e'}, e' ∈ e :: l → e'.entry_type = .dir → s.LinkedAs .dir inode e'.inode_id :=
        fun inside kind => (s.mem_materializeDir _ _ _).mp ⟨_, members _ inside, rfl, kind⟩
      obtain ⟨inTree, dirsInTree⟩ := @entryPart_inTree env s inode reach e member
      rw [List.map_cons, List.nodup_cons] at distinct
      have first := walkEntry_spec shape store fuel reach member sound
        fun kind => nested e.inode_id w (reach.tail (link List.mem_cons_self kind)) sound
          (fun j path => fresh e List.mem_cons_self j ⟨kind, path⟩) enough
      rw [forM_cons_run]
      cases run : walkEntry s (materializeTree env s store fuel) e w with
      | error err w' =>
          rw [run] at first
          exact first
      | ok u w' =>
          rw [run] at first
          have freshRest : ∀ e' ∈ l, ∀ j, DirPart s e' j → j ∉ w'.visited := by
            intro e' inside j part here
            rcases (first.visited j).mp here with old | now
            · exact fresh e' (List.mem_cons_of_mem e inside) j part old
            · refine shape.dirForest.siblings_disjoint (link List.mem_cons_self now.1)
                (link (List.mem_cons_of_mem e inside) part.1) ?_ now.2 part.2
              intro same
              exact distinct.1 (same ▸ List.mem_map_of_mem inside)
          have after := ih (fun e' inside => members e' (List.mem_cons_of_mem e inside)) distinct.2
            w' (sound.walked first inTree dirsInTree) freshRest
            (enough.trans (Nat.add_le_add_left first.grows fuel))
          simp only
          cases tail : l.forM (walkEntry s (materializeTree env s store fuel)) w' with
          | error err w'' =>
              rw [tail] at after
              exact after
          | ok u w'' =>
              rw [tail] at after
              refine ⟨fun k x => ?_, fun j => ?_, first.grows.trans after.grows⟩
              · rw [after.map, first.map, or_assoc]
                simp
              · rw [after.visited, first.visited, or_assoc]
                simp

private theorem stored_spec (shape : Shape env ids s) {inode : U128}
    (reach : DirBelow s rootInode inode) {w w' : Walk}
    (loop : Walked (fun k x => ∃ e ∈ s.materializeDir inode, EntryPart env s e k x)
      (fun j => ∃ e ∈ s.materializeDir inode, DirPart s e j) (w.visit inode) w')
    (sound : WalkSound env s (w.visit inode)) (store : Bool) :
    Walked (EntryBelow env s inode) (DirBelow s inode) w
      ((if store then w'.putBlob (dirHash env s inode) (encodeObject env (currentDirObject s inode))
        else w').record inode (dirHash env s inode)) := by
  have sameMap : (if store then w'.putBlob (dirHash env s inode)
      (encodeObject env (currentDirObject s inode)) else w').inode_map = w'.inode_map := by
    unfold Walk.putBlob
    split <;> [split; skip] <;> rfl
  have sameVisited : (if store then w'.putBlob (dirHash env s inode)
      (encodeObject env (currentDirObject s inode)) else w').visited = w'.visited := by
    unfold Walk.putBlob
    split <;> [split; skip] <;> rfl
  have parts := fun e (member : e ∈ s.materializeDir inode) =>
    @entryPart_inTree env s inode reach e member
  have soundLoop : WalkSound env s w' := by
    refine sound.walked loop ?_ ?_
    · rintro k x ⟨e, member, part⟩
      exact (parts e member).1 k x part
    · rintro j ⟨e, member, part⟩
      exact (parts e member).2 j part
  have recorded := shape.walked_record soundLoop (.inl ⟨reach, rfl⟩ : TreeEntry env s inode _)
  refine ⟨fun k x => ?_, fun j => ?_, ?_⟩
  · have step := recorded.map k x
    simp only [Walk.record] at step ⊢
    rw [sameMap, step, loop.map, entryBelow_iff, or_assoc]
    refine or_congr_right ?_
    rw [or_comm]
    refine or_congr_left ⟨?_, ?_⟩
    · rintro ⟨rfl, rfl⟩
      exact ⟨rfl, rfl⟩
    · rintro ⟨rfl, rfl⟩
      exact ⟨rfl, rfl⟩
  · simp only [Walk.record]
    rw [sameVisited, loop.visited, dirBelow_iff, Walk.visit, BTreeSet.mem_insert]
    tauto
  · simp only [Walk.record]
    rw [sameVisited]
    exact Std.ExtTreeSet.size_le_size_insert.trans loop.grows

theorem Shape.materializeTree_spec (shape : Shape env ids s) (store : Bool) (fuel : Nat)
    (inode : U128) (w : Walk) (reach : DirBelow s rootInode inode) (sound : WalkSound env s w)
    (fresh : ∀ j, DirBelow s inode j → j ∉ w.visited)
    (enough : maxTreeNodes + 1 ≤ fuel + w.visited.size) :
    WalkOutcome s (EntryBelow env s inode) (DirBelow s inode) w
      (materializeTree env s store fuel inode w) := by
  induction fuel generalizing inode w with
  | zero => exact ⟨rfl, by omega, sound.dirs⟩
  | succ fuel ih =>
      have unseen : inode ∉ w.visited := fresh inode .refl
      have notSeen : w.visited.contains inode = false := by
        simpa [← Bool.not_eq_true, Std.ExtTreeSet.contains_iff_mem] using unseen
      have size : (w.visit inode).visited.size = w.visited.size + 1 := by
        simp [Walk.visit, Std.ExtTreeSet.size_insert, unseen]
      have soundHere : WalkSound env s (w.visit inode) := by
        refine ⟨sound.entries, fun j here => ?_⟩
        rcases (BTreeSet.mem_insert _ _ _).mp here with rfl | old
        · exact reach
        · exact sound.dirs j old
      rw [materializeTree_succ, if_neg (by simp [notSeen])]
      by_cases full : maxTreeNodes < (w.visit inode).visited.size
      · rw [if_pos full]
        exact ⟨rfl, full, soundHere.dirs⟩
      · rw [if_neg full]
        have loop := entriesLoop_spec shape store fuel
          (fun child w' childReach soundChild freshChild enoughChild =>
            ih child w' childReach soundChild freshChild enoughChild)
          reach (s.materializeDir inode) (fun _ member => member) (shape.nodup_targets inode)
          (w.visit inode) soundHere ?_ (by omega)
        · simp only [bind_run]
          cases run : (s.materializeDir inode).forM
              (walkEntry s (materializeTree env s store fuel)) (w.visit inode) with
          | error err w' =>
              rw [run] at loop
              exact loop
          | ok u w' =>
              rw [run] at loop
              simp only [modify_run, pure_run]
              exact stored_spec shape reach loop soundHere store
        · intro e member j part here
          have link : s.LinkedAs .dir inode e.inode_id :=
            (s.mem_materializeDir _ _ _).mp ⟨e, member, rfl, part.1⟩
          rcases (BTreeSet.mem_insert _ _ _).mp here with rfl | old
          · exact shape.dirForest.not_below_of_link link part.2
          · exact fresh j (.head link part.2) old

theorem Shape.walkRoot_spec (shape : Shape env ids s) (store : Bool) :
    match walkRoot env s store with
    | .ok _ w => (∀ k x, w.inode_map[k]? = some x ↔ TreeEntry env s k x) ∧
        ∀ j, j ∈ w.visited ↔ DirBelow s rootInode j
    | .error e w => e = .treeExceeded ∧ Overfull s w := by
  have spec := shape.materializeTree_spec store (maxTreeNodes + 1) rootInode ⟨∅, ∅, s.blobs⟩ .refl
    ⟨by simp, by simp⟩ (by simp) (by simp)
  unfold walkRoot
  cases run : materializeTree env s store (maxTreeNodes + 1) rootInode ⟨∅, ∅, s.blobs⟩ with
  | error e w =>
      rw [run] at spec
      exact spec
  | ok hash w =>
      rw [run] at spec
      refine ⟨fun k x => ?_, fun j => ?_⟩
      · rw [spec.map]
        simp [TreeEntry]
      · rw [spec.visited]
        simp

private theorem materializeTree_size (env : Env) (s : CoreState) (store : Bool) (fuel : Nat)
    (inode : U128) {w : Walk} (small : w.visited.size ≤ maxTreeNodes) :
    Ends (fun w => w.visited.size ≤ maxTreeNodes) (fun _ _ => True)
      (materializeTree env s store fuel inode w) := by
  induction fuel generalizing inode w with
  | zero => exact trivial
  | succ fuel ih =>
      rw [materializeTree_succ]
      split
      · exact trivial
      · split
        · exact trivial
        · rename_i room
          have start : (w.visit inode).visited.size ≤ maxTreeNodes := not_lt.mp room
          have entries : Ends (fun w => w.visited.size ≤ maxTreeNodes) (fun _ _ => True)
              ((s.materializeDir inode).forM (walkEntry s (materializeTree env s store fuel))
                (w.visit inode)) := by
            refine Ends.forM _ (fun e _ w' below => ?_) start
            unfold walkEntry
            cases e.entry_type with
            | dir => exact Ends.bind (ih e.inode_id below) fun _ _ _ after => after
            | file =>
                dsimp only
                cases contentHash s e.inode_id <;> exact below
          refine Ends.bind entries fun _ w' _ below => ?_
          simp only [bind_run, modify_run, pure_run]
          cases store with
          | false => exact below
          | true =>
              show ((w'.putBlob _ _).record inode _).visited.size ≤ maxTreeNodes
              simp only [Walk.record, Walk.putBlob]
              split <;> exact below

theorem walkRoot_size {store : Bool} {hash : Hash} {w : Walk}
    (run : walkRoot env s store = .ok hash w) : w.visited.size ≤ maxTreeNodes := by
  have start : (⟨∅, ∅, s.blobs⟩ : Walk).visited.size ≤ maxTreeNodes := by simp
  have ends := materializeTree_size env s store (maxTreeNodes + 1) rootInode start
  unfold walkRoot at run
  rw [run] at ends
  exact ends

end WalkSpec

section Listing

variable {env : Env} {ids : Set OpId} {s : CoreState}

/-- The inodes that a listing of a directory shows: what it links to, and what the directories below
it link to. -/
def Beneath (s : CoreState) (inode j : U128) : Prop := ∃ p, DirBelow s inode p ∧ s.Linked p j

def BeneathSome (s : CoreState) (entries : List DirEntry) (j : U128) : Prop :=
  ∃ e ∈ entries, e.inode_id = j ∨ (e.entry_type = .dir ∧ Beneath s e.inode_id j)

theorem beneath_iff {inode j : U128} : Beneath s inode j ↔ BeneathSome s (s.materializeDir inode) j := by
  constructor
  · rintro ⟨p, below, link⟩
    rcases below.cases_head with rfl | ⟨child, edge, rest⟩
    · obtain ⟨e, member, target⟩ := (s.exists_mem_materializeDir _ _).mpr link
      exact ⟨e, member, .inl target⟩
    · obtain ⟨e, member, rfl, kind⟩ := (s.mem_materializeDir _ _ _).mpr edge
      exact ⟨e, member, .inr ⟨kind, p, rest, link⟩⟩
  · rintro ⟨e, member, rfl | ⟨kind, p, below, link⟩⟩
    · exact ⟨inode, .refl, (s.exists_mem_materializeDir _ _).mp ⟨e, member, rfl⟩⟩
    · exact ⟨p, .head ((s.mem_materializeDir _ _ _).mp ⟨e, member, rfl, kind⟩) below, link⟩

theorem BeneathSome.below {entries : List DirEntry} {j : U128} (listed : BeneathSome s entries j) :
    ∃ e ∈ entries, ReflTransGen s.Linked e.inode_id j := by
  obtain ⟨e, member, rfl | ⟨-, p, below, link⟩⟩ := listed
  · exact ⟨e, member, .refl⟩
  · have path : ReflTransGen s.Linked e.inode_id p := below.lift id fun _ _ edge => edge.linked
    exact ⟨e, member, path.tail link⟩

/-- Lines for some of what these entries contribute, each inode once. -/
private structure Lines (s : CoreState) (entries : List DirEntry) (extra : List WalkEntry) : Prop where
  nodup : (extra.map WalkEntry.inode).Nodup
  listed : ∀ x ∈ extra, BeneathSome s entries x.inode

/-- How a listing of these entries may end: it adds a line for everything that they contribute, or
there are more lines than the limit. -/
private def ListOutcome (s : CoreState) (entries : List DirEntry) (out : List WalkEntry) :
    Except Err (List WalkEntry) → Prop
  | .ok out' => ∃ extra, out' = out ++ extra ∧ Lines s entries extra ∧
      ∀ j, BeneathSome s entries j → j ∈ extra.map WalkEntry.inode
  | .error e => e = .listingExceeded ∧ ∃ extra, Lines s entries extra ∧
      maxWalkEntries < out.length + extra.length

private theorem Lines.push (shape : Shape env ids s) {e : DirEntry} {extra : List WalkEntry}
    (dir : e.entry_type = .dir) (lines : Lines s (s.materializeDir e.inode_id) extra) (path : String)
    (depth : Nat) : Lines s [e] (walkEntryFor s path depth e :: extra) := by
  constructor
  · rw [List.map_cons, List.nodup_cons]
    refine ⟨fun inside => ?_, lines.nodup⟩
    obtain ⟨x, member, same⟩ := List.mem_map.mp inside
    obtain ⟨e', listed, below⟩ := (lines.listed x member).below
    have edge : s.Linked e.inode_id e'.inode_id :=
      (s.exists_mem_materializeDir _ _).mp ⟨e', listed, rfl⟩
    rw [same] at below
    exact shape.forest.not_below_of_link edge below
  · refine List.forall_mem_cons.mpr ⟨⟨e, List.mem_singleton_self e, .inl rfl⟩, fun x member => ?_⟩
    exact ⟨e, List.mem_singleton_self e, .inr ⟨dir, beneath_iff.mpr (lines.listed x member)⟩⟩

private theorem Lines.append (shape : Shape env ids s) {inode : U128} {e : DirEntry} {l : List DirEntry}
    (members : ∀ e' ∈ e :: l, e' ∈ s.materializeDir inode)
    (distinct : ((e :: l).map DirEntry.inode_id).Nodup) {now later : List WalkEntry}
    (first : Lines s [e] now) (rest : Lines s l later) : Lines s (e :: l) (now ++ later) := by
  have link : ∀ {e'}, e' ∈ e :: l → s.Linked inode e'.inode_id := fun inside =>
    (s.exists_mem_materializeDir _ _).mp ⟨_, members _ inside, rfl⟩
  rw [List.map_cons, List.nodup_cons] at distinct
  constructor
  · rw [List.map_append, List.nodup_append]
    refine ⟨first.nodup, rest.nodup, ?_⟩
    intro a inNow b inLater same
    subst same
    obtain ⟨x, memberX, rfl⟩ := List.mem_map.mp inNow
    obtain ⟨y, memberY, same⟩ := List.mem_map.mp inLater
    obtain ⟨e₁, isE, pathX⟩ := (first.listed x memberX).below
    obtain ⟨e₂, inside, pathY⟩ := (rest.listed y memberY).below
    rw [List.mem_singleton] at isE
    subst isE
    rw [same] at pathY
    refine shape.forest.siblings_disjoint (link List.mem_cons_self)
      (link (List.mem_cons_of_mem _ inside)) (fun equal => ?_) pathX pathY
    exact distinct.1 (equal ▸ List.mem_map_of_mem inside)
  · intro x member
    rcases List.mem_append.mp member with inNow | inLater
    · obtain ⟨e', isE, listed⟩ := first.listed x inNow
      rw [List.mem_singleton.mp isE] at listed
      exact ⟨e, List.mem_cons_self, listed⟩
    · obtain ⟨e', inside, listed⟩ := rest.listed x inLater
      exact ⟨e', List.mem_cons_of_mem e inside, listed⟩

private theorem walkStep_spec (shape : Shape env ids s) {fuel : Nat}
    (nested : ∀ (child : U128) (base : String) (depth : Nat) (out : List WalkEntry),
      maxWalkEntries + 2 ≤ fuel + out.length →
        ListOutcome s (s.materializeDir child) out (walkInto s fuel child base depth out))
    (base : String) (depth : Nat) (e : DirEntry) (out : List WalkEntry)
    (enough : maxWalkEntries + 1 ≤ fuel + out.length) :
    ListOutcome s [e] out (walkStep s (walkInto s fuel) base depth out e) := by
  unfold walkStep
  dsimp only
  split
  · rename_i dir
    have below := nested e.inode_id (base ++ "/" ++ e.name) (depth + 1)
      (out ++ [walkEntryFor s (base ++ "/" ++ e.name) depth e]) (by simp; omega)
    cases run : walkInto s fuel e.inode_id (base ++ "/" ++ e.name) (depth + 1)
        (out ++ [walkEntryFor s (base ++ "/" ++ e.name) depth e]) with
    | error err =>
        rw [run] at below
        obtain ⟨rfl, extra, lines, full⟩ := below
        refine ⟨rfl, _, lines.push shape dir (base ++ "/" ++ e.name) depth, ?_⟩
        simp only [List.length_append, List.length_cons, List.length_nil] at full ⊢
        omega
    | ok out' =>
        rw [run] at below
        obtain ⟨extra, rfl, lines, all⟩ := below
        refine ⟨_, by simp, lines.push shape dir (base ++ "/" ++ e.name) depth, ?_⟩
        rintro j ⟨e', isE, rfl | ⟨-, listed⟩⟩
        · rw [List.mem_singleton.mp isE]
          exact List.mem_cons_self
        · rw [List.mem_singleton.mp isE] at listed
          exact List.mem_cons_of_mem _ (all j (beneath_iff.mp listed))
  · rename_i file
    refine ⟨[walkEntryFor s (base ++ "/" ++ e.name) depth e], rfl, ⟨List.nodup_singleton _, ?_⟩, ?_⟩
    · intro x member
      rw [List.mem_singleton.mp member]
      exact ⟨e, List.mem_singleton_self e, .inl rfl⟩
    · rintro j ⟨e', isE, listed⟩
      rw [List.mem_singleton.mp isE] at listed
      rcases listed with rfl | ⟨dir, -⟩
      · exact List.mem_cons_self
      · exact absurd dir file

private theorem walkEntries_spec (shape : Shape env ids s) {fuel : Nat}
    (nested : ∀ (child : U128) (base : String) (depth : Nat) (out : List WalkEntry),
      maxWalkEntries + 2 ≤ fuel + out.length →
        ListOutcome s (s.materializeDir child) out (walkInto s fuel child base depth out))
    {inode : U128} (base : String) (depth : Nat) (l : List DirEntry)
    (members : ∀ e ∈ l, e ∈ s.materializeDir inode)
    (distinct : (l.map DirEntry.inode_id).Nodup) (out : List WalkEntry)
    (enough : maxWalkEntries + 1 ≤ fuel + out.length) :
    ListOutcome s l out (l.foldlM (walkStep s (walkInto s fuel) base depth) out) := by
  induction l generalizing out with
  | nil => exact ⟨[], by simp, ⟨List.nodup_nil, by simp⟩, by simp [BeneathSome]⟩
  | cons e l ih =>
      rw [List.foldlM_cons]
      have first := walkStep_spec shape nested base depth e out enough
      cases step : walkStep s (walkInto s fuel) base depth out e with
      | error err =>
          rw [step] at first
          obtain ⟨rfl, now, lines, full⟩ := first
          refine ⟨rfl, now, ⟨lines.nodup, fun x member => ?_⟩, full⟩
          obtain ⟨e', isE, listed⟩ := lines.listed x member
          rw [List.mem_singleton.mp isE] at listed
          exact ⟨e, List.mem_cons_self, listed⟩
      | ok mid =>
          rw [step] at first
          obtain ⟨now, rfl, lines, all⟩ := first
          have rest := ih (fun e' inside => members e' (List.mem_cons_of_mem e inside))
            (List.nodup_cons.mp distinct).2 (out ++ now) (by rw [List.length_append]; omega)
          show ListOutcome s (e :: l) out (l.foldlM (walkStep s (walkInto s fuel) base depth) (out ++ now))
          cases tail : l.foldlM (walkStep s (walkInto s fuel) base depth) (out ++ now) with
          | error err =>
              rw [tail] at rest
              obtain ⟨rfl, later, lines', full⟩ := rest
              refine ⟨rfl, now ++ later, lines.append shape members distinct lines', ?_⟩
              rw [List.length_append] at full ⊢
              omega
          | ok out' =>
              rw [tail] at rest
              obtain ⟨later, rfl, lines', all'⟩ := rest
              refine ⟨now ++ later, by simp, lines.append shape members distinct lines', ?_⟩
              rintro j ⟨e', inside, listed⟩
              rw [List.map_append, List.mem_append]
              rcases List.mem_cons.mp inside with rfl | inside
              · exact .inl (all j ⟨e', List.mem_singleton_self e', listed⟩)
              · exact .inr (all' j ⟨e', inside, listed⟩)

private theorem walkInto_spec (shape : Shape env ids s) (fuel : Nat) (inode : U128)
    (base : String) (depth : Nat) (out : List WalkEntry)
    (enough : maxWalkEntries + 2 ≤ fuel + out.length) :
    ListOutcome s (s.materializeDir inode) out (walkInto s fuel inode base depth out) := by
  induction fuel generalizing inode base depth out with
  | zero => exact ⟨rfl, [], ⟨List.nodup_nil, by simp⟩, by rw [List.length_nil]; omega⟩
  | succ fuel ih =>
      unfold walkInto
      split
      · rename_i full
        exact ⟨rfl, [], ⟨List.nodup_nil, by simp⟩, full⟩
      · exact walkEntries_spec shape ih base depth _ (fun _ member => member)
          (shape.nodup_targets inode) out (by omega)

def SmallListing (s : CoreState) (inode : U128) : Prop :=
  ∀ l : List U128, l.Nodup → (∀ j ∈ l, Beneath s inode j) → l.length ≤ maxWalkEntries

/-- A listing of a directory shows exactly what is below it, each inode once; and it returns unless
there is more than the limit. -/
theorem Shape.walk_spec (shape : Shape env ids s) {root : String} {inode : U128}
    (resolved : resolvePath s root = .ok (some (inode, .dir))) :
    (SmallListing s inode → ∃ out, walk s root = .ok out) ∧
      ∀ out, walk s root = .ok out → (out.map WalkEntry.inode).Nodup ∧
        ∀ j, j ∈ out.map WalkEntry.inode ↔ Beneath s inode j := by
  have opened : walk s root = walkInto s (maxWalkEntries + 2) inode (trimSlashes root) 0 [] := by
    unfold walk
    rw [resolved]
    rfl
  have spec := walkInto_spec shape (maxWalkEntries + 2) inode (trimSlashes root) 0 [] le_rfl
  rw [← opened] at spec
  cases run : walk s root with
  | error e =>
      rw [run] at spec
      obtain ⟨-, extra, lines, full⟩ := spec
      refine ⟨fun small => absurd (small _ lines.nodup fun j member => ?_) ?_, fun out same => by cases same⟩
      · obtain ⟨x, inside, rfl⟩ := List.mem_map.mp member
        exact beneath_iff.mpr (lines.listed x inside)
      · rw [List.length_map]
        rw [List.length_nil] at full
        omega
  | ok out =>
      rw [run] at spec
      obtain ⟨extra, rfl, lines, all⟩ := spec
      refine ⟨fun _ => ⟨_, rfl⟩, fun out same => ?_⟩
      obtain rfl := Except.ok.inj same
      refine ⟨lines.nodup, fun j => ⟨fun member => ?_, fun listed => all j (beneath_iff.mp listed)⟩⟩
      obtain ⟨x, inside, rfl⟩ := List.mem_map.mp member
      exact beneath_iff.mpr (lines.listed x inside)

theorem walk_ok {root : String} {out : List WalkEntry} (run : walk s root = .ok out) :
    ∃ inode, resolvePath s root = .ok (some (inode, .dir)) := by
  unfold walk at run
  obtain ⟨found, resolved, run⟩ := Effect.bind_eq_ok.mp run
  cases found with
  | none => cases run
  | some target =>
      obtain ⟨inode, kind⟩ := target
      dsimp only at run
      split at run
      · cases run
      · rename_i isDir
        obtain rfl : kind = .dir := not_not.mp isDir
        exact ⟨inode, resolved⟩

theorem Shape.walk_nodup (shape : Shape env ids s) {root : String} {out : List WalkEntry}
    (run : walk s root = .ok out) : (out.map WalkEntry.inode).Nodup := by
  obtain ⟨inode, resolved⟩ := walk_ok run
  exact ((shape.walk_spec resolved).2 out run).1

end Listing

end NexusFS.Core
