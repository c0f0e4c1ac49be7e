/- GID: NexusFS/Core/Tree
   source: crates/core/src/namespace.rs, crates/core/src/state.rs
   digest: The file tree that a state holds, and what the calls that read it say of the tree. -/

import NexusFS.Core.Relink
import NexusFS.Core.Sealed
import NexusFS.Core.Splice
import NexusFS.Lib.FileTree

set_option autoImplicit false
set_option relaxedAutoImplicit false

namespace NexusFS.Core

open NexusFS.Lib NexusFS.Proto NexusFS.Crdt CoreState

section Edges

variable {env : Env} {ids : Set OpId} {s t : CoreState}

def rootNode : U128 × EntryType := (rootInode, .dir)

/-- One component of a path leads from a directory to the entry that is found under it. -/
def Edge (s : CoreState) (a : U128 × EntryType) (part : String) (b : U128 × EntryType) : Prop :=
  a.2 = .dir ∧ ∃ e, s.lookup a.1 part = some e ∧ b = (e.inode_id, e.entry_type)

theorem leads_iff_walks {a b : U128 × EntryType} {parts : List String} :
    Leads s a parts b ↔ Walks (Edge s) a parts b := by
  induction parts generalizing a with
  | nil => rw [Leads.nil_iff, Walks.nil_iff]
  | cons part rest ih =>
      rw [Leads.cons_iff, Walks.cons_iff]
      constructor
      · rintro ⟨dir, e, found, later⟩
        exact ⟨_, ⟨dir, e, found, rfl⟩, ih.mp later⟩
      · rintro ⟨_, ⟨dir, e, found, rfl⟩, later⟩
        exact ⟨dir, e, found, ih.mpr later⟩

theorem Shape.rooted (shape : Shape env ids s) : Rooted (Edge s) rootNode where
  unique := by
    rintro a l b c ⟨-, e, found, rfl⟩ ⟨-, e', found', rfl⟩
    obtain rfl := Option.some.inj (found.symm.trans found')
    rfl
  single := by
    rintro a l b m c ⟨dir, e, found, rfl⟩ ⟨dir', e', found', same⟩
    obtain ⟨inode, rfl⟩ := shape.lookup_injective found found' (Prod.mk.inj same).1
    exact ⟨Prod.ext inode (dir.trans dir'.symm), rfl⟩
  top := by
    rintro a l ⟨-, e, found, same⟩
    have root : rootInode = e.inode_id := (Prod.mk.inj same).1
    exact shape.not_linked_root a.1 (root ▸ (linkedAs_of_lookup found).linked)

def treeNode (env : Env) (s : CoreState) (b : U128 × EntryType) : Option (Node Bytes) :=
  match b.2 with
  | .dir => some .dir
  | .file =>
      match readFile env s b.1 with
      | .ok data => some (.file data)
      | .error _ => none

theorem treeNode_file {inode : U128} {data : Bytes} :
    treeNode env s (inode, .file) = some (.file data) ↔ readFile env s inode = .ok data := by
  unfold treeNode
  dsimp only
  cases readFile env s inode with
  | error e => simp
  | ok other => simp

def HoldsTree (env : Env) (s : CoreState) (t : FileTree String Bytes) : Prop :=
  FileTree.Denotes (Edge s) rootNode (treeNode env s) t

end Edges

section Sole

variable {s t : CoreState} {p : U128} {n : String} {d : Dot} {v : DirEntryValue} {e : DirEntry}

def Sole (s : CoreState) : Prop :=
  ∀ {p n d v d' v'}, s.Live p n d v → s.Live p n d' v' → d = d'

theorem Sole.getAll (sole : Sole s) (live : s.Live p n d v) : (s.dirAt p).getAll n = [(d, v)] := by
  have nodup := (s.dirAt p).getAll_nodup n
  have members : ∀ x, x ∈ (s.dirAt p).getAll n ↔ x ∈ [(d, v)] := by
    rintro ⟨d', v'⟩
    rw [OrMap.mem_getAll, List.mem_singleton]
    constructor
    · intro other
      obtain rfl := sole live other
      rw [Option.some.inj (live.1.symm.trans other.1)]
    · intro same
      cases same
      exact live
  exact List.perm_singleton.mp ((List.perm_ext_iff_of_nodup nodup (List.nodup_singleton _)).mpr members)

theorem Sole.lookup_iff (sole : Sole s) : s.lookup p n = some e ↔
    ∃ d v, s.Live p n d v ∧ e = ⟨n, v.inode_id, v.entry_type⟩ := by
  constructor
  · intro found
    obtain ⟨key, idx, d, v, here, rfl, live, named⟩ := shown_of_lookup found
    have only := sole.getAll live
    cases idx with
    | zero =>
        have own : key = n := named
        subst own
        exact ⟨d, v, live, rfl⟩
    | succ idx =>
        rw [only] at here
        cases here
  · rintro ⟨d, v, live, rfl⟩
    rw [lookup_eq_findEntry]
    exact findEntry_single (sole.getAll live)

theorem Sole.mem_materializeDir (sole : Sole s) : e ∈ s.materializeDir p ↔ s.lookup p e.name = some e := by
  have listed : e ∈ s.materializeDir p ↔ e ∈ listing (s.dirAt p) := by
    unfold materializeDir dirAt
    cases s.loadDir p with
    | none =>
        have bare : listing ∅ = [] := by decide +kernel
        simp [bare]
    | some map => rfl
  rw [listed, mem_listing, sole.lookup_iff]
  constructor
  · rintro ⟨key, idx, d, v, here, rfl⟩
    have live := ((s.dirAt p).mem_getAll key d v).mp (List.mem_of_getElem? here)
    rw [sole.getAll live] at here
    cases idx with
    | zero => exact ⟨d, v, live, rfl⟩
    | succ idx => cases here
  · rintro ⟨d, v, live, same⟩
    exact ⟨e.name, 0, d, v, by rw [sole.getAll live]; rfl, same⟩

theorem Sole.edge_iff (sole : Sole s) {a b : U128 × EntryType} : Edge s a n b ↔
    a.2 = .dir ∧ ∃ d v, s.Live a.1 n d v ∧ b = (v.inode_id, v.entry_type) := by
  refine and_congr_right fun _ => ?_
  simp only [sole.lookup_iff]
  constructor
  · rintro ⟨_, ⟨d, v, live, rfl⟩, rfl⟩
    exact ⟨d, v, live, rfl⟩
  · rintro ⟨d, v, live, rfl⟩
    exact ⟨_, ⟨d, v, live, rfl⟩, rfl⟩

theorem Sole.relink (sole : Sole s) (kept : U128 → String → Prop) {id : OpId} {value : DirEntryValue}
    (free : ∀ d v, ¬s.Live p n d v)
    (live : ∀ q m d v, t.Live q m d v ↔
      (q = p ∧ m = n ∧ d = id ∧ v = value) ∨ (s.Live q m d v ∧ kept q m)) :
    Sole t ∧ ∀ a l b, Edge t a l b ↔ (Edge s a l b ∧ kept a.1 l) ∨
      (a = (p, .dir) ∧ l = n ∧ b = (value.inode_id, value.entry_type)) := by
  have sole' : Sole t := by
    intro q m d v d' v' one two
    rcases (live _ _ _ _).mp one with ⟨rfl, rfl, rfl, -⟩ | ⟨old, -⟩
    · rcases (live _ _ _ _).mp two with ⟨-, -, rfl, -⟩ | ⟨old', -⟩
      · rfl
      · exact absurd old' (free _ _)
    · rcases (live _ _ _ _).mp two with ⟨rfl, rfl, rfl, -⟩ | ⟨old', -⟩
      · exact absurd old (free _ _)
      · exact sole old old'
  refine ⟨sole', fun a l b => ?_⟩
  rw [sole'.edge_iff, sole.edge_iff]
  simp only [live]
  constructor
  · rintro ⟨dir, d, v, ⟨here, rfl, -, rfl⟩ | ⟨old, stays⟩, rfl⟩
    · exact .inr ⟨Prod.ext here dir, rfl, rfl⟩
    · exact .inl ⟨⟨dir, d, v, old, rfl⟩, stays⟩
  · rintro (⟨⟨dir, d, v, old, rfl⟩, stays⟩ | ⟨rfl, rfl, rfl⟩)
    · exact ⟨dir, d, v, .inr ⟨old, stays⟩, rfl⟩
    · exact ⟨rfl, id, value, .inl ⟨rfl, rfl, rfl, rfl⟩, rfl⟩

theorem Sole.cut (sole : Sole s)
    (live : ∀ q m d v, t.Live q m d v ↔ s.Live q m d v ∧ ¬(q = p ∧ m = n)) :
    Sole t ∧ ∀ a l b, Edge t a l b ↔ Edge s a l b ∧ ¬(a.1 = p ∧ l = n) := by
  have sole' : Sole t := fun one two => sole ((live _ _ _ _).mp one).1 ((live _ _ _ _).mp two).1
  refine ⟨sole', fun a l b => ?_⟩
  rw [sole'.edge_iff, sole.edge_iff]
  simp only [live]
  constructor
  · rintro ⟨dir, d, v, ⟨old, stays⟩, rfl⟩
    exact ⟨⟨dir, d, v, old, rfl⟩, stays⟩
  · rintro ⟨⟨dir, d, v, old, rfl⟩, stays⟩
    exact ⟨dir, d, v, ⟨old, stays⟩, rfl⟩

theorem edge_apart {a b : U128 × EntryType} {l : String} :
    Edge s a l b ∧ ¬(a.1 = p ∧ l = n) ↔ Edge s a l b ∧ ¬(a = (p, .dir) ∧ l = n) := by
  refine and_congr_right fun edge => not_congr (and_congr_left fun _ => ?_)
  constructor
  · exact fun same => Prod.ext same edge.1
  · rintro rfl
    rfl

theorem Sole.congr (sole : Sole s) (dirs : t.dirs = s.dirs) : Sole t :=
  fun one two => sole ((live_of_dirs dirs _ _ _ _).mp one) ((live_of_dirs dirs _ _ _ _).mp two)

theorem edge_of_dirs (dirs : t.dirs = s.dirs) : Edge t = Edge s := by
  funext a l b
  unfold Edge
  rw [lookup_of_dirs dirs]

end Sole

section Reading

variable {env : Env} {s : CoreState} {t : FileTree String Bytes} {path : String} {parts : List String}
  {data : Bytes}

theorem HoldsTree.resolve_iff (holds : HoldsTree env s t) (split : splitPath path = .ok parts) :
    (∃ b, resolvePath s path = .ok (some b)) ↔ t parts ≠ none := by
  constructor
  · rintro ⟨b, resolved⟩ missing
    obtain ⟨other, same, leads⟩ := resolvePath_eq_some.mp resolved
    cases split.symm.trans same
    exact holds.none_iff.mp missing b (leads_iff_walks.mp leads)
  · intro there
    obtain ⟨node, here⟩ := Option.ne_none_iff_exists'.mp there
    obtain ⟨b, walk, -⟩ := holds.some_iff.mp here
    exact ⟨b, resolvePath_eq_some.mpr ⟨parts, split, leads_iff_walks.mpr walk⟩⟩

theorem HoldsTree.read_iff (holds : HoldsTree env s t) (split : splitPath path = .ok parts) :
    readFilePath env s path = .ok data ↔ t parts = some (.file data) := by
  unfold readFilePath
  rw [Effect.bind_eq_ok]
  constructor
  · rintro ⟨found, resolved, run⟩
    cases found with
    | none => cases run
    | some b =>
        obtain ⟨inode, kind⟩ := b
        obtain ⟨other, same, leads⟩ := resolvePath_eq_some.mp resolved
        cases split.symm.trans same
        dsimp only at run
        split at run
        · cases run
        · rename_i file
          obtain rfl : kind = .file := not_not.mp file
          exact holds.some_iff.mpr ⟨_, leads_iff_walks.mp leads, treeNode_file.mpr run⟩
  · intro here
    obtain ⟨⟨inode, kind⟩, walk, labelled⟩ := holds.some_iff.mp here
    have resolved := resolvePath_eq_some.mpr ⟨parts, split, leads_iff_walks.mpr walk⟩
    cases kind with
    | dir => cases labelled
    | file => exact ⟨_, resolved, treeNode_file.mp labelled⟩

theorem HoldsTree.list_iff (holds : HoldsTree env s t) (split : splitPath path = .ok parts) :
    (t parts = some .dir ↔ ∃ entries, readDirPath s path = .ok entries) ∧
      ∀ entries, readDirPath s path = .ok entries →
        ∀ name, (∃ e ∈ entries, e.name = name) ↔ t (parts ++ [name]) ≠ none := by
  have dirs : ∀ entries, readDirPath s path = .ok entries ↔ ∃ inode,
      Walks (Edge s) rootNode parts (inode, .dir) ∧ entries = s.materializeDir inode := by
    intro entries
    unfold readDirPath
    rw [Effect.bind_eq_ok]
    constructor
    · rintro ⟨found, resolved, run⟩
      cases found with
      | none => cases run
      | some b =>
          obtain ⟨inode, kind⟩ := b
          obtain ⟨other, same, leads⟩ := resolvePath_eq_some.mp resolved
          cases split.symm.trans same
          dsimp only at run
          split at run
          · cases run
          · rename_i dir
            obtain rfl : kind = .dir := not_not.mp dir
            cases run
            exact ⟨inode, leads_iff_walks.mp leads, rfl⟩
    · rintro ⟨inode, walk, rfl⟩
      exact ⟨_, resolvePath_eq_some.mpr ⟨parts, split, leads_iff_walks.mpr walk⟩, rfl⟩
  refine ⟨?_, fun entries listed name => ?_⟩
  · rw [holds.some_iff]
    constructor
    · rintro ⟨⟨inode, kind⟩, walk, labelled⟩
      cases kind with
      | dir => exact ⟨_, (dirs _).mpr ⟨inode, walk, rfl⟩⟩
      | file =>
          unfold treeNode at labelled
          dsimp only at labelled
          split at labelled <;> cases labelled
    · rintro ⟨entries, listed⟩
      obtain ⟨inode, walk, -⟩ := (dirs entries).mp listed
      exact ⟨_, walk, rfl⟩
  · obtain ⟨inode, walk, rfl⟩ := (dirs entries).mp listed
    have shown : ∀ e, e ∈ s.materializeDir inode ↔ e ∈ listing (s.dirAt inode) := by
      intro e
      unfold materializeDir dirAt
      cases s.loadDir inode with
      | none =>
          have bare : listing ∅ = [] := by decide +kernel
          simp [bare]
      | some map => rfl
    have missing : (¬∃ e ∈ s.materializeDir inode, e.name = name) ↔ s.lookup inode name = none := by
      rw [lookup_eq_findEntry, findEntry_eq_none]
      simp only [shown, not_exists, not_and]
    rw [← not_iff_not, missing, not_not, holds.none_iff]
    constructor
    · rintro none_found y next
      obtain ⟨b, before, -, e, found, -⟩ := Walks.snoc_iff.mp next
      have same : b = (inode, .dir) := by
        have leads := leads_iff_walks.mpr before
        exact leads.unique (leads_iff_walks.mpr walk)
      rw [same, none_found] at found
      cases found
    · intro nowhere
      by_contra some_found
      obtain ⟨e, found⟩ := Option.ne_none_iff_exists'.mp some_found
      exact nowhere _ (Walks.snoc_iff.mpr ⟨_, walk, rfl, e, found, rfl⟩)

end Reading

section Steady

variable {env : Env} {s t : CoreState} {inode : U128} {reg : LwwReg ContentState} {data : Bytes}

private theorem held_of_reads {file_key : Option Hash} {index start : Nat} {chunks : List ChunkRef}
    {pieces : List Bytes} (reads : Reads env s file_key index start chunks pieces) :
    ∀ chunk ∈ chunks, s.hasBlob chunk.hash := by
  induction reads with
  | nil => simp
  | cons held _ _ _ _ ih =>
      intro chunk inside
      rcases List.mem_cons.mp inside with rfl | later
      · rw [hasBlob_iff_get, held]
        rfl
      · exact ih chunk later

theorem contentHeld_of_readFile (file : FileAt inode reg s) (read : readFile env s inode = .ok data) :
    ContentHeld env s reg := by
  intro hash named
  obtain ⟨record, found, kind, rfl⟩ := file
  unfold readFile at read
  rw [found] at read
  dsimp only at read
  rw [if_neg (fun other => other kind), named] at read
  obtain ⟨object, stored, run⟩ := Effect.bind_eq_ok.mp read
  match object, run with
  | none, run => cases run
  | some (.dirNode _), run => cases run
  | some (.snapshotRoot _), run => cases run
  | some (.fileNode file), run =>
      obtain ⟨_, _, -, reads, -⟩ := materializeFile_ok_iff.mp run
      exact ⟨file, stored, held_of_reads reads⟩

theorem readFile_later (file : FileAt inode reg s) (after : FileAt inode reg t) (grew : Extends s t)
    (settings : SameSettings s t) (read : readFile env s inode = .ok data) :
    readFile env t inode = .ok data :=
  (grew.reads settings (contentHeld_of_readFile file read) file after).1.trans read

end Steady

end NexusFS.Core
