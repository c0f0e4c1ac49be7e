/- GID: NexusFS/Core/Crawl
   source: crates/core/src/share.rs
   digest: Which files a pass goes over, before and after it. -/

import NexusFS.Core.Present
import NexusFS.Core.Share
import NexusFS.Core.Splice

set_option autoImplicit false
set_option relaxedAutoImplicit false

namespace NexusFS.Core

open NexusFS.Lib NexusFS.Proto NexusFS.Crdt CoreState

section Crawl

variable {env : Env} {ids : Set OpId} {s t : CoreState} {c d : Crawl}

def ShownFile (s : CoreState) (inode : U128) : Prop :=
  ∃ dir, ∃ e ∈ s.materializeDir dir, e.inode_id = inode ∧ e.entry_type = .file

/-- What the walk has found so far: files that are shown, each once, with the objects they name. -/
structure Found (s : CoreState) (c : Crawl) : Prop where
  distinct : (c.out.map Prod.fst).Nodup
  seen : ∀ row ∈ c.out, row.1 ∈ c.seen
  named : ∀ row ∈ c.out, nodeHashOf s row.1 = some row.2
  shown : ∀ row ∈ c.out, ShownFile s row.1

private theorem Found.entry (found : Found s c) {dir : U128} {e : DirEntry}
    (member : e ∈ s.materializeDir dir) : Found s (crawlEntry s c e) := by
  have wider : ∀ row ∈ c.out, row.1 ∈ c.seen.insert e.inode_id := fun row inside =>
    (BTreeSet.mem_insert _ _ _).mpr (.inr (found.seen row inside))
  unfold crawlEntry
  split
  · exact found
  · rename_i new
    dsimp only
    cases kind : e.entry_type with
    | dir => exact ⟨found.distinct, wider, found.named, found.shown⟩
    | file =>
        dsimp only
        cases content : nodeHashOf s e.inode_id with
        | none => exact ⟨found.distinct, wider, found.named, found.shown⟩
        | some hash =>
            have only : ∀ {row}, row ∈ c.out ++ [(e.inode_id, hash)] →
                row ∈ c.out ∨ row = (e.inode_id, hash) := fun inside =>
              (List.mem_append.mp inside).imp_right List.mem_singleton.mp
            refine ⟨?_, fun row inside => ?_, fun row inside => ?_, fun row inside => ?_⟩
            · rw [List.map_append, List.map_singleton]
              refine found.distinct.append (List.nodup_singleton _) ?_
              rintro i listed fresh
              obtain ⟨row, inside, rfl⟩ := List.mem_map.mp listed
              have same : row.1 = e.inode_id := List.mem_singleton.mp fresh
              rw [← same] at new
              exact new (found.seen row inside)
            · rcases only inside with old | rfl
              · exact wider row old
              · exact (BTreeSet.mem_insert _ _ _).mpr (.inl rfl)
            · rcases only inside with old | rfl
              · exact found.named row old
              · exact content
            · rcases only inside with old | rfl
              · exact found.shown row old
              · exact ⟨dir, e, member, rfl, kind⟩

private theorem Found.crawl (found : Found s c) (fuel : Nat) : Found s (crawl s fuel c) := by
  induction fuel generalizing c with
  | zero => exact found
  | succ fuel ih =>
      unfold Core.crawl
      split
      · exact found
      · rename_i dir rest queue
        refine ih ?_
        have start : Found s { c with queue := rest } := ⟨found.distinct, found.seen, found.named, found.shown⟩
        have entries : ∀ (l : List DirEntry) (c : Crawl), Found s c →
            (∀ e ∈ l, e ∈ s.materializeDir dir) → Found s (l.foldl (crawlEntry s) c) := by
          intro l
          induction l with
          | nil => exact fun c found _ => found
          | cons e l more =>
              intro c found inside
              exact more _ (found.entry (inside e List.mem_cons_self))
                fun e' member => inside e' (List.mem_cons_of_mem e member)
        exact entries _ _ start fun e member => member

theorem found_encryptedFiles (s : CoreState) : ∃ c, c.out = encryptedFiles s ∧ Found s c := by
  have start : Found s ⟨[rootInode], ∅, []⟩ := ⟨List.nodup_nil, by simp, by simp, by simp⟩
  exact ⟨_, rfl, start.crawl _⟩

theorem encryptedFiles_distinct (s : CoreState) : ((encryptedFiles s).map Prod.fst).Nodup := by
  obtain ⟨c, same, found⟩ := found_encryptedFiles s
  exact same ▸ found.distinct

theorem encryptedFiles_named {row : U128 × Hash} (member : row ∈ encryptedFiles s) :
    nodeHashOf s row.1 = some row.2 := by
  obtain ⟨c, same, found⟩ := found_encryptedFiles s
  rw [← same] at member
  exact found.named row member

theorem encryptedFiles_ext {row other : U128 × Hash} (member : row ∈ encryptedFiles s)
    (member' : other ∈ encryptedFiles s) (same : row.1 = other.1) : row = other := by
  have named := encryptedFiles_named member
  rw [same, encryptedFiles_named member'] at named
  exact Prod.ext same (Option.some.inj named).symm

theorem Shape.encryptedFiles_fileAt (shape : Shape env ids s) {row : U128 × Hash}
    (member : row ∈ encryptedFiles s) :
    ∃ reg, FileAt row.1 reg s ∧ reg.value.node_hash = some row.2 := by
  obtain ⟨c, same, found⟩ := found_encryptedFiles s
  rw [← same] at member
  obtain ⟨dir, e, shown, owner, kind⟩ := found.shown row member
  have named := found.named row member
  unfold nodeHashOf at named
  obtain ⟨record, here, content⟩ := Option.bind_eq_some_iff.mp named
  obtain ⟨name, dot, value, live, target, type⟩ :=
    (s.mem_materializeDir dir row.1 .file).mp ⟨e, shown, owner, kind⟩
  refine ⟨record.content, ⟨record, here, ?_, rfl⟩, content⟩
  rw [← type]
  exact shape.kinds live (target ▸ here)

theorem nodeHashOf_eq (s : CoreState) (i : U128) :
    nodeHashOf s i = (contentAt s i).bind fun reg => reg.value.node_hash := by
  unfold nodeHashOf contentAt
  cases s.loadInode i <;> rfl

theorem nodeHashOf_congr {i : U128} (same : contentAt t i = contentAt s i) :
    nodeHashOf t i = nodeHashOf s i := by
  rw [nodeHashOf_eq, nodeHashOf_eq, same]

theorem FileAt.nodeHashOf {inode : U128} {reg : LwwReg ContentState} (file : FileAt inode reg s) :
    nodeHashOf s inode = reg.value.node_hash := by
  obtain ⟨record, found, -, rfl⟩ := file
  unfold Core.nodeHashOf
  rw [found]
  rfl

def rowOf (s : CoreState) (i : U128) : Option (U128 × Hash) := (nodeHashOf s i).map (Prod.mk i)

/-- Two walks that have come equally far and found the same files, whatever these name. -/
structure Alongside (s t : CoreState) (c d : Crawl) : Prop where
  queue : d.queue = c.queue
  seen : d.seen = c.seen
  found : ∃ files : List U128, c.out = files.filterMap (rowOf s) ∧ d.out = files.filterMap (rowOf t)

private theorem Alongside.entry (beside : Alongside s t c d) (e : DirEntry) :
    Alongside s t (crawlEntry s c e) (crawlEntry t d e) := by
  obtain ⟨queue, seen, files, left, right⟩ := beside
  have more : ∀ u, (files ++ [e.inode_id]).filterMap (rowOf u) =
      files.filterMap (rowOf u) ++ (rowOf u e.inode_id).toList := by
    intro u
    rw [List.filterMap_append, List.filterMap_cons, List.filterMap_nil]
    cases rowOf u e.inode_id <;> rfl
  unfold crawlEntry
  rw [seen]
  split
  · exact ⟨queue, seen, files, left, right⟩
  · dsimp only
    cases e.entry_type with
    | dir => exact ⟨congrArg (e.inode_id :: ·) queue, rfl, files, left, right⟩
    | file =>
        refine ⟨?_, ?_, files ++ [e.inode_id], ?_, ?_⟩
        · cases nodeHashOf s e.inode_id <;> cases nodeHashOf t e.inode_id <;> exact queue
        · cases nodeHashOf s e.inode_id <;> cases nodeHashOf t e.inode_id <;> rfl
        · rw [more, ← left, rowOf]
          cases nodeHashOf s e.inode_id <;> simp
        · rw [more, ← right, rowOf]
          cases nodeHashOf t e.inode_id <;> simp

private theorem Alongside.crawl (beside : Alongside s t c d) (dirs : t.dirs = s.dirs) (fuel : Nat) :
    Alongside s t (crawl s fuel c) (crawl t fuel d) := by
  induction fuel generalizing c d with
  | zero => exact beside
  | succ fuel ih =>
      unfold Core.crawl
      rw [beside.queue]
      cases c.queue with
      | nil => exact beside
      | cons dir rest =>
          have listing : t.materializeDir dir = s.materializeDir dir :=
            materializeDir_congr (by rw [CoreState.loadDir, dirs, CoreState.loadDir])
          have entries : ∀ (l : List DirEntry) (c d : Crawl), Alongside s t c d →
              Alongside s t (l.foldl (crawlEntry s) c) (l.foldl (crawlEntry t) d) := by
            intro l
            induction l with
            | nil => exact fun _ _ beside => beside
            | cons e l more => exact fun c d beside => more _ _ (beside.entry e)
          dsimp only
          rw [listing]
          exact ih (entries _ _ _ ⟨rfl, beside.seen, beside.found⟩)

theorem encryptedFiles_later (dirs : t.dirs = s.dirs) {row : U128 × Hash} (member : row ∈ encryptedFiles s)
    {hash : Hash} (named : nodeHashOf t row.1 = some hash) : (row.1, hash) ∈ encryptedFiles t := by
  have start : Alongside s t ⟨[rootInode], ∅, []⟩ ⟨[rootInode], ∅, []⟩ := ⟨rfl, rfl, [], rfl, rfl⟩
  obtain ⟨files, left, right⟩ := (start.crawl dirs (2 ^ 128 + 1)).found
  have listed : row ∈ files.filterMap (rowOf s) := left ▸ member
  obtain ⟨i, inside, same⟩ := List.mem_filterMap.mp listed
  obtain ⟨_, -, rfl⟩ := Option.map_eq_some_iff.mp same
  have there : (i, hash) ∈ files.filterMap (rowOf t) :=
    List.mem_filterMap.mpr ⟨i, inside, by rw [rowOf, named]; rfl⟩
  exact (congrArg ((i, hash) ∈ ·) right).mpr there

end Crawl

end NexusFS.Core
