/- GID: NexusFS/Core/Creation
   source: crates/core/src/apply.rs, crates/core/src/namespace.rs
   digest: What is found under every name after a creation under a name that was free. -/

import NexusFS.Core.Harmless
import NexusFS.Core.Names

set_option autoImplicit false
set_option relaxedAutoImplicit false

namespace NexusFS.Core

open NexusFS.Lib NexusFS.Proto NexusFS.Crdt CoreState

section Maps

variable {map : DirMap} {name k : String} {dot : Dot} {value : DirEntryValue}

theorem getAll_of_vacant (vacant : findEntry map name = none) : map.getAll name = [] := by
  cases all : map.getAll name with
  | nil => rfl
  | cons x rest =>
      have listed : shownEntry name 0 x.1 x.2 ∈ listing map :=
        mem_listing.mpr ⟨name, 0, x.1, x.2, by rw [all]; rfl, rfl⟩
      exact absurd rfl (findEntry_eq_none.mp vacant _ listed)

variable (fresh : ∀ v, (map.addsAt name)[dot]? ≠ some v) (kept : dot ∉ map.removesAt name)
  (vacant : findEntry map name = none)

include fresh kept vacant

theorem getAll_add_own : (map.add name dot value).getAll name = [(dot, value)] := by
  have members : ∀ x, x ∈ (map.add name dot value).getAll name ↔ x ∈ [(dot, value)] := by
    rintro ⟨d, v⟩
    rw [OrMap.mem_getAll, OrMap.live_add map name name dot d value v fresh, ← OrMap.mem_getAll,
      getAll_of_vacant vacant, List.mem_singleton, Prod.mk.injEq]
    constructor
    · rintro (⟨-, rfl, rfl, -⟩ | none_there)
      · exact ⟨rfl, rfl⟩
      · cases none_there
    · rintro ⟨rfl, rfl⟩
      exact .inl ⟨rfl, rfl, rfl, kept⟩
  exact List.perm_singleton.mp ((List.perm_ext_iff_of_nodup (OrMap.getAll_nodup _ _)
    (List.nodup_singleton _)).mpr members)

theorem findEntry_add_own : findEntry (map.add name dot value) name =
    some ⟨name, value.inode_id, value.entry_type⟩ :=
  findEntry_single (getAll_add_own fresh kept vacant)

theorem findEntry_add_other (other : k ≠ name) :
    findEntry (map.add name dot value) k = findEntry map k := by
  have others : ∀ {k}, k ≠ name → (map.add name dot value).getAll k = map.getAll k := by
    intro k other
    refine getAll_eq_of_live fun d v => ?_
    rw [OrMap.live_add map name k dot d value v fresh]
    exact ⟨fun either => either.resolve_left fun same => other same.1.symm, .inr⟩
  refine findEntry_congr (fun _ => others other) (fun _ => others other) fun e named => ?_
  rw [mem_listing, mem_listing]
  refine exists_congr fun key => ?_
  by_cases own : key = name
  · subst own
    rw [getAll_add_own fresh kept vacant, getAll_of_vacant vacant]
    constructor
    · rintro ⟨idx, d, v, here, rfl⟩
      cases idx with
      | zero => exact absurd named.symm other
      | succ idx => cases here
    · rintro ⟨idx, d, v, here, -⟩
      cases here
  · rw [others own]

end Maps

theorem findEntry_empty (name : String) : findEntry ∅ name = none := by
  refine findEntry_eq_none.mpr fun e member => ?_
  obtain ⟨key, idx, dot, value, here, -⟩ := mem_listing.mp member
  obtain ⟨added, -⟩ := (OrMap.mem_getAll _ _ _ _).mp (List.mem_of_getElem? here)
  simp at added

section Adding

variable {env : Env} {absent : Hash → Prop} {s t : CoreState} {op : FsOp} {id : OpId}

def observedIds (op : FsOp) : List OpId :=
  match op.kind with
  | .unlink _ _ observed | .rename _ _ _ _ observed => observed
  | _ => []

/-- `t` is `s` with one new inode and one new entry, both of the operation `id`. -/
structure Gained (env : Env) (id : OpId) (s t : CoreState) : Prop where
  dirs : ∀ i, inodeForOp env id ≠ i → t.isDir i = s.isDir i
  content : ∀ i, inodeForOp env id ≠ i → contentAt t i = contentAt s i
  links : ∀ {p name d v}, t.Live p name d v → d = id ∨ s.Live p name d v

theorem Gained.congr {s' t' : CoreState} (gained : Gained env id s t) (dirs : s'.dirs = s.dirs)
    (inodes : s'.inodes = s.inodes) (dirs' : t'.dirs = t.dirs) (inodes' : t'.inodes = t.inodes) :
    Gained env id s' t' := by
  refine ⟨fun i apart => ?_, fun i apart => ?_, fun live => ?_⟩
  · have kept := gained.dirs i apart
    simp only [CoreState.isDir, CoreState.loadInode, inodes, inodes'] at kept ⊢
    exact kept
  · have kept := gained.content i apart
    simp only [contentAt, CoreState.loadInode, inodes, inodes'] at kept ⊢
    exact kept
  · unfold Live at live ⊢
    rw [added_congr dirs', removed_congr dirs'] at live
    rw [added_congr dirs, removed_congr dirs]
    exact gained.links live

theorem Gained.harmless (gained : Gained env id s t) (none_so : Harmless env absent s op)
    (apart : inodeForOp env id ∉ namedInodes op) (unseen : id ∉ observedIds op) :
    Harmless env absent t op := by
  have still : ∀ {i}, i ∈ namedInodes op → t.isDir i = s.isDir i := fun {i} named =>
    gained.dirs i fun same => apart (same ▸ named)
  cases none_so with
  | @loses inode _ _ _ _ shape low =>
      have named : inode ∈ namedInodes op := by simp [namedInodes, shape]
      refine .loses shape fun reg here => low reg ?_
      rw [← here]
      exact (gained.content inode fun same => apart (same ▸ named)).symm
  | lacks shape member missing => exact .lacks shape member missing
  | attributes shape => exact .attributes shape
  | waits waits tree =>
      cases waits with
      | @parent kind parent name mode shape missing =>
          have named : parent ∈ namedInodes op := by
            cases kind <;> simp [namedInodes, shape, creation]
          exact .waits (.parent shape (by rwa [still named])) tree
      | unlinkParent shape missing =>
          exact .waits (.unlinkParent shape (by rwa [still (by simp [namedInodes, shape])])) tree
      | writeInode shape missing => exact absurd shape (tree _ _ _ _ _)
      | attrInode shape missing => exact .attributes shape
      | chunk shape missing => exact absurd shape (tree _ _ _ _ _)
      | content shape partly => exact absurd shape (tree _ _ _ _ _)
      | sourceParent shape missing =>
          exact .waits (.sourceParent shape (by rwa [still (by simp [namedInodes, shape])])) tree
      | destination shape missing =>
          exact .waits (.destination shape (by rwa [still (by simp [namedInodes, shape])])) tree
      | @source old_parent _ old_name _ observed shape some_seen missing =>
          refine .waits (.source shape some_seen ?_) tree
          have seen : observedIds op = observed := by simp [observedIds, shape]
          rw [renameSource_eq_none] at missing ⊢
          rintro ⟨d, v⟩ member inside
          rcases gained.links ((OrMap.mem_getAll _ _ _ _).mp member) with rfl | old
          · exact unseen (seen ▸ inside)
          · exact missing (d, v) ((OrMap.mem_getAll _ _ _ _).mpr old) inside

theorem Confined.mono {changed later : Set U128} (confined : Confined env absent changed s op)
    (wider : changed ⊆ later) : Confined env absent later s op :=
  confined.imp_right fun ⟨inode, inside, writes⟩ => ⟨inode, wider inside, writes⟩

end Adding

section Lookups

variable {env : Env} {op : FsOp} {parent : U128} {name : String} {mode : U32} {kind : EntryType}
  {s : CoreState}

theorem Effect.creates {t : CoreState} (shape : op.kind = creation kind parent name mode)
    (effect : Effect env op s t) :
    s.isDir parent = true ∧ t = linkCreated env op parent name mode kind s := by
  cases effect with
  | created shape' valid dir =>
      obtain ⟨rfl, rfl, rfl, rfl⟩ := creation_inj (shape.symm.trans shape')
      exact ⟨dir, rfl⟩
  | superseded shape' | wrote shape' | movedNothing shape' | moved shape' | unlinked shape'
  | changedAttrs shape' => cases kind <;> cases shape.symm.trans shape'

def createdReg (id : OpId) (now : U64) : LwwReg ContentState :=
  ⟨⟨none, 0, now⟩, now, id.device_id, id.counter⟩

/-- In `t` the operation `id` has created an entry that is found, and whatever was found in `s` is. -/
structure Creates (env : Env) (id : OpId) (now : U64) (parent : U128) (name : String) (kind : EntryType)
    (s t : CoreState) : Prop where
  made : t.lookup parent name = some ⟨name, inodeForOp env id, kind⟩
  found : ∀ {q part e}, s.lookup q part = some e → t.lookup q part = some e
  bare : ∀ part, t.lookup (inodeForOp env id) part = none
  file : kind = .file → FileAt (inodeForOp env id) (createdReg id now) t

theorem Creates.congr {s t s' t' : CoreState} {id : OpId} {now : U64}
    (creates : Creates env id now parent name kind s t) (dirs : s'.dirs = s.dirs)
    (dirs' : t'.dirs = t.dirs) (inodes' : t'.inodes = t.inodes) :
    Creates env id now parent name kind s' t' := by
  have lookups := lookup_of_dirs dirs'
  refine ⟨(lookups _ _).trans creates.made, fun found => ?_, fun part => (lookups _ _).trans (creates.bare part),
    fun isFile => ?_⟩
  · rw [lookup_of_dirs dirs] at found
    exact (lookups _ _).trans (creates.found found)
  · obtain ⟨record, found, kindIs, same⟩ := creates.file isFile
    exact ⟨record, by rw [CoreState.loadInode, inodes']; exact found, kindIs, same⟩

/-- What a creation needs so that its entry is found and hides nothing: a new inode, an unused dot that
was not removed in advance, and a name that nothing is found under. -/
structure Vacant (env : Env) (op : FsOp) (parent : U128) (name : String) (s : CoreState) : Prop where
  apart : inodeForOp env op.id ≠ parent
  fresh : s.loadDir (inodeForOp env op.id) = none
  unused : ∀ v, s.added parent name op.id ≠ some v
  kept : ¬s.Removed parent name op.id
  free : s.lookup parent name = none

namespace Vacant

theorem of_fresh {ids : Set OpId} (shape : Shape env ids s) (inj : Set.InjOn (inodeForOp env) ids)
    (member : op.id ∈ ids) (new : op.id ∉ s.applied) (dir : s.isDir parent = true)
    (kept : ¬s.Removed parent name op.id) (free : s.lookup parent name = none) :
    Vacant env op parent name s where
  apart := by
    rintro rfl
    simp [isDir, shape.loadInode_fresh inj member new] at dir
  fresh := shape.loadDir_fresh inj member new
  unused v here := new (shape.dotApplied here)
  kept := kept
  free := free

theorem gained (vacant : Vacant env op parent name s) :
    Gained env op.id s (linkCreated env op parent name mode kind s) where
  dirs i other := by
    unfold isDir
    rw [loadInode_linkCreated, if_neg other]
  content i other := by
    unfold contentAt
    rw [loadInode_linkCreated, if_neg other]
  links {p n d v} live := by
    obtain ⟨here, still⟩ := live
    rw [added_linkCreated vacant.apart vacant.fresh] at here
    rw [removed_linkCreated vacant.apart vacant.fresh] at still
    split at here
    · rename_i same
      exact .inl same.2.2.symm
    · exact .inr ⟨here, still⟩

theorem lookup_own (vacant : Vacant env op parent name s) :
    (linkCreated env op parent name mode kind s).lookup parent name =
      some ⟨name, inodeForOp env op.id, kind⟩ := by
  have free := vacant.free
  rw [lookup_eq_findEntry] at free
  rw [lookup_eq_findEntry, dirAt_linkCreated vacant.apart vacant.fresh, if_pos rfl]
  exact findEntry_add_own vacant.unused vacant.kept free

theorem lookup_found (vacant : Vacant env op parent name s) {q : U128} {part : String} {e : DirEntry}
    (found : s.lookup q part = some e) :
    (linkCreated env op parent name mode kind s).lookup q part = some e := by
  have free := vacant.free
  rw [lookup_eq_findEntry] at free found
  rw [lookup_eq_findEntry, dirAt_linkCreated vacant.apart vacant.fresh]
  split
  · rename_i same
    subst same
    have other : part ≠ name := by
      rintro rfl
      rw [free] at found
      cases found
    rw [findEntry_add_other vacant.unused vacant.kept free other]
    exact found
  · exact found

theorem lookup_new (vacant : Vacant env op parent name s) (part : String) :
    (linkCreated env op parent name mode kind s).lookup (inodeForOp env op.id) part = none := by
  rw [lookup_eq_findEntry, dirAt_linkCreated vacant.apart vacant.fresh, if_neg vacant.apart.symm,
    s.dirAt_eq_empty vacant.fresh]
  exact findEntry_empty part

theorem creates (vacant : Vacant env op parent name s) :
    Creates env op.id op.time_unix_ms parent name kind s
      (linkCreated env op parent name mode kind s) where
  made := vacant.lookup_own
  found := vacant.lookup_found
  bare := vacant.lookup_new
  file isFile := by
    subst isFile
    exact ⟨_, (loadInode_linkCreated _).trans (if_pos rfl), rfl, rfl⟩

end Vacant

end Lookups

end NexusFS.Core
