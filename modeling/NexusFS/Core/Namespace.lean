/- GID: NexusFS/Core/Namespace
   source: crates/core/src/namespace.rs
   digest: Directory listings with conflict names, lookups, and path resolution. -/

import NexusFS.Core.Content

set_option autoImplicit false
set_option relaxedAutoImplicit false

namespace NexusFS.Core

open NexusFS.Lib NexusFS.Proto NexusFS.Crdt

/-- The entries of one name: the lowest dot keeps it, the others take conflict names. -/
def entriesFor (name : String) (survivors : List (Dot × DirEntryValue)) : List DirEntry :=
  survivors.zipIdx.map fun ((dot, value), idx) =>
    { name := if idx = 0 then name else conflictName name dot.device_id value.created_unix_ms
      inode_id := value.inode_id
      entry_type := value.entry_type }

def listing (map : DirMap) : List DirEntry :=
  sortDirEntries (map.liveKeys.flatMap fun name => entriesFor name (map.getAll name))

namespace CoreState

def materializeDir (s : CoreState) (inode : U128) : List DirEntry :=
  match s.loadDir inode with
  | none => []
  | some map => listing map

/-- Find one entry by name, asking the map for that key alone when it has one survivor. -/
def lookup (s : CoreState) (parent : U128) (name : String) : Option DirEntry :=
  match s.loadDir parent with
  | none => none
  | some map =>
      match map.getAll name with
      | [(_, value)] => some ⟨name, value.inode_id, value.entry_type⟩
      | _ => (s.materializeDir parent).find? fun e => e.name = name

def dirLists (s : CoreState) (parent child : U128) : Bool :=
  (s.materializeDir parent).any fun e => e.inode_id = child

end CoreState

/-- `str::split` on one character. -/
def splitChars (separator : Char) : List Char → List (List Char)
  | [] => [[]]
  | c :: rest =>
      if c = separator then [] :: splitChars separator rest
      else
        match splitChars separator rest with
        | [] => [[c]]
        | part :: parts => (c :: part) :: parts

/-- The loop of `split_path`: drop empty and `.` components, refuse `..`. -/
def pathParts (path : String) : List String → Except Err (List String)
  | [] => pure []
  | part :: rest =>
      if part.isEmpty || part = "." then pathParts path rest
      else if part = ".." then throw (.pathTraversal path)
      else (part :: ·) <$> pathParts path rest

def splitPath (path : String) : Except Err (List String) :=
  pathParts path ((splitChars '/' path.toList).map String.ofList)

/-- The loop of `resolve_path`, with the components walked so far. -/
def resolveParts (s : CoreState) : List String → List String → U128 → EntryType →
    Except Err (Option (U128 × EntryType))
  | _, [], current, kind => pure (some (current, kind))
  | walked, part :: rest, current, kind =>
      if kind ≠ .dir then throw (.notADirectory ("/".intercalate walked))
      else
        match s.lookup current part with
        | none => pure none
        | some entry => resolveParts s (walked ++ [part]) rest entry.inode_id entry.entry_type

def resolvePath (s : CoreState) (path : String) : Except Err (Option (U128 × EntryType)) := do
  let parts ← splitPath path
  resolveParts s [] parts rootInode .dir

def resolveParent (s : CoreState) (path : String) : Except Err (Option (U128 × String)) := do
  let parts ← splitPath path
  match parts.getLast? with
  | none => throw (.noFinalComponent path)
  | some name =>
      let parent_path := "/".intercalate parts.dropLast
      match ← resolvePath s parent_path with
      | none => pure none
      | some (parent, kind) =>
          if kind ≠ .dir then throw (.notADirectory parent_path) else pure (some (parent, name))

def readDirPath (s : CoreState) (path : String) : Except Err (List DirEntry) := do
  match ← resolvePath s path with
  | none => throw (.noSuchDirectory path)
  | some (inode, kind) =>
      if kind ≠ .dir then throw (.notADirectory path) else pure (s.materializeDir inode)

def readFilePath (env : Env) (s : CoreState) (path : String) : Except Err Bytes := do
  match ← resolvePath s path with
  | none => throw (.noSuchFile path)
  | some (inode, kind) =>
      if kind ≠ .file then throw (.notAFilePath path) else readFile env s inode

theorem mem_listing_target (map : DirMap) (inode : U128) (kind : EntryType) :
    (∃ e ∈ listing map, e.inode_id = inode ∧ e.entry_type = kind) ↔
      ∃ name dot value, map.Live name dot value ∧ value.inode_id = inode ∧
        value.entry_type = kind := by
  simp only [listing, sortDirEntries, List.mem_insertionSort, List.mem_flatMap]
  constructor
  · rintro ⟨e, ⟨name, -, member⟩, rfl, rfl⟩
    simp only [entriesFor, List.mem_map, Prod.exists] at member
    obtain ⟨dot, value, idx, inside, rfl⟩ := member
    have live := (map.mem_getAll name dot value).mp (List.fst_mem_of_mem_zipIdx inside)
    exact ⟨name, dot, value, live, rfl, rfl⟩
  · rintro ⟨name, dot, value, live, rfl, rfl⟩
    have inside := (map.mem_getAll name dot value).mpr live
    obtain ⟨idx, bound, here⟩ := List.mem_iff_getElem.mp inside
    have found : (map.getAll name)[idx]? = some (dot, value) := by
      rw [List.getElem?_eq_getElem bound, here]
    have member : ((dot, value), idx) ∈ (map.getAll name).zipIdx :=
      List.mem_zipIdx_iff_getElem?.mpr found
    exact ⟨_, ⟨name, (map.mem_liveKeys name).mpr ⟨dot, value, live⟩,
      List.mem_map_of_mem member⟩, rfl, rfl⟩

end NexusFS.Core
