/- GID: NexusFS/Core/Paths
   source: crates/core/src/namespace.rs
   digest: Paths as lists of components, and which entry a directory shows under a name. -/

import NexusFS.Core.Links

set_option autoImplicit false
set_option relaxedAutoImplicit false

namespace NexusFS.Core

open NexusFS.Lib NexusFS.Proto NexusFS.Crdt CoreState Relation

section Split

def ValidName (name : String) : Prop := validateName name = .ok ()

theorem validName_iff {name : String} :
    ValidName name ↔ name ≠ "" ∧ '/' ∉ name.toList ∧ name ≠ "." ∧ name ≠ ".." := by
  unfold ValidName validateName
  constructor
  · intro valid
    split at valid
    · cases valid
    · rename_i filled
      split at valid
      · cases valid
      · rename_i whole
        split at valid
        · cases valid
        · rename_i plain
          refine ⟨?_, by simpa using whole, fun same => plain (.inl same), fun same => plain (.inr same)⟩
          rintro rfl
          exact filled (by decide)
  · rintro ⟨filled, whole, here, up⟩
    rw [if_neg (by simpa [String.isEmpty_iff] using filled), if_neg (by simpa using whole),
      if_neg (by simp [here, up])]
    rfl

theorem splitChars_append (front rest : List Char) (whole : '/' ∉ front) :
    splitChars '/' (front ++ '/' :: rest) = front :: splitChars '/' rest := by
  induction front with
  | nil => simp [splitChars]
  | cons c front ih =>
      have other : c ≠ '/' := fun same => whole (same ▸ List.mem_cons_self)
      have later := ih fun inside => whole (List.mem_cons_of_mem c inside)
      simp only [List.cons_append, splitChars, if_neg other, later]

theorem splitChars_whole (part : List Char) (whole : '/' ∉ part) :
    splitChars '/' part = [part] := by
  induction part with
  | nil => rfl
  | cons c part ih =>
      have other : c ≠ '/' := fun same => whole (same ▸ List.mem_cons_self)
      have later := ih fun inside => whole (List.mem_cons_of_mem c inside)
      simp only [splitChars, if_neg other, later]

theorem splitChars_joined (part : String) (rest : List String)
    (whole : ∀ p ∈ part :: rest, '/' ∉ p.toList) :
    splitChars '/' (['/'].intercalate ((part :: rest).map String.toList)) =
      (part :: rest).map String.toList := by
  induction rest generalizing part with
  | nil =>
      rw [List.map_singleton, List.intercalate_singleton]
      exact splitChars_whole _ (whole part List.mem_cons_self)
  | cons next rest ih =>
      have later := ih next fun p inside => whole p (List.mem_cons_of_mem part inside)
      rw [List.map_cons, List.map_cons, List.intercalate_cons_cons, List.append_assoc,
        List.singleton_append, splitChars_append _ _ (whole part List.mem_cons_self)]
      exact congrArg _ later

theorem pathParts_valid (path : String) (parts : List String)
    (valid : ∀ part ∈ parts, ValidName part) : pathParts path parts = .ok parts := by
  induction parts with
  | nil => rfl
  | cons part rest ih =>
      obtain ⟨filled, -, here, up⟩ := validName_iff.mp (valid part List.mem_cons_self)
      unfold pathParts
      rw [if_neg (by simp [here, filled]), if_neg up,
        ih fun other inside => valid other (List.mem_cons_of_mem part inside)]
      rfl

theorem splitPath_intercalate (parts : List String) (valid : ∀ part ∈ parts, ValidName part) :
    splitPath ("/".intercalate parts) = .ok parts := by
  unfold splitPath
  cases parts with
  | nil => rfl
  | cons part rest =>
      rw [String.toList_intercalate]
      have joined := splitChars_joined part rest
        fun p inside => (validName_iff.mp (valid p inside)).2.1
      have slash : "/".toList = ['/'] := rfl
      rw [slash, joined, List.map_map]
      have same : (String.ofList ∘ String.toList) = id := by
        funext name
        simp
      rw [same, List.map_id]
      exact pathParts_valid _ _ valid

theorem mem_splitChars {text piece : List Char} (member : piece ∈ splitChars '/' text) :
    '/' ∉ piece := by
  induction text generalizing piece with
  | nil =>
      rw [splitChars, List.mem_singleton] at member
      simp [member]
  | cons c text ih =>
      unfold splitChars at member
      split at member
      · rcases List.mem_cons.mp member with rfl | inside
        · simp
        · exact ih inside
      · rename_i other
        split at member
        · rw [List.mem_singleton] at member
          subst member
          simpa using fun same => other same.symm
        · rename_i part parts pieces
          rcases List.mem_cons.mp member with rfl | inside
          · have front := ih (pieces ▸ List.mem_cons_self)
            simpa using ⟨fun same => other same.symm, front⟩
          · exact ih (pieces ▸ List.mem_cons_of_mem part inside)

private theorem valid_of_pathParts (path : String) {pieces parts : List String}
    (whole : ∀ piece ∈ pieces, '/' ∉ piece.toList) (run : pathParts path pieces = .ok parts) :
    ∀ part ∈ parts, ValidName part := by
  induction pieces generalizing parts with
  | nil =>
      cases run
      simp
  | cons piece rest ih =>
      have later := fun other inside => whole other (List.mem_cons_of_mem piece inside)
      unfold pathParts at run
      split at run
      · exact ih later run
      · rename_i kept
        split at run
        · cases run
        · rename_i up
          cases more : pathParts path rest with
          | error e =>
              rw [more] at run
              cases run
          | ok found =>
              rw [more] at run
              cases run
              refine List.forall_mem_cons.mpr ⟨?_, ih later more⟩
              rw [Bool.or_eq_true, not_or] at kept
              refine validName_iff.mpr ⟨?_, whole piece List.mem_cons_self, ?_, up⟩
              · rintro rfl
                exact kept.1 (by decide)
              · rintro rfl
                exact kept.2 (by decide)

theorem valid_of_splitPath {path : String} {parts : List String} (run : splitPath path = .ok parts) :
    ∀ part ∈ parts, ValidName part := by
  refine valid_of_pathParts path (fun piece member => ?_) run
  obtain ⟨chars, inside, rfl⟩ := List.mem_map.mp member
  rw [String.toList_ofList]
  exact mem_splitChars inside

end Split

section Entries

variable {map other : DirMap} {name : String}

private theorem isLE_compareDirEntries (a b : DirEntry) :
    (compareDirEntries a b).isLE ↔ a.name < b.name ∨ (a.name = b.name ∧
      (a.entry_type.rank < b.entry_type.rank ∨ (a.entry_type.rank = b.entry_type.rank ∧
        a.inode_id ≤ b.inode_id))) := by
  have inodes : (compare a.inode_id b.inode_id).isLE ↔ a.inode_id ≤ b.inode_id :=
    Ordering.isLE_iff_ne_gt.trans compare_le_iff_le
  unfold compareDirEntries
  rw [Ordering.isLE_then_iff_or, Ordering.isLE_then_iff_or, compare_lt_iff_lt, compare_lt_iff_lt,
    compare_eq_iff_eq, compare_eq_iff_eq, inodes]

theorem compareDirEntries_self (e : DirEntry) : (compareDirEntries e e).isLE :=
  (isLE_compareDirEntries e e).mpr (.inr ⟨rfl, .inr ⟨rfl, le_rfl⟩⟩)

private theorem entry_antisymm {a b : DirEntry} (one : (compareDirEntries a b).isLE)
    (two : (compareDirEntries b a).isLE) : a = b := by
  rw [isLE_compareDirEntries] at one two
  obtain ⟨name, inode, kind⟩ := a
  obtain ⟨name', inode', kind'⟩ := b
  rcases one with lt | ⟨rfl, lt | ⟨rank, le⟩⟩
  · rcases two with gt | ⟨same, -⟩
    · exact absurd gt lt.asymm
    · exact absurd lt (same ▸ lt_irrefl _)
  · rcases two with gt | ⟨-, gt | ⟨same, -⟩⟩
    · exact absurd gt (lt_irrefl _)
    · omega
    · omega
  · have kinds : kind = kind' := by
      cases kind <;> cases kind' <;> simp_all [EntryType.rank]
    rcases two with gt | ⟨-, gt | ⟨-, ge⟩⟩
    · exact absurd gt (lt_irrefl _)
    · dsimp only at rank gt
      omega
    · have inodes : inode = inode' := le_antisymm le ge
      rw [kinds, inodes]

private theorem entries_sorted (map : DirMap) :
    (listing map).Pairwise fun a b => (compareDirEntries a b).isLE := by
  have total : Std.Total fun a b : DirEntry => (compareDirEntries a b).isLE := by
    refine ⟨fun a b => ?_⟩
    rw [isLE_compareDirEntries, isLE_compareDirEntries]
    rcases lt_trichotomy a.name b.name with lt | same | gt
    · exact .inl (.inl lt)
    · rcases lt_trichotomy a.entry_type.rank b.entry_type.rank with lt | rank | gt
      · exact .inl (.inr ⟨same, .inl lt⟩)
      · rcases le_total a.inode_id b.inode_id with le | ge
        · exact .inl (.inr ⟨same, .inr ⟨rank, le⟩⟩)
        · exact .inr (.inr ⟨same.symm, .inr ⟨rank.symm, ge⟩⟩)
      · exact .inr (.inr ⟨same.symm, .inl gt⟩)
    · exact .inr (.inl gt)
  have trans : IsTrans DirEntry fun a b => (compareDirEntries a b).isLE := by
    refine ⟨fun a b c one two => ?_⟩
    rw [isLE_compareDirEntries] at *
    rcases one with lt | ⟨same, lt | ⟨rank, le⟩⟩ <;> rcases two with lt' | ⟨same', lt' | ⟨rank', le'⟩⟩
    · exact .inl (lt.trans lt')
    · exact .inl (same' ▸ lt)
    · exact .inl (same' ▸ lt)
    · exact .inl (same ▸ lt')
    · exact .inr ⟨same.trans same', .inl (lt.trans lt')⟩
    · exact .inr ⟨same.trans same', .inl (rank' ▸ lt)⟩
    · exact .inl (same ▸ lt')
    · exact .inr ⟨same.trans same', .inl (rank ▸ lt')⟩
    · exact .inr ⟨same.trans same', .inr ⟨rank.trans rank', le.trans le'⟩⟩
  exact List.pairwise_insertionSort (fun a b => (compareDirEntries a b).isLE) _

def shownEntry (key : String) (idx : Nat) (dot : Dot) (value : DirEntryValue) : DirEntry :=
  ⟨if idx = 0 then key else conflictName key dot.device_id value.created_unix_ms, value.inode_id,
    value.entry_type⟩

theorem mem_listing {e : DirEntry} :
    e ∈ listing map ↔ ∃ key idx dot value, (map.getAll key)[idx]? = some (dot, value) ∧
      e = shownEntry key idx dot value := by
  simp only [listing, sortDirEntries, List.mem_insertionSort, List.mem_flatMap, entriesFor,
    List.mem_map, Prod.exists, List.mem_zipIdx_iff_getElem?, shownEntry]
  constructor
  · rintro ⟨key, -, dot, value, idx, here, rfl⟩
    exact ⟨key, idx, dot, value, here, rfl⟩
  · rintro ⟨key, idx, dot, value, here, rfl⟩
    refine ⟨key, (map.mem_liveKeys key).mpr ⟨dot, value, ?_⟩, dot, value, idx, here, rfl⟩
    exact (map.mem_getAll key dot value).mp (List.mem_of_getElem? here)

/-- The entry a directory map has under a name: its only survivor, or the first that is shown so. -/
def findEntry (map : DirMap) (name : String) : Option DirEntry :=
  match map.getAll name with
  | [(_, value)] => some ⟨name, value.inode_id, value.entry_type⟩
  | _ => (listing map).find? fun e => e.name = name

theorem lookup_eq_findEntry (s : CoreState) (parent : U128) (name : String) :
    s.lookup parent name = findEntry (s.dirAt parent) name := by
  unfold CoreState.lookup findEntry CoreState.dirAt CoreState.materializeDir
  cases s.loadDir parent with
  | some map => rfl
  | none => rfl

theorem findEntry_single {dot : Dot} {value : DirEntryValue} (only : map.getAll name = [(dot, value)]) :
    findEntry map name = some ⟨name, value.inode_id, value.entry_type⟩ := by
  unfold findEntry
  rw [only]

theorem findEntry_shared (several : ∀ x, map.getAll name ≠ [x]) :
    findEntry map name = (listing map).find? fun e => e.name = name := by
  unfold findEntry
  split
  · rename_i only
    exact absurd only (several _)
  · rfl

theorem mem_of_findEntry {e : DirEntry} (found : findEntry map name = some e) :
    e ∈ listing map ∧ e.name = name := by
  by_cases single : ∃ x, map.getAll name = [x]
  · obtain ⟨⟨dot, value⟩, only⟩ := single
    rw [findEntry_single only] at found
    obtain rfl := Option.some.inj found
    exact ⟨mem_listing.mpr ⟨name, 0, dot, value, by rw [only]; rfl, rfl⟩, rfl⟩
  · rw [findEntry_shared fun x only => single ⟨x, only⟩] at found
    exact ⟨List.mem_of_find?_eq_some found, by simpa using List.find?_some found⟩

theorem findEntry_eq_none : findEntry map name = none ↔ ∀ e ∈ listing map, e.name ≠ name := by
  constructor
  · intro missing e member same
    by_cases single : ∃ x, map.getAll name = [x]
    · obtain ⟨⟨dot, value⟩, only⟩ := single
      rw [findEntry_single only] at missing
      cases missing
    · rw [findEntry_shared fun x only => single ⟨x, only⟩] at missing
      exact List.find?_eq_none.mp missing e member (by simpa using same)
  · intro none_so
    cases found : findEntry map name with
    | none => rfl
    | some e =>
        obtain ⟨member, same⟩ := mem_of_findEntry found
        exact absurd same (none_so e member)

theorem first_least {e : DirEntry} (found : (listing map).find? (fun e => e.name = name) = some e) :
    ∀ e' ∈ listing map, e'.name = name → (compareDirEntries e e').isLE := by
  obtain ⟨-, before, after, split, none_so⟩ := List.find?_eq_some_iff_append.mp found
  intro e' member same
  have sorted := entries_sorted map
  rw [split] at member sorted
  rcases List.mem_append.mp member with early | later
  · exact absurd same (by simpa using none_so e' early)
  · rcases List.mem_cons.mp later with rfl | later
    · exact compareDirEntries_self _
    · exact (List.pairwise_cons.mp (List.pairwise_append.mp sorted).2.1).1 e' later

theorem first_of_least {e : DirEntry} (member : e ∈ listing map) (named : e.name = name)
    (least : ∀ e' ∈ listing map, e'.name = name → (compareDirEntries e e').isLE) :
    (listing map).find? (fun e => e.name = name) = some e := by
  cases found : (listing map).find? (fun e => e.name = name) with
  | none => exact absurd named (by simpa using List.find?_eq_none.mp found e member)
  | some e' =>
      have same : e'.name = name := by simpa using List.find?_some found
      rw [entry_antisymm (first_least found e member named)
        (least e' (List.mem_of_find?_eq_some found) same)]

theorem findEntry_least {e : DirEntry} (several : ∀ x, map.getAll name ≠ [x])
    (found : findEntry map name = some e) :
    ∀ e' ∈ listing map, e'.name = name → (compareDirEntries e e').isLE := by
  rw [findEntry_shared several] at found
  exact first_least found

theorem findEntry_of_least {e : DirEntry} (several : ∀ x, map.getAll name ≠ [x])
    (member : e ∈ listing map) (named : e.name = name)
    (least : ∀ e' ∈ listing map, e'.name = name → (compareDirEntries e e').isLE) :
    findEntry map name = some e :=
  (findEntry_shared several).trans (first_of_least member named least)

theorem findEntry_congr (alone : (∃ x, map.getAll name = [x]) → map.getAll name = other.getAll name)
    (crowd : (∃ x, other.getAll name = [x]) → map.getAll name = other.getAll name)
    (shown : ∀ e, e.name = name → (e ∈ listing map ↔ e ∈ listing other)) :
    findEntry map name = findEntry other name := by
  by_cases single : ∃ x, map.getAll name = [x]
  · have same := alone single
    obtain ⟨⟨dot, value⟩, only⟩ := single
    rw [findEntry_single only, findEntry_single (same ▸ only)]
  · have several : ∀ x, map.getAll name ≠ [x] := fun x only => single ⟨x, only⟩
    have several' : ∀ x, other.getAll name ≠ [x] := fun x only =>
      single ⟨x, (crowd ⟨x, only⟩).trans only⟩
    cases found : findEntry map name with
    | none =>
        refine (findEntry_eq_none.mpr fun e member same => ?_).symm
        exact findEntry_eq_none.mp found e ((shown e same).mpr member) same
    | some e =>
        obtain ⟨member, same⟩ := mem_of_findEntry found
        cases also : findEntry other name with
        | none => exact absurd same (findEntry_eq_none.mp also e ((shown e same).mp member))
        | some e' =>
            obtain ⟨member', same'⟩ := mem_of_findEntry also
            have one := findEntry_least several found e' ((shown e' same').mpr member') same'
            have two := findEntry_least several' also e ((shown e same).mp member) same
            rw [entry_antisymm one two]

end Entries

section Resolve

variable {s t : CoreState}

theorem linkedAs_of_lookup {parent : U128} {name : String} {e : DirEntry}
    (found : s.lookup parent name = some e) : s.LinkedAs e.entry_type parent e.inode_id := by
  rw [lookup_eq_findEntry] at found
  obtain ⟨key, idx, dot, value, here, rfl⟩ := mem_listing.mp (mem_of_findEntry found).1
  have live := ((s.dirAt parent).mem_getAll key dot value).mp (List.mem_of_getElem? here)
  exact ⟨key, dot, value, live, rfl, rfl⟩

/-- The components lead from one node to another, each through the entry of its name. -/
inductive Leads (s : CoreState) : U128 × EntryType → List String → U128 × EntryType → Prop
  | here (a : U128 × EntryType) : Leads s a [] a
  | down {inode : U128} {part : String} {rest : List String} {e : DirEntry} {b : U128 × EntryType}
      (found : s.lookup inode part = some e) (later : Leads s (e.inode_id, e.entry_type) rest b) :
      Leads s (inode, .dir) (part :: rest) b

theorem Leads.nil_iff {a b : U128 × EntryType} : Leads s a [] b ↔ b = a := by
  constructor
  · intro leads
    cases leads
    rfl
  · rintro rfl
    exact .here _

theorem Leads.cons_iff {a b : U128 × EntryType} {part : String} {rest : List String} :
    Leads s a (part :: rest) b ↔ a.2 = .dir ∧ ∃ e, s.lookup a.1 part = some e ∧
      Leads s (e.inode_id, e.entry_type) rest b := by
  constructor
  · intro leads
    cases leads with
    | down found later => exact ⟨rfl, _, found, later⟩
  · obtain ⟨inode, kind⟩ := a
    rintro ⟨dir, e, found, later⟩
    obtain rfl : kind = .dir := dir
    exact .down found later

theorem resolveParts_eq_some {walked parts : List String} {current : U128} {kind : EntryType}
    {b : U128 × EntryType} :
    resolveParts s walked parts current kind = .ok (some b) ↔ Leads s (current, kind) parts b := by
  induction parts generalizing walked current kind with
  | nil =>
      rw [Leads.nil_iff]
      constructor
      · intro run
        cases run
        rfl
      · rintro rfl
        rfl
  | cons part rest ih =>
      rw [Leads.cons_iff]
      unfold resolveParts
      constructor
      · intro run
        split at run
        · cases run
        · rename_i dir
          cases found : s.lookup current part with
          | none =>
              rw [found] at run
              cases run
          | some e =>
              rw [found] at run
              exact ⟨not_not.mp dir, e, rfl, ih.mp run⟩
      · rintro ⟨dir, e, found, later⟩
        rw [if_neg (not_not.mpr dir), found]
        exact ih.mpr later

theorem resolvePath_eq_some {path : String} {b : U128 × EntryType} :
    resolvePath s path = .ok (some b) ↔
      ∃ parts, splitPath path = .ok parts ∧ Leads s (rootInode, .dir) parts b := by
  unfold resolvePath
  cases splitPath path with
  | error e =>
      constructor
      · intro run
        cases run
      · rintro ⟨_, other, -⟩
        cases other
  | ok parts =>
      constructor
      · intro run
        exact ⟨parts, rfl, resolveParts_eq_some.mp run⟩
      · rintro ⟨_, same, leads⟩
        cases same
        exact resolveParts_eq_some.mpr leads

theorem Leads.snoc_iff {a b : U128 × EntryType} {parts : List String} {name : String} :
    Leads s a (parts ++ [name]) b ↔ ∃ q e, Leads s a parts (q, .dir) ∧
      s.lookup q name = some e ∧ b = (e.inode_id, e.entry_type) := by
  induction parts generalizing a with
  | nil =>
      rw [List.nil_append, Leads.cons_iff]
      constructor
      · rintro ⟨dir, e, found, later⟩
        exact ⟨a.1, e, Leads.nil_iff.mpr (by rw [← dir]), found, Leads.nil_iff.mp later⟩
      · rintro ⟨q, e, leads, found, same⟩
        obtain rfl := Leads.nil_iff.mp leads
        exact ⟨rfl, e, found, Leads.nil_iff.mpr same⟩
  | cons part rest ih =>
      rw [List.cons_append, Leads.cons_iff]
      constructor
      · rintro ⟨dir, e, found, later⟩
        obtain ⟨q, last, before, looked, same⟩ := ih.mp later
        exact ⟨q, last, Leads.cons_iff.mpr ⟨dir, e, found, before⟩, looked, same⟩
      · rintro ⟨q, last, leads, looked, same⟩
        obtain ⟨dir, e, found, later⟩ := Leads.cons_iff.mp leads
        exact ⟨dir, e, found, ih.mpr ⟨q, last, later, looked, same⟩⟩

/-- The parent of a path is where all its components but the last lead. -/
theorem resolveParent_eq_some {path : String} {parent : U128} {name : String} :
    resolveParent s path = .ok (some (parent, name)) ↔ ∃ dirs,
      splitPath path = .ok (dirs ++ [name]) ∧ Leads s (rootInode, .dir) dirs (parent, .dir) := by
  unfold resolveParent
  cases run : splitPath path with
  | error e =>
      constructor
      · intro resolved
        cases resolved
      · rintro ⟨_, other, -⟩
        cases other
  | ok parts =>
      have valid := valid_of_splitPath run
      rcases List.eq_nil_or_concat parts with rfl | ⟨dirs, last, rfl⟩
      · constructor
        · intro resolved
          cases resolved
        · rintro ⟨dirs, same, -⟩
          simp at same
      · rw [List.concat_eq_append] at valid
        have joined := splitPath_intercalate dirs fun part inside =>
          valid part (List.mem_append_left _ inside)
        have last_part : (dirs ++ [last]).getLast? = some last := by simp
        have front : (dirs ++ [last]).dropLast = dirs := by simp
        have leads_iff : ∀ {b}, resolvePath s ("/".intercalate dirs) = .ok (some b) ↔
            Leads s (rootInode, .dir) dirs b := by
          intro b
          rw [resolvePath_eq_some]
          constructor
          · rintro ⟨found, same, leads⟩
            cases joined.symm.trans same
            exact leads
          · exact fun leads => ⟨dirs, joined, leads⟩
        have same_last : ∀ {found}, dirs ++ [last] = found ++ [name] ↔ dirs = found ∧ last = name := by
          intro found
          simp
        rw [List.concat_eq_append]
        simp only [bind, Except.bind, last_part, front, Except.ok.injEq, same_last]
        constructor
        · intro resolved
          cases inner : resolvePath s ("/".intercalate dirs) with
          | error e =>
              rw [inner] at resolved
              cases resolved
          | ok found =>
              rw [inner] at resolved
              cases found with
              | none => cases resolved
              | some b =>
                  obtain ⟨inode, kind⟩ := b
                  dsimp only at resolved
                  split at resolved
                  · cases resolved
                  · rename_i dir
                    cases resolved
                    obtain rfl : kind = .dir := not_not.mp dir
                    exact ⟨dirs, ⟨rfl, rfl⟩, leads_iff.mp inner⟩
        · rintro ⟨found, ⟨rfl, rfl⟩, leads⟩
          rw [leads_iff.mpr leads]
          rfl

def LivePath (s : CoreState) (inode : U128) : Prop :=
  ∃ path kind, resolvePath s path = .ok (some (inode, kind))

theorem livePath_iff {inode : U128} : LivePath s inode ↔ ∃ parts kind,
    (∀ part ∈ parts, ValidName part) ∧ Leads s (rootInode, .dir) parts (inode, kind) := by
  constructor
  · rintro ⟨path, kind, resolved⟩
    obtain ⟨parts, split, leads⟩ := resolvePath_eq_some.mp resolved
    exact ⟨parts, kind, valid_of_splitPath split, leads⟩
  · rintro ⟨parts, kind, valid, leads⟩
    exact ⟨"/".intercalate parts, kind,
      resolvePath_eq_some.mpr ⟨parts, splitPath_intercalate parts valid, leads⟩⟩

theorem Leads.unique {a b c : U128 × EntryType} {parts : List String} (one : Leads s a parts b)
    (two : Leads s a parts c) : b = c := by
  obtain ⟨inode, kind⟩ := a
  have same : resolveParts s [] parts inode kind = .ok (some b) := resolveParts_eq_some.mpr one
  rw [resolveParts_eq_some.mpr two] at same
  exact (Option.some.inj (Except.ok.inj same)).symm

theorem Leads.linked {a b : U128 × EntryType} {parts : List String} (leads : Leads s a parts b) :
    ReflTransGen s.Linked a.1 b.1 := by
  induction leads with
  | here a => exact .refl
  | down found _ ih => exact .head (linkedAs_of_lookup found).linked ih

theorem Leads.transfer {a b : U128 × EntryType} {parts : List String} (leads : Leads s a parts b)
    (same : ∀ q part e, ReflTransGen s.Linked a.1 q → s.lookup q part = some e →
      ReflTransGen s.Linked e.inode_id b.1 → t.lookup q part = some e) : Leads t a parts b := by
  induction leads with
  | here a => exact .here a
  | down found later ih =>
      refine .down (same _ _ _ .refl found later.linked) (ih fun q part e front looked back => ?_)
      exact same q part e (.head (linkedAs_of_lookup found).linked front) looked back

theorem live_of_dirs (same : t.dirs = s.dirs) (q : U128) (m : String) (d : Dot) (v : DirEntryValue) :
    t.Live q m d v ↔ s.Live q m d v := by
  have dirs : t.dirAt q = s.dirAt q := by
    unfold dirAt CoreState.loadDir
    rw [same]
  unfold Live CoreState.added Removed
  rw [dirs]

theorem lookup_of_dirs (same : t.dirs = s.dirs) (q : U128) (name : String) :
    t.lookup q name = s.lookup q name := by
  have dirs : t.dirAt q = s.dirAt q := by
    unfold dirAt CoreState.loadDir
    rw [same]
  rw [lookup_eq_findEntry, lookup_eq_findEntry, dirs]

theorem resolvePath_of_dirs (same : t.dirs = s.dirs) {path : String} {b : U128 × EntryType}
    (resolved : resolvePath s path = .ok (some b)) : resolvePath t path = .ok (some b) := by
  obtain ⟨parts, split, leads⟩ := resolvePath_eq_some.mp resolved
  refine resolvePath_eq_some.mpr ⟨parts, split, leads.transfer fun q part e _ found _ => ?_⟩
  rw [lookup_of_dirs same, found]

end Resolve

end NexusFS.Core
