/- GID: NexusFS/Core/Relink
   source: crates/core/src/namespace.rs, crates/core/src/apply.rs
   digest: Which paths still resolve, and where to, when one entry moves. -/

import NexusFS.Core.Paths
import NexusFS.Core.Shape
import Mathlib.Data.List.Induction

set_option autoImplicit false
set_option relaxedAutoImplicit false

namespace NexusFS.Core

open NexusFS.Lib NexusFS.Proto NexusFS.Crdt CoreState Relation

section Maps

variable {map other : DirMap}

theorem getAll_eq_of_live {name : String}
    (same : ∀ d v, map.Live name d v ↔ other.Live name d v) :
    map.getAll name = other.getAll name := by
  have members : ∀ x, x ∈ map.getAll name ↔ x ∈ other.getAll name := by
    rintro ⟨d, v⟩
    rw [OrMap.mem_getAll, OrMap.mem_getAll, same]
  refine List.Perm.eq_of_pairwise ?_ (map.getAll_sorted name) (other.getAll_sorted name)
    ((List.perm_ext_iff_of_nodup (map.getAll_nodup name) (other.getAll_nodup name)).mpr members)
  rintro ⟨d, v⟩ ⟨e, w⟩ here there le ge
  obtain rfl : d = e := le_antisymm le ge
  have one := ((map.mem_getAll name d v).mp here).1
  have two := ((map.mem_getAll name d w).mp ((members _).mpr there)).1
  rw [Option.some.inj (one.symm.trans two)]

theorem findEntry_eq_of_live {name : String}
    (same : ∀ k d v, map.Live k d v ↔ other.Live k d v) :
    findEntry map name = findEntry other name := by
  have all : ∀ k, map.getAll k = other.getAll k := fun k => getAll_eq_of_live (same k)
  refine findEntry_congr (fun _ => all name) (fun _ => all name) fun e _ => ?_
  rw [mem_listing, mem_listing]
  simp only [all]

theorem live_of_getElem {name : String} {idx : Nat} {d : Dot} {v : DirEntryValue}
    (here : (map.getAll name)[idx]? = some (d, v)) : map.Live name d v :=
  (map.mem_getAll name d v).mp (List.mem_of_getElem? here)

theorem lowest_of_first {name : String} {d : Dot} {v : DirEntryValue}
    (first : (map.getAll name)[0]? = some (d, v)) {e : Dot} {w : DirEntryValue}
    (live : map.Live name e w) : d ≤ e := by
  have member := (map.mem_getAll name e w).mpr live
  have sorted := map.getAll_sorted name
  cases all : map.getAll name with
  | nil =>
      rw [all] at first
      cases first
  | cons x rest =>
      rw [all] at first member sorted
      obtain rfl := Option.some.inj first
      rcases List.mem_cons.mp member with same | inside
      · exact (congrArg Prod.fst same).ge
      · exact (List.pairwise_cons.mp sorted).1 (e, w) inside

theorem findEntry_without {gone name : String} {dot : Dot} {value : DirEntryValue}
    (only : map.getAll gone = [(dot, value)])
    (same : ∀ k d v, other.Live k d v ↔ map.Live k d v ∧ k ≠ gone) (apart : name ≠ gone) :
    findEntry other name = findEntry map name := by
  have all : ∀ k, k ≠ gone → other.getAll k = map.getAll k := fun k different =>
    getAll_eq_of_live fun d v => by rw [same]; exact and_iff_left different
  refine findEntry_congr (fun _ => all name apart) (fun _ => all name apart) fun e named => ?_
  rw [mem_listing, mem_listing]
  constructor
  · rintro ⟨key, idx, d, v, here, rfl⟩
    have different := ((same key d v).mp (live_of_getElem here)).2
    exact ⟨key, idx, d, v, all key different ▸ here, rfl⟩
  · rintro ⟨key, idx, d, v, here, rfl⟩
    by_cases equal : key = gone
    · rw [equal, only] at here
      cases idx with
      | zero => exact absurd (named.symm.trans equal) apart
      | succ idx => simp at here
    · exact ⟨key, idx, d, v, all key equal ▸ here, rfl⟩

theorem conflictName_ne (base : String) (device : U128) (time : U64) :
    conflictName base device time ≠ base := by
  intro same
  have length := congrArg String.length same
  unfold conflictName at length
  simp only [String.length_append] at length
  have dash : "-".length = 1 := rfl
  omega

end Maps

section Lookups

variable {env : Env} {ids : Set OpId} {s : CoreState}

theorem shown_of_lookup {q : U128} {name : String} {e : DirEntry} (found : s.lookup q name = some e) :
    ∃ key idx d v, ((s.dirAt q).getAll key)[idx]? = some (d, v) ∧ e = shownEntry key idx d v ∧
      s.Live q key d v ∧ e.name = name := by
  rw [lookup_eq_findEntry] at found
  obtain ⟨member, same⟩ := mem_of_findEntry found
  obtain ⟨key, idx, d, v, here, shown⟩ := mem_listing.mp member
  exact ⟨key, idx, d, v, here, shown, live_of_getElem here, same⟩

theorem Shape.lookup_injective (shape : Shape env ids s) {q q' : U128} {name name' : String}
    {e e' : DirEntry} (one : s.lookup q name = some e) (two : s.lookup q' name' = some e')
    (same : e.inode_id = e'.inode_id) : q = q' ∧ name = name' := by
  obtain ⟨key, idx, d, v, here, rfl, live, rfl⟩ := shown_of_lookup one
  obtain ⟨key', idx', d', v', there, rfl, live', rfl⟩ := shown_of_lookup two
  obtain ⟨rfl, rfl, rfl⟩ := shape.single live live' same
  obtain rfl : v = v' := Option.some.inj (live.1.symm.trans live'.1)
  have bound := (List.getElem?_eq_some_iff.mp here).1
  obtain rfl := (List.getElem?_inj bound ((s.dirAt q).getAll_nodup key)).mp (here.trans there.symm)
  exact ⟨rfl, rfl⟩

theorem Shape.leads_kind (shape : Shape env ids s) {parts : List String} {inode : U128}
    {kind : EntryType} (leads : Leads s (rootInode, .dir) parts (inode, kind))
    (dir : s.isDir inode = true) : kind = .dir := by
  rcases List.eq_nil_or_concat parts with rfl | ⟨front, last, rfl⟩
  · cases Leads.nil_iff.mp leads
    rfl
  · rw [List.concat_eq_append] at leads
    obtain ⟨q, e, -, found, same⟩ := Leads.snoc_iff.mp leads
    obtain ⟨key, idx, d, v, -, rfl, live, -⟩ := shown_of_lookup found
    obtain ⟨rfl, rfl⟩ := Prod.mk.inj same
    obtain ⟨record, here, isDir⟩ := (s.isDir_iff _).mp dir
    exact (shape.kinds live here).symm.trans isDir

end Lookups

section Relinked

variable {env : Env} {ids : Set OpId} {s t : CoreState} {p p' : U128} {n n' : String} {id : OpId}
  {value : DirEntryValue}

/-- All links under one name are gone, and one of their targets is linked under another name. -/
structure Relinked (s t : CoreState) (p : U128) (n : String) (p' : U128) (n' : String) (id : OpId)
    (value : DirEntryValue) : Prop where
  live : ∀ q m d v, t.Live q m d v ↔
    (q = p' ∧ m = n' ∧ d = id ∧ v = value ∧ ¬s.Removed p' n' id) ∨
      (s.Live q m d v ∧ ¬(q = p ∧ m = n))
  apart : ¬(p = p' ∧ n = n')
  free : ¬ReflTransGen s.Linked value.inode_id p'

theorem Relinked.lookup_elsewhere (relinked : Relinked s t p n p' n' id value) {q : U128}
    (source : q ≠ p) (target : q ≠ p') (name : String) : t.lookup q name = s.lookup q name := by
  rw [lookup_eq_findEntry, lookup_eq_findEntry]
  refine findEntry_eq_of_live fun k d v => ?_
  refine (relinked.live q k d v).trans ?_
  constructor
  · rintro (⟨here, -⟩ | ⟨old, -⟩)
    · exact absurd here target
    · exact old
  · exact fun old => .inr ⟨old, fun both => source both.1⟩

theorem Relinked.lookup_source (relinked : Relinked s t p n p' n' id value) {dot : Dot}
    {entry : DirEntryValue} (only : (s.dirAt p).getAll n = [(dot, entry)]) (away : p ≠ p')
    {name : String} (other : name ≠ n) : t.lookup p name = s.lookup p name := by
  rw [lookup_eq_findEntry, lookup_eq_findEntry]
  refine findEntry_without only (fun k d v => ?_) other
  refine (relinked.live p k d v).trans ?_
  constructor
  · rintro (⟨here, -⟩ | ⟨old, kept⟩)
    · exact absurd here away
    · exact ⟨old, fun same => kept ⟨rfl, same⟩⟩
  · exact fun old => .inr ⟨old.1, fun both => old.2 both.2⟩

private theorem Leads.diverge {q : U128} {a b : U128 × EntryType} {parts : List String}
    (leads : Leads s a parts b)
    (same : ∀ x part e, x ≠ q → s.lookup x part = some e →
      ReflTransGen s.Linked e.inode_id b.1 → t.lookup x part = some e) :
    Leads t a parts b ∨ ∃ front part back, parts = front ++ part :: back ∧
      Leads t a front (q, .dir) := by
  induction leads with
  | here a => exact .inl (.here a)
  | @down inode part rest e b found later ih =>
      by_cases equal : inode = q
      · exact .inr ⟨[], part, rest, rfl, equal ▸ .here _⟩
      · have first := same inode part e equal found later.linked
        rcases ih same with all | ⟨front, other, back, split, reached⟩
        · exact .inl (.down first all)
        · exact .inr ⟨part :: front, other, back, by rw [split]; rfl, .down first reached⟩

private theorem Leads.append {a b c : U128 × EntryType} {front back : List String}
    (whole : Leads t a (front ++ back) b) (first : Leads t a front c) : Leads t c back b := by
  induction first with
  | here a => exact whole
  | down found _ ih =>
      obtain ⟨-, e, again, later⟩ := Leads.cons_iff.mp whole
      obtain rfl := Option.some.inj (found.symm.trans again)
      exact ih later

theorem Leads.kept_of_diverge {q : U128} {a b : U128 × EntryType} {parts : List String}
    (leads : Leads s a parts b) (forest : Forest t.Linked)
    (same : ∀ x part e, x ≠ q → s.lookup x part = some e →
      ReflTransGen s.Linked e.inode_id b.1 → t.lookup x part = some e)
    (now : Leads t a parts (q, .dir)) : Leads t a parts b := by
  rcases leads.diverge same with kept | ⟨front, part, back, rfl, reached⟩
  · exact kept
  · obtain ⟨-, e, found, later⟩ := Leads.cons_iff.mp (Leads.append now reached)
    exact absurd (TransGen.head' (linkedAs_of_lookup found).linked later.linked)
      (forest.acyclic q)

/-- One entry moved and nothing else: the target has it, the source no longer does, and whatever else
a path led to is still on one. -/
structure MovesOne (s t : CoreState) (source target : String) (inode : U128) : Prop where
  arrives : ∃ kind, resolvePath t target = .ok (some (inode, kind))
  leaves : ∀ kind, resolvePath t source ≠ .ok (some (inode, kind))
  others : ∀ x, x ≠ inode → LivePath s x → LivePath t x

def StillShown (map after : DirMap) (inode : U128) : Prop :=
  ∀ name e, ValidName name → findEntry map name = some e → e.inode_id ≠ inode →
    ∃ name' e', ValidName name' ∧ findEntry after name' = some e' ∧ e'.inode_id = e.inode_id

section Moves

variable {dot : Dot} {entry : DirEntryValue} {dirs dirs' : List String} {e : DirEntry}

private theorem Relinked.target_kept (relinked : Relinked s t p n p' n' id value)
    (before : Shape env ids s) (only : (s.dirAt p).getAll n = [(dot, entry)])
    (moved : value.inode_id = entry.inode_id)
    (leads : Leads s (rootInode, .dir) dirs' (p', .dir)) :
    Leads t (rootInode, .dir) dirs' (p', .dir) := by
  refine leads.transfer fun q part x _ found back => ?_
  by_cases target : q = p'
  · subst target
    exact absurd (TransGen.head' (linkedAs_of_lookup found).linked back) (before.forest.acyclic q)
  · by_cases source : q = p
    · subst source
      by_cases same : part = n
      · subst same
        rw [lookup_eq_findEntry, findEntry_single only] at found
        cases found
        exact absurd (moved ▸ back) relinked.free
      · rw [relinked.lookup_source only target same, found]
    · rw [relinked.lookup_elsewhere source target, found]

private theorem Relinked.movesOne (relinked : Relinked s t p n p' n' id value)
    (before : Shape env ids s) (after : Shape env ids t)
    (only : (s.dirAt p).getAll n = [(dot, entry)]) (moved : value.inode_id = entry.inode_id)
    {source target : String} (source_parts : splitPath source = .ok (dirs ++ [n]))
    (source_leads : Leads s (rootInode, .dir) dirs (p, .dir))
    (target_parts : splitPath target = .ok (dirs' ++ [n']))
    (target_leads : Leads s (rootInode, .dir) dirs' (p', .dir))
    (arrived : t.lookup p' n' = some e) (inode : e.inode_id = entry.inode_id)
    (shown : StillShown (s.dirAt p') (t.dirAt p') entry.inode_id) :
    MovesOne s t source target entry.inode_id := by
  have kept := relinked.target_kept before only moved target_leads
  have lands : Leads t (rootInode, .dir) (dirs' ++ [n']) (entry.inode_id, e.entry_type) :=
    Leads.snoc_iff.mpr ⟨p', e, kept, arrived, by rw [inode]⟩
  refine ⟨⟨e.entry_type, resolvePath_eq_some.mpr ⟨_, target_parts, lands⟩⟩, ?_, ?_⟩
  · intro kind resolved
    obtain ⟨parts, split, leads⟩ := resolvePath_eq_some.mp resolved
    cases source_parts.symm.trans split
    obtain ⟨q, x, reached, found, same⟩ := Leads.snoc_iff.mp leads
    have inodes : x.inode_id = e.inode_id := ((Prod.mk.inj same).1.symm.trans inode.symm)
    obtain ⟨rfl, rfl⟩ := after.lookup_injective found arrived inodes
    have away : p ≠ q := fun same => relinked.apart ⟨same, rfl⟩
    -- the directory of the source cannot have become that of the target
    have back : Leads t (rootInode, .dir) dirs (p, .dir) := by
      refine source_leads.kept_of_diverge after.forest (fun y part z other looked below => ?_) reached
      by_cases equal : y = p
      · subst equal
        exact absurd (TransGen.head' (linkedAs_of_lookup looked).linked below)
          (before.forest.acyclic y)
      · rw [relinked.lookup_elsewhere equal other, looked]
    exact away (Prod.mk.inj (back.unique reached)).1
  · have all : ∀ parts x kind, (∀ part ∈ parts, ValidName part) →
        Leads s (rootInode, .dir) parts (x, kind) → LivePath t x := by
      intro parts
      induction parts using List.reverseRecOn with
      | nil =>
          intro x kind _ leads
          cases Leads.nil_iff.mp leads
          exact livePath_iff.mpr ⟨[], .dir, by simp, .here _⟩
      | append_singleton front last ih =>
          intro x kind valid leads
          obtain ⟨q, y, reached, found, same⟩ := Leads.snoc_iff.mp leads
          obtain ⟨rfl, rfl⟩ := Prod.mk.inj same
          have last_valid := valid last (by simp)
          obtain ⟨parts', kind', valid', leads'⟩ := livePath_iff.mp
            (ih q .dir (fun part inside => valid part (List.mem_append_left _ inside)) reached)
          -- a name found in the directory now continues the path that leads there now
          have extend : ∀ name z, ValidName name → t.lookup q name = some z →
              LivePath t z.inode_id := by
            intro name z named looked
            have dir : t.isDir q = true := (after.mapped q).mp
              (t.loadDir_of_linked (linkedAs_of_lookup looked).linked)
            have isDir := after.leads_kind leads' dir
            refine livePath_iff.mpr ⟨parts' ++ [name], z.entry_type, ?_,
              Leads.snoc_iff.mpr ⟨q, z, isDir ▸ leads', looked, rfl⟩⟩
            intro part inside
            rcases List.mem_append.mp inside with early | final
            · exact valid' part early
            · exact List.mem_singleton.mp final ▸ named
          by_cases moved_here : y.inode_id = entry.inode_id
          · rw [moved_here]
            exact ⟨target, e.entry_type, resolvePath_eq_some.mpr ⟨_, target_parts, lands⟩⟩
          · by_cases at_target : q = p'
            · subst at_target
              rw [lookup_eq_findEntry] at found
              obtain ⟨name', z, named, looked, inodes⟩ := shown last y last_valid found moved_here
              rw [← lookup_eq_findEntry] at looked
              exact inodes ▸ extend name' z named looked
            · by_cases at_source : q = p
              · subst at_source
                have other : last ≠ n := by
                  rintro rfl
                  rw [lookup_eq_findEntry, findEntry_single only] at found
                  cases found
                  exact moved_here rfl
                refine extend last y last_valid ?_
                rw [relinked.lookup_source only at_target other, found]
              · refine extend last y last_valid ?_
                rw [relinked.lookup_elsewhere at_source at_target, found]
    intro x _ live
    obtain ⟨parts, kind, valid, leads⟩ := livePath_iff.mp live
    exact all parts x kind valid leads

private theorem last_found {path : String} {parts : List String} {name : String}
    {b : U128 × EntryType} (split : splitPath path = .ok (parts ++ [name]))
    (resolved : resolvePath t path = .ok (some b)) : ∃ q e, Leads t (rootInode, .dir) parts (q, .dir) ∧
      t.lookup q name = some e ∧ b = (e.inode_id, e.entry_type) := by
  obtain ⟨found, same, leads⟩ := resolvePath_eq_some.mp resolved
  cases split.symm.trans same
  exact Leads.snoc_iff.mp leads

private theorem single_of_highest {key : String} {d : Dot} {v : DirEntryValue}
    (first : ((s.dirAt p).getAll key)[0]? = some (d, v))
    (highest : ∀ d' v', s.Live p key d' v' → d' ≤ d) : (s.dirAt p).getAll key = [(d, v)] := by
  have live := live_of_getElem first
  have alone : ∀ y ∈ (s.dirAt p).getAll key, y = (d, v) := by
    rintro ⟨d1, v1⟩ member
    have live1 := ((s.dirAt p).mem_getAll key d1 v1).mp member
    obtain rfl : d1 = d := le_antisymm (highest d1 v1 live1) (lowest_of_first first live1)
    rw [Option.some.inj (live1.1.symm.trans live.1)]
  have nodup := (s.dirAt p).getAll_nodup key
  cases all : (s.dirAt p).getAll key with
  | nil =>
      rw [all] at first
      cases first
  | cons y rest =>
      rw [all] at alone nodup
      obtain rfl := alone y List.mem_cons_self
      cases rest with
      | nil => rfl
      | cons z rest =>
          obtain rfl := alone z (by simp)
          simp at nodup

private theorem Relinked.first_kept {q : U128} {key : String} {idx : Nat} {d : Dot} {v v' : DirEntryValue}
    (relinked : Relinked s t p n p' n' id value) (other : key ≠ n)
    (here : ((s.dirAt q).getAll key)[idx]? = some (d, v))
    (there : ((t.dirAt q).getAll key)[0]? = some (d, v')) : idx = 0 := by
  have live := live_of_getElem here
  have nonempty : 0 < ((s.dirAt q).getAll key).length :=
    lt_of_le_of_lt (Nat.zero_le idx) (List.getElem?_eq_some_iff.mp here).1
  obtain ⟨⟨d0, v0⟩, first⟩ : ∃ y, ((s.dirAt q).getAll key)[0]? = some y :=
    ⟨_, List.getElem?_eq_getElem nonempty⟩
  have live0 := live_of_getElem first
  have kept0 : t.Live q key d0 v0 :=
    (relinked.live q key d0 v0).mpr (.inr ⟨live0, fun both => other both.2⟩)
  obtain rfl : d0 = d := le_antisymm (lowest_of_first first live) (lowest_of_first there kept0)
  obtain rfl : v0 = v := Option.some.inj (live0.1.symm.trans live.1)
  exact ((List.getElem?_inj nonempty ((s.dirAt q).getAll_nodup key)).mp (first.trans here.symm)).symm

private theorem Relinked.single_of_movesOne (relinked : Relinked s t p n p' n' id value)
    (before : Shape env ids s) (after : Shape env ids t) (origin : s.Live p n dot entry)
    (highest : ∀ d v, s.Live p n d v → d ≤ dot) (moved : value.inode_id = entry.inode_id)
    {source target : String} (target_parts : splitPath target = .ok (dirs' ++ [n']))
    (target_leads : Leads s (rootInode, .dir) dirs' (p', .dir)) (found : s.lookup p n = some e)
    (moves : MovesOne s t source target e.inode_id) : ∃ x, (s.dirAt p).getAll n = [x] := by
  obtain ⟨kind, resolved⟩ := moves.arrives
  obtain ⟨q, x, reached, looked, same⟩ := last_found target_parts resolved
  obtain ⟨key, idx, d, v, here, shown, live, named⟩ := shown_of_lookup found
  obtain ⟨key', idx', d', v', there, shown', live', named'⟩ := shown_of_lookup looked
  have inodes : v'.inode_id = v.inode_id := by
    have equal := (Prod.mk.inj same).1
    rw [shown, shown'] at equal
    exact equal.symm
  by_cases own : key = n
  · subst own
    -- the survivor that is found is the lowest one of the name
    have first : idx = 0 := by
      by_contra later
      rw [shown] at named
      simp only [shownEntry, if_neg later] at named
      exact conflictName_ne _ _ _ named
    subst first
    by_cases equal : d = dot
    · subst equal
      exact ⟨(d, v), single_of_highest here highest⟩
    · -- it is another inode than the moved one, and its link is gone
      have other : v.inode_id ≠ entry.inode_id := fun same =>
        equal (before.single live origin same).2.2
      rcases (relinked.live q key' d' v').mp live' with ⟨-, -, -, rfl, -⟩ | ⟨old, kept⟩
      · exact absurd (inodes.symm.trans moved) other
      · obtain ⟨rfl, rfl, -⟩ := before.single old live inodes
        exact absurd ⟨rfl, rfl⟩ kept
  · -- it is shown under a conflict name of another key, and stays there
    have later : idx ≠ 0 := by
      rintro rfl
      rw [shown] at named
      exact own named
    have still : t.Live p key d v := (relinked.live p key d v).mpr (.inr ⟨live, fun both => own both.2⟩)
    obtain ⟨rfl, rfl, rfl⟩ := after.single live' still inodes
    obtain rfl : v' = v := Option.some.inj (live'.1.symm.trans still.1)
    have later' : idx' ≠ 0 := by
      rintro rfl
      exact later (relinked.first_kept own here there)
    have names : n' = n := by
      rw [← named, ← named', shown, shown']
      simp only [shownEntry, if_neg later, if_neg later']
    subst names
    have away : q ≠ p' := fun same => relinked.apart ⟨same, rfl⟩
    have back : Leads t (rootInode, .dir) dirs' (p', .dir) := by
      refine target_leads.kept_of_diverge after.forest (fun y part z other looked below => ?_) reached
      by_cases equal : y = p'
      · subst equal
        exact absurd (TransGen.head' (linkedAs_of_lookup looked).linked below)
          (before.forest.acyclic y)
      · rw [relinked.lookup_elsewhere other equal, looked]
    exact absurd (Prod.mk.inj (back.unique reached)).1.symm away

theorem Relinked.movesOne_iff (relinked : Relinked s t p n p' n' id value)
    (before : Shape env ids s) (after : Shape env ids t) (origin : s.Live p n dot entry)
    (highest : ∀ d v, s.Live p n d v → d ≤ dot) (moved : value.inode_id = entry.inode_id)
    {source target : String} (source_parts : splitPath source = .ok (dirs ++ [n]))
    (source_leads : Leads s (rootInode, .dir) dirs (p, .dir))
    (target_parts : splitPath target = .ok (dirs' ++ [n']))
    (target_leads : Leads s (rootInode, .dir) dirs' (p', .dir)) (found : s.lookup p n = some e) :
    MovesOne s t source target e.inode_id ↔
      (∃ x, (s.dirAt p).getAll n = [x]) ∧
        (∃ y, findEntry (t.dirAt p') n' = some y ∧ y.inode_id = e.inode_id) ∧
        StillShown (s.dirAt p') (t.dirAt p') e.inode_id := by
  have only_origin : ∀ {x}, (s.dirAt p).getAll n = [x] → x = (dot, entry) := by
    intro x only
    have member := ((s.dirAt p).mem_getAll n dot entry).mpr origin
    rw [only, List.mem_singleton] at member
    exact member.symm
  constructor
  · intro moves
    obtain ⟨x, only⟩ := relinked.single_of_movesOne before after origin highest moved target_parts
      target_leads found moves
    obtain rfl := only_origin only
    have inode : e.inode_id = entry.inode_id := by
      rw [lookup_eq_findEntry, findEntry_single only] at found
      rw [← Option.some.inj found]
    have kept := relinked.target_kept before only moved target_leads
    refine ⟨⟨_, only⟩, ?_, ?_⟩
    · obtain ⟨kind, resolved⟩ := moves.arrives
      obtain ⟨q, y, reached, looked, same⟩ := last_found target_parts resolved
      cases kept.unique reached
      exact ⟨y, (lookup_eq_findEntry t _ n').symm.trans looked, (Prod.mk.inj same).1.symm⟩
    · intro name y named looked other
      rw [← lookup_eq_findEntry] at looked
      have valid := valid_of_splitPath target_parts
      have live : LivePath s y.inode_id := by
        refine livePath_iff.mpr ⟨dirs' ++ [name], y.entry_type, ?_,
          Leads.snoc_iff.mpr ⟨p', y, target_leads, looked, rfl⟩⟩
        intro part inside
        rcases List.mem_append.mp inside with early | final
        · exact valid part (List.mem_append_left _ early)
        · exact List.mem_singleton.mp final ▸ named
      obtain ⟨parts, kind, valid', leads⟩ := livePath_iff.mp (moves.others _ other live)
      rcases List.eq_nil_or_concat parts with rfl | ⟨front, last, rfl⟩
      · have root := (Prod.mk.inj (Leads.nil_iff.mp leads)).1
        have link := (linkedAs_of_lookup looked).linked
        rw [root] at link
        exact absurd link (before.not_linked_root p')
      · rw [List.concat_eq_append] at leads valid'
        obtain ⟨q, z, -, again, same⟩ := Leads.snoc_iff.mp leads
        have inodes := (Prod.mk.inj same).1
        obtain ⟨key, idx, d, v, -, shown, old, -⟩ := shown_of_lookup looked
        obtain ⟨key', idx', d', v', -, shown', now, -⟩ := shown_of_lookup again
        have target : v'.inode_id = v.inode_id := by
          rw [shown, shown'] at inodes
          exact inodes.symm
        -- its link was not the one that moved
        have kept_link : t.Live p' key d v := by
          refine (relinked.live p' key d v).mpr (.inr ⟨old, ?_⟩)
          rintro ⟨rfl, rfl⟩
          have member := ((s.dirAt p').mem_getAll key d v).mpr old
          rw [only, List.mem_singleton] at member
          cases member
          rw [shown, inode] at other
          exact other rfl
        obtain ⟨rfl, -⟩ := after.single now kept_link target
        exact ⟨last, z, valid' last (by simp), (lookup_eq_findEntry t q last).symm.trans again,
          inodes.symm⟩
  · rintro ⟨⟨x, only⟩, ⟨y, arrived, same⟩, shown⟩
    obtain rfl := only_origin only
    have inode : e.inode_id = entry.inode_id := by
      rw [lookup_eq_findEntry, findEntry_single only] at found
      rw [← Option.some.inj found]
    rw [inode] at same shown ⊢
    exact relinked.movesOne before after only moved source_parts source_leads target_parts target_leads
      ((lookup_eq_findEntry t p' n').trans arrived) same shown

end Moves

end Relinked

end NexusFS.Core
