/- GID: NexusFS/Core/Sweep
   source: crates/core/src/gc.rs
   digest: A collection keeps every reachable inode, the shape of the namespace and the map. -/

import NexusFS.Core.InodeMap
import NexusFS.Core.Gc

set_option autoImplicit false
set_option relaxedAutoImplicit false

namespace NexusFS.Core

open NexusFS.Lib NexusFS.Lib.Effect NexusFS.Proto NexusFS.Crdt CoreState Relation

section Mark

variable {env : Env} {ids : Set OpId} {s : CoreState}

private def Frontier (s : CoreState) (queue : List U128) (marked : BTreeSet U128) : Prop :=
  ∀ i, i ∈ marked → i ∈ queue ∨ ∀ j, s.Linked i j → j ∈ marked

private theorem scanEntries_spec (entries : List DirEntry) {marked marked' : BTreeSet U128}
    {queue queue' : List U128}
    (result : scanEntries entries marked queue = .ok (marked', queue')) :
    (∀ i, i ∈ marked → i ∈ marked') ∧ (∀ e ∈ entries, e.inode_id ∈ marked') ∧
      (∀ i ∈ queue, i ∈ queue') ∧
      ∀ i, i ∈ marked' → i ∈ marked ∨ i ∈ queue' ∨
        ∃ e ∈ entries, e.inode_id = i ∧ e.entry_type = .file := by
  induction entries generalizing marked queue with
  | nil =>
      cases result
      exact ⟨fun _ here => here, by simp, fun _ here => here, fun _ here => .inl here⟩
  | cons e entries ih =>
      unfold scanEntries at result
      split at result
      · rename_i seen
        obtain ⟨grows, all, queued, new⟩ := ih result
        refine ⟨grows, ?_, queued, fun i here => ?_⟩
        · refine List.forall_mem_cons.mpr ⟨grows _ ?_, all⟩
          exact Std.ExtTreeSet.contains_iff_mem.mp seen
        · refine (new i here).imp_right fun later => later.imp_right ?_
          rintro ⟨e', member, rest⟩
          exact ⟨e', List.mem_cons_of_mem e member, rest⟩
      · dsimp only at result
        split at result
        · cases result
        · obtain ⟨grows, all, queued, new⟩ := ih result
          have first : e.inode_id ∈ marked' := grows _ ((BTreeSet.mem_insert _ _ _).mpr (.inl rfl))
          refine ⟨fun i here => grows i ((BTreeSet.mem_insert _ _ _).mpr (.inr here)),
            List.forall_mem_cons.mpr ⟨first, all⟩, fun i here => queued i ?_, fun i here => ?_⟩
          · split
            · exact List.mem_cons_of_mem _ here
            · exact here
          · rcases new i here with old | later | ⟨e', member, rest⟩
            · rcases (BTreeSet.mem_insert _ _ _).mp old with rfl | older
              · cases kind : e.entry_type with
                | file => exact .inr (.inr ⟨e, List.mem_cons_self, rfl, kind⟩)
                | dir =>
                    refine .inr (.inl (queued _ ?_))
                    rw [if_pos kind]
                    exact List.mem_cons_self
              · exact .inl older
            · exact .inr (.inl later)
            · exact .inr (.inr ⟨e', List.mem_cons_of_mem e member, rest⟩)

private theorem scanQueue_spec (shape : Shape env ids s) (fuel : Nat) {queue : List U128}
    {marked marked' : BTreeSet U128} (frontier : Frontier s queue marked)
    (result : scanQueue s fuel queue marked = .ok marked') :
    (∀ i, i ∈ marked → i ∈ marked') ∧ Frontier s [] marked' := by
  induction fuel generalizing queue marked with
  | zero =>
      cases queue with
      | nil =>
          cases result
          exact ⟨fun _ here => here, frontier⟩
      | cons dir queue => cases result
  | succ fuel ih =>
      cases queue with
      | nil =>
          cases result
          exact ⟨fun _ here => here, frontier⟩
      | cons dir queue =>
          unfold scanQueue at result
          cases scan : scanEntries (s.materializeDir dir) marked queue with
          | error e =>
              rw [scan] at result
              cases result
          | ok found =>
              obtain ⟨marked₁, queue₁⟩ := found
              rw [scan] at result
              obtain ⟨grows, all, queued, new⟩ := scanEntries_spec _ scan
              have children : ∀ j, s.Linked dir j → j ∈ marked₁ := by
                intro j link
                obtain ⟨e, member, rfl⟩ := (s.exists_mem_materializeDir _ _).mpr link
                exact all e member
              have step : Frontier s queue₁ marked₁ := by
                intro i here
                rcases new i here with old | later | ⟨e, member, rfl, file⟩
                · rcases frontier i old with waiting | closed
                  · rcases List.mem_cons.mp waiting with rfl | later
                    · exact .inr children
                    · exact .inl (queued i later)
                  · exact .inr fun j link => grows j (closed j link)
                · exact .inl later
                · refine .inr fun j link => ?_
                  have asFile : s.LinkedAs .file dir e.inode_id :=
                    (s.mem_materializeDir _ _ _).mp ⟨e, member, rfl, file⟩
                  have asDir := shape.linkedAs_dir asFile.linked link
                  exact absurd (shape.linkedAs_kind asDir asFile) (by simp)
              obtain ⟨grows', closed⟩ := ih step result
              exact ⟨fun i here => grows' i (grows i here), closed⟩

theorem Shape.reachableInodes_spec (shape : Shape env ids s) {keep : BTreeSet U128}
    (result : reachableInodes s = .ok keep) {i : U128} (reach : Reach s i) : i ∈ keep := by
  unfold reachableInodes at result
  cases scan : scanQueue s (maxRecordScan + 1) [rootInode]
      ((∅ : BTreeSet U128).insert rootInode) with
  | error e =>
      rw [scan] at result
      cases result
  | ok marked =>
      rw [scan] at result
      cases result
      have start : Frontier s [rootInode] ((∅ : BTreeSet U128).insert rootInode) := by
        intro i here
        rcases (BTreeSet.mem_insert _ _ _).mp here with rfl | none
        · exact .inl List.mem_cons_self
        · exact absurd none Std.ExtTreeSet.not_mem_empty
      obtain ⟨grows, closed⟩ := scanQueue_spec shape _ start scan
      rw [BTreeSet.mem_foldl_insert fun inode : U128 => inode]
      left
      induction reach with
      | refl => exact grows _ ((BTreeSet.mem_insert _ _ _).mpr (.inl rfl))
      | tail _ link ih => exact ((closed _ ih).resolve_left (by simp)) _ link

end Mark

section Swept

variable {env : Env} {ids : Set OpId} {s : CoreState} {marked : BTreeSet Hash}
  {keep : BTreeSet U128}

theorem get_keep {V : Type} (m : BTreeMap U128 V) (keep : BTreeSet U128) (i : U128) :
    (m.filter fun inode _ => keep.contains inode)[i]? = if i ∈ keep then m[i]? else none := by
  rw [Std.ExtTreeMap.getElem?_filter']
  by_cases here : i ∈ keep
  · have inside : keep.contains i = true := Std.ExtTreeSet.contains_iff_mem.mpr here
    cases m[i]? <;> simp [here, inside]
  · have outside : keep.contains i = false := by
      rw [← Bool.not_eq_true]
      exact fun inside => here (Std.ExtTreeSet.contains_iff_mem.mp inside)
    cases m[i]? <;> simp [here, outside]

theorem loadDir_sweep (i : U128) :
    (sweep s marked keep).loadDir i = if i ∈ keep then s.loadDir i else none := get_keep _ _ _

theorem loadInode_sweep (i : U128) :
    (sweep s marked keep).loadInode i = if i ∈ keep then s.loadInode i else none := get_keep _ _ _

theorem parentOf_sweep (i : U128) :
    (sweep s marked keep).parentOf i = if i ∈ keep then s.parentOf i else none := get_keep _ _ _

private theorem dirAt_sweep (i : U128) :
    (sweep s marked keep).dirAt i = if i ∈ keep then s.dirAt i else ∅ := by
  unfold dirAt
  rw [loadDir_sweep]
  split <;> rfl

private theorem live_sweep {p : U128} {n : String} {d : Dot} {v : DirEntryValue} :
    (sweep s marked keep).Live p n d v ↔ p ∈ keep ∧ s.Live p n d v := by
  unfold CoreState.Live CoreState.added CoreState.Removed
  rw [dirAt_sweep]
  by_cases here : p ∈ keep
  · simp [here]
  · simp [here]

theorem Shape.sweep (shape : Shape env ids s) (root : rootInode ∈ keep) :
    Shape env ids (sweep s marked keep) := by
  have record : ∀ {i r}, (Core.sweep s marked keep).loadInode i = some r →
      i ∈ keep ∧ s.loadInode i = some r := by
    intro i r found
    rw [loadInode_sweep] at found
    split at found
    · exact ⟨‹_›, found⟩
    · cases found
  have added : ∀ {p n d v}, (Core.sweep s marked keep).added p n d = some v →
      s.added p n d = some v := by
    intro p n d v here
    unfold CoreState.added at here ⊢
    rw [dirAt_sweep] at here
    split at here
    · exact here
    · simp at here
  have isDir : ∀ i, (Core.sweep s marked keep).isDir i = true ↔ i ∈ keep ∧ s.isDir i = true := by
    intro i
    simp only [isDir_iff, loadInode_sweep]
    by_cases here : i ∈ keep <;> simp [here]
  refine ⟨shape.known, shape.parked, fun here => shape.dotApplied (added here),
    fun here => shape.targetApplied (added here), fun found => shape.recordApplied (record found).2,
    ?_, (isDir _).mpr ⟨root, shape.root⟩, ?_, ?_, ?_, ?_⟩
  · intro p
    rw [isDir, ← shape.mapped, loadDir_sweep]
    by_cases here : p ∈ keep <;> simp [here]
  · intro p n d v q m e w left right
    exact shape.single (live_sweep.mp left).2 (live_sweep.mp right).2
  · refine shape.forest.subrelation ?_
    rintro a b ⟨n, d, v, live, same⟩
    exact ⟨n, d, v, (live_sweep.mp live).2, same⟩
  · intro p n d v r live found
    exact shape.kinds (live_sweep.mp live).2 (record found).2
  · intro p n d v r live found
    rw [parentOf_sweep, if_pos (record found).1]
    exact shape.parents (live_sweep.mp live).2 (record found).2

theorem MapExact.imap_sweep (exact : MapExact env s) (kept : ∀ {i}, Reach s i → i ∈ keep) :
    (Core.sweep s marked keep).imap = s.imap := by
  apply Std.ExtTreeMap.ext_getElem?
  intro k
  show (s.imap.filter fun inode _ => keep.contains inode)[k]? = s.imap[k]?
  rw [get_keep]
  split
  · rfl
  · rename_i outside
    cases mapped : s.imap[k]? with
    | none => rfl
    | some x => exact absurd (kept ((exact k x).mp mapped).reach) outside

private theorem linkedAs_sweep {kind : EntryType} {p i : U128} :
    (sweep s marked keep).LinkedAs kind p i ↔ p ∈ keep ∧ s.LinkedAs kind p i := by
  unfold LinkedAs
  simp only [live_sweep]
  tauto

theorem dirBelow_sweep (kept : ∀ {i}, Reach s i → i ∈ keep) (i : U128) :
    DirBelow (sweep s marked keep) rootInode i ↔ DirBelow s rootInode i := by
  constructor
  · exact ReflTransGen.mono (fun p i link => (linkedAs_sweep.mp link).2) _ _
  · intro path
    induction path with
    | refl => exact .refl
    | tail front link ih => exact ih.tail (linkedAs_sweep.mpr ⟨kept (DirBelow.reach front), link⟩)

theorem treeEntry_sweep (kept : ∀ {i}, Reach s i → i ∈ keep) (k : U128) (x : Hash) :
    TreeEntry env (sweep s marked keep) k x ↔ TreeEntry env s k x := by
  have loadDir : ∀ i, i ∈ keep → (sweep s marked keep).loadDir i = s.loadDir i := by
    intro i here
    rw [loadDir_sweep, if_pos here]
  have loadInode : ∀ i, i ∈ keep → (sweep s marked keep).loadInode i = s.loadInode i := by
    intro i here
    rw [loadInode_sweep, if_pos here]
  unfold TreeEntry EntryBelow
  simp only [dirBelow_sweep kept, linkedAs_sweep]
  refine or_congr ?_ ?_
  · refine and_congr_right fun path => ?_
    have here := kept path.reach
    rw [dirHash_congr (loadDir k here) (loadInode k here)]
  · refine exists_congr fun p => and_congr_right fun path => ?_
    constructor
    · rintro ⟨⟨-, link⟩, content⟩
      have here : k ∈ keep := kept (ReflTransGen.tail path.reach link.linked)
      exact ⟨link, by simpa only [contentHash, loadInode k here] using content⟩
    · rintro ⟨link, content⟩
      have here : k ∈ keep := kept (ReflTransGen.tail path.reach link.linked)
      exact ⟨⟨kept path.reach, link⟩,
        by simpa only [contentHash, loadInode k here] using content⟩

theorem MapExact.sweep (exact : MapExact env s) (kept : ∀ {i}, Reach s i → i ∈ keep) :
    MapExact env (sweep s marked keep) := by
  intro k x
  rw [treeEntry_sweep kept, exact.imap_sweep kept]
  exact exact k x

theorem collectGarbage_run (env : Env) (s : CoreState) (dry_run : Bool) :
    finalState (collectGarbage env dry_run s) = s ∨
      ∃ marked keep, reachableHashes env s = .ok marked ∧ reachableInodes s = .ok keep ∧
        finalState (collectGarbage env dry_run s) = (Core.sweep s marked keep).flush := by
  unfold collectGarbage
  simp only [bind_run, get_run]
  cases dry_run with
  | true =>
      left
      cases sweepBlocker s <;> cases reachableHashes env s <;> cases reachableInodes s <;> rfl
  | false =>
      cases sweepBlocker s with
      | some reason => exact .inl rfl
      | none =>
          cases hashes : reachableHashes env s with
          | error e => exact .inl rfl
          | ok marked =>
              cases inodes : reachableInodes s with
              | error e => exact .inl rfl
              | ok keep => exact .inr ⟨marked, keep, rfl, rfl, rfl⟩

theorem Shape.collectGarbage_spec (shape : Shape env ids s) (dry_run : Bool) :
    finalState (collectGarbage env dry_run s) = s ∨
      ∃ marked keep, (∀ {i}, Reach s i → i ∈ keep) ∧
        finalState (collectGarbage env dry_run s) = (Core.sweep s marked keep).flush := by
  rcases collectGarbage_run env s dry_run with same | ⟨marked, keep, -, scanned, same⟩
  · exact .inl same
  · exact .inr ⟨marked, keep, fun reach => shape.reachableInodes_spec scanned reach, same⟩

end Swept

end NexusFS.Core
