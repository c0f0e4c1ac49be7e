/- GID: NexusFS/Core/Collect
   source: crates/core/src/gc.rs
   digest: A sweep deletes what the survey counted, and leaves nothing for another one. -/

import NexusFS.Core.Sweep

/-!
The second collection walks the records and reads the objects that the first one left.
Both walks only look where the first marks already are, so they give the same marks.
-/

set_option autoImplicit false
set_option relaxedAutoImplicit false

namespace NexusFS.Core

open NexusFS.Lib NexusFS.Lib.Effect NexusFS.Proto NexusFS.Crdt CoreState

section Scan

variable {s : CoreState} {marked : BTreeSet Hash} {keep : BTreeSet U128}

private theorem materializeDir_sweep {i : U128} (here : i ∈ keep) :
    (sweep s marked keep).flush.materializeDir i = s.materializeDir i := by
  have same : (sweep s marked keep).flush.loadDir i = s.loadDir i :=
    (@loadDir_sweep s marked keep i).trans (if_pos here)
  unfold materializeDir
  rw [same]

private theorem queued_scanEntries (entries : List DirEntry) {seen seen' : BTreeSet U128}
    {queue queue' : List U128} (queued : ∀ i ∈ queue, i ∈ seen)
    (result : scanEntries entries seen queue = .ok (seen', queue')) :
    (∀ i ∈ seen, i ∈ seen') ∧ ∀ i ∈ queue', i ∈ seen' := by
  induction entries generalizing seen queue with
  | nil =>
      cases result
      exact ⟨fun _ here => here, queued⟩
  | cons e entries ih =>
      unfold scanEntries at result
      split at result
      · exact ih queued result
      · dsimp only at result
        split at result
        · cases result
        · have grown : ∀ i ∈ seen, i ∈ seen.insert e.inode_id := fun i here =>
            (BTreeSet.mem_insert _ _ _).mpr (.inr here)
          have queued' : ∀ i ∈ (if e.entry_type = .dir then e.inode_id :: queue else queue),
              i ∈ seen.insert e.inode_id := by
            intro i member
            split at member
            · rcases List.mem_cons.mp member with rfl | old
              · exact (BTreeSet.mem_insert _ _ _).mpr (.inl rfl)
              · exact grown i (queued i old)
            · exact grown i (queued i member)
          obtain ⟨grows, all⟩ := ih queued' result
          exact ⟨fun i here => grows i (grown i here), all⟩

private theorem scanQueue_sweep (marked : BTreeSet Hash) (keep : BTreeSet U128) (fuel : Nat)
    {queue : List U128} {seen seen' : BTreeSet U128} (queued : ∀ i ∈ queue, i ∈ seen)
    (result : scanQueue s fuel queue seen = .ok seen') :
    (∀ i ∈ seen, i ∈ seen') ∧ ((∀ i ∈ seen', i ∈ keep) →
      scanQueue (sweep s marked keep).flush fuel queue seen = .ok seen') := by
  induction fuel generalizing queue seen with
  | zero =>
      cases queue with
      | nil =>
          cases result
          exact ⟨fun _ here => here, fun _ => rfl⟩
      | cons dir queue => cases result
  | succ fuel ih =>
      cases queue with
      | nil =>
          cases result
          exact ⟨fun _ here => here, fun _ => rfl⟩
      | cons dir queue =>
          unfold scanQueue at result
          cases scan : scanEntries (s.materializeDir dir) seen queue with
          | error e =>
              rw [scan] at result
              cases result
          | ok found =>
              obtain ⟨seen₁, queue₁⟩ := found
              rw [scan] at result
              obtain ⟨grows, queued₁⟩ := queued_scanEntries _
                (fun i later => queued i (List.mem_cons_of_mem dir later)) scan
              obtain ⟨grows', same⟩ := ih queued₁ result
              refine ⟨fun i here => grows' i (grows i here), fun inside => ?_⟩
              have here : dir ∈ keep :=
                inside dir (grows' dir (grows dir (queued dir List.mem_cons_self)))
              unfold scanQueue
              rw [materializeDir_sweep here, scan]
              exact same inside

theorem reachableInodes_sweep (scanned : reachableInodes s = .ok keep) :
    reachableInodes (sweep s marked keep).flush = .ok keep := by
  unfold reachableInodes at scanned ⊢
  cases scan : scanQueue s (maxRecordScan + 1) [rootInode]
      ((∅ : BTreeSet U128).insert rootInode) with
  | error e =>
      rw [scan] at scanned
      cases scanned
  | ok seen =>
      rw [scan] at scanned
      have whole : (s.pendingOps.flatMap namedInodes).foldl
          (fun marked inode => marked.insert inode) seen = keep := Except.ok.inj scanned
      have queued : ∀ i ∈ [rootInode], i ∈ (∅ : BTreeSet U128).insert rootInode := by
        simp
      obtain ⟨-, same⟩ := scanQueue_sweep marked keep _ queued scan
      rw [same ?_]
      · exact scanned
      · intro i here
        rw [← whole, BTreeSet.mem_foldl_insert fun inode : U128 => inode]
        exact .inl here

end Scan

section Mark

variable {env : Env} {ids : Set OpId} {s : CoreState} {marked : BTreeSet Hash}
  {keep : BTreeSet U128}

theorem blobs_sweep (hash : Hash) :
    (sweep s marked keep).blobs[hash]? = if hash ∈ marked then s.blobs[hash]? else none := by
  show (s.blobs.filter fun hash _ => marked.contains hash)[hash]? = _
  rw [Std.ExtTreeMap.getElem?_filter']
  by_cases here : hash ∈ marked
  · have inside : marked.contains hash = true := Std.ExtTreeSet.contains_iff_mem.mpr here
    cases s.blobs[hash]? <;> simp [here, inside]
  · have outside : marked.contains hash = false := by
      rw [← Bool.not_eq_true]
      exact fun inside => here (Std.ExtTreeSet.contains_iff_mem.mp inside)
    cases s.blobs[hash]? <;> simp [here, outside]

private theorem markObject_sweep (marked : BTreeSet Hash) (keep : BTreeSet U128) {seen seen' : BTreeSet Hash}
    {hash : Hash} (result : markObject env s seen hash = .ok seen') :
    (∀ h ∈ seen, h ∈ seen') ∧ ((∀ h ∈ seen', h ∈ marked) →
      markObject env (sweep s marked keep).flush seen hash = .ok seen') := by
  have first : (∀ h ∈ seen, h ∈ seen') ∧ hash ∈ seen' := by
    unfold markObject at result
    have grown : ∀ h ∈ seen, h ∈ seen.insert hash := fun h here =>
      (BTreeSet.mem_insert _ _ _).mpr (.inr here)
    have start : hash ∈ seen.insert hash := (BTreeSet.mem_insert _ _ _).mpr (.inl rfl)
    cases object : getObject env s hash with
    | error e =>
        rw [object] at result
        cases result
    | ok found =>
        rw [object] at result
        simp only [bind, Except.bind] at result
        split at result
        · have chunks : _ = seen' := Except.ok.inj result
          subst chunks
          constructor
          · intro h here
            rw [BTreeSet.mem_foldl_insert ChunkRef.hash]
            exact .inl (grown h here)
          · rw [BTreeSet.mem_foldl_insert ChunkRef.hash]
            exact .inl start
        · have alone : _ = seen' := Except.ok.inj result
          subst alone
          exact ⟨grown, start⟩
  refine ⟨first.1, fun inside => ?_⟩
  have same : getObject env (sweep s marked keep).flush hash = getObject env s hash := by
    have held : (sweep s marked keep).flush.blobs[hash]? = s.blobs[hash]? :=
      (@blobs_sweep s marked keep hash).trans (if_pos (inside hash first.2))
    unfold getObject
    rw [held]
  unfold markObject at result ⊢
  rw [same]
  exact result

private theorem markObjects_sweep (marked : BTreeSet Hash) (keep : BTreeSet U128) (rows : List Hash)
    {seen seen' : BTreeSet Hash}
    (result : rows.foldlM (markObject env s) seen = .ok seen') :
    (∀ h ∈ seen, h ∈ seen') ∧ ((∀ h ∈ seen', h ∈ marked) →
      rows.foldlM (markObject env (sweep s marked keep).flush) seen = .ok seen') := by
  induction rows generalizing seen with
  | nil =>
      obtain rfl := Except.ok.inj result
      exact ⟨fun _ here => here, fun _ => rfl⟩
  | cons hash rows ih =>
      rw [List.foldlM_cons] at result
      cases step : markObject env s seen hash with
      | error e =>
          rw [step] at result
          cases result
      | ok seen₁ =>
          rw [step] at result
          obtain ⟨grows, same⟩ := markObject_sweep marked keep step
          obtain ⟨grows', same'⟩ := ih result
          refine ⟨fun h here => grows' h (grows h here), fun inside => ?_⟩
          rw [List.foldlM_cons, same fun h here => inside h (grows' h here)]
          exact same' inside

private theorem walkRoot_sweep (marked : BTreeSet Hash) (shape : Shape env ids s)
    (kept : ∀ {i}, Reach s i → i ∈ keep)
    {hash : Hash} {w : Walk} (walk : walkRoot env s false = .ok hash w) :
    ∃ hash' w', walkRoot env (sweep s marked keep).flush false = .ok hash' w' ∧
      w'.inode_map = w.inode_map := by
  have before := shape.walkRoot_spec false
  have swept : Shape env ids (sweep s marked keep) := shape.sweep (kept .refl)
  have shape' : Shape env ids (sweep s marked keep).flush :=
    swept.congr rfl rfl (fun _ => rfl) id (fun here => swept.known here)
      fun here => swept.parked here
  have after := shape'.walkRoot_spec false
  rw [walk] at before
  cases again : walkRoot env (sweep s marked keep).flush false with
  | error e w' =>
      rw [again] at after
      -- The second walk can not meet more directories than the first one visited.
      obtain ⟨-, full, visited⟩ := after
      have inside : ∀ j ∈ w'.visited, j ∈ w.visited := fun j here =>
        (before.2 j).mpr ((@dirBelow_sweep s marked keep kept j).mp (visited j here))
      have small := BTreeSet.size_le_of_subset inside
      have limit := walkRoot_size walk
      omega
  | ok hash' w' =>
      rw [again] at after
      refine ⟨hash', w', rfl, BTreeMap.ext_get fun k => ?_⟩
      refine Option.ext fun x => ?_
      rw [after.1, before.1]
      exact @treeEntry_sweep env s marked keep kept k x

theorem reachableHashes_sweep (shape : Shape env ids s) (kept : ∀ {i}, Reach s i → i ∈ keep)
    (hashes : reachableHashes env s = .ok marked) :
    reachableHashes env (sweep s marked keep).flush = .ok marked := by
  unfold reachableHashes at hashes ⊢
  cases walk : walkRoot env s false with
  | error e w =>
      rw [walk] at hashes
      cases hashes
  | ok hash w =>
      obtain ⟨hash', w', again, map⟩ := walkRoot_sweep marked shape kept walk
      rw [walk] at hashes
      rw [again]
      dsimp only at hashes ⊢
      rw [map]
      obtain ⟨seen, objects, whole⟩ := bind_eq_ok.mp hashes
      have inside : ∀ h ∈ seen, h ∈ marked := fun h here => by
        rw [← Except.ok.inj whole, BTreeSet.mem_foldl_insert fun hash : Hash => hash]
        exact .inl here
      exact bind_eq_ok.mpr ⟨seen, (markObjects_sweep marked keep _ objects).2 inside, whole⟩

end Mark

section Report

variable {env : Env} {ids : Set OpId} {s t : CoreState} {marked : BTreeSet Hash}
  {keep : BTreeSet U128} {report : GcReport}

private theorem collectGarbage_marked (open_ : sweepBlocker s = none)
    (hashes : reachableHashes env s = .ok marked) (inodes : reachableInodes s = .ok keep)
    (dry_run : Bool) :
    collectGarbage env dry_run s =
      if dry_run then .ok (survey s marked keep true) s
      else .ok { survey s marked keep false with
        deleted := (survey s marked keep false).unreachable
        bytes_deleted := (survey s marked keep false).bytes_reclaimable
        records_deleted := (survey s marked keep false).records_unreachable }
        (sweep s marked keep).flush := by
  unfold collectGarbage
  simp only [bind_run, get_run, open_, hashes, inodes]
  cases dry_run <;> rfl

private theorem sweepBlocker_congr (head : t.head = s.head)
    (root : t.loadInode rootInode = s.loadInode rootInode) : sweepBlocker t = sweepBlocker s := by
  unfold sweepBlocker
  rw [head, root]

private theorem collected_cases (run : collectGarbage env false s = .ok report t)
    (swept : report.refused = none) :
    sweepBlocker s = none ∧ ∃ marked keep,
      reachableHashes env s = .ok marked ∧ reachableInodes s = .ok keep := by
  unfold collectGarbage at run
  simp only [bind_run, get_run] at run
  cases blocker : sweepBlocker s with
  | some reason =>
      rw [blocker] at run
      cases run
      cases swept
  | none =>
      rw [blocker] at run
      cases hashes : reachableHashes env s with
      | error e =>
          rw [hashes] at run
          cases run
      | ok marked =>
          cases inodes : reachableInodes s with
          | error e =>
              rw [hashes, inodes] at run
              cases run
          | ok keep => exact ⟨rfl, marked, keep, rfl, rfl⟩

private theorem size_sweep {V : Type} (m : BTreeMap U128 V) (keep : BTreeSet U128) :
    (m.filter fun inode _ => keep.contains inode).size +
      (m.keys.filter fun i => !keep.contains i).length = m.size := by
  rw [← Std.ExtTreeMap.length_keys, ← Std.ExtTreeMap.length_keys, Std.ExtTreeMap.keys_filter_key,
    ← List.length_append]
  exact (List.filter_append_perm _ _).length_eq

private theorem rows_sweep (s : CoreState) (marked : BTreeSet Hash) (keep : BTreeSet U128) :
    (((sweep s marked keep).blobs.toList ++
      s.blobs.toList.filter fun row => !marked.contains row.1)).Perm s.blobs.toList := by
  show (((s.blobs.filter fun hash _ => marked.contains hash).toList ++ _)).Perm _
  rw [Std.ExtTreeMap.toList_filter]
  exact List.filter_append_perm _ _

private theorem filter_not_filter {α : Type} (p : α → Bool) (l : List α) :
    (l.filter p).filter (fun a => !p a) = [] := by
  rw [List.filter_eq_nil_iff]
  intro a member
  simp [(List.mem_filter.mp member).2]

private theorem unreachable_sweep (s : CoreState) (marked : BTreeSet Hash) (keep : BTreeSet U128) :
    ((sweep s marked keep).blobs.toList.filter fun row => !marked.contains row.1).length = 0 := by
  show ((s.blobs.filter fun hash _ => marked.contains hash).toList.filter _).length = 0
  rw [Std.ExtTreeMap.toList_filter, filter_not_filter]
  rfl

private theorem orphanCount_sweep (s : CoreState) (marked : BTreeSet Hash) (keep : BTreeSet U128) :
    orphanCount (sweep s marked keep) keep = 0 := by
  unfold orphanCount sweep
  simp only [Std.ExtTreeMap.keys_filter_key, filter_not_filter, List.length_nil]

/-- What a collection that deleted leaves: its report is the survey of the same state, the store and
the records are short by what it counted, and another collection finds nothing. -/
structure Collected (env : Env) (s t : CoreState) (report : GcReport) : Prop where
  surveyed : collectGarbage env true s = .ok { report with
    dry_run := true, deleted := 0, bytes_deleted := 0, records_deleted := 0 } s
  deleted : report.deleted = report.unreachable
  bytes_deleted : report.bytes_deleted = report.bytes_reclaimable
  records_deleted : report.records_deleted = report.records_unreachable
  left : ∃ marked keep, reachableHashes env s = .ok marked ∧ reachableInodes s = .ok keep ∧
    t = (sweep s marked keep).flush
  blobs : t.blobs.size + report.deleted = s.blobs.size
  bytes : blobBytes t.blobs.toList + report.bytes_deleted = blobBytes s.blobs.toList
  records : recordCount t + report.records_deleted = recordCount s
  again : ∀ dry_run, ∃ later u, collectGarbage env dry_run t = .ok later u ∧
    later.refused = none ∧ later.unreachable = 0 ∧ later.records_unreachable = 0

theorem Shape.collected (shape : Shape env ids s) (run : collectGarbage env false s = .ok report t)
    (swept : report.refused = none) : Collected env s t report := by
  obtain ⟨open_, marked, keep, hashes, inodes⟩ := collected_cases run swept
  have kept : ∀ {i}, Reach s i → i ∈ keep := fun reach => shape.reachableInodes_spec inodes reach
  have first := collectGarbage_marked open_ hashes inodes false
  rw [run] at first
  cases first
  have perm := rows_sweep s marked keep
  refine ⟨collectGarbage_marked open_ hashes inodes true, rfl, rfl, rfl,
    ⟨marked, keep, hashes, inodes, rfl⟩, ?_, ?_, ?_, fun dry_run => ?_⟩
  · have size := perm.length_eq
    rw [List.length_append, Std.ExtTreeMap.length_toList, Std.ExtTreeMap.length_toList] at size
    exact size
  · have size := (perm.map fun row => row.2.length).sum_nat
    rw [List.map_append, List.sum_append] at size
    exact size
  · have dirs := size_sweep s.dirs keep
    have records := size_sweep s.inodes keep
    have parents := size_sweep s.parents keep
    have imap := size_sweep s.imap keep
    show recordCount (Core.sweep s marked keep) + orphanCount s keep = recordCount s
    unfold recordCount orphanCount Core.sweep
    dsimp only
    omega
  · have root : (Core.sweep s marked keep).flush.loadInode rootInode = s.loadInode rootInode :=
      (@loadInode_sweep s marked keep rootInode).trans (if_pos (kept .refl))
    have open' : sweepBlocker (Core.sweep s marked keep).flush = none := by
      exact (sweepBlocker_congr (t := (Core.sweep s marked keep).flush) (s := s) rfl root).trans open_
    have hashes' : reachableHashes env (Core.sweep s marked keep).flush = .ok marked :=
      reachableHashes_sweep shape kept hashes
    have inodes' : reachableInodes (Core.sweep s marked keep).flush = .ok keep :=
      reachableInodes_sweep inodes
    have run' := collectGarbage_marked open' hashes' inodes' dry_run
    cases dry_run with
    | false => exact ⟨_, _, run', rfl, unreachable_sweep s marked keep,
        orphanCount_sweep s marked keep⟩
    | true => exact ⟨_, _, run', rfl, unreachable_sweep s marked keep,
        orphanCount_sweep s marked keep⟩

end Report

end NexusFS.Core
