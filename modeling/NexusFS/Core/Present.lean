/- GID: NexusFS/Core/Present
   source: crates/core/src/gc.rs, crates/core/src/namespace.rs
   digest: A collection changes nothing that is listed, read, committed to or waited for. -/

import NexusFS.Core.Reachable
import NexusFS.Core.Postcard
import NexusFS.Core.Paths

set_option autoImplicit false
set_option relaxedAutoImplicit false

namespace NexusFS.Core

open NexusFS.Lib NexusFS.Lib.Effect NexusFS.Proto NexusFS.Crdt CoreState Relation

section Marks

variable {env : Env} {ids : Set OpId} {s : CoreState}

private theorem foldlM_markObject (hashes : List Hash) {marked marked' : BTreeSet Hash}
    (result : hashes.foldlM (markObject env s) marked = .ok marked') :
    (∀ hash, hash ∈ marked → hash ∈ marked') ∧ ∀ hash ∈ hashes, hash ∈ marked' ∧
      ∀ file, getObject env s hash = .ok (some (.fileNode file)) →
        ∀ chunk ∈ file.chunks, chunk.hash ∈ marked' := by
  induction hashes generalizing marked with
  | nil =>
      cases result
      exact ⟨fun _ here => here, by simp⟩
  | cons hash hashes ih =>
      rw [List.foldlM_cons] at result
      cases first : markObject env s marked hash with
      | error e =>
          rw [first] at result
          cases result
      | ok mid =>
          rw [first] at result
          obtain ⟨grows, all⟩ := ih result
          have now : (∀ other, other ∈ marked → other ∈ mid) ∧ hash ∈ mid ∧
              ∀ file, getObject env s hash = .ok (some (.fileNode file)) →
                ∀ chunk ∈ file.chunks, chunk.hash ∈ mid := by
            unfold markObject at first
            cases decoded : getObject env s hash with
            | error e =>
                rw [decoded] at first
                cases first
            | ok object =>
                rw [decoded] at first
                have kept : ∀ other, other ∈ marked → other ∈ marked.insert hash :=
                  fun other here => (BTreeSet.mem_insert _ _ _).mpr (.inr here)
                have here : hash ∈ marked.insert hash := (BTreeSet.mem_insert _ _ _).mpr (.inl rfl)
                match object, first with
                | none, first =>
                    cases first
                    exact ⟨kept, here, fun file found => by simp at found⟩
                | some (.dirNode _), first =>
                    cases first
                    exact ⟨kept, here, fun file found => by simp at found⟩
                | some (.snapshotRoot _), first =>
                    cases first
                    exact ⟨kept, here, fun file found => by simp at found⟩
                | some (.fileNode node), first =>
                    cases first
                    refine ⟨fun other old => ?_, ?_, fun file found chunk member => ?_⟩
                    · exact (BTreeSet.mem_foldl_insert _ _ _ _).mpr (.inl (kept other old))
                    · exact (BTreeSet.mem_foldl_insert _ _ _ _).mpr (.inl here)
                    · simp only [Except.ok.injEq, Option.some.injEq, Object.fileNode.injEq] at found
                      subst found
                      exact (BTreeSet.mem_foldl_insert _ _ _ _).mpr (.inr ⟨chunk, member, rfl⟩)
          refine ⟨fun other here => grows _ (now.1 other here), List.forall_mem_cons.mpr ⟨?_, all⟩⟩
          exact ⟨grows _ now.2.1, fun file found chunk member =>
            grows _ (now.2.2 file found chunk member)⟩

/-- What a finished mark has kept: the head, every object of the live tree with the chunks a file
object names, and the chunks parked writes name. -/
structure Marks (env : Env) (s : CoreState) (marked : BTreeSet Hash) : Prop where
  head : ∀ {hash}, s.head = some hash → hash ∈ marked
  object : ∀ {inode hash}, TreeEntry env s inode hash → hash ∈ marked
  chunk : ∀ {inode hash file}, TreeEntry env s inode hash →
    getObject env s hash = .ok (some (.fileNode file)) → ∀ chunk ∈ file.chunks, chunk.hash ∈ marked
  parked : ∀ {op}, op ∈ s.pendingOps → ∀ hash ∈ opChunks op, hash ∈ marked

theorem Shape.reachableHashes_spec (shape : Shape env ids s) {marked : BTreeSet Hash}
    (result : reachableHashes env s = .ok marked) : Marks env s marked := by
  have spec := shape.walkRoot_spec false
  unfold reachableHashes at result
  cases run : walkRoot env s false with
  | error e w =>
      rw [run] at result
      cases result
  | ok root w =>
      rw [run] at result spec
      dsimp only at result spec
      obtain ⟨roots, start, result⟩ : ∃ roots : BTreeSet Hash,
          (∀ hash, s.head = some hash → hash ∈ roots) ∧
            (do
              let live ← (w.inode_map.toList.map Prod.snd).foldlM (markObject env s) roots
              pure ((s.pendingOps.flatMap opChunks).foldl
                (fun marked hash => marked.insert hash) live) : Except Err (BTreeSet Hash)) =
              .ok marked := by
        refine ⟨_, fun hash head => ?_, result⟩
        rw [head]
        exact (BTreeSet.mem_insert _ _ _).mpr (.inl rfl)
      cases fold : (w.inode_map.toList.map Prod.snd).foldlM (markObject env s) roots with
      | error e =>
          rw [fold] at result
          cases result
      | ok live =>
          rw [fold] at result
          cases result
          obtain ⟨grows, all⟩ := foldlM_markObject _ fold
          have kept : ∀ hash, hash ∈ live →
              hash ∈ (s.pendingOps.flatMap opChunks).foldl (fun marked hash => marked.insert hash) live :=
            fun hash here =>
              (BTreeSet.mem_foldl_insert (fun hash : Hash => hash) _ _ _).mpr (.inl here)
          have listed : ∀ {inode hash}, TreeEntry env s inode hash →
              hash ∈ w.inode_map.toList.map Prod.snd := fun {inode hash} entry =>
            List.mem_map.mpr ⟨(inode, hash),
              (w.inode_map.mem_toList _ _).mpr ((spec.1 inode hash).mpr entry), rfl⟩
          refine ⟨fun {hash} head => ?_, fun entry => ?_, fun entry found chunk member => ?_,
            fun member hash here => ?_⟩
          · exact kept _ (grows _ (start hash head))
          · exact kept _ (all _ (listed entry)).1
          · exact kept _ ((all _ (listed entry)).2 _ found chunk member)
          · refine (BTreeSet.mem_foldl_insert (fun hash : Hash => hash) _ _ _).mpr (.inr ⟨hash, ?_, rfl⟩)
            exact List.mem_flatMap.mpr ⟨_, member, here⟩

theorem reachableInodes_parked {keep : BTreeSet U128} (result : reachableInodes s = .ok keep)
    {op : FsOp} (member : op ∈ s.pendingOps) {inode : U128} (named : inode ∈ namedInodes op) :
    inode ∈ keep := by
  unfold reachableInodes at result
  cases scan : scanQueue s (maxRecordScan + 1) [rootInode]
      ((∅ : BTreeSet U128).insert rootInode) with
  | error e =>
      rw [scan] at result
      cases result
  | ok marked =>
      rw [scan] at result
      cases result
      refine (BTreeSet.mem_foldl_insert (fun inode : U128 => inode) _ _ _).mpr (.inr ⟨inode, ?_, rfl⟩)
      exact List.mem_flatMap.mpr ⟨op, member, named⟩

end Marks

section Head

variable {env : Env} {s t : CoreState} {op : FsOp}

def HeadStored (s : CoreState) : Prop := ∃ head, s.head = some head ∧ s.hasBlob head

theorem HeadStored.mono (stored : HeadStored s) (head : t.head = s.head)
    (keeps : ∀ hash, s.hasBlob hash → t.hasBlob hash) : HeadStored t := by
  obtain ⟨hash, named, here⟩ := stored
  exact ⟨hash, head.trans named, keeps hash here⟩

theorem headStored_buildSnapshot (env : Env) (s : CoreState) :
    HeadStored (finalState (buildSnapshot env s)) := by
  unfold buildSnapshot putObject
  simp only [bind_run, get_run, set_run, modify_run, pure_run, finalState_ok]
  refine ⟨_, rfl, ?_⟩
  generalize env.blake3 _ = hash
  split
  · rename_i here
    exact here
  · unfold CoreState.hasBlob CoreState.putBlob
    rw [Std.ExtTreeMap.contains_insert]
    simp

private theorem headStored_closeCall (stored : HeadStored s) (snapshot : Prop)
    [Decidable snapshot] : HeadStored (closeCall env snapshot s) := by
  unfold closeCall
  split
  · exact (headStored_buildSnapshot env s).mono rfl fun _ here => here
  · exact stored.mono rfl fun _ here => here

private theorem headRule (env : Env) :
    AttemptRule env HeadStored (fun _ => True) (fun _ _ => True) (fun _ => HeadStored) := by
  refine .of_took ?_ (fun stored _ _ => stored.mono rfl fun _ here => here) fun _ _ => trivial
  intro s t op stored _ _ took
  obtain ⟨u, effect, blobs, imap, keeps, rfl⟩ := took
  obtain ⟨dirs, inodes, parents, held, draws, grows, rfl⟩ := effect.frame
  exact stored.mono rfl fun hash here => keeps hash (grows hash here)

theorem headStored_booted (env : Env) (blank : Blank s) : HeadStored (booted env s) := by
  have fresh := booted_spec env blank
  have named := fresh.head
  have only := (shape_genesis env ∅ blank).rebuildInodeMap_spec
  unfold booted at named ⊢
  rw [bootstrapIfNeeded_run blank, bind_run] at named ⊢
  cases rebuilt : rebuildInodeMap env (genesis s) with
  | error e t =>
      rw [rebuilt] at only named
      obtain ⟨⟨blobs, imap, -, rfl⟩, -⟩ := only
      have none_yet : s.head = some _ := named
      rw [blank.head] at none_yet
      cases none_yet
  | ok rows t =>
      obtain ⟨blobs, -, snapshot⟩ := buildSnapshot_run env t
      have stored := headStored_buildSnapshot env t
      rw [snapshot] at stored
      simp only [bind_run, snapshot, modify_run, finalState_ok]
      exact stored.mono rfl fun _ here => here

theorem get_sweep_blobs {marked : BTreeSet Hash} (keep : BTreeSet U128) {hash : Hash}
    (here : hash ∈ marked) : (sweep s marked keep).blobs[hash]? = s.blobs[hash]? := by
  unfold sweep
  rw [Std.ExtTreeMap.getElem?_filter']
  have inside : marked.contains hash = true := Std.ExtTreeSet.contains_iff_mem.mpr here
  cases s.blobs[hash]? <;> simp [inside]

theorem hasBlob_iff_get {hash : Hash} : s.hasBlob hash ↔ (s.blobs[hash]?).isSome := by
  rw [CoreState.hasBlob, Std.ExtTreeMap.contains_eq_isSome_getElem?]

theorem HeadStored.applyOpInner (stored : HeadStored s) (op : FsOp) (check_policy : Bool) :
    HeadStored (finalState (applyOpInner env op check_policy s)) := by
  by_cases admits : Admits env op check_policy s
  · by_cases known : op.id ∈ s.applied
    · rw [applyOpInner_known admits known]
      exact stored
    · have ends := (headRule env).applyOpInner_closed admits known
        (stored.mono rfl fun _ here => here) trivial
        (fun stored _ => stored.mono rfl fun _ here => here) (fun _ _ => trivial)
      refine Ends.finalState (ends.imp ?_ fun _ _ here => here)
      rintro t ⟨u, stored, snapshot, rfl⟩
      exact headStored_closeCall stored _
  · obtain ⟨e, refused⟩ := applyOpInner_refused admits
    rw [refused]
    exact stored

theorem HeadStored.retryPending (stored : HeadStored s) :
    HeadStored (finalState (retryPending env s)) := by
  have drained := (headRule env).drainPending stored fun _ _ => trivial
  rw [retryPending_run]
  cases later : drainPending env s with
  | error e t =>
      rw [later] at drained
      exact drained
  | ok n t =>
      rw [later] at drained
      show HeadStored (if 0 < n then finalState (buildSnapshot env t) else t)
      split
      · exact headStored_buildSnapshot env t
      · exact drained

theorem HeadStored.collectGarbage {ids : Set OpId} (stored : HeadStored s)
    (shape : Shape env ids s) (dry_run : Bool) :
    HeadStored (finalState (collectGarbage env dry_run s)) := by
  obtain ⟨head, named, here⟩ := stored
  rcases collectGarbage_run env s dry_run with same | ⟨marked, keep, hashes, -, same⟩
  · rw [same]
    exact ⟨head, named, here⟩
  · rw [same]
    refine ⟨head, named, ?_⟩
    have kept := (shape.reachableHashes_spec hashes).head named
    rw [hasBlob_iff_get] at here ⊢
    rw [← here]
    exact congrArg Option.isSome (get_sweep_blobs keep kept)

theorem Run.headStored {ids : Set OpId} {meets : CoreState → Event → Prop}
    (run : Run env meets s) (inj : Set.InjOn (inodeForOp env) ids)
    (within : ∀ s e, meets s e → e.Within ids) : HeadStored s := by
  induction run with
  | boot blank => exact headStored_booted env blank
  | @step s e before met ih =>
      cases e with
      | apply op => exact ih.applyOpInner op true
      | retry => exact ih.retryPending
      | blob bytes =>
          refine ih.mono rfl fun hash here => ?_
          have stored : (s.blobs.insert (env.blake3 bytes) bytes).contains hash = true := by
            rw [Std.ExtTreeMap.contains_insert]
            simp only [CoreState.hasBlob] at here
            simp [here]
          exact stored
      | collect dry_run => exact ih.collectGarbage (before.shape inj within) dry_run

end Head

section Paths

variable {s t : CoreState}

theorem materializeDir_congr {p : U128} (dir : t.loadDir p = s.loadDir p) :
    t.materializeDir p = s.materializeDir p := by
  simp only [materializeDir, dir]

theorem lookup_congr {p : U128} (dir : t.loadDir p = s.loadDir p) (name : String) :
    t.lookup p name = s.lookup p name := by
  simp only [lookup, dir, materializeDir_congr dir]

def Resolved (s : CoreState) (inode : U128) (kind : EntryType) : Prop :=
  (kind = .dir ∧ DirBelow s rootInode inode) ∨
    ∃ p, DirBelow s rootInode p ∧ s.LinkedAs kind p inode

private theorem resolveParts_spec (parts walked : List String) {current : U128}
    {kind : EntryType} (start : Resolved s current kind) :
    (∀ {i k}, resolveParts s walked parts current kind = .ok (some (i, k)) → Resolved s i k) ∧
      ((∀ i, DirBelow s rootInode i → t.loadDir i = s.loadDir i) →
        resolveParts t walked parts current kind = resolveParts s walked parts current kind) := by
  induction parts generalizing walked current kind with
  | nil =>
      refine ⟨fun found => ?_, fun _ => rfl⟩
      cases found
      exact start
  | cons part rest ih =>
      unfold resolveParts
      by_cases dir : kind = .dir
      · have below : DirBelow s rootInode current := by
          rcases start with ⟨-, path⟩ | ⟨p, path, link⟩
          · exact path
          · exact path.tail (dir ▸ link)
        simp only [dir, ne_eq, not_true_eq_false, if_false]
        cases found : s.lookup current part with
        | none =>
            refine ⟨(fun impossible => nomatch impossible), fun same => ?_⟩
            rw [lookup_congr (same current below), found]
        | some e =>
            have next : Resolved s e.inode_id e.entry_type :=
              .inr ⟨current, below, linkedAs_of_lookup found⟩
            obtain ⟨target, equal⟩ := ih (walked ++ [part]) next
            refine ⟨target, fun same => ?_⟩
            rw [lookup_congr (same current below), found]
            exact equal same
      · simp only [dir, ne_eq, not_false_eq_true, if_true]
        exact ⟨(fun impossible => nomatch impossible), fun _ => trivial⟩

theorem resolved_of_resolvePath {path : String} {i : U128} {k : EntryType}
    (found : resolvePath s path = .ok (some (i, k))) : Resolved s i k := by
  unfold resolvePath at found
  cases split : splitPath path with
  | error e =>
      rw [split] at found
      cases found
  | ok parts =>
      rw [split] at found
      exact (resolveParts_spec (t := s) parts [] (.inl ⟨rfl, .refl⟩)).1 found

theorem resolvePath_congr (same : ∀ i, DirBelow s rootInode i → t.loadDir i = s.loadDir i)
    (path : String) : resolvePath t path = resolvePath s path := by
  unfold resolvePath
  cases splitPath path with
  | error e => rfl
  | ok parts => exact (resolveParts_spec parts [] (.inl ⟨rfl, .refl⟩)).2 same

theorem readDirPath_congr (same : ∀ i, DirBelow s rootInode i → t.loadDir i = s.loadDir i)
    (path : String) : readDirPath t path = readDirPath s path := by
  unfold readDirPath
  rw [resolvePath_congr same]
  cases found : resolvePath s path with
  | error e => rfl
  | ok place =>
      cases place with
      | none => rfl
      | some target =>
          obtain ⟨inode, kind⟩ := target
          show (if kind ≠ .dir then throw (.notADirectory path) else pure (t.materializeDir inode)) =
            (if kind ≠ .dir then throw (.notADirectory path) else pure (s.materializeDir inode) :
              Except Err (List DirEntry))
          by_cases dir : kind = .dir
          · have below : DirBelow s rootInode inode := by
              rcases resolved_of_resolvePath found with ⟨-, path⟩ | ⟨p, path, link⟩
              · exact path
              · exact path.tail (dir ▸ link)
            rw [materializeDir_congr (same inode below)]
          · simp only [dir, ne_eq, not_false_eq_true, if_true]

theorem readFilePath_congr {env : Env}
    (same : ∀ i, DirBelow s rootInode i → t.loadDir i = s.loadDir i)
    (files : ∀ p i, DirBelow s rootInode p → s.LinkedAs .file p i →
      readFile env t i = readFile env s i) (path : String) :
    readFilePath env t path = readFilePath env s path := by
  unfold readFilePath
  rw [resolvePath_congr same]
  cases found : resolvePath s path with
  | error e => rfl
  | ok place =>
      cases place with
      | none => rfl
      | some target =>
          obtain ⟨inode, kind⟩ := target
          show (if kind ≠ .file then throw (.notAFilePath path) else readFile env t inode) =
            (if kind ≠ .file then throw (.notAFilePath path) else readFile env s inode)
          by_cases file : kind = .file
          · rcases resolved_of_resolvePath found with ⟨dir, -⟩ | ⟨p, path, link⟩
            · rw [file] at dir
              cases dir
            · rw [files p inode path (file ▸ link)]
          · simp only [file, ne_eq, not_false_eq_true, if_true]

end Paths

section Present

variable {env : Env} {ids : Set OpId} {s t : CoreState}

/-- What a collection leaves as it was: every listing and every file of the live tree, the map
and what commits to it, the log and the queues, and what parked operations name. -/
structure Preserved (env : Env) (s t : CoreState) : Prop where
  directories : ∀ i, Reach s i → t.materializeDir i = s.materializeDir i
  listings : ∀ path, readDirPath t path = readDirPath s path
  contents : ∀ path, readFilePath env t path = readFilePath env s path
  inodeMap : inodeMap t = inodeMap s
  root : t.state_root = s.state_root
  head : ∃ hash bytes, s.head = some hash ∧ t.head = some hash ∧ s.blobs[hash]? = some bytes ∧
    t.blobs[hash]? = some bytes
  oplog : t.oplog = s.oplog
  applied : t.applied = s.applied
  pending : t.pending = s.pending
  chunks : ∀ op ∈ s.pendingOps, ∀ hash ∈ opChunks op, t.blobs[hash]? = s.blobs[hash]?
  records : ∀ op ∈ s.pendingOps, ∀ i ∈ namedInodes op, t.dirs[i]? = s.dirs[i]? ∧
    t.inodes[i]? = s.inodes[i]? ∧ t.parents[i]? = s.parents[i]? ∧ t.imap[i]? = s.imap[i]?

theorem Preserved.refl (stored : HeadStored s) : Preserved env s s := by
  obtain ⟨hash, named, here⟩ := stored
  obtain ⟨bytes, found⟩ := Option.isSome_iff_exists.mp (hasBlob_iff_get.mp here)
  exact ⟨fun _ _ => rfl, fun _ => rfl, fun _ => rfl, rfl, rfl, ⟨hash, bytes, named, named, found, found⟩,
    rfl, rfl, rfl, fun _ _ _ _ => rfl, fun _ _ _ _ => ⟨rfl, rfl, rfl, rfl⟩⟩

theorem Exact.preserved_sweep (exact : Exact env ids s) (stored : HeadStored s)
    {marked : BTreeSet Hash} {keep : BTreeSet U128} (hashes : reachableHashes env s = .ok marked)
    (inodes : reachableInodes s = .ok keep) : Preserved env s (sweep s marked keep).flush := by
  have marks := exact.shape.reachableHashes_spec hashes
  have kept : ∀ {i}, Reach s i → i ∈ keep := fun reach =>
    exact.shape.reachableInodes_spec inodes reach
  have blob : ∀ {hash}, hash ∈ marked →
      (sweep s marked keep).flush.blobs[hash]? = s.blobs[hash]? :=
    fun here => get_sweep_blobs keep here
  have dir : ∀ {i}, i ∈ keep → (sweep s marked keep).flush.loadDir i = s.loadDir i :=
    fun {i} here => (@loadDir_sweep s marked keep i).trans (if_pos here)
  have record : ∀ {i}, i ∈ keep → (sweep s marked keep).flush.loadInode i = s.loadInode i :=
    fun {i} here => (@loadInode_sweep s marked keep i).trans (if_pos here)
  have parent : ∀ {i}, i ∈ keep → (sweep s marked keep).flush.parentOf i = s.parentOf i :=
    fun {i} here => (@parentOf_sweep s marked keep i).trans (if_pos here)
  have imap : (sweep s marked keep).flush.imap = s.imap := @MapExact.imap_sweep env s marked keep exact.map kept
  have below : ∀ i, DirBelow s rootInode i →
      (sweep s marked keep).flush.loadDir i = s.loadDir i := fun i path => dir (kept path.reach)
  have file : ∀ p i, DirBelow s rootInode p → s.LinkedAs .file p i →
      readFile env (sweep s marked keep).flush i = readFile env s i := by
    intro p i path link
    have entry : ∀ r hash, s.loadInode i = some r → r.content.value.node_hash = some hash →
        TreeEntry env s i hash := by
      intro r hash found content
      refine .inr ⟨p, path, link, ?_⟩
      simp only [contentHash, found, Option.bind_some, content]
    refine readFile_congr (record (kept (path.reach.tail link.linked))) rfl rfl ?_ ?_
    · intro r hash found content
      exact blob (marks.object (entry r hash found content))
    · intro r hash node found content decoded chunk member
      exact blob (marks.chunk (entry r hash found content) decoded chunk member)
  obtain ⟨head, named, here⟩ := stored
  obtain ⟨bytes, found⟩ := Option.isSome_iff_exists.mp (hasBlob_iff_get.mp here)
  refine ⟨fun i reach => materializeDir_congr (dir (kept reach)), readDirPath_congr below,
    readFilePath_congr below file, ?_, rfl, ⟨head, bytes, named, named, found, ?_⟩, rfl, rfl, rfl,
    fun op member hash named => blob (marks.parked member hash named),
    fun op member i named => ?_⟩
  · rw [Core.inodeMap, imap]
    rfl
  · rw [blob (marks.head named), found]
  · have held := reachableInodes_parked inodes member named
    exact ⟨dir held, record held, parent held, by rw [imap]⟩

theorem collectGarbage_refused (env : Env) {s : CoreState} (blocked : sweepBlocker s ≠ none) :
    finalState (collectGarbage env false s) = s := by
  unfold collectGarbage
  simp only [bind_run, get_run]
  cases reason : sweepBlocker s with
  | none => exact absurd reason blocked
  | some why => rfl

/-- In every reachable state a collection preserves the present, and a sweep that is refused
changes nothing at all. -/
theorem collection_preserves_present (inj : Set.InjOn (inodeForOp env) ids)
    (run : Run env (fun _ e => e.Within ids) s) :
    Preserved env s ((Event.collect false).run env s) ∧
      ∀ s, sweepBlocker s ≠ none → (Event.collect false).run env s = s := by
  refine ⟨?_, fun s blocked => collectGarbage_refused env blocked⟩
  have stored := run.headStored inj fun _ _ within => within
  have charted := run.charted inj fun _ _ within => within
  have unchanged : finalState (collectGarbage env false s) = s →
      Preserved env s (finalState (collectGarbage env false s)) := by
    intro same
    rw [same]
    exact .refl stored
  show Preserved env s (finalState (collectGarbage env false s))
  rcases charted.2 with exact | ⟨w, full⟩
  · rcases collectGarbage_run env s false with same | ⟨marked, keep, hashes, inodes, same⟩
    · exact unchanged same
    · rw [same]
      exact exact.preserved_sweep stored hashes inodes
  · exact unchanged (charted.1.collectGarbage_full full false)

def firstIds (count : Nat) : List OpId :=
  (List.range count).map fun n => ⟨7, Fin.ofNat (2 ^ 64) (n + 1)⟩

theorem firstIds_injOn {count : Nat} (distinct : ((firstIds count).map (inodeForOp env)).Nodup) :
    Set.InjOn (inodeForOp env) {id | id ∈ firstIds count} :=
  fun _ left _ right same => List.inj_on_of_nodup_map distinct left right same

def untidyEvents : List Event :=
  [.apply (sampleOp 1 (.mkdir rootInode "a" 0)),
    .apply (sampleOp 2 (.createFile rootInode "f" 0)),
    .blob [1, 2, 3],
    .apply (sampleOp 3 (.write (inodeForOp .stored ⟨7, 2⟩) 0
      [⟨Env.stored.blake3 [1, 2, 3], 3, 3, 0⟩] 3 none)),
    .apply (sampleOp 4 (.unlink rootInode "a" [⟨7, 1⟩]))]

def untidyState : CoreState :=
  untidyEvents.foldl (fun s e => e.run .stored s) (booted .stored (CoreState.new 7))

theorem Run.foldl {meets : CoreState → Event → Prop} (events : List Event)
    (run : Run env meets s) (met : ∀ s, ∀ e ∈ events, meets s e) :
    Run env meets (events.foldl (fun s e => e.run env s) s) := by
  induction events generalizing s with
  | nil => exact run
  | cons e events ih =>
      exact ih (run.step (met s e List.mem_cons_self)) fun s other member =>
        met s other (List.mem_cons_of_mem e member)

private theorem untidy_injective : Set.InjOn (inodeForOp .stored) {id | id ∈ firstIds 4} :=
  firstIds_injOn (by decide +kernel)

private theorem untidyState_run :
    Run .stored (fun _ e => e.Within {id | id ∈ firstIds 4}) untidyState := by
  refine Run.foldl untidyEvents (.boot (blank_new 7)) fun s e member => ?_
  simp only [untidyEvents, List.mem_cons, List.not_mem_nil, or_false] at member
  rcases member with rfl | rfl | rfl | rfl | rfl
  · exact (by decide +kernel : (⟨7, 1⟩ : OpId) ∈ firstIds 4)
  · exact (by decide +kernel : (⟨7, 2⟩ : OpId) ∈ firstIds 4)
  · exact trivial
  · exact (by decide +kernel : (⟨7, 3⟩ : OpId) ∈ firstIds 4)
  · exact (by decide +kernel : (⟨7, 4⟩ : OpId) ∈ firstIds 4)

theorem collection_preserves_present_sample :
    ((Event.collect false).run .stored untidyState).dirs.size < untidyState.dirs.size ∧
      readFilePath .stored untidyState "/f" = .ok [1, 2, 3] ∧
      Preserved .stored untidyState ((Event.collect false).run .stored untidyState) :=
  ⟨by decide +kernel, by decide +kernel,
    (collection_preserves_present untidy_injective untidyState_run).1⟩

theorem untidyState_exact : MapExact .stored untidyState := by
  obtain ⟨shape, exact | ⟨w, full⟩⟩ :=
    untidyState_run.charted untidy_injective fun _ _ within => within
  · exact exact.map
  · exact absurd full ((shape.smallTree_of_applied (by decide +kernel)).not_overfull w)

end Present

end NexusFS.Core
