/- GID: NexusFS/Core/InodeMap
   source: crates/core/src/snapshot.rs, crates/core/src/apply.rs
   digest: The maintained inode map equals the full walk after every applied operation. -/

import NexusFS.Core.Walk

set_option autoImplicit false
set_option relaxedAutoImplicit false

namespace NexusFS.Core

open NexusFS.Lib NexusFS.Lib.Effect NexusFS.Proto NexusFS.Crdt CoreState Relation

def MapExact (env : Env) (s : CoreState) : Prop :=
  ∀ k x, s.imap[k]? = some x ↔ TreeEntry env s k x

/-- `s'` is `s` after map maintenance: only the map and the objects it stored differ. -/
def OnlyMap (s s' : CoreState) : Prop :=
  ∃ blobs imap, (∀ hash, s.hasBlob hash → blobs.contains hash) ∧
    s' = { s with blobs := blobs, imap := imap }

theorem OnlyMap.refl (s : CoreState) : OnlyMap s s := ⟨s.blobs, s.imap, fun _ here => here, rfl⟩

theorem OnlyMap.trans {a b c : CoreState} (first : OnlyMap a b) (second : OnlyMap b c) :
    OnlyMap a c := by
  obtain ⟨blobs, imap, keeps, rfl⟩ := first
  obtain ⟨blobs', imap', keeps', rfl⟩ := second
  exact ⟨blobs', imap', fun hash here => keeps' hash (keeps hash here), rfl⟩

section Reach

variable {env : Env} {ids : Set OpId} {s : CoreState}

def Reach (s : CoreState) (inode : U128) : Prop := ReflTransGen s.Linked rootInode inode

theorem DirBelow.reach {inode : U128} (path : DirBelow s rootInode inode) : Reach s inode :=
  ReflTransGen.mono (fun _ _ link => link.linked) _ _ path

theorem TreeEntry.reach {inode : U128} {hash : Hash} (entry : TreeEntry env s inode hash) :
    Reach s inode := by
  rcases entry with ⟨path, -⟩ | ⟨p, path, link, -⟩
  · exact path.reach
  · exact ReflTransGen.tail path.reach link.linked

theorem Shape.dirBelow_parent (shape : Shape env ids s) {p i : U128} (reach : Reach s p)
    (link : s.Linked p i) : DirBelow s rootInode p :=
  shape.dirPath reach link

theorem Shape.treeEntry_iff (shape : Shape env ids s) {i : U128} {r : InodeRecord}
    (found : s.loadInode i = some r) (x : Hash) :
    TreeEntry env s i x ↔ Reach s i ∧
      match r.kind with
      | .dir => x = dirHash env s i
      | .file => r.content.value.node_hash = some x := by
  have content : contentHash s i = r.content.value.node_hash := by simp [contentHash, found]
  constructor
  · intro entry
    refine ⟨entry.reach, ?_⟩
    rcases entry with ⟨path, same⟩ | ⟨p, -, ⟨n, d, v, live, rfl, kind⟩, here⟩
    · have dir : r.kind = .dir := by
        rcases path.cases_tail with isRoot | ⟨p, -, ⟨n, d, v, live, rfl, kind⟩⟩
        · obtain ⟨r', found', kind⟩ := (s.isDir_iff i).mp (isRoot ▸ shape.root)
          rw [Option.some.inj (found.symm.trans found')]
          exact kind
        · exact (shape.kinds live found).trans kind
      rw [dir]
      exact same
    · rw [(shape.kinds live found).trans kind, ← content]
      exact here
  · rintro ⟨reach, value⟩
    rcases reach.cases_tail with isRoot | ⟨p, path, link⟩
    · obtain ⟨r', found', kind⟩ := (s.isDir_iff i).mp (isRoot ▸ shape.root)
      rw [Option.some.inj (found.symm.trans found'), kind] at value
      exact .inl ⟨isRoot ▸ .refl, value⟩
    · have dirs := shape.dirBelow_parent path link
      obtain ⟨n, d, v, live, rfl⟩ := link
      have kind := shape.kinds live found
      cases same : r.kind with
      | dir =>
          rw [same] at value kind
          exact .inl ⟨dirs.tail ⟨n, d, v, live, rfl, kind.symm⟩, value⟩
      | file =>
          rw [same] at value kind
          exact .inr ⟨p, dirs, ⟨n, d, v, live, rfl, kind.symm⟩, content.trans value⟩

private theorem reach_of_climb (keys : ∀ k, s.imap.contains k → Reach s k) (inode : U128)
    (fuel : Nat) (current : U128) (result : climbParents s inode fuel current = .ok true) :
    Reach s current := by
  induction fuel generalizing current with
  | zero => cases result
  | succ fuel ih =>
      unfold climbParents at result
      split at result
      · rename_i isRoot
        exact isRoot ▸ .refl
      · split at result
        · rename_i mapped
          exact keys current mapped
        · split at result
          · cases result
          · split at result
            · rename_i parent _ lists
              exact (ih parent result).tail ((s.dirLists_iff parent current).mp lists)
            · cases result

theorem reach_of_isReachable (keys : ∀ k, s.imap.contains k → Reach s k) {inode : U128}
    (result : isReachable s inode = .ok true) : Reach s inode :=
  reach_of_climb keys inode _ inode result

theorem Shape.isReachable_of_reach (shape : Shape env ids s) {i : U128} {r : InodeRecord}
    (found : s.loadInode i = some r)
    (mapped : ∀ p, s.Linked p i → DirBelow s rootInode p → p = rootInode ∨ s.imap.contains p)
    (reach : Reach s i) : isReachable s i = .ok true := by
  obtain ⟨n, two⟩ : ∃ n, maxTreeNodes + 1 = n + 2 := ⟨999999, rfl⟩
  unfold isReachable
  rw [two]
  unfold climbParents
  split
  · rfl
  · rename_i notRoot
    split
    · rfl
    · rcases reach.cases_tail with isRoot | ⟨p, path, link⟩
      · exact absurd isRoot notRoot
      · have dirs := shape.dirBelow_parent path link
        have here := mapped p link dirs
        have lists := (s.dirLists_iff p i).mpr link
        obtain ⟨name, dot, value, live, rfl⟩ := link
        rw [shape.parents live found]
        simp only [lists, if_true]
        unfold climbParents
        split
        · rfl
        · rename_i other
          rw [if_pos (here.resolve_left other)]
          rfl

end Reach

section Refresh

variable {env : Env} {ids : Set OpId} {s : CoreState}

private theorem keeps_materializeTree (env : Env) (s : CoreState) (store : Bool) (fuel : Nat)
    (hash : Hash) (inode : U128) :
    Keeps (fun w : Walk => w.blobs.contains hash) (materializeTree env s store fuel inode) := by
  induction fuel generalizing inode with
  | zero => exact Keeps.throw _
  | succ fuel ih =>
      intro w held
      simp only [materializeTree_succ]
      split
      · exact held
      · split
        · exact held
        · have entries : Keeps (fun w : Walk => w.blobs.contains hash)
              ((s.materializeDir inode).forM (walkEntry s (materializeTree env s store fuel))) := by
            refine Keeps.forM _ fun e _ => ?_
            unfold walkEntry
            split
            · exact Keeps.bind (ih _) fun _ => Keeps.pure _
            · split
              · exact Keeps.modify fun _ here => here
              · exact Keeps.pure _
          refine Keeps.bind entries (fun _ => ?_) (w.visit inode) held
          refine Keeps.bind (Keeps.modify fun w here => ?_) fun _ =>
            Keeps.bind (Keeps.modify fun _ here => here) fun _ => Keeps.pure _
          unfold Walk.putBlob
          split
          · split
            · exact here
            · rw [Std.ExtTreeMap.contains_insert, here]
              simp
          · exact here

theorem walkRoot_blobs (env : Env) (s : CoreState) (store : Bool) :
    ∀ hash, s.hasBlob hash → (finalState (walkRoot env s store)).blobs.contains hash := by
  intro hash here
  exact keeps_materializeTree env s store _ hash rootInode ⟨∅, ∅, s.blobs⟩ here

/-- How refreshing one entry may end: the entry is right and the others are untouched, or the
parent chain was endless and the inode is unreachable. -/
def Refreshed (env : Env) (s : CoreState) (inode : U128) :
    EStateM.Result Err CoreState Unit → Prop
  | .ok _ s' => OnlyMap s s' ∧ (∀ k, k ≠ inode → s'.imap[k]? = s.imap[k]?) ∧
      ∀ x, s'.imap[inode]? = some x ↔ TreeEntry env s inode x
  | .error e s' => s' = s ∧ (∃ i, e = .parentChainEndless i) ∧ ¬Reach s inode

private theorem refreshed_put {inode : U128} {hash : Hash} {blobs : BTreeMap Hash Bytes}
    (keeps : ∀ h, s.hasBlob h → blobs.contains h)
    (entry : ∀ x, TreeEntry env s inode x ↔ x = hash) :
    Refreshed env s inode
      (.ok () { s with blobs := blobs, imap := s.imap.insert inode hash }) := by
  refine ⟨⟨blobs, _, keeps, rfl⟩, fun k other => ?_, fun x => ?_⟩
  · rw [BTreeMap.get_insert, if_neg fun same => other same.symm]
  · rw [BTreeMap.get_insert, if_pos rfl, entry]
    exact ⟨fun same => (Option.some.inj same).symm, fun same => congrArg some same.symm⟩

private theorem refreshed_drop {inode : U128} (entry : ∀ x, ¬TreeEntry env s inode x) :
    Refreshed env s inode (.ok () (s.dropImap inode)) := by
  refine ⟨⟨s.blobs, s.imap.erase inode, fun _ here => here, rfl⟩, fun k other => ?_, fun x => ?_⟩
  · rw [dropImap, BTreeMap.get_erase, if_neg fun same => other same.symm]
  · rw [dropImap, BTreeMap.get_erase, if_pos rfl]
    simp [entry]

private theorem climb_error {inode : U128} {e : Err} (fuel : Nat) (current : U128)
    (result : climbParents s inode fuel current = .error e) : e = .parentChainEndless inode := by
  induction fuel generalizing current with
  | zero => exact (Except.error.inj result).symm
  | succ fuel ih =>
      unfold climbParents at result
      split at result
      · cases result
      · split at result
        · cases result
        · split at result
          · cases result
          · split at result
            · exact ih _ result
            · cases result

theorem Shape.refreshMapEntry_spec (shape : Shape env ids s) {i : U128} {r : InodeRecord}
    (found : s.loadInode i = some r) (keys : ∀ k, s.imap.contains k → Reach s k)
    (mapped : ∀ p, s.Linked p i → DirBelow s rootInode p → p = rootInode ∨ s.imap.contains p) :
    Refreshed env s i (refreshMapEntry env i s) := by
  have entry := shape.treeEntry_iff found
  unfold refreshMapEntry
  simp only [bind_run, get_run]
  cases answer : isReachable s i with
  | error e =>
      refine ⟨rfl, ⟨i, climb_error _ _ answer⟩, fun reach => ?_⟩
      rw [shape.isReachable_of_reach found mapped reach] at answer
      cases answer
  | ok reachable =>
      cases reachable with
      | false =>
          refine refreshed_drop fun x here => ?_
          rw [shape.isReachable_of_reach found mapped here.reach] at answer
          cases answer
      | true =>
          have reach := reach_of_isReachable keys answer
          simp only [liftCheck_ok, if_true, found]
          cases kind : r.kind with
          | dir =>
              obtain ⟨blobs, keeps, run⟩ := putObject_blobs env (currentDirObject s i) s
              simp only [storeDirObject, bind_run, get_run, run, modify_run]
              refine refreshed_put keeps fun x => ?_
              rw [entry, kind]
              exact ⟨fun here => here.2, fun same => ⟨reach, same⟩⟩
          | file =>
              cases content : r.content.value.node_hash with
              | none =>
                  refine refreshed_drop fun x here => ?_
                  have value := ((entry x).mp here).2
                  simp [kind, content] at value
              | some hash =>
                  refine refreshed_put (fun _ here => here) fun x => ?_
                  rw [entry, kind, content]
                  exact ⟨fun here => (Option.some.inj here.2).symm,
                    fun same => ⟨reach, congrArg some same.symm⟩⟩

theorem replaceImap_eq (old fresh : BTreeMap U128 Hash) : replaceImap old fresh = fresh := by
  apply Std.ExtTreeMap.ext_getElem?
  intro a
  unfold replaceImap
  cases here : fresh[a]? with
  | some hash =>
      refine BTreeMap.get_foldl_insert_of_mem _ _ ?_ ((fresh.mem_toList a hash).mpr here)
      exact fresh.sorted_toList.imp fun order => order.ne
  | none =>
      rw [BTreeMap.get_foldl_insert_of_not_mem]
      · have absent : fresh.contains a = false := by
          rw [Std.ExtTreeMap.contains_eq_isSome_getElem?, here]
          rfl
        rw [Std.ExtTreeMap.getElem?_filter']
        cases old[a]? <;> simp [absent]
      · rintro ⟨k, hash⟩ member rfl
        rw [(fresh.mem_toList k hash).mp member] at here
        cases here

theorem Shape.rebuildInodeMap_spec (shape : Shape env ids s) :
    match rebuildInodeMap env s with
    | .ok _ s' => OnlyMap s s' ∧ MapExact env s'
    | .error e s' => OnlyMap s s' ∧ s'.imap = s.imap ∧ e = .treeExceeded ∧
        ∃ w, Overfull s w := by
  have spec := shape.walkRoot_spec true
  have blobs := walkRoot_blobs env s true
  unfold rebuildInodeMap
  simp only [bind_run, get_run]
  cases run : walkRoot env s true with
  | error e w =>
      rw [run] at spec blobs
      exact ⟨⟨w.blobs, s.imap, blobs, rfl⟩, rfl, spec.1, w, spec.2⟩
  | ok hash w =>
      rw [run] at spec blobs
      refine ⟨⟨w.blobs, _, blobs, rfl⟩, fun k x => ?_⟩
      show (replaceImap s.imap w.inode_map)[k]? = some x ↔ TreeEntry env s k x
      rw [replaceImap_eq]
      exact spec.1 k x

end Refresh

section Maintain

variable {env : Env} {ids : Set OpId} {s t : CoreState} {op : FsOp}

theorem dirHash_congr {k : U128} (dir : t.loadDir k = s.loadDir k)
    (record : t.loadInode k = s.loadInode k) : dirHash env t k = dirHash env s k := by
  simp only [dirHash, currentDirObject, dirObject, materializeDir, dir, record]

theorem MapExact.keys (exact : MapExact env s) (k : U128) (here : s.imap.contains k) :
    Reach s k := by
  rw [Std.ExtTreeMap.contains_eq_isSome_getElem?, Option.isSome_iff_exists] at here
  obtain ⟨x, value⟩ := here
  exact ((exact k x).mp value).reach

theorem MapExact.mapped (exact : MapExact env s) {p : U128} (path : DirBelow s rootInode p) :
    s.imap.contains p := by
  rw [Std.ExtTreeMap.contains_eq_isSome_getElem?, Option.isSome_iff_exists]
  exact ⟨dirHash env s p, (exact p _).mpr (.inl ⟨path, rfl⟩)⟩

/-- How map maintenance may end. A walk that meets the node limit leaves the map as it was. -/
def Maintained (env : Env) (t : CoreState) : EStateM.Result Err CoreState Unit → Prop
  | .ok _ s' => OnlyMap t s' ∧ MapExact env s'
  | .error e s' => OnlyMap t s' ∧
      ((∃ i, e = .parentChainEndless i) ∧ MapExact env s' ∨
        e = .treeExceeded ∧ s'.imap = t.imap ∧ ∃ w, Overfull t w)

private theorem maintained_rerecorded (shape : Shape env ids t) (exact : MapExact env s)
    (dirs : t.dirs = s.dirs) (imap : t.imap = s.imap) {i : U128} {r : InodeRecord}
    (found : t.loadInode i = some r) (others : ∀ k, k ≠ i → t.loadInode k = s.loadInode k) :
    Maintained env t (refreshMapEntry env i t) := by
  have dirAt : ∀ p, t.dirAt p = s.dirAt p := fun p => by
    simp only [CoreState.dirAt, loadDir, dirs]
  have linkedAs : ∀ kind p k, t.LinkedAs kind p k ↔ s.LinkedAs kind p k := fun kind p k => by
    simp only [LinkedAs, CoreState.Live, CoreState.added, CoreState.Removed, dirAt]
  have linked : t.Linked = s.Linked := by
    funext p k
    simp only [Linked, CoreState.Live, CoreState.added, CoreState.Removed, dirAt]
  have dirBelow : ∀ k, DirBelow t rootInode k ↔ DirBelow s rootInode k := fun k => by
    have same : t.LinkedAs .dir = s.LinkedAs .dir := by
      funext p k
      exact propext (linkedAs .dir p k)
    simp only [DirBelow, same]
  have reach : ∀ k, Reach t k ↔ Reach s k := fun k => by simp only [Reach, linked]
  have same : ∀ k x, k ≠ i → (TreeEntry env t k x ↔ TreeEntry env s k x) := by
    intro k x other
    have loadDir : t.loadDir k = s.loadDir k := by simp only [CoreState.loadDir, dirs]
    simp only [TreeEntry, EntryBelow, dirBelow, linkedAs, dirHash_congr loadDir (others k other),
      contentHash, others k other]
  have refreshed := shape.refreshMapEntry_spec found
    (fun k here => (reach k).mpr (exact.keys k (imap ▸ here)))
    (fun p _ path => .inr (imap ▸ exact.mapped ((dirBelow p).mp path)))
  cases run : refreshMapEntry env i t with
  | ok u s' =>
      rw [run] at refreshed
      obtain ⟨only, untouched, entry⟩ := refreshed
      refine ⟨only, fun k x => ?_⟩
      obtain ⟨blobs, map, -, rfl⟩ := only
      by_cases here : k = i
      · subst here
        exact entry x
      · rw [untouched k here, imap, exact k x]
        exact (same k x here).symm
  | error e s' =>
      rw [run] at refreshed
      obtain ⟨rfl, endless, unreachable⟩ := refreshed
      refine ⟨.refl _, .inl ⟨endless, fun k x => ?_⟩⟩
      rw [imap, exact k x]
      by_cases here : k = i
      · subst here
        exact ⟨fun entry => absurd ((reach k).mpr entry.reach) unreachable,
          fun entry => absurd entry.reach unreachable⟩
      · exact (same k x here).symm

theorem Shape.onlyMap (shape : Shape env ids s) (only : OnlyMap s t) : Shape env ids t := by
  obtain ⟨blobs, imap, -, rfl⟩ := only
  exact shape.congr rfl rfl (fun _ => rfl) (fun here => here) shape.known shape.parked

/-- The tree after a new inode has been linked, away from its parent and itself. -/
private structure Grown (env : Env) (s t : CoreState) (parent new : U128) : Prop where
  keeps : ∀ kind p i, s.LinkedAs kind p i → t.LinkedAs kind p i
  adds : ∀ kind p i, t.LinkedAs kind p i → s.LinkedAs kind p i ∨ (p = parent ∧ i = new)
  absent : ∀ p, ¬s.Linked p new
  leaf : ∀ i, ¬t.Linked new i
  notRoot : new ≠ rootInode
  other : new ≠ parent
  dirs : ∀ p, p ≠ parent → p ≠ new → t.loadDir p = s.loadDir p
  records : ∀ p, p ≠ new → t.loadInode p = s.loadInode p

namespace Grown

variable {parent new : U128}

private theorem linked_iff (grown : Grown env s t parent new) {p i : U128} (old : i ≠ new) :
    t.Linked p i ↔ s.Linked p i := by
  constructor
  · rintro ⟨n, d, v, live, same⟩
    rcases grown.adds v.entry_type p i ⟨n, d, v, live, same, rfl⟩ with link | ⟨-, here⟩
    · exact link.linked
    · exact absurd here old
  · rintro ⟨n, d, v, live, same⟩
    exact (grown.keeps v.entry_type p i ⟨n, d, v, live, same, rfl⟩).linked

private theorem linked_new (grown : Grown env s t parent new) {p : U128} (link : t.Linked p new) :
    p = parent := by
  obtain ⟨n, d, v, live, same⟩ := link
  rcases grown.adds v.entry_type p new ⟨n, d, v, live, same, rfl⟩ with old | ⟨here, -⟩
  · exact absurd old.linked (grown.absent p)
  · exact here

private theorem dirBelow_iff (grown : Grown env s t parent new) {i : U128} (old : i ≠ new) :
    DirBelow t rootInode i ↔ DirBelow s rootInode i := by
  constructor
  · intro path
    induction path with
    | refl => exact .refl
    | @tail b c _ link ih =>
        have inner : b ≠ new := fun same => grown.leaf c (same ▸ link.linked)
        rcases grown.adds _ _ _ link with here | ⟨-, here⟩
        · exact (ih inner).tail here
        · exact absurd here old
  · exact ReflTransGen.mono (fun p i => grown.keeps .dir p i) _ _

private theorem reach_iff (grown : Grown env s t parent new) {i : U128} (old : i ≠ new) :
    Reach t i ↔ Reach s i := by
  constructor
  · intro path
    induction path with
    | refl => exact .refl
    | @tail b c _ link ih =>
        have inner : b ≠ new := fun same => grown.leaf c (same ▸ link)
        exact (ih inner).tail ((grown.linked_iff old).mp link)
  · refine ReflTransGen.mono ?_ _ _
    rintro p i ⟨n, d, v, live, same⟩
    exact (grown.keeps v.entry_type p i ⟨n, d, v, live, same, rfl⟩).linked

private theorem not_reach_new (grown : Grown env s t parent new) : ¬Reach s new := by
  intro reach
  rcases reach.cases_tail with same | ⟨p, -, link⟩
  · exact grown.notRoot same
  · exact grown.absent p link

private theorem reach_parent (grown : Grown env s t parent new) (reach : Reach t new) :
    Reach t parent := by
  rcases reach.cases_tail with same | ⟨p, path, link⟩
  · exact absurd same grown.notRoot
  · exact grown.linked_new link ▸ path

private theorem treeEntry_iff (grown : Grown env s t parent new) {k : U128} (x : Hash)
    (apart : k ≠ parent) (old : k ≠ new) : TreeEntry env t k x ↔ TreeEntry env s k x := by
  have files : ∀ p, t.LinkedAs .file p k ↔ s.LinkedAs .file p k := by
    intro p
    constructor
    · intro link
      exact (grown.adds _ _ _ link).resolve_right fun both => old both.2
    · exact grown.keeps _ _ _
  have below : ∀ p, t.LinkedAs .file p k →
      (DirBelow t rootInode p ↔ DirBelow s rootInode p) := by
    intro p link
    exact grown.dirBelow_iff fun same => grown.leaf k (same ▸ link.linked)
  unfold TreeEntry EntryBelow
  rw [grown.dirBelow_iff old, dirHash_congr (grown.dirs k apart old) (grown.records k old)]
  simp only [contentHash, grown.records k old]
  refine or_congr Iff.rfl ⟨?_, ?_⟩
  · rintro ⟨p, path, link, content⟩
    exact ⟨p, (below p link).mp path, (files p).mp link, content⟩
  · rintro ⟨p, path, link, content⟩
    have link' := (files p).mpr link
    exact ⟨p, (below p link').mpr path, link', content⟩

private theorem maintained (grown : Grown env s t parent new) (shape : Shape env ids t)
    (exact : MapExact env s) (imap : t.imap = s.imap) {r r' : InodeRecord}
    (parentFound : t.loadInode parent = some r) (newFound : t.loadInode new = some r') :
    Maintained env t ((do refreshMapEntry env parent; refreshMapEntry env new : M Unit) t) := by
  have absent : ∀ x, ¬s.imap[new]? = some x := fun x here =>
    grown.not_reach_new ((exact new x).mp here).reach
  have keys : ∀ k, s.imap.contains k → Reach t k := by
    intro k here
    have reach := exact.keys k here
    exact (grown.reach_iff fun same => grown.not_reach_new (same ▸ reach)).mpr reach
  have first := shape.refreshMapEntry_spec parentFound (fun k here => keys k (imap ▸ here))
    (fun p link path => .inr (imap ▸ exact.mapped
      ((grown.dirBelow_iff fun same => grown.leaf parent (same ▸ link)).mp path)))
  rw [bind_run]
  cases run : refreshMapEntry env parent t with
  | error e t' =>
      rw [run] at first
      obtain ⟨rfl, endless, unreachable⟩ := first
      refine ⟨.refl _, .inl ⟨endless, fun k x => ?_⟩⟩
      rw [imap]
      by_cases isNew : k = new
      · subst isNew
        exact ⟨fun here => absurd here (absent x),
          fun entry => absurd (grown.reach_parent entry.reach) unreachable⟩
      · rw [exact k x]
        by_cases isParent : k = parent
        · subst isParent
          exact ⟨fun entry => absurd ((grown.reach_iff isNew).mpr entry.reach) unreachable,
            fun entry => absurd entry.reach unreachable⟩
        · exact (grown.treeEntry_iff x isParent isNew).symm
  | ok u t' =>
      rw [run] at first
      obtain ⟨only, untouched, entry⟩ := first
      have shape' := shape.onlyMap only
      have settled : ∀ k x, k ≠ new → (t'.imap[k]? = some x ↔ TreeEntry env t k x) := by
        intro k x old
        by_cases isParent : k = parent
        · subst isParent
          exact entry x
        · rw [untouched k isParent, imap, exact k x]
          exact (grown.treeEntry_iff x isParent old).symm
      have missing : ∀ x, ¬t'.imap[new]? = some x := by
        intro x here
        rw [untouched new grown.other, imap] at here
        exact absent x here
      obtain ⟨blobs, map, held, rfl⟩ := only
      have second := shape'.refreshMapEntry_spec newFound
        (by
          intro k here
          rw [Std.ExtTreeMap.contains_eq_isSome_getElem?, Option.isSome_iff_exists] at here
          obtain ⟨x, value⟩ := here
          have old : k ≠ new := fun same => missing x (same ▸ value)
          exact ((settled k x old).mp value).reach)
        (by
          intro p link path
          have isParent : p = parent := grown.linked_new link
          subst isParent
          right
          rw [Std.ExtTreeMap.contains_eq_isSome_getElem?, Option.isSome_iff_exists]
          exact ⟨_, (entry _).mpr (.inl ⟨path, rfl⟩)⟩)
      dsimp only
      cases run' : refreshMapEntry env new { t with blobs := blobs, imap := map } with
      | error e t'' =>
          rw [run'] at second
          obtain ⟨rfl, endless, unreachable⟩ := second
          refine ⟨⟨blobs, map, held, rfl⟩, .inl ⟨endless, fun k x => ?_⟩⟩
          by_cases isNew : k = new
          · subst isNew
            exact ⟨fun here => absurd here (missing x),
              fun entry => absurd entry.reach unreachable⟩
          · exact settled k x isNew
      | ok u' t'' =>
          rw [run'] at second
          obtain ⟨only', untouched', entry'⟩ := second
          refine ⟨OnlyMap.trans ⟨blobs, map, held, rfl⟩ only', fun k x => ?_⟩
          obtain ⟨blobs', map', -, rfl⟩ := only'
          by_cases isNew : k = new
          · subst isNew
            exact entry' x
          · rw [untouched' k isNew]
            exact settled k x isNew

end Grown

private theorem maintained_rebuilt (shape : Shape env ids t) :
    Maintained env t ((do let _ ← rebuildInodeMap env : M Unit) t) := by
  have spec := @Shape.rebuildInodeMap_spec env ids t shape
  simp only [bind_run]
  cases run : rebuildInodeMap env t with
  | ok rows s' =>
      rw [run] at spec
      exact spec
  | error e s' =>
      rw [run] at spec
      exact ⟨spec.1, .inr ⟨spec.2.2.1, spec.2.1, spec.2.2.2⟩⟩

private theorem Shape.grown (shape : Shape env ids s) (inj : Set.InjOn (inodeForOp env) ids)
    (member : op.id ∈ ids) (new : op.id ∉ s.applied) {parent : U128} {name : String} {mode : U32}
    {kind : EntryType} (dir : s.isDir parent = true) :
    Grown env s ((linkCreated env op parent name mode kind s).noteApplied op) parent
      (inodeForOp env op.id) := by
  have noRecord := shape.loadInode_fresh inj member new
  have fresh := shape.loadDir_fresh inj member new
  have other : inodeForOp env op.id ≠ parent := by
    rintro rfl
    simp [isDir, noRecord] at dir
  have unused : s.added parent name op.id = none := by
    cases here : s.added parent name op.id with
    | none => rfl
    | some v => exact absurd (shape.dotApplied here) new
  have added := @added_linkCreated env op parent name mode kind s other fresh
  have removed := @removed_linkCreated env op parent name mode kind s other fresh
  have absent := shape.not_linked_fresh inj member new
  refine ⟨?_, ?_, absent, ?_, inodeForOp_ne_rootInode env op.id, other, ?_, ?_⟩
  · rintro kind' p i ⟨n, d, v, ⟨here, kept⟩, same, type⟩
    refine ⟨n, d, v, ⟨?_, fun gone => kept ((removed p n d).mp gone)⟩, same, type⟩
    refine (added p n d).trans ?_
    rw [if_neg, here]
    rintro ⟨rfl, rfl, rfl⟩
    rw [unused] at here
    cases here
  · rintro kind' p i ⟨n, d, v, ⟨here, kept⟩, same, type⟩
    have old : ¬s.Removed p n d := fun gone => kept ((removed p n d).mpr gone)
    have value := (added p n d).symm.trans here
    split at value
    · rename_i spot
      refine .inr ⟨spot.1.symm, ?_⟩
      rw [← same, ← Option.some.inj value]
      rfl
    · exact .inl ⟨n, d, v, ⟨value, old⟩, same, type⟩
  · rintro i ⟨n, d, v, ⟨here, -⟩, -⟩
    have value := (added _ n d).symm.trans here
    rw [if_neg fun spot => other spot.1.symm] at value
    simp [CoreState.added, s.dirAt_eq_empty fresh] at value
  · intro p apart old
    exact @loadDir_linkCreated_of_ne env op parent name mode kind s p
      (fun same => apart same.symm) (fun same => old same.symm)
  · intro p old
    have same := @loadInode_linkCreated env op parent name mode kind s p
    rw [if_neg fun same => old same.symm] at same
    exact same

theorem Shape.settleApplied_spec {s' : CoreState} (shape : Shape env ids s)
    (exact : MapExact env s) (inj : Set.InjOn (inodeForOp env) ids) (member : op.id ∈ ids)
    (new : op.id ∉ s.applied) (effect : Effect env op s s') :
    Maintained env (s'.noteApplied op) (settleApplied env op s') := by
  have after := shape.noteApplied inj member new effect
  have imap : (s'.noteApplied op).imap = s.imap := by
    obtain ⟨dirs, inodes, parents, blobs, draws, -, rfl⟩ := effect.frame
    rfl
  show Maintained env (s'.noteApplied op) (maintainInodeMap env op (s'.noteApplied op))
  unfold maintainInodeMap
  cases effect with
  | @created parent name mode kind kindIs _ dir =>
      have grown := @Shape.grown env ids s op shape inj member new parent name mode kind dir
      obtain ⟨r, found, -⟩ := (s.isDir_iff parent).mp dir
      have parentFound := (grown.records parent fun same => grown.other same.symm).trans found
      have newFound :=
        @loadInode_linkCreated env op parent name mode kind s (inodeForOp env op.id)
      rw [if_pos rfl, ← loadInode_noteApplied _ op] at newFound
      have run := grown.maintained after exact imap parentFound newFound
      cases kind <;> simpa only [kindIs, creation] using run
  | superseded kindIs found =>
      simp only [kindIs]
      exact maintained_rerecorded after exact rfl imap found fun _ _ => rfl
  | @wrote inode _ _ _ _ record _ _ kindIs found _ _ content =>
      simp only [kindIs]
      obtain ⟨blobs, draws, -, rfl⟩ := content
      refine maintained_rerecorded after exact rfl imap
        ((loadInode_storeInode s inode inode _).trans (if_pos rfl)) fun k apart => ?_
      exact (loadInode_storeInode s inode k _).trans (if_neg fun same => apart same.symm)
  | movedNothing kindIs =>
      simp only [kindIs]
      exact maintained_rebuilt after
  | moved kindIs =>
      simp only [kindIs]
      exact maintained_rebuilt after
  | unlinked kindIs =>
      simp only [kindIs]
      exact maintained_rebuilt after
  | @changedAttrs inode _ _ _ _ kindIs found =>
      simp only [kindIs]
      refine maintained_rerecorded after exact rfl imap
        ((loadInode_storeInode s inode inode _).trans (if_pos rfl)) fun k apart => ?_
      exact (loadInode_storeInode s inode k _).trans (if_neg fun same => apart same.symm)

theorem Shape.links_or_rebuild {s' : CoreState} (shape : Shape env ids s)
    (inj : Set.InjOn (inodeForOp env) ids) (member : op.id ∈ ids) (new : op.id ∉ s.applied)
    (effect : Effect env op s s') :
    (∀ kind p i, s.LinkedAs kind p i → (s'.noteApplied op).LinkedAs kind p i) ∨
      Maintained env (s'.noteApplied op) (settleApplied env op s') := by
  have after := shape.noteApplied inj member new effect
  have settle : settleApplied env op s' = maintainInodeMap env op (s'.noteApplied op) := rfl
  have rebuilds : ∀ {kind}, op.kind = kind →
      ((∃ p n observed, kind = .unlink p n observed) ∨
        ∃ p n q m observed, kind = .rename p n q m observed) →
      Maintained env (s'.noteApplied op) (settleApplied env op s') := by
    rintro kind kindIs (⟨p, n, observed, rfl⟩ | ⟨p, n, q, m, observed, rfl⟩)
    · rw [settle]
      simp only [maintainInodeMap, kindIs]
      exact maintained_rebuilt after
    · rw [settle]
      simp only [maintainInodeMap, kindIs]
      exact maintained_rebuilt after
  cases effect with
  | @created parent name mode kind _ _ dir =>
      exact .inl (@Shape.grown env ids s op shape inj member new parent name mode kind dir).keeps
  | superseded => exact .inl fun _ _ _ link => link
  | wrote _ _ _ _ content =>
      obtain ⟨blobs, draws, -, rfl⟩ := content
      exact .inl fun _ _ _ link => link
  | changedAttrs => exact .inl fun _ _ _ link => link
  | movedNothing kindIs => exact .inr (rebuilds kindIs (.inr ⟨_, _, _, _, _, rfl⟩))
  | moved kindIs => exact .inr (rebuilds kindIs (.inr ⟨_, _, _, _, _, rfl⟩))
  | unlinked kindIs => exact .inr (rebuilds kindIs (.inl ⟨_, _, _, rfl⟩))

end Maintain

end NexusFS.Core
