/- GID: NexusFS/Core/Reachable
   source: crates/core/src/apply.rs, crates/core/src/snapshot.rs, crates/core/src/gc.rs
   digest: In every reachable state the namespace is a forest and the map equals the full walk. -/

import NexusFS.Core.Boot
import NexusFS.Core.Sweep

set_option autoImplicit false
set_option relaxedAutoImplicit false

namespace NexusFS.Core

open NexusFS.Lib NexusFS.Lib.Effect NexusFS.Proto NexusFS.Crdt CoreState Relation

def Event.Within (ids : Set OpId) : Event → Prop
  | .apply op => op.id ∈ ids
  | _ => True

section Shape

variable {env : Env} {ids : Set OpId} {s t : CoreState} {op : FsOp}

theorem Shape.aside (shape : Shape env ids s) (aside : Aside s t) : Shape env ids t := by
  obtain ⟨_, _, _, _, _, -, rfl⟩ := aside
  exact shape.congr rfl rfl (fun _ => rfl) (fun here => here) shape.known shape.parked

theorem Shape.appendOp (shape : Shape env ids s) (op : FsOp) : Shape env ids (s.appendOp op) :=
  shape.congr rfl rfl (fun _ => rfl) (fun here => here) shape.known shape.parked

theorem Shape.took (shape : Shape env ids s) (inj : Set.InjOn (inodeForOp env) ids)
    (member : op.id ∈ ids) (new : op.id ∉ s.applied) (took : Took env op s t) :
    Shape env ids t := by
  obtain ⟨u, effect, only⟩ := took
  exact (shape.noteApplied inj member new effect).onlyMap only

theorem Shape.clearPending (shape : Shape env ids s) (id : OpId) :
    Shape env ids (s.clearPending id) := by
  refine shape.congr rfl rfl (fun _ => rfl) (fun here => here) shape.known ?_
  intro other parked here
  have erased : (s.pending.erase id)[other]? = some parked := here
  rw [BTreeMap.get_erase] at erased
  split at erased
  · cases erased
  · exact shape.parked erased

theorem Shape.storePending (shape : Shape env ids s) (member : op.id ∈ ids) :
    Shape env ids (s.storePending op) := by
  refine shape.congr rfl rfl (fun _ => rfl) (fun here => here) shape.known ?_
  intro other parked here
  have inserted : (s.pending.insert op.id op)[other]? = some parked := here
  rw [BTreeMap.get_insert] at inserted
  split at inserted
  · rename_i same
    obtain rfl := Option.some.inj inserted
    exact ⟨same, same ▸ member⟩
  · exact shape.parked inserted

theorem shapeRule (inj : Set.InjOn (inodeForOp env) ids) :
    CallRule env (Shape env ids) (fun op => op.id ∈ ids) (fun _ _ => True)
      (fun _ => Shape env ids) where
  toAttemptRule := by
    refine .of_took (fun shape member new took => shape.took inj member new took)
      (fun shape _ _ => shape.clearPending _) ?_
    intro s op id shape here
    obtain ⟨same, member⟩ := shape.parked here
    exact same ▸ member
  logged := fun shape _ => shape.appendOp _
  aside := Shape.aside
  park := fun shape member _ => shape.storePending member

theorem Shape.event (shape : Shape env ids s) (inj : Set.InjOn (inodeForOp env) ids) {e : Event}
    (within : e.Within ids) : Shape env ids (e.run env s) := by
  cases e with
  | apply op =>
      have ends := (shapeRule inj).applyOpInner shape within
        (fun _ _ => trivial : ∀ x ∈ applyAttempts env op true s, True)
      refine Ends.finalState (ends.imp (fun _ here => here) fun _ _ here => ?_)
      exact here.elim id id
  | retry => exact Ends.finalState ((shapeRule inj).retryPending shape fun _ _ => trivial)
  | blob bytes =>
      exact shape.congr rfl rfl (fun _ => rfl) (fun here => here) shape.known shape.parked
  | collect dry_run =>
      rcases shape.collectGarbage_spec dry_run with same | ⟨marked, keep, kept, same⟩
      · exact (congrArg (Shape env ids) same).mpr shape
      · exact (congrArg (Shape env ids) same).mpr ((shape.sweep (kept .refl)).aside (aside_flush _))

theorem Run.shape {meets : CoreState → Event → Prop} (run : Run env meets s)
    (inj : Set.InjOn (inodeForOp env) ids) (within : ∀ s e, meets s e → e.Within ids) :
    Shape env ids s :=
  run.invariant (fun blank => (booted_spec env blank).shape blank)
    fun shape met => shape.event inj (within _ _ met)

/-- In every reachable state, over all stored directory maps: an inode has at most one live link,
live links have no cycle, and a link names the kind of the record it leads to. So the full walk never
meets a cycle: it returns for every tree below the node limit, and has then visited exactly the
directories of the live tree and recorded exactly its entries. A listing returns below the entry limit
and shows exactly what is below its directory, each inode once. -/
theorem namespace_forest (inj : Set.InjOn (inodeForOp env) ids)
    (run : Run env (fun _ e => e.Within ids) s) :
    (∀ {p n d v q m e w}, s.Live p n d v → s.Live q m e w → v.inode_id = w.inode_id →
      p = q ∧ n = m ∧ d = e) ∧
    (∀ i, ¬TransGen s.Linked i i) ∧
    (∀ {p n d v r}, s.Live p n d v → s.loadInode v.inode_id = some r → r.kind = v.entry_type) ∧
    (∀ store i w, walkRoot env s store ≠ .error (.treeCycle i) w) ∧
    (∀ store, ((∃ hash w, walkRoot env s store = .ok hash w) ↔ SmallTree s) ∧
      ∀ hash w, walkRoot env s store = .ok hash w →
        (∀ i, i ∈ w.visited ↔ DirBelow s rootInode i) ∧
        ∀ i x, w.inode_map[i]? = some x ↔ TreeEntry env s i x) ∧
    (∀ {root inode}, resolvePath s root = .ok (some (inode, .dir)) → SmallListing s inode →
      ∃ out, walk s root = .ok out) ∧
    ∀ {root out}, walk s root = .ok out → (out.map WalkEntry.inode).Nodup ∧
      ∃ inode, resolvePath s root = .ok (some (inode, .dir)) ∧
        ∀ i, i ∈ out.map WalkEntry.inode ↔ Beneath s inode i := by
  have shape := run.shape inj fun _ _ within => within
  refine ⟨shape.single, shape.forest.acyclic, shape.kinds, ?_,
    fun store => ⟨shape.walkRoot_returns_iff store, ?_⟩, fun resolved => (shape.walk_spec resolved).1, ?_⟩
  · intro store i w result
    have spec := shape.walkRoot_spec store
    rw [result] at spec
    exact absurd spec.1 (by simp)
  · intro hash w result
    have spec := shape.walkRoot_spec store
    rw [result] at spec
    exact ⟨spec.2, spec.1⟩
  · intro root out result
    obtain ⟨inode, resolved⟩ := walk_ok result
    obtain ⟨nodup, listed⟩ := (shape.walk_spec resolved).2 out result
    exact ⟨nodup, inode, resolved, listed⟩

def idsUpTo (device : DeviceId) (last : Nat) : Set OpId :=
  {id | id.device_id = device ∧ id.counter.val ≤ last}

def sampleOp (counter : U64) (kind : FsOpKind) : FsOp where
  id := ⟨7, counter⟩
  time_unix_ms := 0
  ctx := ⟨[]⟩
  kind := kind
  author_pubkey := 0
  sig := List.replicate 64 1
  proof := none

def sampleIds : Set OpId := {⟨7, 1⟩, ⟨7, 2⟩}

def sampleParent : U128 := inodeForOp .plain ⟨7, 1⟩

def sampleChild : U128 := inodeForOp .plain ⟨7, 2⟩

def sampleFirst : Event := .apply (sampleOp 1 (.mkdir rootInode "a" 0))

def sampleSecond : Event := .apply (sampleOp 2 (.mkdir sampleParent "b" 0))

def sampleState : CoreState :=
  sampleSecond.run .plain (sampleFirst.run .plain (booted .plain (CoreState.new 7)))

theorem idsUpTo_injOn : Set.InjOn (inodeForOp .plain) (idsUpTo 7 8) := by
  have separate : ∀ i < 9, ∀ j < 9, inodeForOp .plain ⟨7, Fin.ofNat (2 ^ 64) i⟩ =
      inodeForOp .plain ⟨7, Fin.ofNat (2 ^ 64) j⟩ → i = j := by
    decide +kernel
  rintro ⟨_, i⟩ ⟨rfl, low⟩ ⟨_, j⟩ ⟨rfl, low'⟩ same
  have equal := separate i.val (Nat.lt_succ_of_le low) j.val (Nat.lt_succ_of_le low')
  rw [Fin.ofNat_val_eq_self, Fin.ofNat_val_eq_self] at equal
  rw [Fin.ext (equal same)]

theorem sampleIds_injOn : Set.InjOn (inodeForOp .plain) sampleIds :=
  idsUpTo_injOn.mono (by rintro _ (rfl | rfl) <;> exact ⟨rfl, by decide⟩)

theorem blank_new (device_id : DeviceId) : Blank (CoreState.new device_id) :=
  ⟨rfl, rfl, rfl, rfl, rfl, rfl, rfl, rfl, rfl, rfl⟩

theorem sampleState_run : Run .plain (fun _ e => e.Within sampleIds) sampleState := by
  have start : Run .plain (fun _ e => e.Within sampleIds) (booted .plain (CoreState.new 7)) :=
    .boot (blank_new 7)
  exact (start.step (e := sampleFirst) (Or.inl rfl)).step (e := sampleSecond) (Or.inr rfl)

theorem namespace_forest_sample :
    (∀ i, ¬TransGen sampleState.Linked i i) ∧
      (∃ hash w, walkRoot .plain sampleState true = .ok hash w ∧ sampleParent ∈ w.visited ∧
        sampleChild ∈ w.visited) ∧
      ∃ out, walk sampleState "/" = .ok out ∧ (out.map WalkEntry.inode).Nodup ∧
        sampleParent ∈ out.map WalkEntry.inode ∧ sampleChild ∈ out.map WalkEntry.inode := by
  have shape := sampleState_run.shape sampleIds_injOn fun _ _ within => within
  have first : sampleState.LinkedAs .dir rootInode sampleParent :=
    (sampleState.mem_materializeDir _ _ _).mp (by decide +kernel)
  have second : sampleState.LinkedAs .dir sampleParent sampleChild :=
    (sampleState.mem_materializeDir _ _ _).mp (by decide +kernel)
  obtain ⟨-, acyclic, -, -, walks, lists, shows⟩ := namespace_forest sampleIds_injOn sampleState_run
  obtain ⟨hash, w, walked⟩ := (walks true).1.mpr (shape.smallTree_of_applied (by decide +kernel))
  obtain ⟨visited, -⟩ := (walks true).2 hash w walked
  have root : resolvePath sampleState "/" = .ok (some (rootInode, .dir)) := by decide +kernel
  obtain ⟨out, listed⟩ := lists root (shape.smallListing_of_applied (by decide +kernel) _)
  obtain ⟨nodup, inode, same, exactly⟩ := shows listed
  cases root.symm.trans same
  exact ⟨acyclic, ⟨hash, w, walked, (visited _).mpr (.single first),
    (visited _).mpr ((ReflTransGen.single first).tail second)⟩, out, listed, nodup,
    (exactly _).mpr ⟨rootInode, .refl, first.linked⟩,
    (exactly _).mpr ⟨sampleParent, .single first, second.linked⟩⟩

end Shape

section Exact

variable {env : Env} {ids : Set OpId} {s t : CoreState} {op : FsOp}

/-- The joint invariant of the namespace and its map. -/
structure Exact (env : Env) (ids : Set OpId) (s : CoreState) : Prop where
  shape : Shape env ids s
  map : MapExact env s

def ExactUnlessFull (env : Env) (ids : Set OpId) (s : CoreState) : Prop :=
  Exact env ids s ∨ ∃ w, Overfull s w

theorem treeEntry_congr (dirs : t.dirs = s.dirs) (inodes : t.inodes = s.inodes) (k : U128)
    (x : Hash) : TreeEntry env t k x ↔ TreeEntry env s k x := by
  have loadDir : ∀ i, t.loadDir i = s.loadDir i := fun i => by simp only [CoreState.loadDir, dirs]
  have loadInode : ∀ i, t.loadInode i = s.loadInode i := fun i => by
    simp only [CoreState.loadInode, inodes]
  have linkedAs : t.LinkedAs = s.LinkedAs := by
    funext kind p i
    simp only [LinkedAs, CoreState.Live, CoreState.added, CoreState.Removed, dirAt, loadDir]
  simp only [TreeEntry, EntryBelow, DirBelow, linkedAs, contentHash, loadInode,
    dirHash_congr (loadDir k) (loadInode k)]

theorem MapExact.congr (exact : MapExact env s) (dirs : t.dirs = s.dirs)
    (inodes : t.inodes = s.inodes) (imap : t.imap = s.imap) : MapExact env t := by
  intro k x
  rw [imap, exact k x, treeEntry_congr dirs inodes]

/-- Calls keep the map exact unless the tree outgrows the walk. -/
theorem exactRule (inj : Set.InjOn (inodeForOp env) ids) :
    CallRule env (Exact env ids) (fun op => op.id ∈ ids) (fun _ _ => True)
      (fun _ => ExactUnlessFull env ids) where
  tried := by
    intro s op exact member _ new
    have spec := mutate_spec env op s
    rw [attempt_run]
    cases run : mutate env op s with
    | error e t =>
        rw [run] at spec
        obtain ⟨rfl, -⟩ := spec
        exact .inl exact
    | ok outcome t =>
        rw [run] at spec
        cases outcome with
        | unmet reason =>
            obtain ⟨rfl, -⟩ := spec
            exact exact
        | done =>
            have effect : Effect env op s t := spec
            have after := exact.shape.noteApplied inj member new effect
            have maintained := exact.shape.settleApplied_spec exact.map inj member new effect
            dsimp only
            cases later : settleApplied env op t with
            | ok u t' =>
                rw [later] at maintained
                exact ⟨after.onlyMap maintained.1, maintained.2⟩
            | error e t' =>
                rw [later] at maintained
                obtain ⟨only, ⟨-, map⟩ | ⟨-, -, w, more⟩⟩ := maintained
                · exact .inl ⟨after.onlyMap only, map⟩
                · obtain ⟨blobs, imap, -, rfl⟩ := only
                  exact .inr ⟨w, more⟩
  cleared := fun exact _ _ => ⟨exact.shape.clearPending _, exact.map.congr rfl rfl rfl⟩
  parked := (shapeRule inj).parked ∘ Exact.shape
  logged := fun exact _ => ⟨exact.shape.appendOp _, exact.map.congr rfl rfl rfl⟩
  aside := by
    intro s t exact aside
    refine ⟨exact.shape.aside aside, ?_⟩
    obtain ⟨_, _, _, _, _, -, rfl⟩ := aside
    exact exact.map.congr rfl rfl rfl
  park := fun exact member _ => ⟨exact.shape.storePending member, exact.map.congr rfl rfl rfl⟩

theorem Exact.swept (exact : Exact env ids s) {marked : BTreeSet Hash} {keep : BTreeSet U128}
    (kept : ∀ {i}, Reach s i → i ∈ keep) : Exact env ids (sweep s marked keep).flush := by
  have map := @MapExact.sweep env s marked keep exact.map kept
  exact ⟨(exact.shape.sweep (kept .refl)).aside (aside_flush _), map.congr rfl rfl rfl⟩

theorem Exact.event (exact : Exact env ids s) (inj : Set.InjOn (inodeForOp env) ids) {e : Event}
    (within : e.Within ids) (small : SmallTree (e.run env s)) : Exact env ids (e.run env s) := by
  have outcome : ExactUnlessFull env ids (e.run env s) := by
    cases e with
    | apply op =>
        have ends := (exactRule inj).applyOpInner exact within
          (fun _ _ => trivial : ∀ x ∈ applyAttempts env op true s, True)
        exact Ends.finalState (ends.imp (fun _ => .inl) fun _ _ here => here.elim .inl id)
    | retry =>
        have ends := (exactRule inj).retryPending exact fun _ _ => trivial
        exact Ends.finalState (ends.imp (fun _ => .inl) fun _ _ => id)
    | blob bytes =>
        exact .inl ⟨exact.shape.event inj (show (Event.blob bytes).Within ids from trivial),
          exact.map.congr rfl rfl rfl⟩
    | collect dry_run =>
        rcases exact.shape.collectGarbage_spec dry_run with same | ⟨marked, keep, kept, same⟩
        · exact (congrArg (ExactUnlessFull env ids) same).mpr (.inl exact)
        · exact (congrArg (ExactUnlessFull env ids) same).mpr (.inl (exact.swept kept))
  exact outcome.resolve_right fun ⟨w, more⟩ => small.not_overfull w more

/-- Events within `ids` that leave at most `MAX_TREE_NODES` directories in the live tree. -/
def Bounded (env : Env) (ids : Set OpId) (s : CoreState) (e : Event) : Prop :=
  e.Within ids ∧ SmallTree (e.run env s)

theorem Run.exact (run : Run env (Bounded env ids) s) (inj : Set.InjOn (inodeForOp env) ids) :
    Exact env ids s ∧ SmallTree s :=
  run.invariant (I := fun s => Exact env ids s ∧ SmallTree s)
    (fun blank => ⟨⟨(booted_spec env blank).shape blank, (booted_spec env blank).exact⟩,
      (booted_spec env blank).smallTree blank⟩)
    fun exact met => ⟨exact.1.event inj met.1 met.2, met.2⟩

/-- In every reachable state the maintained map is what a full walk of the live tree records:
the reachable directories with the hash of their current object, and the reachable files that
have content with their content hash. -/
theorem inodeMap_eq_walk (inj : Set.InjOn (inodeForOp env) ids)
    (run : Run env (Bounded env ids) s) :
    (∀ k x, (k, x) ∈ inodeMap s ↔ TreeEntry env s k x) ∧
      ∀ store, ∃ hash w, walkRoot env s store = .ok hash w ∧ inodeMap s = w.inode_map.toList := by
  obtain ⟨exact, small⟩ := run.exact inj
  refine ⟨fun k x => (s.imap.mem_toList k x).trans (exact.map k x), fun store => ?_⟩
  obtain ⟨hash, w, walked, entries⟩ := exact.shape.walkRoot_small small store
  refine ⟨hash, w, walked, ?_⟩
  have same : s.imap = w.inode_map := by
    apply Std.ExtTreeMap.ext_getElem?
    intro k
    apply Option.ext
    intro x
    rw [exact.map, entries]
  rw [inodeMap, same]

theorem inodeMap_eq_walk_sample :
    (inodeMap sampleState).length = 3 ∧
      ∀ k x, (k, x) ∈ inodeMap sampleState ↔ TreeEntry .plain sampleState k x := by
  refine ⟨by decide +kernel, (inodeMap_eq_walk sampleIds_injOn ?_).1⟩
  have start : Run .plain (Bounded .plain sampleIds) (booted .plain (CoreState.new 7)) :=
    .boot (blank_new 7)
  have shape : Shape .plain sampleIds (booted .plain (CoreState.new 7)) :=
    (booted_spec .plain (blank_new 7)).shape (blank_new 7)
  have within₁ : sampleFirst.Within sampleIds := Or.inl rfl
  have within₂ : sampleSecond.Within sampleIds := Or.inr rfl
  have shape₁ := shape.event sampleIds_injOn within₁
  have shape₂ := shape₁.event sampleIds_injOn within₂
  have small₁ := shape₁.smallTree_of_applied (by decide +kernel)
  have small₂ := shape₂.smallTree_of_applied (by decide +kernel)
  exact (start.step ⟨within₁, small₁⟩).step ⟨within₂, small₂⟩

end Exact

section Full

variable {env : Env} {ids : Set OpId} {s t : CoreState} {op : FsOp}

theorem Overfull.mono {w : Walk} (full : Overfull s w)
    (keeps : ∀ p i, s.LinkedAs .dir p i → t.LinkedAs .dir p i) : Overfull t w :=
  ⟨full.1, fun j here => ReflTransGen.mono keeps _ _ (full.2 j here)⟩

theorem Shape.walkRoot_full (shape : Shape env ids s) {w : Walk} (full : Overfull s w)
    (store : Bool) : ∃ w', walkRoot env s store = .error .treeExceeded w' := by
  have spec := shape.walkRoot_spec store
  cases run : walkRoot env s store with
  | error e w' =>
      rw [run] at spec
      exact ⟨w', by rw [spec.1]⟩
  | ok hash w' =>
      rw [run] at spec
      have bound := walkRoot_size run
      have inside : w.visited.size ≤ w'.visited.size := by
        rw [← Std.ExtTreeSet.length_toList, ← Std.ExtTreeSet.length_toList]
        refine (List.subperm_of_subset (BTreeSet.nodup_toList _) fun j member => ?_).length_le
        rw [BTreeSet.mem_toList] at member ⊢
        exact (spec.2 j).mpr (full.2 j member)
      exact absurd (full.1.trans_le (inside.trans bound)) (lt_irrefl _)

theorem ExactUnlessFull.congr (state : ExactUnlessFull env ids s) (shape : Shape env ids t)
    (dirs : t.dirs = s.dirs) (inodes : t.inodes = s.inodes) (imap : t.imap = s.imap) :
    ExactUnlessFull env ids t := by
  refine state.imp (fun exact => ⟨shape, exact.map.congr dirs inodes imap⟩) ?_
  rintro ⟨w, full⟩
  refine ⟨w, full.mono fun p i link => ?_⟩
  simpa only [LinkedAs, CoreState.Live, added_congr dirs, removed_congr dirs] using link

/-- The namespace keeps its shape, and its map is exact unless the tree is above the limit. -/
def Charted (env : Env) (ids : Set OpId) (s : CoreState) : Prop :=
  Shape env ids s ∧ ExactUnlessFull env ids s

private theorem attempt_full (shape : Shape env ids s) (inj : Set.InjOn (inodeForOp env) ids)
    (member : op.id ∈ ids) (new : op.id ∉ s.applied) {w : Walk} (full : Overfull s w) :
    ExactUnlessFull env ids (finalState (attempt env op s)) := by
  have spec := mutate_spec env op s
  rw [attempt_run]
  cases run : mutate env op s with
  | error e t =>
      rw [run] at spec
      obtain ⟨rfl, -⟩ := spec
      exact .inr ⟨w, full⟩
  | ok outcome t =>
      rw [run] at spec
      cases outcome with
      | unmet reason =>
          obtain ⟨rfl, -⟩ := spec
          exact .inr ⟨w, full⟩
      | done =>
          have effect : Effect env op s t := spec
          have after := shape.noteApplied inj member new effect
          have only : OnlyMap (t.noteApplied op) (finalState (settleApplied env op t)) :=
            onlyMap_maintain env op (t.noteApplied op)
          have ends : ExactUnlessFull env ids (finalState (settleApplied env op t)) := by
            rcases shape.links_or_rebuild inj member new effect with links | maintained
            · obtain ⟨blobs, imap, -, same⟩ := only
              rw [same]
              exact .inr ⟨w, full.mono fun p i link => links .dir p i link⟩
            · have shaped := after.onlyMap only
              cases later : settleApplied env op t with
              | ok u t' =>
                  rw [later] at maintained shaped
                  exact .inl ⟨shaped, maintained.2⟩
              | error e t' =>
                  rw [later] at maintained shaped
                  obtain ⟨⟨blobs, imap, -, rfl⟩, ⟨-, map⟩ | ⟨-, -, w', more⟩⟩ := maintained
                  · exact .inl ⟨shaped, map⟩
                  · exact .inr ⟨w', more⟩
          dsimp only
          cases later : settleApplied env op t with
          | ok u t' =>
              rw [later] at ends
              exact ends
          | error e t' =>
              rw [later] at ends
              exact ends

theorem chartedRule (inj : Set.InjOn (inodeForOp env) ids) :
    CallRule env (Charted env ids) (fun op => op.id ∈ ids) (fun _ _ => True)
      (fun _ => Charted env ids) where
  tried := by
    intro s op charted member _ new
    refine Ends.of_finalState ⟨?_, ?_⟩
    · exact Ends.finalState ((shapeRule inj).tried charted.1 member trivial new)
    · rcases charted.2 with exact | ⟨w, full⟩
      · have ends := (exactRule inj).tried exact member trivial new
        exact Ends.finalState (ends.imp (fun _ => .inl) fun _ _ here => here)
      · exact attempt_full charted.1 inj member new full
  cleared := fun charted _ _ =>
    ⟨charted.1.clearPending _, charted.2.congr (charted.1.clearPending _) rfl rfl rfl⟩
  parked := fun charted => (shapeRule inj).parked charted.1
  logged := fun charted _ =>
    ⟨charted.1.appendOp _, charted.2.congr (charted.1.appendOp _) rfl rfl rfl⟩
  aside := by
    intro s t charted aside
    have shape := charted.1.aside aside
    obtain ⟨_, _, _, _, _, -, rfl⟩ := aside
    exact ⟨shape, charted.2.congr shape rfl rfl rfl⟩
  park := fun charted member _ =>
    ⟨charted.1.storePending member, charted.2.congr (charted.1.storePending member) rfl rfl rfl⟩

theorem Shape.collectGarbage_full (shape : Shape env ids s) {w : Walk} (full : Overfull s w)
    (dry_run : Bool) : finalState (collectGarbage env dry_run s) = s := by
  obtain ⟨w', run⟩ := shape.walkRoot_full full false
  have stops : reachableHashes env s = .error .treeExceeded := by
    unfold reachableHashes
    rw [run]
    rfl
  unfold collectGarbage
  simp only [bind_run, get_run, stops]
  cases sweepBlocker s <;> cases dry_run <;> rfl

theorem Charted.event (charted : Charted env ids s) (inj : Set.InjOn (inodeForOp env) ids)
    {e : Event} (within : e.Within ids) : Charted env ids (e.run env s) := by
  cases e with
  | apply op =>
      have ends := (chartedRule inj).applyOpInner charted within
        (fun _ _ => trivial : ∀ x ∈ applyAttempts env op true s, True)
      exact Ends.finalState (ends.imp (fun _ here => here) fun _ _ here => here.elim id id)
  | retry => exact Ends.finalState ((chartedRule inj).retryPending charted fun _ _ => trivial)
  | blob bytes =>
      have shape := charted.1.event inj (show (Event.blob bytes).Within ids from trivial)
      exact ⟨shape, charted.2.congr shape rfl rfl rfl⟩
  | collect dry_run =>
      have shape := charted.1.event inj (show (Event.collect dry_run).Within ids from trivial)
      refine ⟨shape, ?_⟩
      rcases charted.2 with exact | ⟨w, full⟩
      · rcases exact.shape.collectGarbage_spec dry_run with same | ⟨marked, keep, kept, same⟩
        · exact (congrArg (ExactUnlessFull env ids) same).mpr (.inl exact)
        · exact (congrArg (ExactUnlessFull env ids) same).mpr (.inl (exact.swept kept))
      · have same := charted.1.collectGarbage_full full dry_run
        exact (congrArg (ExactUnlessFull env ids) same).mpr (.inr ⟨w, full⟩)

theorem Run.charted {meets : CoreState → Event → Prop} (run : Run env meets s)
    (inj : Set.InjOn (inodeForOp env) ids) (within : ∀ s e, meets s e → e.Within ids) :
    Charted env ids s :=
  run.invariant
    (fun blank => ⟨(booted_spec env blank).shape blank,
      .inl ⟨(booted_spec env blank).shape blank, (booted_spec env blank).exact⟩⟩)
    fun charted met => charted.event inj (within _ _ met)

end Full

end NexusFS.Core
