/- GID: NexusFS/Net/Rename
   source: crates/core/src/ops.rs, crates/core/src/apply.rs, crates/core/src/namespace.rs
   digest: When renaming a path moves one entry and leaves every other where it was. -/

import NexusFS.Core.Names
import NexusFS.Net.Calls
import NexusFS.Net.Local

set_option autoImplicit false
set_option relaxedAutoImplicit false

namespace NexusFS.Net

open NexusFS.Lib NexusFS.Lib.Effect NexusFS.Proto NexusFS.Crdt NexusFS.Core CoreState Relation

section Still

variable {env : Env} {identity : Identity} {kind : FsOpKind} {now : U64} {id : OpId} {op : FsOp}
  {s t u v w : CoreState}

/-- A parked operation that cannot change a directory yet: it needs a directory that is not there, or
moves only entries that are not there and that `id` will not name. -/
def Blocked (s : CoreState) (id : OpId) : FsOpKind → Prop
  | .mkdir parent _ _ => s.isDir parent = false
  | .createFile parent _ _ => s.isDir parent = false
  | .unlink parent _ _ => s.isDir parent = false
  | .rename old_parent old_name new_parent _ observed =>
      s.isDir old_parent = false ∨ s.isDir new_parent = false ∨
        (observed ≠ [] ∧ id ∉ observed ∧ ∀ x ∈ (s.dirAt old_parent).getAll old_name, x.1 ∉ observed)
  | .write _ _ _ _ _ => True
  | .setAttr _ _ _ _ => True

def Idle (env : Env) (dirs : BTreeMap U128 DirMap) (isDir : U128 → Bool) (op : FsOp) : Prop :=
  ∀ t u, t.dirs = dirs → t.isDir = isDir → Effect env op t u → u.dirs = dirs ∧ u.isDir = isDir

private theorem isDir_storeInode {inode : U128} {record record' : InodeRecord}
    (found : s.loadInode inode = some record) (kind : record'.kind = record.kind) :
    (s.storeInode inode record').isDir = s.isDir := by
  funext i
  unfold CoreState.isDir
  rw [loadInode_storeInode]
  by_cases same : inode = i
  · subst same
    rw [if_pos rfl, found]
    dsimp only
    rw [kind]
  · rw [if_neg same]

/-- A parked operation that is blocked before an entry is added under `id` is idle after. -/
theorem Blocked.idle (blocked : Blocked s id op.kind) (dirs : w.isDir = s.isDir)
    (links : ∀ p n d v, w.Live p n d v → d = id ∨ s.Live p n d v) : Idle env w.dirs w.isDir op := by
  intro t u same kinds effect
  have absent : ∀ {i}, t.isDir i = true → s.isDir i ≠ false := by
    intro i here
    rw [kinds, dirs] at here
    simp [here]
  cases effect with
  | @created parent name mode entry shape valid dir =>
      rw [shape] at blocked
      cases entry <;> exact absurd blocked (absent dir)
  | superseded shape found file loses => exact ⟨same, kinds⟩
  | @wrote inode _ _ _ _ record _ stored shape found file wins content whole =>
      obtain ⟨blobs, draws, -, rfl⟩ := content
      refine ⟨same, Eq.trans ?_ kinds⟩
      exact @isDir_storeInode { t with blobs := blobs, draws := draws } inode record _ found rfl
  | movedNothing shape valid source target => exact ⟨same, kinds⟩
  | @moved old_parent new_parent old_name new_name observed dot entry shape valid source target found
      outside =>
      rw [shape] at blocked
      rcases blocked with missing | missing | ⟨-, new, gone⟩
      · exact absurd missing (absent source)
      · exact absurd missing (absent target)
      · obtain ⟨member, seen, -⟩ := renameSource_eq_some found
        have live : t.Live old_parent old_name dot entry := (OrMap.mem_getAll _ _ _ _).mp member
        have alike : t.dirAt old_parent = w.dirAt old_parent := by
          unfold dirAt CoreState.loadDir
          rw [same]
        unfold Live CoreState.added Removed at live
        rw [alike] at live
        rcases links old_parent old_name dot entry live with rfl | old
        · exact absurd seen new
        · exact absurd seen (gone (dot, entry) ((OrMap.mem_getAll _ _ _ _).mpr old))
  | unlinked shape dir =>
      rw [shape] at blocked
      exact absurd blocked (absent dir)
  | changedAttrs shape found =>
      refine ⟨same, Eq.trans ?_ kinds⟩
      exact isDir_storeInode found rfl

theorem idleRule (env : Env) (dirs : BTreeMap U128 DirMap) (isDir : U128 → Bool) :
    AttemptRule env (fun t => t.dirs = dirs ∧ t.isDir = isDir ∧
        ∀ (id : OpId) op, t.pending[id]? = some op → Idle env dirs isDir op)
      (Idle env dirs isDir) (fun _ _ => True)
      (fun _ t => t.dirs = dirs ∧ t.isDir = isDir ∧
        ∀ (id : OpId) op, t.pending[id]? = some op → Idle env dirs isDir op) := by
  refine .of_took ?_ ?_ ?_
  · rintro t u op ⟨same, kinds, parked⟩ idle _ took
    have pending := took.pending
    obtain ⟨w, effect, _, _, -, rfl⟩ := took
    obtain ⟨same', kinds'⟩ := idle t w same kinds effect
    refine ⟨same', kinds', fun id other here => ?_⟩
    rw [pending, BTreeMap.get_erase] at here
    split at here
    · cases here
    · exact parked id other here
  · rintro t op ⟨same, kinds, parked⟩ _ _
    refine ⟨same, kinds, fun id other here => ?_⟩
    have erased : (t.pending.erase op.id)[id]? = some other := here
    rw [BTreeMap.get_erase] at erased
    split at erased
    · cases erased
    · exact parked id other erased
  · rintro t op id ⟨-, -, parked⟩ here
    exact parked id op here

theorem Performed.dirs (performed : Performed env identity kind now s w u v t)
    (pending : w.pending = s.pending)
    (idle : ∀ (id : OpId) op, s.pending[id]? = some op → Idle env w.dirs w.isDir op) :
    t.dirs = w.dirs := by
  obtain ⟨n, drained⟩ := performed.drained
  have first : u.dirs = w.dirs ∧ u.isDir = w.isDir ∧
      ∀ (id : OpId) op, u.pending[id]? = some op → Idle env w.dirs w.isDir op := by
    obtain ⟨_, _, -, rfl⟩ := performed.mapped
    refine ⟨rfl, rfl, fun id op here => ?_⟩
    have erased : (w.pending.erase (authoredOp env identity kind now s).id)[id]? = some op := here
    rw [BTreeMap.get_erase, pending] at erased
    split at erased
    · cases erased
    · exact idle id op erased
  have ends := (idleRule env w.dirs w.isDir).drainPending first fun _ _ => trivial
  rw [drained] at ends
  have kept : v.dirs = w.dirs := ends.1
  obtain ⟨x, log, ⟨_, _, _, _, _, -, rfl⟩, rfl⟩ := performed.closes
  exact kept

theorem Repeated.dirs (repeated : Repeated s t) : t.dirs = s.dirs := by
  obtain ⟨x, log, ⟨_, _, _, _, _, -, rfl⟩, rfl⟩ := repeated.closes
  rfl

/-- What a local operation that keeps every directory one does to the entries: nothing if its id was
applied before, and its own effect otherwise. -/
theorem applyLocal_dirs {op : FsOp} (run : applyLocal env identity kind now s = .ok op t)
    (blocked : ∀ (id : OpId) op, s.pending[id]? = some op → Blocked s (nextId s) op.kind)
    (kept : ∀ w, Effect env (authoredOp env identity kind now s)
      ((counted s).appendOp (authoredOp env identity kind now s)) w →
        w.isDir = s.isDir ∧ ∀ p n d v, w.Live p n d v → d = nextId s ∨ s.Live p n d v) :
    (nextId s ∈ s.applied ∧ t.dirs = s.dirs) ∨ (nextId s ∉ s.applied ∧
      ∃ w, Effect env (authoredOp env identity kind now s)
        ((counted s).appendOp (authoredOp env identity kind now s)) w ∧ t.dirs = w.dirs) := by
  obtain ⟨-, repeated | ⟨w, u, v, performed⟩⟩ := applyLocal_ok run
  · exact .inl ⟨repeated.known, repeated.dirs⟩
  · have spec := mutate_spec env (authoredOp env identity kind now s)
      ((counted s).appendOp (authoredOp env identity kind now s))
    rw [performed.mutated] at spec
    have effect : Effect env (authoredOp env identity kind now s)
      ((counted s).appendOp (authoredOp env identity kind now s)) w := spec
    obtain ⟨kinds, links⟩ := kept w effect
    have pending : w.pending = s.pending := by
      obtain ⟨_, _, _, _, _, -, rfl⟩ := effect.frame
      rfl
    exact .inr ⟨performed.new, w, effect,
      performed.dirs pending fun id op here => (blocked id op here).idle kinds links⟩

end Still

section Observed

variable {s t : CoreState} {p : U128} {n : String} {d : OpId}

theorem mem_observedEntryOps : d ∈ observedEntryOps s p n ↔ ∃ v, s.Live p n d v := by
  unfold observedEntryOps
  cases found : s.loadDir p with
  | none =>
      simp only [List.not_mem_nil, false_iff, not_exists]
      rintro v ⟨here, -⟩
      unfold CoreState.added at here
      rw [s.dirAt_eq_empty found] at here
      simp at here
  | some map =>
      have here : s.dirAt p = map := by simp [dirAt, found]
      subst here
      simp only [List.mem_insertionSort, List.mem_map, Prod.exists, exists_and_right, exists_eq_right]
      exact exists_congr fun v => (s.dirAt p).mem_getAll n d v

theorem getAll_of_observed_nil (none_seen : observedEntryOps s p n = []) :
    (s.dirAt p).getAll n = [] := by
  cases all : (s.dirAt p).getAll n with
  | nil => rfl
  | cons x rest =>
      have live : s.Live p n x.1 x.2 := ((s.dirAt p).mem_getAll n x.1 x.2).mp (by rw [all]; simp)
      have seen := mem_observedEntryOps.mpr ⟨x.2, live⟩
      rw [none_seen] at seen
      cases seen

end Observed

section Rename

variable {env : Env} {identity : Identity} {s t : CoreState}

theorem renamePath_ok {source target : String} {now : U64}
    (run : renamePath env identity source target now s = .ok () t) :
    ∃ p n p' n' e op, resolveParent s source = .ok (some (p, n)) ∧ s.lookup p n = some e ∧
      resolveParent s target = .ok (some (p', n')) ∧
      applyLocal env identity (.rename p n p' n' (observedEntryOps s p n)) now s = .ok op t := by
  unfold renamePath at run
  rw [bind_run, get_run] at run
  dsimp only at run
  rw [bind_run] at run
  cases from_parent : resolveParent s source with
  | error e =>
      rw [from_parent] at run
      cases run
  | ok found =>
      rw [from_parent, liftCheck_ok] at run
      cases found with
      | none => cases run
      | some pair =>
          obtain ⟨p, n⟩ := pair
          dsimp only at run
          cases looked : s.lookup p n with
          | none =>
              rw [looked] at run
              cases run
          | some e =>
              rw [looked] at run
              dsimp only at run
              rw [bind_run] at run
              cases to_parent : resolveParent s target with
              | error e =>
                  rw [to_parent] at run
                  cases run
              | ok found =>
                  rw [to_parent, liftCheck_ok] at run
                  cases found with
                  | none => cases run
                  | some pair =>
                      obtain ⟨p', n'⟩ := pair
                      dsimp only at run
                      rw [bind_run] at run
                      cases called : applyLocal env identity
                          (.rename p n p' n' (observedEntryOps s p n)) now s with
                      | error e t =>
                          rw [called] at run
                          cases run
                      | ok op t =>
                          rw [called] at run
                          cases run
                          exact ⟨p, n, p', n', e, op, rfl, looked, rfl, called⟩

theorem lookup_of_resolve {path : String} {p : U128} {n : String} {b : U128 × EntryType}
    (parent : resolveParent s path = .ok (some (p, n))) (resolved : resolvePath s path = .ok (some b)) :
    ∃ e, s.lookup p n = some e ∧ b = (e.inode_id, e.entry_type) := by
  obtain ⟨dirs, split, leads⟩ := resolveParent_eq_some.mp parent
  obtain ⟨parts, same, reached⟩ := resolvePath_eq_some.mp resolved
  cases split.symm.trans same
  obtain ⟨q, e, front, found, rfl⟩ := Leads.snoc_iff.mp reached
  cases leads.unique front
  exact ⟨e, found, rfl⟩

/-- When a rename moves exactly one entry: its id is new and not removed in advance, the old name is a
key with one survivor, and the new name is free or taken over from the lowest survivor there. -/
structure Movable (s : CoreState) (p : U128) (n : String) (p' : U128) (n' : String)
    (value : DirEntryValue) : Prop where
  new : nextId s ∉ s.applied
  kept : ¬s.Removed p' n' (nextId s)
  single : ∃ x, (s.dirAt p).getAll n = [x]
  lands : Arrives (s.dirAt p')
    (if p = p' then (s.dirAt p).removeDots n (observedEntryOps s p n) else s.dirAt p') n' (nextId s) value

private theorem not_movesOne_of_dirs (same : t.dirs = s.dirs) {source target : String}
    {b : U128 × EntryType} (before : resolvePath s source = .ok (some b)) :
    ¬MovesOne s t source target b.1 := fun moves =>
  moves.leaves b.2 (resolvePath_of_dirs same before)

private theorem rename_keeps {kind : FsOpKind} {now : U64} {p p' : U128} {n n' : String}
    {observed : List OpId} {w : CoreState} (is_rename : kind = .rename p n p' n' observed)
    (effect : Effect env (authoredOp env identity kind now s)
      ((counted s).appendOp (authoredOp env identity kind now s)) w) :
    w.isDir = s.isDir ∧ ∀ q m d v, w.Live q m d v → d = nextId s ∨ s.Live q m d v := by
  subst is_rename
  cases effect with
  | @created _ _ _ entry shape valid dir => cases entry <;> cases shape
  | superseded shape found file loses => cases shape
  | wrote shape found file wins content whole => cases shape
  | movedNothing shape valid source target => exact ⟨rfl, fun _ _ _ _ live => .inr live⟩
  | moved shape valid source target found outside =>
      cases shape
      refine ⟨?_, ?_⟩
      · funext i
        unfold CoreState.isDir
        rw [loadInode_moveEntry]
        rfl
      · rintro q m d v ⟨here, kept⟩
        rw [added_moveEntry] at here
        split at here
        · rename_i new
          exact .inl new.2.2.symm
        · exact .inr ⟨here, fun gone => kept (removed_moveEntry q m d |>.mpr (.inr gone))⟩
  | unlinked shape dir => cases shape
  | changedAttrs shape found => cases shape

private theorem left_iff {p p' : U128} {n : String} (k : String) (d : Dot) (v : DirEntryValue) :
    (if p = p' then (s.dirAt p).removeDots n (observedEntryOps s p n) else s.dirAt p').Live k d v ↔
      s.Live p' k d v ∧ ¬(p' = p ∧ k = n) := by
  by_cases same : p = p'
  · subst same
    rw [if_pos rfl, OrMap.live_removeDots]
    refine and_congr_right fun live => not_congr ⟨?_, ?_⟩
    · rintro ⟨rfl, -⟩
      exact ⟨rfl, rfl⟩
    · rintro ⟨-, rfl⟩
      exact ⟨rfl, mem_observedEntryOps.mpr ⟨v, live⟩⟩
  · rw [if_neg same]
    exact (and_iff_left fun both => same both.1.symm).symm

/-- A rename that returns moves exactly one entry if and only if the name it moves has one survivor
and the name it moves it to is free or can be taken over. -/
theorem rename_moves_one_iff {ids : Set OpId} (inj : Set.InjOn (inodeForOp env) ids)
    (run : NodeRun env identity (EachCall env identity fun _ call => call.Within ids) s)
    (own : nextId s ∈ ids) {source target : String} {now : U64} {p p' : U128} {n n' : String}
    {inode : U128} {kind : EntryType}
    (from_parent : resolveParent s source = .ok (some (p, n)))
    (to_parent : resolveParent s target = .ok (some (p', n'))) (different : ¬(p = p' ∧ n = n'))
    (before : resolvePath s source = .ok (some (inode, kind)))
    (blocked : ∀ (id : OpId) op, s.pending[id]? = some op → Blocked s (nextId s) op.kind)
    (returned : renamePath env identity source target now s = .ok () t) :
    MovesOne s t source target inode ↔ Movable s p n p' n' ⟨inode, kind, now⟩ := by
  obtain ⟨q, m, q', m', e, op, from_eq, found, to_eq, called⟩ := renamePath_ok returned
  cases from_parent.symm.trans from_eq
  cases to_parent.symm.trans to_eq
  obtain ⟨e', found', same⟩ := lookup_of_resolve from_parent before
  cases found.symm.trans found'
  obtain ⟨rfl, rfl⟩ := Prod.mk.inj same
  have orderly := run.orderly inj fun _ _ within => within
  have after : Shape env ids t := by
    have step := run.step (a := .author (.rename p n p' n' (observedEntryOps s p n)) now)
      (fun x member => by
        obtain rfl := List.mem_singleton.mp member
        exact own)
    have ends : (Act.author (.rename p n p' n' (observedEntryOps s p n)) now).run env identity s = t :=
      congrArg finalState called
    exact ends ▸ (step.orderly inj fun _ _ within => within).shape
  rcases applyLocal_dirs called blocked fun w => rename_keeps rfl with
    ⟨known, dirs⟩ | ⟨new, w, effect, dirs⟩
  · exact iff_of_false (not_movesOne_of_dirs dirs before) fun movable => movable.new known
  · have nothing : observedEntryOps s p n = [] → ¬∃ x, (s.dirAt p).getAll n = [x] := by
      rintro none_seen ⟨x, one⟩
      rw [getAll_of_observed_nil none_seen] at one
      cases one
    cases effect with
    | @created _ _ _ entry shape valid dir => cases entry <;> cases shape
    | superseded shape found file loses => cases shape
    | wrote shape found file wins content whole => cases shape
    | movedNothing shape valid source target =>
        have none_seen : observedEntryOps s p n = [] := by
          injection shape
        have kept : t.dirs = s.dirs := dirs
        exact iff_of_false (not_movesOne_of_dirs kept before) fun movable =>
          nothing none_seen movable.single
    | @moved _ _ _ _ _ dot entry shape valid source target chosen outside =>
        cases shape
        obtain ⟨member, -, above⟩ := renameSource_eq_some chosen
        have origin : s.Live p n dot entry := (OrMap.mem_getAll _ _ _ _).mp member
        have highest : ∀ d v, s.Live p n d v → d ≤ dot := fun d v live =>
          above (d, v) ((OrMap.mem_getAll _ _ _ _).mpr live) (mem_observedEntryOps.mpr ⟨v, live⟩)
        have counted_shape := (orderly.quiet (t := (counted s).appendOp (authoredOp env identity
          (.rename p n p' n' (observedEntryOps s p n)) now s))
          ⟨rfl, rfl, rfl, rfl, rfl, rfl, rfl, rfl, rfl, rfl, fun _ here => here⟩).shape
        have free : ¬ReflTransGen s.Linked entry.inode_id p' :=
          counted_shape.not_below_source origin target outside
        have moves : t.dirs = (moveEntry (authoredOp env identity
            (.rename p n p' n' (observedEntryOps s p n)) now s) entry p n p' n'
            (observedEntryOps s p n) s).dirs := by
          rw [dirs]
          unfold moveEntry
          dsimp only
          split <;> rfl
        have relinked := relinked_moveEntry orderly.shape
          (fun d v live => mem_observedEntryOps.mpr ⟨v, live⟩) new free different moves
        rw [relinked.movesOne_iff_lands orderly.shape after new origin highest rfl from_parent to_parent
          found left_iff]
        -- the only survivor is the one that is found
        have value : ∀ {x}, (s.dirAt p).getAll n = [x] →
            movedValue (authoredOp env identity (.rename p n p' n' (observedEntryOps s p n)) now s)
              entry = ⟨e.inode_id, e.entry_type, now⟩ := by
          intro x one
          have here := ((s.dirAt p).mem_getAll n dot entry).mpr origin
          rw [one, List.mem_singleton] at here
          subst here
          rw [lookup_eq_findEntry, findEntry_single one] at found
          rw [← Option.some.inj found]
          rfl
        constructor
        · rintro ⟨kept, ⟨x, one⟩, lands⟩
          exact ⟨new, kept, ⟨x, one⟩, value one ▸ lands⟩
        · rintro ⟨-, kept, ⟨x, one⟩, lands⟩
          refine ⟨kept, ⟨x, one⟩, ?_⟩
          rw [value one]
          exact lands
    | unlinked shape dir => cases shape
    | changedAttrs shape found => cases shape

def ownFiles : CoreState :=
  (Act.author (.mkdir rootInode "d" 0) 0).run .plain sampleIdentity
    ((Act.author (.createFile rootInode "c" 0) 0).run .plain sampleIdentity
      ((Act.author (.createFile rootInode "a" 0) 0).run .plain sampleIdentity
        (booted .plain (CoreState.new 7))))

theorem ownFiles_run : NodeRun .plain sampleIdentity
    (EachCall .plain sampleIdentity fun _ call => call.Within (idsUpTo 7 8)) ownFiles := by
  refine .step (.step (.step (.boot (blank_new 7) rfl rfl) ?_) ?_) ?_
  all_goals
    intro x member
    obtain rfl := List.mem_singleton.mp member
    exact ⟨by decide +kernel, by decide +kernel⟩

theorem rename_moves_one_sample :
    ∃ t, renamePath .plain sampleIdentity "/a" "/d/b" 0 ownFiles = .ok () t ∧
      MovesOne ownFiles t "/a" "/d/b" sampleParent ∧ LivePath t (inodeForOp .plain ⟨7, 2⟩) := by
  have own : nextId ownFiles ∈ idsUpTo 7 8 := ⟨by decide +kernel, by decide +kernel⟩
  have idle : ownFiles.pendingOps = [] := by decide +kernel
  have called : returned (renamePath .plain sampleIdentity "/a" "/d/b" 0 ownFiles) = true := by
    decide +kernel
  have movable : Movable ownFiles rootInode "a" (inodeForOp .plain ⟨7, 3⟩) "b" ⟨sampleParent, .file, 0⟩ :=
    ⟨by decide +kernel, by unfold Removed; decide +kernel,
      ⟨(⟨7, 1⟩, ⟨sampleParent, .file, 0⟩), by decide +kernel⟩, .free (by decide +kernel)⟩
  cases result : renamePath .plain sampleIdentity "/a" "/d/b" 0 ownFiles with
  | error e t =>
      rw [result] at called
      cases called
  | ok _ t =>
      have moves : MovesOne ownFiles t "/a" "/d/b" sampleParent := by
        refine (rename_moves_one_iff idsUpTo_injOn ownFiles_run own ?_ ?_ ?_ ?_ ?_ result).mpr movable
        · decide +kernel
        · decide +kernel
        · decide +kernel
        · decide +kernel
        · intro id op here
          have member := mem_pendingOps.mpr ⟨id, here⟩
          rw [idle] at member
          cases member
      have beside : resolvePath ownFiles "/c" = .ok (some (inodeForOp .plain ⟨7, 2⟩, .file)) := by
        decide +kernel
      exact ⟨t, rfl, moves, moves.others _ (by decide +kernel) ⟨"/c", .file, beside⟩⟩

def sharedName : CoreState :=
  (Act.receive (sampleOp 1 (.createFile rootInode "a" 0))).run .plain sampleIdentity
    ((Act.author (.createFile rootInode "a" 0) 0).run .plain sampleIdentity
      (booted .plain (CoreState.new 9)))

/-- Renaming a shared name moves the other entry, and the one that was found is gone. -/
theorem rename_moves_other : AnyRun .plain sampleIdentity sharedName ∧
    resolvePath sharedName "/a" = .ok (some (sampleParent, .file)) ∧
      ∃ t, renamePath .plain sampleIdentity "/a" "/b" 0 sharedName = .ok () t ∧
        resolvePath t "/b" = .ok (some (inodeForOp .plain ⟨9, 1⟩, .file)) ∧
        resolvePath t "/a" = .ok none ∧ ¬MovesOne sharedName t "/a" "/b" sampleParent := by
  have called : returned (renamePath .plain sampleIdentity "/a" "/b" 0 sharedName) = true := by
    decide +kernel
  have target : resolvePath (finalState (renamePath .plain sampleIdentity "/a" "/b" 0 sharedName)) "/b" =
      .ok (some (inodeForOp .plain ⟨9, 1⟩, .file)) := by decide +kernel
  have source : resolvePath (finalState (renamePath .plain sampleIdentity "/a" "/b" 0 sharedName)) "/a" =
      .ok none := by decide +kernel
  have apart : inodeForOp .plain ⟨9, 1⟩ ≠ sampleParent := by decide +kernel
  refine ⟨.step (.step (.boot (blank_new 9) rfl rfl) trivial) trivial, by decide +kernel, ?_⟩
  cases result : renamePath .plain sampleIdentity "/a" "/b" 0 sharedName with
  | error e t =>
      rw [result] at called
      cases called
  | ok _ t =>
      rw [result] at target source
      refine ⟨t, rfl, target, source, fun moves => ?_⟩
      obtain ⟨kind, arrived⟩ := moves.arrives
      have same := Option.some.inj (Except.ok.inj ((show _ from target).symm.trans arrived))
      exact apart (congrArg Prod.fst same)

end Rename

end NexusFS.Net
