/- GID: NexusFS/Net/Remove
   source: crates/core/src/ops.rs, crates/core/src/apply.rs, crates/core/src/namespace.rs
   digest: When removing a path removes the entry it names and no other. -/

import NexusFS.Net.Rename

set_option autoImplicit false
set_option relaxedAutoImplicit false

namespace NexusFS.Net

open NexusFS.Lib NexusFS.Lib.Effect NexusFS.Proto NexusFS.Crdt NexusFS.Core CoreState

section Remove

variable {env : Env} {identity : Identity} {s t : CoreState} {p : U128} {n : String}

theorem removePath_ok {path : String} {now : U64}
    (run : removePath env identity path now s = .ok () t) :
    ∃ p n e op, resolveParent s path = .ok (some (p, n)) ∧ s.lookup p n = some e ∧
      applyLocal env identity (.unlink p n (observedEntryOps s p n)) now s = .ok op t := by
  unfold removePath at run
  rw [bind_run, get_run] at run
  dsimp only at run
  rw [bind_run] at run
  cases parent : resolveParent s path with
  | error e =>
      rw [parent] at run
      cases run
  | ok found =>
      rw [parent, liftCheck_ok] at run
      cases found with
      | none => cases run
      | some pair =>
          obtain ⟨p, n⟩ := pair
          dsimp only at run
          cases looked : s.lookup p n with
          | none =>
              rw [looked] at run
              cases run
          | some e =>
              rw [looked] at run
              dsimp only at run
              rw [bind_run] at run
              cases called : applyLocal env identity (.unlink p n (observedEntryOps s p n)) now s with
              | error e t =>
                  rw [called] at run
                  cases run
              | ok op t =>
                  rw [called] at run
                  cases run
                  exact ⟨p, n, e, op, rfl, looked, called⟩

/-- The entry is gone, and every entry that the directory listed under another name is still
linked there. -/
structure RemovesOne (s t : CoreState) (parent : U128) (name : String) (inode : U128) : Prop where
  gone : ∀ q, ¬t.Linked q inode
  others : ∀ e ∈ s.materializeDir parent, e.name ≠ name → t.Linked parent e.inode_id

private theorem unlink_keeps {kind : FsOpKind} {now : U64} {observed : List OpId} {w : CoreState}
    (is_unlink : kind = .unlink p n observed)
    (effect : Effect env (authoredOp env identity kind now s)
      ((counted s).appendOp (authoredOp env identity kind now s)) w) :
    w.isDir = s.isDir ∧ ∀ q m d v, w.Live q m d v ↔ s.Live q m d v ∧ ¬(p = q ∧ n = m ∧ d ∈ observed) := by
  subst is_unlink
  cases effect with
  | @created _ _ _ entry shape valid dir => cases entry <;> cases shape
  | superseded shape found file loses => cases shape
  | wrote shape found file wins content whole => cases shape
  | movedNothing shape valid source target => cases shape
  | moved shape valid source target found outside => cases shape
  | unlinked shape dir =>
      cases shape
      refine ⟨rfl, fun q m d v => ?_⟩
      unfold Live
      rw [added_removeDots, removed_removeDots]
      have same_added : ((counted s).appendOp (authoredOp env identity (.unlink p n observed) now
        s)).added q m d = s.added q m d := rfl
      have same_removed : ((counted s).appendOp (authoredOp env identity (.unlink p n observed) now
        s)).Removed q m d = s.Removed q m d := rfl
      rw [same_added, same_removed]
      tauto
  | changedAttrs shape found => cases shape

private theorem mem_materializeDir_iff {e : DirEntry} : e ∈ s.materializeDir p ↔
    ∃ key idx d v, ((s.dirAt p).getAll key)[idx]? = some (d, v) ∧ e = shownEntry key idx d v := by
  rw [← mem_listing]
  unfold CoreState.materializeDir dirAt
  cases s.loadDir p with
  | none => rfl
  | some map => rfl

/-- A removal that returns removes the named entry and no other if and only if its id is new and the
name is a key with one survivor. -/
theorem remove_removes_one_iff {ids : Set OpId} (inj : Set.InjOn (inodeForOp env) ids)
    (run : NodeRun env identity (EachCall env identity fun _ call => call.Within ids) s)
    {path : String} {now : U64} {inode : U128} {kind : EntryType}
    (parent : resolveParent s path = .ok (some (p, n)))
    (before : resolvePath s path = .ok (some (inode, kind)))
    (blocked : ∀ (id : OpId) op, s.pending[id]? = some op → Blocked s (nextId s) op.kind)
    (returned : removePath env identity path now s = .ok () t) :
    RemovesOne s t p n inode ↔ nextId s ∉ s.applied ∧ ∃ x, (s.dirAt p).getAll n = [x] := by
  obtain ⟨q, m, e, op, from_eq, found, called⟩ := removePath_ok returned
  cases parent.symm.trans from_eq
  obtain ⟨e', found', same⟩ := lookup_of_resolve parent before
  cases found.symm.trans found'
  obtain ⟨rfl, rfl⟩ := Prod.mk.inj same
  have shape := (run.orderly inj fun _ _ within => within).shape
  obtain ⟨key, idx, d, v, here, rfl, live, named⟩ := shown_of_lookup found
  rcases applyLocal_dirs called blocked fun w effect =>
      ⟨(unlink_keeps rfl effect).1, fun q m d v live =>
        .inr (((unlink_keeps rfl effect).2 q m d v).mp live).1⟩ with
    ⟨known, dirs⟩ | ⟨new, w, effect, dirs⟩
  · have kept : t.Linked p v.inode_id := ⟨key, d, v, (live_of_dirs dirs p key d v).mpr live, rfl⟩
    exact iff_of_false (fun removes => removes.gone p kept) fun both => both.1 known
  · have links : ∀ q m d v, t.Live q m d v ↔ s.Live q m d v ∧ ¬(p = q ∧ n = m) := by
      intro q m d v
      rw [live_of_dirs dirs, (unlink_keeps rfl effect).2]
      refine and_congr_right fun live => not_congr ⟨fun all => ⟨all.1, all.2.1⟩, ?_⟩
      rintro ⟨rfl, rfl⟩
      exact ⟨rfl, rfl, mem_observedEntryOps.mpr ⟨v, live⟩⟩
    constructor
    · intro removes
      have own : n = key := by
        by_contra other
        exact removes.gone p ⟨key, d, v, (links p key d v).mpr ⟨live, fun both => other both.2⟩, rfl⟩
      subst own
      have first : idx = 0 := by
        by_contra later
        exact shownEntry_name_ne later named
      subst first
      refine ⟨new, (d, v), ?_⟩
      cases all : (s.dirAt p).getAll n with
      | nil =>
          rw [all] at here
          cases here
      | cons x rest =>
          cases rest with
          | nil =>
              rw [all] at here
              rw [Option.some.inj here]
          | cons y rest =>
              -- the second survivor was listed under its conflict name, and is removed as well
              obtain ⟨d', v'⟩ := y
              have second : ((s.dirAt p).getAll n)[1]? = some (d', v') := by rw [all]; rfl
              obtain ⟨m, d'', v'', kept, same⟩ := removes.others (shownEntry n 1 d' v')
                (mem_materializeDir_iff.mpr ⟨n, 1, d', v', second, rfl⟩) (shownEntry_name_ne one_ne_zero)
              obtain ⟨old, apart⟩ := (links p m d'' v'').mp kept
              obtain ⟨-, name, -⟩ := shape.single old (live_of_getElem second) same
              exact absurd ⟨rfl, name.symm⟩ apart
    · rintro ⟨-, ⟨d', v'⟩, one⟩
      have alone : s.Live p n d' v' := ((s.dirAt p).mem_getAll n d' v').mp (by rw [one]; simp)
      rw [lookup_eq_findEntry, findEntry_single one] at found
      have inode : v'.inode_id = v.inode_id := congrArg DirEntry.inode_id (Option.some.inj found)
      refine ⟨?_, ?_⟩
      · rintro q ⟨m, d'', v'', kept, same⟩
        obtain ⟨old, apart⟩ := (links q m d'' v'').mp kept
        obtain ⟨rfl, rfl, -⟩ := shape.single old alone (same.trans inode.symm)
        exact apart ⟨rfl, rfl⟩
      · intro e listed other
        obtain ⟨m, i, d'', v'', there, rfl⟩ := mem_materializeDir_iff.mp listed
        refine ⟨m, d'', v'', (links p m d'' v'').mpr ⟨live_of_getElem there, ?_⟩, rfl⟩
        rintro ⟨-, rfl⟩
        rw [one] at there
        cases i with
        | zero => exact other rfl
        | succ i => simp at there

theorem remove_removes_one_sample :
    ∃ t, removePath .plain sampleIdentity "/a" 0 ownFiles = .ok () t ∧
      RemovesOne ownFiles t rootInode "a" sampleParent ∧
        t.Linked rootInode (inodeForOp .plain ⟨7, 2⟩) := by
  have idle : ownFiles.pendingOps = [] := by decide +kernel
  have called : returned (removePath .plain sampleIdentity "/a" 0 ownFiles) = true := by decide +kernel
  have new : nextId ownFiles ∉ ownFiles.applied := by decide +kernel
  have one : (ownFiles.dirAt rootInode).getAll "a" = [(⟨7, 1⟩, ⟨sampleParent, .file, 0⟩)] := by
    decide +kernel
  cases result : removePath .plain sampleIdentity "/a" 0 ownFiles with
  | error e t =>
      rw [result] at called
      cases called
  | ok _ t =>
      have before : resolvePath ownFiles "/a" = .ok (some (sampleParent, .file)) := by decide +kernel
      have removes : RemovesOne ownFiles t rootInode "a" sampleParent := by
        refine (remove_removes_one_iff idsUpTo_injOn ownFiles_run ?_ before ?_ result).mpr ⟨new, _, one⟩
        · decide +kernel
        · intro id op here
          have member := mem_pendingOps.mpr ⟨id, here⟩
          rw [idle] at member
          cases member
      have beside : (⟨"c", inodeForOp .plain ⟨7, 2⟩, .file⟩ : DirEntry) ∈
          ownFiles.materializeDir rootInode := by decide +kernel
      exact ⟨t, rfl, removes, removes.others _ beside (by decide)⟩

/-- Removing a shared name removes the entry that was listed under the conflict name too. -/
theorem remove_removes_both : AnyRun .plain sampleIdentity sharedName ∧
    sharedName.lookup rootInode (conflictName "a" 9 0) =
      some ⟨conflictName "a" 9 0, inodeForOp .plain ⟨9, 1⟩, .file⟩ ∧
    ∃ t, removePath .plain sampleIdentity "/a" 0 sharedName = .ok () t ∧
      t.materializeDir rootInode = [] ∧ ¬RemovesOne sharedName t rootInode "a" sampleParent := by
  have called : returned (removePath .plain sampleIdentity "/a" 0 sharedName) = true := by
    decide +kernel
  have empty : (finalState (removePath .plain sampleIdentity "/a" 0 sharedName)).materializeDir
      rootInode = [] := by decide +kernel
  have listed : ⟨conflictName "a" 9 0, inodeForOp .plain ⟨9, 1⟩, .file⟩ ∈
      sharedName.materializeDir rootInode := by decide +kernel
  refine ⟨.step (.step (.boot (blank_new 9) rfl rfl) trivial) trivial, by decide +kernel, ?_⟩
  cases result : removePath .plain sampleIdentity "/a" 0 sharedName with
  | error e t =>
      rw [result] at called
      cases called
  | ok _ t =>
      rw [result] at empty
      refine ⟨t, rfl, empty, fun removes => ?_⟩
      obtain ⟨e, shown, -⟩ := (t.exists_mem_materializeDir rootInode _).mpr
        (removes.others _ listed (conflictName_ne "a" 9 0))
      rw [show t.materializeDir rootInode = [] from empty] at shown
      cases shown

end Remove

end NexusFS.Net
