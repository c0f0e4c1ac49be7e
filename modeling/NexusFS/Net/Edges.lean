/- GID: NexusFS/Net/Edges
   source: crates/core/src/ops.rs, crates/core/src/apply.rs
   digest: What each operation of a node that only it writes to does to the edges of its tree. -/

import NexusFS.Net.ReadBack
import NexusFS.Net.Solo

set_option autoImplicit false
set_option relaxedAutoImplicit false

namespace NexusFS.Net

open NexusFS.Lib NexusFS.Lib.Effect NexusFS.Proto NexusFS.Core NexusFS.Crdt CoreState Relation

section Steps

variable {env : Env} {identity : Identity} {last : Nat} {clock now : U64} {kind : EntryType}
  {s t u : CoreState} {op : FsOp} {p q : U128} {n m : String} {mode : U32}

def Files (s t : CoreState) : Prop := ∀ {i reg}, FileAt i reg s → FileAt i reg t

/-- What a creation of the node's own does to the tree: one leaf more. -/
structure Grafted (s t : CoreState) (p : U128) (n : String) (x : U128 × EntryType) : Prop where
  edges : ∀ a l b, Edge t a l b ↔ Edge s a l b ∨ (a = (p, .dir) ∧ l = n ∧ b = x)
  loose : ∀ a l, ¬Edge s a l x
  childless : ∀ l b, ¬Edge s x l b
  other : x ≠ rootNode
  files : Files s t

theorem linked_of_edge {a b : U128 × EntryType} {l : String} (edge : Edge s a l b) : s.Linked a.1 b.1 := by
  obtain ⟨-, e, found, rfl⟩ := edge
  exact (linkedAs_of_lookup found).linked

private theorem quiet_logged (s : CoreState) (made : FsOp) : Quiet s ((counted s).appendOp made) :=
  ⟨rfl, rfl, rfl, rfl, rfl, rfl, rfl, rfl, rfl, rfl, fun _ here => here⟩

private theorem effect_linked {made : FsOp} {w : CoreState}
    (effect : Effect env made s w) (shape : made.kind = creation kind p n mode)
    (unknown : s.loadInode (inodeForOp env made.id) = none)
    (fresh : s.loadDir (inodeForOp env made.id) = none) :
    (∀ q m d, w.added q m d = if p = q ∧ n = m ∧ made.id = d then
        some ⟨inodeForOp env made.id, kind, made.time_unix_ms⟩ else s.added q m d) ∧
      (∀ q m d, w.Removed q m d ↔ s.Removed q m d) ∧
      ∀ i, w.loadInode i = if inodeForOp env made.id = i then
        some (InodeRecord.new kind mode made.time_unix_ms made.id.device_id made.id.counter)
      else s.loadInode i := by
  obtain ⟨dir, rfl⟩ := effect.creates shape
  have apart : inodeForOp env made.id ≠ p := by
    rintro rfl
    simp [CoreState.isDir, unknown] at dir
  exact ⟨added_linkCreated apart fresh, removed_linkCreated apart fresh, loadInode_linkCreated⟩

private theorem effect_unlinked {made : FsOp} {observed : List OpId} {w : CoreState}
    (effect : Effect env made s w) (shape : made.kind = .unlink p n observed) :
    (∀ q m d v, w.Live q m d v ↔ s.Live q m d v ∧ ¬(p = q ∧ n = m ∧ d ∈ observed)) ∧
      (∀ q m d, w.Removed q m d ↔ (p = q ∧ n = m ∧ d ∈ observed) ∨ s.Removed q m d) ∧
      ∀ i, w.loadInode i = s.loadInode i := by
  cases effect with
  | @created _ _ _ entry shape' => cases entry <;> cases shape.symm.trans shape'
  | superseded shape' | wrote shape' | movedNothing shape' | moved shape' | changedAttrs shape' =>
      cases shape.symm.trans shape'
  | unlinked shape' dir =>
      cases shape.symm.trans shape'
      refine ⟨fun q m d v => ?_, removed_removeDots p n observed, fun _ => rfl⟩
      unfold Live
      rw [added_removeDots, removed_removeDots]
      tauto

theorem Solo.creates (solo : Solo env last clock s)
    (inj : Set.InjOn (inodeForOp env) (idsUpTo s.device_id last)) (room : s.next_counter.val + 1 ≤ last)
    (bound : last < 2 ^ 64) (after : clock ≤ now) (free : s.lookup p n = none)
    (run : applyLocal env identity (creation kind p n mode) now s = .ok op t) :
    op.id = nextId s ∧ Solo env last now t ∧ Grafted s t p n (inodeForOp env (nextId s), kind) ∧
      (kind = .file → FileAt (inodeForOp env (nextId s)) (createdReg (nextId s) now) t) := by
  obtain ⟨id, w, stepped⟩ := solo.stepped room bound run
  have shape := solo.orderly.shape
  have member := Solo.next_member room bound
  have new : nextId s ∉ s.applied := fun known => Solo.not_taken room bound (solo.applied known)
  have fresh := shape.loadDir_fresh inj member new
  obtain ⟨added, removed, inodes⟩ := effect_linked stepped.effect rfl
    (shape.loadInode_fresh inj member new) fresh
  have vacant : ∀ d v, ¬s.Live p n d v := by
    intro d v live
    have found := (Sole.lookup_iff solo.sole).mpr ⟨d, v, live, rfl⟩
    rw [free] at found
    cases found
  have live : ∀ q m d v, t.Live q m d v ↔
      (q = p ∧ m = n ∧ d = nextId s ∧ v = ⟨inodeForOp env (nextId s), kind, now⟩) ∨
        (s.Live q m d v ∧ True) := by
    intro q m d v
    rw [live_of_dirs stepped.dirs, and_true]
    unfold Live
    rw [added, removed]
    constructor
    · rintro ⟨here, kept⟩
      split at here
      · rename_i same
        obtain ⟨rfl, rfl, rfl⟩ := same
        exact .inl ⟨rfl, rfl, rfl, (Option.some.inj here).symm⟩
      · exact .inr ⟨here, kept⟩
    · rintro (⟨rfl, rfl, rfl, rfl⟩ | ⟨here, kept⟩)
      · rw [if_pos ⟨rfl, rfl, rfl⟩]
        exact ⟨rfl, fun gone => Solo.not_taken room bound (solo.removed gone)⟩
      · rw [if_neg]
        · exact ⟨here, kept⟩
        · rintro ⟨-, -, rfl⟩
          exact new (shape.dotApplied here)
  obtain ⟨sole, edges⟩ := Sole.relink solo.sole (fun _ _ => True) vacant live
  simp only [and_true] at edges
  refine ⟨id, stepped.solo solo inj room bound after run sole fun q m d gone => .inl ((removed q m d).mp gone),
    ⟨edges, fun a l edge => ?_, fun l b edge => ?_, fun same => ?_, fun {i reg} file => ?_⟩, fun isFile => ?_⟩
  · exact shape.not_linked_fresh inj member new a.1 (linked_of_edge edge)
  · have held := s.loadDir_of_linked (linked_of_edge edge)
    rw [fresh] at held
    cases held
  · exact inodeForOp_ne_rootInode env (nextId s) (congrArg Prod.fst same)
  · obtain ⟨record, found, isFile, content⟩ := file
    refine stepped.fileAt_iff.mpr ⟨record, ?_, isFile, content⟩
    rw [inodes, if_neg]
    · exact found
    · intro same
      have missing := shape.loadInode_fresh inj member new
      rw [show inodeForOp env (nextId s) = i from same, found] at missing
      cases missing
  · subst isFile
    exact stepped.fileAt_iff.mpr ⟨_, (inodes _).trans (if_pos rfl), rfl, rfl⟩

theorem Solo.unlinks (solo : Solo env last clock s)
    (inj : Set.InjOn (inodeForOp env) (idsUpTo s.device_id last)) (room : s.next_counter.val + 1 ≤ last)
    (bound : last < 2 ^ 64) (after : clock ≤ now)
    (run : applyLocal env identity (.unlink p n (observedEntryOps s p n)) now s = .ok op t) :
    Solo env last now t ∧ (∀ a l b, Edge t a l b ↔ Edge s a l b ∧ ¬(a = (p, .dir) ∧ l = n)) ∧ Files s t := by
  obtain ⟨-, w, stepped⟩ := solo.stepped room bound run
  obtain ⟨live, removed, inodes⟩ := effect_unlinked stepped.effect rfl
  have gone : ∀ q m d v, t.Live q m d v ↔ s.Live q m d v ∧ ¬(q = p ∧ m = n) := by
    intro q m d v
    rw [live_of_dirs stepped.dirs, live]
    refine and_congr_right fun here => not_congr ⟨?_, ?_⟩
    · rintro ⟨rfl, rfl, -⟩
      exact ⟨rfl, rfl⟩
    · rintro ⟨rfl, rfl⟩
      exact ⟨rfl, rfl, mem_observedEntryOps.mpr ⟨v, here⟩⟩
  obtain ⟨sole, edges⟩ := Sole.cut solo.sole gone
  refine ⟨stepped.solo solo inj room bound after run sole fun q m d lost => ?_,
    fun a l b => (edges a l b).trans edge_apart, fun {i reg} file => ?_⟩
  · rcases (removed q m d).mp lost with ⟨rfl, rfl, seen⟩ | old
    · obtain ⟨v, here⟩ := mem_observedEntryOps.mp seen
      exact .inr (solo.orderly.shape.dotApplied here.1)
    · exact .inl old
  · obtain ⟨record, found, isFile, content⟩ := file
    exact stepped.fileAt_iff.mpr ⟨record, (inodes i).trans found, isFile, content⟩

private theorem effect_written {made : FsOp} {inode : U128} {offset size : U64} {chunks : List ChunkRef}
    {encryption : Option FileEncryption} {w : CoreState} (effect : Effect env made s w)
    (shape : made.kind = .write inode offset chunks size encryption) {i : U128} (other : i ≠ inode) :
    w.loadInode i = s.loadInode i := by
  cases effect with
  | @created _ _ _ entry shape' => cases entry <;> cases shape.symm.trans shape'
  | movedNothing shape' | moved shape' | unlinked shape' | changedAttrs shape' =>
      cases shape.symm.trans shape'
  | superseded => rfl
  | wrote shape' found file wins content =>
      cases shape.symm.trans shape'
      obtain ⟨blobs, draws, -, rfl⟩ := content
      exact (loadInode_storeInode _ _ _ _).trans (if_neg other.symm)

private theorem effect_moved {ids : Set OpId} {made : FsOp} {w : CoreState}
    (effect : Effect env made s w) (shape : made.kind = .rename p n q m (observedEntryOps s p n))
    (tree : Shape env ids s) (new : made.id ∉ s.applied) {d : Dot} {v : DirEntryValue}
    (only : (s.dirAt p).getAll n = [(d, v)]) (apart : ¬(p = q ∧ n = m)) :
    Relinked s w p n q m made.id (movedValue made v) ∧
      (∀ i l e, w.Removed i l e → s.Removed i l e ∨ e ∈ s.applied) ∧
      (∀ i, w.loadInode i = s.loadInode i) := by
  have live : s.Live p n d v := ((s.dirAt p).mem_getAll n d v).mp (by rw [only]; simp)
  cases effect with
  | @created _ _ _ entry shape' => cases entry <;> cases shape.symm.trans shape'
  | superseded shape' | wrote shape' | unlinked shape' | changedAttrs shape' =>
      cases shape.symm.trans shape'
  | movedNothing shape' =>
      have none_seen : observedEntryOps s p n = [] := by injection shape.symm.trans shape'
      rw [getAll_of_observed_nil none_seen] at only
      cases only
  | @moved _ _ _ _ _ dot entry shape' valid source target chosen outside =>
      cases shape.symm.trans shape'
      obtain ⟨member, -, -⟩ := renameSource_eq_some chosen
      rw [only, List.mem_singleton] at member
      cases member
      refine ⟨relinked_moveEntry tree (fun d v live => mem_observedEntryOps.mpr ⟨v, live⟩) new
        (tree.not_below_source live target outside) apart rfl, fun i l e gone => ?_, loadInode_moveEntry⟩
      rcases (removed_moveEntry i l e).mp gone with ⟨rfl, rfl, seen⟩ | old
      · obtain ⟨v', here⟩ := mem_observedEntryOps.mp seen
        exact .inr (tree.dotApplied here.1)
      · exact .inl old

theorem Solo.renames (solo : Solo env last clock s)
    (inj : Set.InjOn (inodeForOp env) (idsUpTo s.device_id last)) (room : s.next_counter.val + 1 ≤ last)
    (bound : last < 2 ^ 64) (after : clock ≤ now) {x : U128 × EntryType} (edge : Edge s (p, .dir) n x)
    (free : s.lookup q m = none)
    (run : applyLocal env identity (.rename p n q m (observedEntryOps s p n)) now s = .ok op t) :
    Solo env last now t ∧ (∀ a l b, Edge t a l b ↔ (Edge s a l b ∧ ¬(a = (p, .dir) ∧ l = n)) ∨
        (a = (q, .dir) ∧ l = m ∧ b = x)) ∧
      (∀ back, ¬Walks (Edge s) x back (q, .dir)) ∧ Files s t := by
  obtain ⟨-, w, stepped⟩ := solo.stepped room bound run
  obtain ⟨-, d, v, live, rfl⟩ := (Sole.edge_iff solo.sole).mp edge
  have new : nextId s ∉ s.applied := fun known => Solo.not_taken room bound (solo.applied known)
  have vacant : ∀ d v, ¬s.Live q m d v := by
    intro d v live
    have found := (Sole.lookup_iff solo.sole).mpr ⟨d, v, live, rfl⟩
    rw [free] at found
    cases found
  have apart : ¬(p = q ∧ n = m) := by
    rintro ⟨rfl, rfl⟩
    exact vacant d v live
  have counted_shape := (solo.orderly.quiet (quiet_logged s (authoredOp env identity
    (.rename p n q m (observedEntryOps s p n)) now s))).shape
  obtain ⟨relinked, removed, inodes⟩ := effect_moved stepped.effect rfl counted_shape new
    (Sole.getAll solo.sole live) apart
  have moved : ∀ i l d' v', t.Live i l d' v' ↔
      (i = q ∧ l = m ∧ d' = nextId s ∧ v' = ⟨v.inode_id, v.entry_type, now⟩) ∨
        (s.Live i l d' v' ∧ ¬(i = p ∧ l = n)) := by
    intro i l d' v'
    rw [live_of_dirs stepped.dirs]
    refine (relinked.live i l d' v').trans (or_congr_left ?_)
    constructor
    · rintro ⟨here, there, same, value, -⟩
      exact ⟨here, there, same, value⟩
    · rintro ⟨here, there, same, value⟩
      exact ⟨here, there, same, value, fun gone => Solo.not_taken room bound (solo.removed gone)⟩
  obtain ⟨sole, edges⟩ := Sole.relink solo.sole (fun i l => ¬(i = p ∧ l = n)) vacant moved
  refine ⟨stepped.solo solo inj room bound after run sole removed,
    fun a l b => (edges a l b).trans (or_congr_left edge_apart), fun back walk => ?_, fun {i reg} file => ?_⟩
  · exact relinked.free (leads_iff_walks.mpr walk).linked
  · obtain ⟨record, found, isFile, content⟩ := file
    exact stepped.fileAt_iff.mpr ⟨record, (inodes i).trans found, isFile, content⟩

theorem Solo.writes {a : CoreState} {inode : U128} {data : Bytes}
    (solo : Solo env last clock a) (inj : Set.InjOn (inodeForOp env) (idsUpTo a.device_id last))
    (room : a.next_counter.val + 1 ≤ last) (bound : last < 2 ^ 64) (after : clock ≤ now)
    (ideal : Ideal env) (decodes : ∀ object, env.decodeObject (env.encodeObject object) = some object)
    (size : a.chunk_size ≤ 2 ^ 32 - 1 - 16) (length : data.length < 2 ^ 64)
    (stocked : Provided env data now a (withContent env data a) t) (keyed : Keyed env t)
    (run : applyLocal env identity (writeKind env a inode data) now (withContent env data a) = .ok op t) :
    Solo env last now t ∧ Edge t = Edge a ∧ readFile env t inode = .ok data ∧
      (∀ {i reg}, i ≠ inode → FileAt i reg a → FileAt i reg t) ∧
      ∀ {i reg}, FileAt i reg t → (i ≠ inode ∧ FileAt i reg a) ∨
        (reg.value.node_hash = none ∧ reg.value.size = 0) ∨ (i = inode ∧ reg.value.size.val = data.length) := by
  have solo_b := solo.content stocked.only stocked.keyed
  obtain ⟨dirs, outcome⟩ := write_outcome ideal decodes stocked keyed size length
    (Set.notMem_empty inode) (fun performed => solo_b.rest performed) run
  have wins : ∀ {reg}, FileAt inode reg a → reg.orderKey < writeKey now a := by
    intro reg file
    refine (solo.clocked file.contentAt).trans_lt ((orderKeyOf_mono after le_rfl).trans_lt ?_)
    refine orderKeyOf_lt le_rfl ?_
    rw [Fin.lt_def, Solo.next_counter_val room bound]
    exact Nat.lt_succ_self _
  have read : readFile env t inode = .ok data := by
    cases outcome with
    | lost low =>
        rcases low with known | ⟨reg, file, low⟩
        · exact absurd (solo.applied known) (Solo.not_taken room bound)
        · exact absurd (wins file) low
    | took _ _ _ _ read => exact read
  obtain ⟨b, isB⟩ : ∃ b, withContent env data a = b := ⟨_, rfl⟩
  rw [isB] at run stocked
  rw [isB] at solo_b
  obtain ⟨blobs, draws, -, same⟩ := stocked.only
  have device : b.device_id = a.device_id := same ▸ rfl
  have counter : b.next_counter = a.next_counter := same ▸ rfl
  have inodes : ∀ i, b.loadInode i = a.loadInode i := same ▸ fun _ => rfl
  rw [← counter] at room
  rw [← device] at inj
  obtain ⟨-, w, stepped⟩ := solo_b.stepped room bound run
  have dirs_w : w.dirs = b.dirs := stepped.dirs.symm.trans (dirs.trans (same ▸ rfl))
  refine ⟨stepped.solo solo_b inj room bound after run (Sole.congr solo.sole dirs) fun p n d gone => .inl ?_,
    edge_of_dirs dirs, read, fun {i reg} other file => ?_, fun {i reg} file => ?_⟩
  · exact (removed_congr dirs_w p n d).mp gone
  · obtain ⟨record, found, isFile, content⟩ := file
    refine stepped.fileAt_iff.mpr ⟨record, ?_, isFile, content⟩
    exact (effect_written stepped.effect rfl other).trans ((inodes i).trans found)
  · rcases solo_b.fileAt room bound run file with ⟨old, low⟩ | fresh | ⟨_, _, _, _, shape, length'⟩
    · have before : FileAt i reg a := by
        obtain ⟨record, found, isFile, content⟩ := old
        exact ⟨record, (inodes i).symm.trans found, isFile, content⟩
      refine .inl ⟨?_, before⟩
      rintro rfl
      refine low ⟨_, _, _, _, rfl⟩ ?_
      have same_key : writeKey now b = writeKey now a := by
        unfold writeKey
        rw [device, counter]
      rw [same_key]
      exact wins before
    · exact .inr (.inl fresh)
    · cases shape
      refine .inr (.inr ⟨rfl, ?_⟩)
      rw [length']
      exact Nat.mod_eq_of_lt length

end Steps

end NexusFS.Net
