/- GID: NexusFS/Core/Attrs
   source: crates/core/src/apply.rs, crates/crdt/src/lww.rs, crates/core/src/snapshot.rs
   digest: When attribute changes commute: the last one has to give what the others would. -/

import NexusFS.Core.Present
import NexusFS.Core.Watch
import NexusFS.Lib.Overlay

/-!
`mutate_setattr` fills the fields an operation leaves out from the register it
finds, and the register keeps the change of the highest key. So it is an overlay
register over the three fields, and its orders agree as those of `Lib/Overlay` do.
-/

set_option autoImplicit false
set_option relaxedAutoImplicit false

namespace NexusFS.Core

open NexusFS.Lib NexusFS.Lib.Effect NexusFS.Proto NexusFS.Crdt CoreState

/-- The fields of an attribute register. -/
inductive AttrField where
  | mode
  | uid
  | gid
  deriving DecidableEq

def AttrState.get (attrs : AttrState) : AttrField → U32
  | .mode => attrs.mode
  | .uid => attrs.uid
  | .gid => attrs.gid

theorem AttrState.get_injective : Function.Injective AttrState.get := by
  intro a b same
  have mode := congrFun same .mode
  have uid := congrFun same .uid
  have gid := congrFun same .gid
  cases a
  cases b
  simp only [AttrState.get] at mode uid gid
  rw [mode, uid, gid]

def SetsAttrs (inode : U128) (op : FsOp) : Prop :=
  ∃ mode uid gid, op.kind = .setAttr inode mode uid gid

def givenAttr (op : FsOp) (field : AttrField) : Option U32 :=
  match op.kind with
  | .setAttr _ mode uid gid =>
      match field with
      | .mode => mode
      | .uid => uid
      | .gid => gid
  | _ => none

def attrsAt (s : CoreState) (inode : U128) : Option (LwwReg AttrState) :=
  (s.loadInode inode).map InodeRecord.attrs

/-- The register after an attribute change: the fields it leaves out stay as they are. -/
def mergeAttrs (reg : LwwReg AttrState) (op : FsOp) : LwwReg AttrState :=
  reg.merge
    ⟨⟨(givenAttr op .mode).getD reg.value.mode, (givenAttr op .uid).getD reg.value.uid,
      (givenAttr op .gid).getD reg.value.gid⟩, op.time_unix_ms, op.id.device_id, op.id.counter⟩

section Register

def fieldsOf (reg : LwwReg AttrState) : Overlay.Register OrderKey AttrField U32 :=
  ⟨reg.orderKey, reg.value.get⟩

theorem fieldsOf_injective : Function.Injective fieldsOf := by
  rintro ⟨a, t, w, q⟩ ⟨b, t', w', q'⟩ same
  have keys : orderKeyOf t w q = orderKeyOf t' w' q' := congrArg Overlay.Register.key same
  have values : a.get = b.get := congrArg Overlay.Register.value same
  obtain ⟨rfl, rfl, rfl⟩ := orderKeyOf_inj.mp keys
  rw [AttrState.get_injective values]

theorem fieldsOf_mergeAttrs (reg : LwwReg AttrState) (op : FsOp) :
    fieldsOf (mergeAttrs reg op) = Overlay.put regKey givenAttr (fieldsOf reg) op := by
  unfold mergeAttrs LwwReg.merge Overlay.put
  split
  · rename_i higher
    have takes : (fieldsOf reg).key < regKey op := higher
    rw [if_pos takes]
    ext field
    · rfl
    · cases field <;> rfl
  · rename_i lower
    have leaves : ¬(fieldsOf reg).key < regKey op := lower
    rw [if_neg leaves]

theorem fieldsOf_foldl (reg : LwwReg AttrState) (ops : List FsOp) :
    fieldsOf (ops.foldl mergeAttrs reg) = ops.foldl (Overlay.put regKey givenAttr) (fieldsOf reg) := by
  induction ops generalizing reg with
  | nil => rfl
  | cons op ops ih => rw [List.foldl_cons, ih, fieldsOf_mergeAttrs, List.foldl_cons]

end Register

section Delivered

variable {env : Env} {ids : Set OpId} {inode : U128} {s t : CoreState} {op : FsOp}

theorem Took.attrs_other (took : Took env op s t) (shape : Shape env ids s)
    (inj : Set.InjOn (inodeForOp env) ids) (member : op.id ∈ ids) (new : op.id ∉ s.applied)
    (other : ¬SetsAttrs inode op) {reg : LwwReg AttrState} (found : attrsAt s inode = some reg) :
    attrsAt t inode = some reg := by
  obtain ⟨u, effect, blobs, imap, -, rfl⟩ := took
  rw [← found]
  show (u.loadInode inode).map InodeRecord.attrs = (s.loadInode inode).map InodeRecord.attrs
  cases effect with
  | @created parent name mode kind _ _ dir =>
      have apart : inodeForOp env op.id ≠ inode := by
        rintro rfl
        simp [attrsAt, shape.loadInode_fresh inj member new] at found
      rw [@loadInode_linkCreated env op parent name mode kind s inode, if_neg apart]
  | superseded => rfl
  | @wrote target _ _ _ _ record _ _ _ here _ _ content =>
      obtain ⟨blobs, draws, -, rfl⟩ := content
      have stored := loadInode_storeInode s target inode
      unfold mergeContent
      show ((s.storeInode target _).loadInode inode).map InodeRecord.attrs = _
      rw [stored]
      split
      · rename_i same
        subst same
        rw [here]
        rfl
      · rfl
  | movedNothing => rfl
  | moved => rw [loadInode_moveEntry]
  | unlinked => rfl
  | @changedAttrs target mode uid gid _ kindIs _ =>
      rw [loadInode_storeInode, if_neg]
      rintro rfl
      exact other ⟨mode, uid, gid, kindIs⟩

theorem Took.attrs_set (took : Took env op s t) (sets : SetsAttrs inode op)
    {reg : LwwReg AttrState} (found : attrsAt s inode = some reg) :
    attrsAt t inode = some (mergeAttrs reg op) := by
  obtain ⟨mode, uid, gid, kindIs⟩ := sets
  obtain ⟨u, effect, blobs, imap, -, rfl⟩ := took
  show (u.loadInode inode).map InodeRecord.attrs = _
  obtain ⟨record, here, rfl⟩ := Option.map_eq_some_iff.mp found
  cases effect with
  | @created parent name mode kind shape =>
      cases kind <;> simp [kindIs, creation] at shape
  | superseded shape => simp [kindIs] at shape
  | wrote shape => simp [kindIs] at shape
  | movedNothing shape => simp [kindIs] at shape
  | moved shape => simp [kindIs] at shape
  | unlinked shape => simp [kindIs] at shape
  | @changedAttrs target mode' uid' gid' record' shape stored =>
      rw [kindIs] at shape
      obtain ⟨rfl, rfl, rfl, rfl⟩ := FsOpKind.setAttr.inj shape
      obtain rfl := Option.some.inj (here.symm.trans stored)
      rw [loadInode_storeInode, if_pos rfl]
      simp only [mergeAttrs, givenAttr, kindIs, Option.map_some]

private theorem attrs_undisturbed (inj : Set.InjOn (inodeForOp env) ids)
    (reg : LwwReg AttrState) :
    Undisturbed env ids (SetsAttrs inode) (fun t => attrsAt t inode = some reg) where
  took shape member new other took found := took.attrs_other shape inj member new other found
  cleared _ found := found
  logged _ found := found
  aside := by
    rintro s t ⟨_, _, _, _, _, -, rfl⟩ found
    exact found

private theorem took_setAttr (sets : SetsAttrs inode op) {record : InodeRecord}
    (found : s.loadInode inode = some record) :
    (∃ t, attempt env op s = .ok .done t ∧ Took env op s t) ∨
      ∃ e t, attempt env op s = .error e t ∧ Took env op s t := by
  obtain ⟨mode, uid, gid, kindIs⟩ := sets
  have spec := attempt_spec env op s
  have runs : mutate env op s = mutateSetattr op inode mode uid gid s := by
    simp only [mutate, kindIs]
  rw [mutateSetattr_run, found] at runs
  cases run : attempt env op s with
  | error e t =>
      rw [run] at spec
      rcases spec with ⟨-, refused⟩ | ⟨took, -⟩
      · rw [runs] at refused
        cases refused
      · exact .inr ⟨e, t, rfl, took⟩
  | ok outcome t =>
      rw [run] at spec
      cases outcome with
      | unmet reason =>
          have waits := spec.2
          rw [runs] at waits
          cases waits
      | done => exact .inl ⟨t, rfl, spec⟩

private theorem Watched.setAttr {ops : List FsOp} {policy : ProofPolicy} {done : Set OpId}
    {reg : LwwReg AttrState} (inj : Set.InjOn (inodeForOp env) ids) (member : op.id ∈ ids)
    (sets : SetsAttrs inode op)
    (watched : Watched env ids (SetsAttrs inode) (fun t => attrsAt t inode = some reg) ops policy
      done s) (admits : Admits env op true s) (new : op.id ∉ s.applied) :
    Watched env ids (SetsAttrs inode) (fun t => attrsAt t inode = some (mergeAttrs reg op)) ops
      policy (insert op.id done) (finalState (applyOp env op s)) := by
  have logged := watched.appendOp (attrs_undisturbed inj reg) op
  have merged : ∀ {t}, Took env op (s.appendOp op) t → Watched env ids (SetsAttrs inode)
      (fun t => attrsAt t inode = some (mergeAttrs reg op)) ops policy (insert op.id done) t :=
    fun took => logged.took inj member new took (took.attrs_set sets logged.holds)
  have close := fun {t} => @Watched.close env ids (SetsAttrs inode) _ ops policy
    (insert op.id done) s t op inj (attrs_undisturbed inj (mergeAttrs reg op)) admits new
  obtain ⟨record, found, -⟩ := Option.map_eq_some_iff.mp watched.holds
  rcases @took_setAttr env inode (s.appendOp op) op sets record found with
    ⟨t, run, took⟩ | ⟨e, t, run, took⟩
  · exact close (.inl run) (merged took)
  · exact close (.inr ⟨e, run⟩) (merged took)

end Delivered

section Committed

variable {env : Env} {inode : U128} {s t : CoreState} {op : FsOp}

private theorem climbParents_congr (dirs : t.dirs = s.dirs) (parents : t.parents = s.parents)
    (imap : t.imap = s.imap) (fuel : Nat) (current : U128) :
    climbParents t inode fuel current = climbParents s inode fuel current := by
  induction fuel generalizing current with
  | zero => rfl
  | succ fuel ih =>
      have up : t.parentOf current = s.parentOf current := by simp only [parentOf, parents]
      have lists : ∀ p, t.dirLists p current = s.dirLists p current := fun p => by
        simp only [dirLists, materializeDir, loadDir, dirs]
      unfold climbParents
      rw [imap, up]
      simp only [lists, ih]

theorem isReachable_congr (dirs : t.dirs = s.dirs) (parents : t.parents = s.parents)
    (imap : t.imap = s.imap) : isReachable t inode = isReachable s inode :=
  climbParents_congr dirs parents imap _ inode

theorem isReachable_mapped (mapped : s.imap.contains inode) : isReachable s inode = .ok true := by
  obtain ⟨n, more⟩ : ∃ n, maxTreeNodes + 1 = n + 1 := ⟨_, rfl⟩
  unfold isReachable
  rw [more]
  unfold climbParents
  split
  · rfl
  · rfl

theorem drainPending_empty (idle : s.pending = ∅) : drainPending env s = .ok 0 s := by
  have none_parked : s.pendingOps = [] := by
    rw [pendingOps, idle]
    rfl
  unfold drainPending
  rw [bind_run, get_run]
  dsimp only
  rw [drainLoop_succ, none_parked]
  rfl

private def closing (env : Env) :
    EStateM.Result Err CoreState Unit → EStateM.Result Err CoreState ApplyOutcome
  | .error e t => .error e t
  | .ok _ t =>
      match drainPending env t with
      | .error e u => .error e u
      | .ok _ u => .ok .applied (closeCall env True u)

/-- How a directory's entry and the root come out of a call, from whether it is reachable. -/
def EntrySettled (env : Env) (inode : U128) (s t : CoreState) : Prop :=
  match isReachable s inode with
  | .error _ => t.imap = s.imap ∧ t.state_root = s.state_root
  | .ok reachable =>
      t.imap = (if reachable then s.imap.insert inode (dirHash env t inode) else s.imap) ∧
        t.state_root = some (computeStateRoot env t)

/-- `t` has the records of `s`, and nothing is parked in it. -/
structure SameRecords (inode : U128) (s t : CoreState) : Prop where
  pending : t.pending = ∅
  dirs : t.dirs = s.dirs
  parents : t.parents = s.parents
  record : t.loadInode inode = s.loadInode inode

private theorem erase_unmapped (unreachable : isReachable s inode = .ok false) :
    s.imap.erase inode = s.imap := by
  apply Std.ExtTreeMap.ext_getElem?
  intro k
  rw [BTreeMap.get_erase]
  split
  · rename_i same
    subst same
    cases mapped : s.imap[inode]? with
    | none => rfl
    | some hash =>
        have here : s.imap.contains inode := by
          rw [Std.ExtTreeMap.contains_eq_isSome_getElem?, mapped]
          rfl
        rw [isReachable_mapped here] at unreachable
        cases unreachable
  · rfl

private theorem closing_refresh {record : InodeRecord} (found : s.loadInode inode = some record)
    (dir : record.kind = .dir) (idle : s.pending = ∅) :
    SameRecords inode s (finalState (closing env (refreshMapEntry env inode s))) ∧
      EntrySettled env inode s (finalState (closing env (refreshMapEntry env inode s))) := by
  unfold refreshMapEntry EntrySettled
  simp only [bind_run, get_run]
  cases answer : isReachable s inode with
  | error e => exact ⟨⟨idle, rfl, rfl, rfl⟩, rfl, rfl⟩
  | ok reachable =>
      cases reachable with
      | false =>
          have emptyDropped : (s.dropImap inode).pending = ∅ := idle
          obtain ⟨blobs, -, run⟩ := buildSnapshot_run env (s.dropImap inode)
          simp only [liftCheck_ok, Bool.false_eq_true, if_false, modify_run, closing,
            drainPending_empty emptyDropped, closeCall, if_true, run, finalState_ok]
          exact ⟨⟨idle, rfl, rfl, rfl⟩, erase_unmapped answer, rfl⟩
      | true =>
          obtain ⟨blobs, -, put⟩ := putObject_blobs env (currentDirObject s inode) s
          have emptyPut : ({ s with blobs := blobs }.putImap inode
              (objectHash env (currentDirObject s inode))).pending = ∅ := idle
          obtain ⟨blobs', -, run⟩ := buildSnapshot_run env
            ({ s with blobs := blobs }.putImap inode (objectHash env (currentDirObject s inode)))
          simp only [liftCheck_ok, if_true, found, dir, storeDirObject, bind_run, get_run, put,
            modify_run, closing, drainPending_empty emptyPut, closeCall, run, finalState_ok]
          exact ⟨⟨idle, rfl, rfl, rfl⟩, rfl, rfl⟩

private theorem applyOp_alone (sets : SetsAttrs inode op) {record : InodeRecord}
    (found : s.loadInode inode = some record) (dir : record.kind = .dir) (idle : s.pending = ∅)
    (admits : Admits env op true s) (new : op.id ∉ s.applied) :
    ∃ u, SameRecords inode u (finalState (applyOp env op s)) ∧
      EntrySettled env inode u (finalState (applyOp env op s)) ∧ u.dirs = s.dirs ∧
      u.parents = s.parents ∧ u.imap = s.imap ∧ u.state_root = s.state_root ∧
      u.loadInode inode = some { record with attrs := mergeAttrs record.attrs op } := by
  obtain ⟨mode, uid, gid, kindIs⟩ := sets
  obtain ⟨after, same⟩ : ∃ after : InodeRecord,
      after = { record with attrs := mergeAttrs record.attrs op } := ⟨_, rfl⟩
  have runs : mutate env op (s.appendOp op) =
      .ok .done ((s.appendOp op).storeInode inode after) := by
    have here : (s.appendOp op).loadInode inode = some record := found
    simp only [mutate, kindIs, mutateSetattr_run, here, same, mergeAttrs, givenAttr]
  obtain ⟨noted, isNoted⟩ : ∃ noted : CoreState,
      ((s.appendOp op).storeInode inode after).noteApplied op = noted := ⟨_, rfl⟩
  have dirs : noted.dirs = s.dirs := by
    simp only [← isNoted, CoreState.noteApplied, observeTime, clearPending, markOpApplied, storeInode,
      appendOp]
  have parents : noted.parents = s.parents := by
    simp only [← isNoted, CoreState.noteApplied, observeTime, clearPending, markOpApplied, storeInode,
      appendOp]
  have imap : noted.imap = s.imap := by
    simp only [← isNoted, CoreState.noteApplied, observeTime, clearPending, markOpApplied, storeInode,
      appendOp]
  have root : noted.state_root = s.state_root := by
    simp only [← isNoted, CoreState.noteApplied, observeTime, clearPending, markOpApplied, storeInode,
      appendOp]
  have stored : noted.loadInode inode = some after := by
    rw [← isNoted]
    exact (loadInode_storeInode _ inode inode after).trans (if_pos rfl)
  have empty : noted.pending = ∅ := by
    apply BTreeMap.ext_get
    intro id
    rw [← isNoted]
    show (s.pending.erase op.id)[id]? = _
    rw [idle, BTreeMap.get_erase]
    split
    · rw [Std.ExtTreeMap.getElem?_empty]
    · rfl
  have settles : settleApplied env op ((s.appendOp op).storeInode inode after) =
      refreshMapEntry env inode noted := by
    rw [← isNoted]
    show maintainInodeMap env op (((s.appendOp op).storeInode inode after).noteApplied op) = _
    simp only [maintainInodeMap, kindIs]
  have kind : after.kind = .dir := by
    rw [same]
    exact dir
  have call : finalState (applyOp env op s) =
      finalState (closing env (refreshMapEntry env inode noted)) := by
    show finalState (applyOpInner env op true s) = _
    rw [applyOpInner_new admits new, attempt_run, runs]
    dsimp only
    rw [settles]
    cases refreshMapEntry env inode noted <;> rfl
  obtain ⟨records, entry⟩ := @closing_refresh env inode noted after stored kind empty
  rw [← call] at records entry
  exact ⟨noted, records, entry, dirs, parents, imap, root, stored.trans (congrArg some same)⟩

/-- What a delivery of attribute changes leaves of a directory when nothing was parked: its
record, and the map and the root that follow from it. -/
structure Alone (env : Env) (inode : U128) (s : CoreState) (record : InodeRecord)
    (touched : Bool) (t : CoreState) : Prop where
  pending : t.pending = ∅
  dirs : t.dirs = s.dirs
  parents : t.parents = s.parents
  record : t.loadInode inode = some record
  entry : if touched then EntrySettled env inode s t
    else t.imap = s.imap ∧ t.state_root = s.state_root

variable {record : InodeRecord} {touched : Bool}

private theorem Alone.isReachable_eq (alone : Alone env inode s record touched t) :
    isReachable t inode = isReachable s inode := by
  have unchanged : t.imap = s.imap → isReachable t inode = isReachable s inode :=
    isReachable_congr alone.dirs alone.parents
  have entry := alone.entry
  cases touched with
  | false => exact unchanged entry.1
  | true =>
      have settled : EntrySettled env inode s t := entry
      unfold EntrySettled at settled
      cases answer : isReachable s inode with
      | error e =>
          rw [answer] at settled unchanged
          exact unchanged settled.1
      | ok reachable =>
          rw [answer] at settled unchanged
          cases reachable with
          | false => exact unchanged settled.1
          | true =>
              refine isReachable_mapped ?_
              rw [settled.1, if_pos rfl, Std.ExtTreeMap.contains_insert]
              simp

private theorem Alone.applyOp (alone : Alone env inode s record touched t)
    (sets : SetsAttrs inode op) (dir : record.kind = .dir) (admits : Admits env op true t)
    (new : op.id ∉ t.applied) :
    Alone env inode s { record with attrs := mergeAttrs record.attrs op } true
      (finalState (applyOp env op t)) := by
  obtain ⟨u, records, entry, dirs, parents, imap, root, changed⟩ :=
    @applyOp_alone env inode t op sets record alone.record dir alone.pending admits new
  refine ⟨records.pending, records.dirs.trans (dirs.trans alone.dirs),
    records.parents.trans (parents.trans alone.parents), records.record.trans changed, ?_⟩
  have before := alone.entry
  have reaches : isReachable u inode = isReachable s inode :=
    (isReachable_congr dirs parents imap).trans alone.isReachable_eq
  show EntrySettled env inode s (finalState (Core.applyOp env op t))
  unfold EntrySettled at entry ⊢
  rw [reaches, imap, root] at entry
  cases answer : isReachable s inode with
  | error e =>
      rw [answer] at entry
      have same : t.imap = s.imap ∧ t.state_root = s.state_root := by
        cases touched with
        | false => exact before
        | true =>
            have settled : EntrySettled env inode s t := before
            rw [EntrySettled, answer] at settled
            exact settled
      exact ⟨entry.1.trans same.1, entry.2.trans same.2⟩
  | ok reachable =>
      rw [answer] at entry
      refine ⟨?_, entry.2⟩
      cases touched with
      | false =>
          have same : t.imap = s.imap := before.1
          rw [entry.1, same]
      | true =>
          have settled : EntrySettled env inode s t := before
          rw [EntrySettled, answer] at settled
          rw [entry.1, settled.1]
          cases reachable with
          | false => rfl
          | true =>
              simp only [if_true]
              apply Std.ExtTreeMap.ext_getElem?
              intro k
              rw [BTreeMap.get_insert, BTreeMap.get_insert, BTreeMap.get_insert]
              split <;> rfl

theorem Alone.agree (left : Alone env inode s record touched t) {t' : CoreState}
    (right : Alone env inode s record touched t') :
    dirHash env t inode = dirHash env t' inode ∧ t.state_root = t'.state_root := by
  have hash : dirHash env t inode = dirHash env t' inode := by
    refine dirHash_congr ?_ (left.record.trans right.record.symm)
    simp only [loadDir, left.dirs, right.dirs]
  refine ⟨hash, ?_⟩
  have one := left.entry
  have two := right.entry
  cases touched with
  | false => exact one.2.trans two.2.symm
  | true =>
      have one : EntrySettled env inode s t := one
      have two : EntrySettled env inode s t' := two
      unfold EntrySettled at one two
      cases answer : isReachable s inode with
      | error e =>
          rw [answer] at one two
          exact one.2.trans two.2.symm
      | ok reachable =>
          rw [answer] at one two
          have imap : t.imap = t'.imap := by rw [one.1, two.1, hash]
          rw [one.2, two.2, computeStateRoot, computeStateRoot, inodeMap, inodeMap, imap]

private theorem foldl_changed (l : List FsOp) (record : InodeRecord) (touched : Bool) :
    l.foldl (fun (x : InodeRecord × Bool) op =>
      ({ x.1 with attrs := mergeAttrs x.1.attrs op }, true)) (record, touched) =
      ({ record with attrs := l.foldl mergeAttrs record.attrs }, touched || !l.isEmpty) := by
  induction l generalizing record touched with
  | nil => simp
  | cons op l ih =>
      rw [List.foldl_cons, ih, List.foldl_cons, Bool.true_or]
      simp

private theorem Alone.deliver {ids : Set OpId} {ops : List FsOp}
    (inj : Set.InjOn (inodeForOp env) ids) (sets : ∀ op ∈ ops, op.id ∈ ids ∧ SetsAttrs inode op)
    (watched : Watched env ids (SetsAttrs inode) (fun t => attrsAt t inode = some record.attrs) ops
      s.proofs {id | id ∈ s.applied} s)
    (order : List FsOp) (inside : ∀ op ∈ order, op ∈ ops) (distinct : (order.map FsOp.id).Nodup)
    (dir : record.kind = .dir) (alone : Alone env inode s record false s) :
    Alone env inode s
      { record with attrs := (order.filter (accepted env s)).foldl mergeAttrs record.attrs }
      (!(order.filter (accepted env s)).isEmpty) (deliver env s order) := by
  have attrs : ∀ {record touched t}, Alone env inode s record touched t →
      attrsAt t inode = some record.attrs := by
    intro record touched t alone
    rw [attrsAt, alone.record]
    rfl
  have followed := @Watched.deliver env ids (SetsAttrs inode) ops s.proofs _ s s _
    (fun (x : InodeRecord × Bool) t => Alone env inode s x.1 x.2 t ∧ x.1.kind = .dir)
    (fun x op => ({ x.1 with attrs := mergeAttrs x.1.attrs op }, true)) (fun _ _ => True)
    (fun {x done t op rest} _ member watched admits new =>
      (Watched.setAttr inj (sets op member).1 (sets op member).2
        (watched.imp (attrs watched.holds.1)) admits new).imp
        ⟨watched.holds.1.applyOp (sets op member).2 watched.holds.2 admits new, watched.holds.2⟩)
    (fun _ => trivial) order inside distinct trivial (record, false) rfl
    (watched.imp ⟨alone, dir⟩) (fun _ _ => Iff.rfl)
  rw [foldl_changed, Bool.false_or] at followed
  exact followed.1

end Committed

section Commute

variable {env : Env} {ids : Set OpId} {inode : U128} {s : CoreState} {record : InodeRecord}

def Contending (env : Env) (s : CoreState) (reg : LwwReg AttrState) (op : FsOp) : Prop :=
  accepted env s op = true ∧ reg.orderKey < regKey op

/-- Every field that the highest contending change leaves out is given by the others, if at all,
as the register has it. -/
def FieldsSettled (env : Env) (s : CoreState) (reg : LwwReg AttrState) (ops : List FsOp) : Prop :=
  ∀ top ∈ ops, Contending env s reg top →
    (∀ op ∈ ops, Contending env s reg op → regKey op ≤ regKey top) →
      ∀ op ∈ ops, Contending env s reg op → ∀ field, givenAttr top field = none →
        ∀ value, givenAttr op field = some value → value = reg.value.get field

private theorem contends_iff {reg : LwwReg AttrState} {ops : List FsOp} {op : FsOp} :
    Overlay.Contends regKey (fieldsOf reg) (ops.filter (accepted env s)) op ↔
      op ∈ ops ∧ Contending env s reg op := by
  unfold Overlay.Contends Contending
  rw [List.mem_filter, and_assoc]
  rfl

private theorem harmless_iff {reg : LwwReg AttrState} {ops : List FsOp} :
    Overlay.Redundant regKey givenAttr (fieldsOf reg) (ops.filter (accepted env s)) ↔
      FieldsSettled env s reg ops := by
  unfold Overlay.Redundant Overlay.Top FieldsSettled
  simp only [contends_iff]
  constructor
  · intro harmless top member contends highest op inside also
    exact harmless top ⟨⟨member, contends⟩, fun o here => highest o here.1 here.2⟩ op ⟨inside, also⟩
  · rintro settled top ⟨⟨member, contends⟩, highest⟩ op ⟨inside, also⟩
    exact settled top member contends (fun o here there => highest o ⟨here, there⟩) op inside also

private theorem merges_agree_iff {reg : LwwReg AttrState} {ops : List FsOp}
    (distinct : (ops.map FsOp.id).Nodup) :
    (∀ l₁ l₂ : List FsOp, l₁.Perm ops → l₂.Perm ops →
      (l₁.filter (accepted env s)).foldl mergeAttrs reg =
        (l₂.filter (accepted env s)).foldl mergeAttrs reg) ↔ FieldsSettled env s reg ops := by
  have keyed : ∀ a ∈ ops.filter (accepted env s), ∀ b ∈ ops.filter (accepted env s),
      regKey a = regKey b → a = b := fun a left b right same =>
    List.inj_on_of_nodup_map distinct (List.mem_of_mem_filter left) (List.mem_of_mem_filter right)
      (regKey_inj same)
  rw [← harmless_iff, ← Overlay.orders_agree_iff keyed]
  have fields : ∀ l₁ l₂ : List FsOp, l₁.foldl mergeAttrs reg = l₂.foldl mergeAttrs reg ↔
      l₁.foldl (Overlay.put regKey givenAttr) (fieldsOf reg) =
        l₂.foldl (Overlay.put regKey givenAttr) (fieldsOf reg) := by
    intro l₁ l₂
    rw [← fieldsOf_foldl, ← fieldsOf_foldl, fieldsOf_injective.eq_iff]
  constructor
  · intro agree m₁ m₂ first second
    obtain ⟨l₁, all₁, rfl⟩ := exists_order first
    obtain ⟨l₂, all₂, rfl⟩ := exists_order second
    have same := agree l₁ l₂ all₁ all₂
    exact (fields _ _).mp same
  · intro agree l₁ l₂ first second
    exact (fields _ _).mpr (agree _ _ (first.filter _) (second.filter _))

/-- What two replicas have to agree on: the attribute register, and for a directory its object
and the root. -/
structure AttrsAgree (env : Env) (inode : U128) (kind : EntryType) (t t' : CoreState) : Prop where
  register : attrsAt t inode = attrsAt t' inode
  object : kind = .dir → dirHash env t inode = dirHash env t' inode
  root : kind = .dir → t.state_root = t'.state_root

/-- Attribute changes of one inode commute exactly when their fields are settled: the registers of
all orders agree, and where nothing else is parked so do a directory's object and the root. -/
theorem setattr_commutes_iff (inj : Set.InjOn (inodeForOp env) ids)
    (run : Run env (fun _ e => e.Within ids) s) (found : s.loadInode inode = some record)
    {ops : List FsOp} (distinct : (ops.map FsOp.id).Nodup)
    (changes : ∀ op ∈ ops, op.id ∈ ids ∧ SetsAttrs inode op)
    (unparked : ∀ parked ∈ s.pendingOps, ¬SetsAttrs inode parked ∧ ∀ op ∈ ops, op.id ≠ parked.id) :
    ((∀ l₁ l₂ : List FsOp, l₁.Perm ops → l₂.Perm ops →
      attrsAt (deliver env s l₁) inode = attrsAt (deliver env s l₂) inode) ↔
        FieldsSettled env s record.attrs ops) ∧
    (s.pending = ∅ → ((∀ l₁ l₂ : List FsOp, l₁.Perm ops → l₂.Perm ops →
      AttrsAgree env inode record.kind (deliver env s l₁) (deliver env s l₂)) ↔
        FieldsSettled env s record.attrs ops)) := by
  have shape := run.shape inj fun _ _ within => within
  have now : attrsAt s inode = some record.attrs := by
    rw [attrsAt, found]
    rfl
  have watched : Watched env ids (SetsAttrs inode) (fun t => attrsAt t inode = some record.attrs)
      ops s.proofs {id | id ∈ s.applied} s := shape.watched now unparked
  have order : ∀ l : List FsOp, l.Perm ops → (∀ op ∈ l, op ∈ ops) ∧ (l.map FsOp.id).Nodup :=
    fun l perm => ⟨fun op here => perm.mem_iff.mp here, (perm.map FsOp.id).nodup_iff.mpr distinct⟩
  have register : ∀ l : List FsOp, l.Perm ops → attrsAt (deliver env s l) inode =
      some ((l.filter (accepted env s)).foldl mergeAttrs record.attrs) := by
    intro l perm
    obtain ⟨inside, apart⟩ := order l perm
    exact @Watched.deliver env ids (SetsAttrs inode) ops s.proofs _ s s _
      (fun reg t => attrsAt t inode = some reg) mergeAttrs (fun _ _ => True)
      (fun {x done t op rest} _ member watched admits new =>
        Watched.setAttr inj (changes op member).1 (changes op member).2 watched admits new)
      (fun _ => trivial) l inside apart trivial record.attrs rfl watched fun _ _ => Iff.rfl
  have registers : (∀ l₁ l₂ : List FsOp, l₁.Perm ops → l₂.Perm ops →
      attrsAt (deliver env s l₁) inode = attrsAt (deliver env s l₂) inode) ↔
        FieldsSettled env s record.attrs ops := by
    rw [← merges_agree_iff distinct]
    refine forall_congr' fun l₁ => forall_congr' fun l₂ => forall_congr' fun first =>
      forall_congr' fun second => ?_
    rw [register l₁ first, register l₂ second, Option.some.injEq]
  refine ⟨registers, fun idle => ⟨fun agree => ?_, fun settled l₁ l₂ first second => ?_⟩⟩
  · exact registers.mp fun l₁ l₂ first second => (agree l₁ l₂ first second).register
  · have same := registers.mpr settled l₁ l₂ first second
    by_cases dir : record.kind = .dir
    · have start : Alone env inode s record false s := ⟨idle, rfl, rfl, found, rfl, rfl⟩
      have alone : ∀ l : List FsOp, l.Perm ops → Alone env inode s
          { record with attrs := (l.filter (accepted env s)).foldl mergeAttrs record.attrs }
          (!(l.filter (accepted env s)).isEmpty) (deliver env s l) := by
        intro l perm
        obtain ⟨inside, apart⟩ := order l perm
        exact start.deliver inj changes watched l inside apart dir
      have left := alone l₁ first
      have right := alone l₂ second
      rw [register l₁ first, register l₂ second, Option.some.injEq] at same
      rw [same, ((first.trans second.symm).filter (accepted env s)).isEmpty_eq] at left
      obtain ⟨hash, root⟩ := left.agree right
      exact ⟨registers.mpr settled l₁ l₂ first second, fun _ => hash, fun _ => root⟩
    · exact ⟨same, fun here => absurd here dir, fun here => absurd here dir⟩

def attrsNode : CoreState :=
  [sampleFirst].foldl (fun s e => e.run .stored s) (booted .stored (CoreState.new 7))

private theorem attrsNode_run : Run .stored (fun _ e => e.Within {id | id ∈ firstIds 4}) attrsNode := by
  refine Run.foldl [sampleFirst] (.boot (blank_new 7)) fun s e member => ?_
  obtain rfl := List.mem_singleton.mp member
  exact (by decide +kernel : (⟨7, 1⟩ : OpId) ∈ firstIds 4)

/-- A change of the mode, a group that is set to what it is, and a later change of mode and owner. -/
def settledChanges : List FsOp :=
  [sampleOp 2 (.setAttr sampleParent (some 7) none none),
    sampleOp 3 (.setAttr sampleParent none none (some 0)),
    sampleOp 4 (.setAttr sampleParent (some 5) (some 9) none)]

private theorem settledChanges_settled {record : InodeRecord}
    (found : attrsNode.loadInode sampleParent = some record) :
    FieldsSettled .stored attrsNode record.attrs settledChanges := by
  have fresh : (attrsNode.loadInode sampleParent).map (fun x => (x.attrs.orderKey, x.attrs.value)) =
      some (orderKeyOf 0 7 1, ⟨0, 0, 0⟩) := by decide +kernel
  rw [found] at fresh
  obtain ⟨key, value⟩ := Prod.mk.inj (Option.some.inj fresh)
  have last : Contending .stored attrsNode record.attrs
      (sampleOp 4 (.setAttr sampleParent (some 5) (some 9) none)) := by
    refine ⟨by decide +kernel, ?_⟩
    rw [key]
    decide
  intro top member contends highest op inside _ field free given same
  have above := highest _ (.tail _ (.tail _ (.head _))) last
  rw [value]
  simp only [settledChanges, List.mem_cons, List.not_mem_nil, or_false] at member
  -- Only the last change can be the highest, and it leaves out nothing but the group.
  rcases member with rfl | rfl | rfl
  · exact absurd above (by decide)
  · exact absurd above (by decide)
  · simp only [settledChanges, List.mem_cons, List.not_mem_nil, or_false] at inside
    cases field <;> cases free
    rcases inside with rfl | rfl | rfl <;> cases same
    rfl

theorem setattr_commutes_sample :
    (∀ op ∈ settledChanges, accepted .stored attrsNode op = true) ∧
    (∀ l : List FsOp, l.Perm settledChanges →
      (attrsAt (deliver .stored attrsNode l) sampleParent).map LwwReg.value = some ⟨5, 9, 0⟩) ∧
    ∃ kind, ∀ l₁ l₂ : List FsOp, l₁.Perm settledChanges → l₂.Perm settledChanges →
      AttrsAgree .stored sampleParent kind (deliver .stored attrsNode l₁)
        (deliver .stored attrsNode l₂) := by
  have inj : Set.InjOn (inodeForOp .stored) {id | id ∈ firstIds 4} :=
    firstIds_injOn (by decide +kernel)
  have exists_record : (attrsNode.loadInode sampleParent).isSome = true := by decide +kernel
  obtain ⟨record, found⟩ := Option.isSome_iff_exists.mp exists_record
  have idle : attrsNode.pendingOps = [] := by decide +kernel
  have empty : attrsNode.pending = ∅ := Std.ExtTreeMap.toList_eq_nil_iff.mp (by
    simpa [pendingOps] using idle)
  have changes : ∀ op ∈ settledChanges,
      op.id ∈ {id | id ∈ firstIds 4} ∧ SetsAttrs sampleParent op := by
    intro op member
    simp only [settledChanges, List.mem_cons, List.not_mem_nil, or_false] at member
    rcases member with rfl | rfl | rfl
    · exact ⟨(by decide +kernel : (⟨7, 2⟩ : OpId) ∈ firstIds 4), _, _, _, rfl⟩
    · exact ⟨(by decide +kernel : (⟨7, 3⟩ : OpId) ∈ firstIds 4), _, _, _, rfl⟩
    · exact ⟨(by decide +kernel : (⟨7, 4⟩ : OpId) ∈ firstIds 4), _, _, _, rfl⟩
  have settled := settledChanges_settled found
  obtain ⟨registers, agree⟩ := setattr_commutes_iff inj attrsNode_run found (by decide +kernel) changes
    (by simp [idle])
  refine ⟨by decide +kernel, fun l order => ?_, record.kind, (agree empty).mpr settled⟩
  rw [registers.mpr settled l settledChanges order (.refl _)]
  decide +kernel

def chmodOp : FsOp := sampleOp 2 (.setAttr sampleParent (some 7) none none)

def chownOp : FsOp := sampleOp 3 (.setAttr sampleParent none (some 9) none)

/-- Delivered in one order the directory has the new mode, in the other it keeps the old one, and
the roots differ with it. -/
theorem partial_attrs_split :
    verifyOp .stored chmodOp = .ok () ∧ verifyOp .stored chownOp = .ok () ∧
      ((attrsAt (deliver .stored attrsNode [chmodOp, chownOp]) sampleParent).map LwwReg.value =
        some ⟨7, 9, 0⟩) ∧
      ((attrsAt (deliver .stored attrsNode [chownOp, chmodOp]) sampleParent).map LwwReg.value =
        some ⟨0, 9, 0⟩) ∧
      (deliver .stored attrsNode [chmodOp, chownOp]).state_root ≠
        (deliver .stored attrsNode [chownOp, chmodOp]).state_root := by
  decide +kernel

end Commute

end NexusFS.Core
