/- GID: NexusFS/Core/NodeLimit
   source: crates/core/src/apply.rs, crates/core/src/snapshot.rs
   digest: With as many directories as the walk allows, the order of delivery shows in the map. -/

import NexusFS.Core.Convergence

/-!
A file is created, written and unlinked, and a million directories are made next
to it. The unlink is followed by a full walk. Delivered before the directories,
the walk succeeds and drops the file from the map. Delivered after them, the walk
meets the node limit once the unlink has been recorded, and the map keeps the
file.
-/

set_option autoImplicit false
set_option relaxedAutoImplicit false

namespace NexusFS.Core

open NexusFS.Lib NexusFS.Lib.Effect NexusFS.Proto NexusFS.Crdt CoreState Relation

section Steps

variable {env : Env} {ids : Set OpId} {s : CoreState} {op : FsOp}

private theorem refresh_others (env : Env) {i k : U128} (other : k ≠ i) (s : CoreState) :
    (finalState (refreshMapEntry env i s)).imap[k]? = s.imap[k]? := by
  have drop : (s.dropImap i).imap[k]? = s.imap[k]? := by
    rw [dropImap, BTreeMap.get_erase, if_neg fun same => other same.symm]
  have put : ∀ {m : BTreeMap U128 Hash} {hash}, m = s.imap.insert i hash → m[k]? = s.imap[k]? := by
    rintro m hash rfl
    rw [BTreeMap.get_insert, if_neg fun same => other same.symm]
  unfold refreshMapEntry
  simp only [bind_run, get_run]
  cases isReachable s i with
  | error e => rfl
  | ok reachable =>
      cases reachable with
      | false => exact drop
      | true =>
          simp only [liftCheck_ok, if_true]
          cases s.loadInode i with
          | none => exact drop
          | some record =>
              obtain ⟨kind, content, attrs, ctime⟩ := record
              cases kind with
              | dir =>
                  obtain ⟨blobs, -, run⟩ := putObject_blobs env (currentDirObject s i) s
                  simp only [storeDirObject, bind_run, get_run, run, modify_run]
                  exact put rfl
              | file =>
                  dsimp only
                  cases content.value.node_hash with
                  | none => exact drop
                  | some hash => exact put rfl

private theorem drain_idle (env : Env) (idle : s.pending = ∅) :
    drainPending env s = .ok 0 s := by
  have none_parked : s.pendingOps.isEmpty = true := by
    simp [pendingOps, idle]
  show drainLoop env (s.pending.size + 1) s = .ok 0 s
  rw [drainLoop_succ, if_pos none_parked]

private theorem applyOp_idle {u : CoreState} (admits : Admits env op true s)
    (new : op.id ∉ s.applied) (idle : s.pending = ∅)
    (took : mutate env op (s.appendOp op) = .ok .done u) :
    Aside (finalState (maintainInodeMap env op (u.noteApplied op)))
      (finalState (applyOp env op s)) := by
  have effect : Effect env op (s.appendOp op) u := by
    have spec := mutate_spec env op (s.appendOp op)
    rw [took] at spec
    exact spec
  have only := onlyMap_maintain env op (u.noteApplied op)
  have call : applyOp env op s = _ := applyOpInner_new admits new
  have settle : settleApplied env op u = maintainInodeMap env op (u.noteApplied op) := rfl
  rw [attempt_run, took] at call
  dsimp only at call
  rw [settle] at call
  cases run : maintainInodeMap env op (u.noteApplied op) with
  | error e v =>
      rw [run] at call
      rw [call]
      exact ⟨_, _, _, _, _, fun _ here => here, rfl⟩
  | ok r v =>
      rw [run] at call only
      obtain ⟨blobs, imap, -, rfl⟩ := only
      obtain ⟨dirs, inodes, parents, stored, draws, -, rfl⟩ := effect.frame
      have empty : (s.pending.erase op.id) = ∅ := by
        rw [idle]
        exact Std.ExtTreeMap.erase_empty
      dsimp only at call
      rw [drain_idle env (show _ = ∅ from empty)] at call
      rw [call]
      exact aside_closeCall env True _

private theorem maintain_mkdir_others {parent : U128} {name : String} {mode : U32}
    (kindIs : op.kind = .mkdir parent name mode) {k : U128} (apart : k ≠ parent)
    (old : k ≠ inodeForOp env op.id) (s : CoreState) :
    (finalState (maintainInodeMap env op s)).imap[k]? = s.imap[k]? := by
  have first := refresh_others env apart s
  unfold maintainInodeMap
  simp only [kindIs, bind_run]
  cases run : refreshMapEntry env parent s with
  | error e t =>
      rw [run] at first
      exact first
  | ok u t =>
      rw [run] at first
      exact (refresh_others env old t).trans first

private theorem shape_deliver (inj : Set.InjOn (inodeForOp env) ids) (sequence : List FsOp)
    (within : ∀ op ∈ sequence, op.id ∈ ids) (shape : Shape env ids s) :
    Shape env ids (deliver env s sequence) := by
  induction sequence generalizing s with
  | nil => exact shape
  | cons op rest ih =>
      have first := shape.event inj (show (Event.apply op).Within ids from
        within op List.mem_cons_self)
      exact ih (fun other member => within other (List.mem_cons_of_mem op member)) first

/-- `t` is `s` with one more directory at the root. -/
private structure Joined (env : Env) (op : FsOp) (name : String) (s t : CoreState) : Prop where
  idle : t.pending = ∅
  policy : t.proofs = s.proofs
  applied : t.applied = s.applied.insert op.id
  map : ∀ k, k ≠ rootInode → k ≠ inodeForOp env op.id → t.imap[k]? = s.imap[k]?
  added : ∀ p n d, t.added p n d =
    if rootInode = p ∧ name = n ∧ op.id = d then some (createdValue env op .dir) else s.added p n d
  removed : ∀ p n d, t.Removed p n d ↔ s.Removed p n d

private theorem Shape.joined (shape : Shape env ids s) (inj : Set.InjOn (inodeForOp env) ids)
    (member : op.id ∈ ids) (new : op.id ∉ s.applied) (admits : Admits env op true s)
    (idle : s.pending = ∅) {name : String} {mode : U32}
    (kindIs : op.kind = .mkdir rootInode name mode) (valid : validateName name = .ok ()) :
    Joined env op name s (finalState (applyOp env op s)) := by
  have dir : (s.appendOp op).isDir rootInode = true := shape.root
  have other := inodeForOp_ne_rootInode env op.id
  have fresh : (s.appendOp op).loadDir (inodeForOp env op.id) = none :=
    shape.loadDir_fresh inj member new
  have took : mutate env op (s.appendOp op) =
      .ok .done (linkCreated env op rootInode name mode .dir (s.appendOp op)) := by
    unfold mutate
    simp only [kindIs, mutateCreate_run, valid, dir, if_true]
  have effect : Effect env op (s.appendOp op)
      (linkCreated env op rootInode name mode .dir (s.appendOp op)) :=
    .created (show op.kind = creation .dir rootInode name mode from kindIs) valid dir
  have added := @added_linkCreated env op rootInode name mode .dir (s.appendOp op) other fresh
  have removed := @removed_linkCreated env op rootInode name mode .dir (s.appendOp op) other fresh
  have aside := applyOp_idle admits new idle took
  generalize linkCreated env op rootInode name mode .dir (s.appendOp op) = u at effect added removed aside
  have rows := fun k apart old => @maintain_mkdir_others env op rootInode name mode kindIs k apart
    old (u.noteApplied op)
  have only := onlyMap_maintain env op (u.noteApplied op)
  obtain ⟨dirs, inodes, parents, stored, draws, -, frame⟩ := effect.frame
  obtain ⟨blobs, imap, -, maintained⟩ := only
  obtain ⟨kept, head, root, kv, blob, -, closed⟩ := aside
  have sameDirs : (finalState (applyOp env op s)).dirs = u.dirs := by
    rw [closed, maintained]
    rfl
  refine ⟨?_, ?_, ?_, ?_, ?_, ?_⟩
  · rw [closed, maintained, frame]
    show s.pending.erase op.id = ∅
    rw [idle]
    exact Std.ExtTreeMap.erase_empty
  · rw [closed, maintained, frame]
    rfl
  · rw [closed, maintained, frame]
    rfl
  · intro k apart old
    have row := rows k apart old
    rw [closed]
    refine row.trans ?_
    rw [frame]
    rfl
  · intro p n d
    rw [added_congr sameDirs, added]
    rfl
  · intro p n d
    rw [removed_congr sameDirs, removed]
    rfl

theorem Shape.rebuild_overfull (shape : Shape env ids s) {dirs : List U128} (nodup : dirs.Nodup)
    (below : ∀ i ∈ dirs, DirBelow s rootInode i) (many : maxTreeNodes < dirs.length) :
    (finalState (rebuildInodeMap env s)).imap = s.imap := by
  have spec := shape.walkRoot_spec true
  unfold rebuildInodeMap
  simp only [bind_run, get_run]
  cases run : walkRoot env s true with
  | error e w => rfl
  | ok hash w =>
      rw [run] at spec
      have inside : dirs ⊆ w.visited.toList := fun i member =>
        (BTreeSet.mem_toList _ _).mpr ((spec.2 i).mpr (below i member))
      have length := (nodup.subperm inside).length_le
      have bound := walkRoot_size run
      rw [Std.ExtTreeSet.length_toList] at length
      omega

end Steps

section Slots

/-- A digest that spells out the counter of an operation id, so that no two counters collide. -/
def slotHash (bytes : Bytes) : Hash :=
  Fin.ofNat (2 ^ 256) ((2 ^ 64 + ofBytes (bytes.drop 32)) * 2 ^ 128)

def slotEnv : Env := { Env.plain with blake3 := slotHash }

theorem inodeForOp_slot (id : OpId) : (inodeForOp slotEnv id).val = 2 ^ 64 + id.counter.val := by
  have bound := id.counter.isLt
  have counter : ofBytes ((inodeDomain ++ be128 id.device_id ++ be64 id.counter).drop 32) =
      id.counter.val := by
    rw [List.drop_left' (by simp [inodeDomain, be128]), be64, ofBytes_beBytes,
      Nat.mod_eq_of_lt (by omega)]
  have first : (firstSixteen (slotEnv.blake3
      (inodeDomain ++ be128 id.device_id ++ be64 id.counter))).val = 2 ^ 64 + id.counter.val := by
    show (slotHash (inodeDomain ++ be128 id.device_id ++ be64 id.counter)).val / 2 ^ 128 = _
    rw [slotHash, counter, Fin.val_ofNat, Nat.mod_eq_of_lt (by omega),
      Nat.mul_div_cancel _ (Nat.two_pow_pos 128)]
  unfold inodeForOp skipReserved
  rw [if_neg, first]
  intro low
  have small := Fin.le_def.mp low
  rw [first] at small
  have root : rootInode.val = 1 := rfl
  omega

def slotOp (counter : Nat) (kind : FsOpKind) : FsOp where
  id := ⟨7, Fin.ofNat _ counter⟩
  time_unix_ms := 0
  ctx := ⟨[]⟩
  kind := kind
  author_pubkey := 0
  sig := List.replicate 64 1
  proof := none

def fileOp : FsOp := slotOp 1 (.createFile rootInode "f" 0)

def fileInode : U128 := inodeForOp slotEnv fileOp.id

def contentOp : FsOp := slotOp 2 (.write fileInode 0 [] 0 none)

def unlinkOp : FsOp := slotOp 3 (.unlink rootInode "f" [fileOp.id])

def dirOp (i : Nat) : FsOp := slotOp (4 + i) (.mkdir rootInode "d" 0)

def dirOps (k : Nat) : List FsOp := (List.range k).map dirOp

/-- The file, its content, its removal, and as many directories as the walk allows nodes. -/
def crowdedOps : Finset FsOp :=
  ([fileOp, contentOp, unlinkOp] ++ dirOps maxTreeNodes).toFinset

def unlinkLast : List FsOp := [fileOp, contentOp] ++ dirOps maxTreeNodes ++ [unlinkOp]

def unlinkFirst : List FsOp := [fileOp, contentOp, unlinkOp] ++ dirOps maxTreeNodes

theorem mem_crowdedOps (op : FsOp) :
    op ∈ crowdedOps ↔ op = fileOp ∨ op = contentOp ∨ op = unlinkOp ∨
      ∃ i < maxTreeNodes, op = dirOp i := by
  simp only [crowdedOps, List.mem_toFinset, List.mem_append, dirOps, List.mem_map, List.mem_range,
    List.mem_cons, List.not_mem_nil, or_false, or_assoc]
  constructor
  · rintro (same | same | same | ⟨i, bound, same⟩)
    · exact .inl same
    · exact .inr (.inl same)
    · exact .inr (.inr (.inl same))
    · exact .inr (.inr (.inr ⟨i, bound, same.symm⟩))
  · rintro (same | same | same | ⟨i, bound, same⟩)
    · exact .inl same
    · exact .inr (.inl same)
    · exact .inr (.inr (.inl same))
    · exact .inr (.inr (.inr ⟨i, bound, same.symm⟩))

theorem covers_unlinkLast : Covers crowdedOps unlinkLast := by
  intro op
  simp only [unlinkLast, crowdedOps, List.mem_toFinset, List.mem_append, List.mem_cons,
    List.not_mem_nil, or_false]
  generalize (op ∈ dirOps maxTreeNodes) = inside
  tauto

theorem covers_unlinkFirst : Covers crowdedOps unlinkFirst := by
  intro op
  rw [unlinkFirst, crowdedOps, List.mem_toFinset]

private theorem slotOp_counter {counter : Nat} (bound : counter < 2 ^ 64) (kind : FsOpKind) :
    (slotOp counter kind).id.counter.val = counter := by
  show (Fin.ofNat (2 ^ 64) counter).val = counter
  rw [Fin.val_ofNat, Nat.mod_eq_of_lt bound]

private theorem dirOp_counter {i : Nat} (bound : i < maxTreeNodes) :
    (dirOp i).id.counter.val = 4 + i := by
  have wide : 4 + i < 2 ^ 64 := by
    unfold maxTreeNodes at bound
    omega
  exact slotOp_counter wide _

private theorem crowded_counter {op : FsOp} (member : op ∈ crowdedOps) :
    op.id.device_id = 7 ∧
      ((op = fileOp ∧ op.id.counter.val = 1) ∨ (op = contentOp ∧ op.id.counter.val = 2) ∨
        (op = unlinkOp ∧ op.id.counter.val = 3) ∨
        ∃ i < maxTreeNodes, op = dirOp i ∧ op.id.counter.val = 4 + i) := by
  rcases (mem_crowdedOps op).mp member with rfl | rfl | rfl | ⟨i, bound, rfl⟩
  · exact ⟨rfl, .inl ⟨rfl, slotOp_counter (by omega) _⟩⟩
  · exact ⟨rfl, .inr (.inl ⟨rfl, slotOp_counter (by omega) _⟩)⟩
  · exact ⟨rfl, .inr (.inr (.inl ⟨rfl, slotOp_counter (by omega) _⟩))⟩
  · exact ⟨rfl, .inr (.inr (.inr ⟨i, bound, rfl, dirOp_counter bound⟩))⟩

theorem crowdedOps_batch : Batch slotEnv crowdedOps := by
  refine ⟨?_, ?_, ?_, ?_⟩
  · intro op member
    rcases (mem_crowdedOps op).mp member with rfl | rfl | rfl | ⟨i, -, rfl⟩ <;> rfl
  · intro a b left right same
    have counters : a.id.counter.val = b.id.counter.val := congrArg (fun id => id.counter.val) same
    rcases (crowded_counter left).2 with ⟨rfl, one⟩ | ⟨rfl, one⟩ | ⟨rfl, one⟩ | ⟨i, -, rfl, one⟩ <;>
      rcases (crowded_counter right).2 with ⟨rfl, two⟩ | ⟨rfl, two⟩ | ⟨rfl, two⟩ | ⟨j, -, rfl, two⟩ <;>
      first
        | rfl
        | (exfalso; omega)
        | (obtain rfl : i = j := by omega
           rfl)
  · rintro a ⟨op, left, rfl⟩ b ⟨op', right, rfl⟩ same
    have values := congrArg Fin.val same
    rw [inodeForOp_slot, inodeForOp_slot] at values
    have counter : op.id.counter = op'.id.counter := Fin.ext (by omega)
    show OpId.mk op.id.device_id op.id.counter = op'.id
    rw [(crowded_counter left).1, counter, ← (crowded_counter right).1]
  · intro op member
    rcases (mem_crowdedOps op).mp member with rfl | rfl | rfl | ⟨i, -, rfl⟩
    · exact trivial
    · refine ⟨rfl, rfl, fun other inside makes same => ?_⟩
      have values := congrArg Fin.val same
      rw [fileInode, inodeForOp_slot, inodeForOp_slot] at values
      have one : fileOp.id.counter.val = 1 := slotOp_counter (by omega) _
      rcases (crowded_counter inside).2 with ⟨rfl, -⟩ | ⟨rfl, -⟩ | ⟨rfl, -⟩ | ⟨i, -, rfl, counter⟩
      · cases makes
      · cases makes
      · cases makes
      · omega
    · exact trivial
    · exact trivial

end Slots

section Crowd

variable {base s : CoreState} {k : Nat}

/-- The first `k` directories have been delivered to a replica in state `base`. -/
private structure Crowd (base : CoreState) (k : Nat) (s : CoreState) : Prop where
  shape : Shape slotEnv (batchIds crowdedOps) s
  idle : s.pending = ∅
  policy : s.proofs = .none
  file : s.imap[fileInode]? = base.imap[fileInode]?
  dirs : ∀ i < k, s.added rootInode "d" (dirOp i).id = some (createdValue slotEnv (dirOp i) .dir)
  kept : ∀ dot, ¬s.Removed rootInode "d" dot
  later : ∀ i, k ≤ i → i < maxTreeNodes → (dirOp i).id ∉ s.applied
  unlink : unlinkOp.id ∈ s.applied ↔ unlinkOp.id ∈ base.applied

private theorem admits_crowded {op : FsOp} (member : op ∈ crowdedOps) (policy : s.proofs = .none) :
    Admits slotEnv op true s :=
  ⟨crowdedOps_batch.signed op member, fun _ => by simp [checkProof, policy, pure, Except.pure]⟩

private theorem dirOp_mem {i : Nat} (bound : i < maxTreeNodes) : dirOp i ∈ crowdedOps :=
  (mem_crowdedOps _).mpr (.inr (.inr (.inr ⟨i, bound, rfl⟩)))

private theorem dirOp_id_ne {i j : Nat} (boundI : i < maxTreeNodes) (boundJ : j < maxTreeNodes)
    (other : i ≠ j) : (dirOp i).id ≠ (dirOp j).id := by
  intro same
  have counters : (dirOp i).id.counter.val = (dirOp j).id.counter.val := by rw [same]
  rw [dirOp_counter boundI, dirOp_counter boundJ] at counters
  omega

private theorem fileInode_ne_dir {i : Nat} (bound : i < maxTreeNodes) :
    fileInode ≠ inodeForOp slotEnv (dirOp i).id := by
  intro same
  have values := congrArg Fin.val same
  have one : fileOp.id.counter.val = 1 := slotOp_counter (by omega) _
  rw [fileInode, inodeForOp_slot, inodeForOp_slot, dirOp_counter bound, one] at values
  omega

private theorem Crowd.step (crowd : Crowd base k s) (room : k < maxTreeNodes) :
    Crowd base (k + 1) (finalState (applyOp slotEnv (dirOp k) s)) := by
  have member := dirOp_mem room
  have inIds : (dirOp k).id ∈ batchIds crowdedOps := ⟨_, member, rfl⟩
  have separate := crowdedOps_batch.separate
  have joined := crowd.shape.joined separate inIds (crowd.later k le_rfl room)
    (admits_crowded member crowd.policy) crowd.idle
    (show (dirOp k).kind = .mkdir rootInode "d" 0 from rfl) rfl
  have shape := crowd.shape.event separate (show (Event.apply (dirOp k)).Within _ from inIds)
  refine ⟨shape, joined.idle, joined.policy.trans crowd.policy, ?_, ?_, ?_, ?_, ?_⟩
  · have row := joined.map fileInode (inodeForOp_ne_rootInode slotEnv fileOp.id)
      (fileInode_ne_dir room)
    exact row.trans crowd.file
  · intro i before
    rw [joined.added]
    rcases Nat.lt_succ_iff_lt_or_eq.mp before with earlier | rfl
    · rw [if_neg fun spot => dirOp_id_ne room (earlier.trans room) (Nat.ne_of_gt earlier) spot.2.2]
      exact crowd.dirs i earlier
    · rw [if_pos ⟨rfl, rfl, rfl⟩]
  · intro dot
    rw [joined.removed]
    exact crowd.kept dot
  · intro i after bound
    rw [joined.applied, BTreeSet.mem_insert]
    rintro (same | old)
    · exact dirOp_id_ne room bound (Nat.ne_of_lt after) same
    · exact crowd.later i (Nat.le_of_lt after) bound old
  · rw [joined.applied, BTreeSet.mem_insert, ← crowd.unlink]
    refine or_iff_right fun same => ?_
    have counters : (dirOp k).id.counter.val = unlinkOp.id.counter.val := by rw [same]
    have three : unlinkOp.id.counter.val = 3 := slotOp_counter (by omega) _
    rw [dirOp_counter room, three] at counters
    omega

private theorem Crowd.all (crowd : Crowd base 0 base) (bound : k ≤ maxTreeNodes) :
    Crowd base k (deliver slotEnv base (dirOps k)) := by
  induction k with
  | zero => exact crowd
  | succ k ih =>
      have before := (ih (Nat.le_of_succ_le bound)).step bound
      rw [dirOps, List.range_succ, List.map_append, deliver_append]
      exact before

private def crowdInodes : List U128 :=
  (List.range maxTreeNodes).map fun i => inodeForOp slotEnv (dirOp i).id

private theorem crowdInodes_many : maxTreeNodes < (rootInode :: crowdInodes).length := by
  rw [crowdInodes, List.length_cons, List.length_map, List.length_range]
  exact Nat.lt_succ_self _

private theorem crowdInodes_nodup : (rootInode :: crowdInodes).Nodup := by
  rw [crowdInodes, List.nodup_cons]
  constructor
  · intro member
    obtain ⟨i, -, same⟩ := List.mem_map.mp member
    exact inodeForOp_ne_rootInode slotEnv _ same
  · refine List.Nodup.map_on ?_ List.nodup_range
    intro i left j right same
    have values := congrArg Fin.val same
    rw [List.mem_range] at left right
    rw [inodeForOp_slot, inodeForOp_slot, dirOp_counter left, dirOp_counter right] at values
    omega

private theorem Crowd.unlink_last (crowd : Crowd base maxTreeNodes s)
    (new : unlinkOp.id ∉ s.applied) :
    (finalState (applyOp slotEnv unlinkOp s)).imap = s.imap := by
  have member : unlinkOp ∈ crowdedOps := (mem_crowdedOps _).mpr (.inr (.inr (.inl rfl)))
  have inIds : unlinkOp.id ∈ batchIds crowdedOps := ⟨_, member, rfl⟩
  have kindIs : unlinkOp.kind = .unlink rootInode "f" [fileOp.id] := rfl
  have logged := crowd.shape.appendOp unlinkOp
  have dir : (s.appendOp unlinkOp).isDir rootInode = true := crowd.shape.root
  have took : mutate slotEnv unlinkOp (s.appendOp unlinkOp) = .ok .done
      ((s.appendOp unlinkOp).storeDir rootInode
        (((s.appendOp unlinkOp).dirAt rootInode).removeDots "f" [fileOp.id])) := by
    unfold mutate
    simp only [kindIs, mutateUnlink_run, dir, if_true]
  have shape := logged.noteApplied crowdedOps_batch.separate inIds new
    (.unlinked kindIs dir : Effect slotEnv unlinkOp (s.appendOp unlinkOp) _)
  have aside := applyOp_idle (admits_crowded member crowd.policy) new crowd.idle took
  have added := @added_removeDots (s.appendOp unlinkOp) rootInode "f" [fileOp.id]
  have removed := @removed_removeDots (s.appendOp unlinkOp) rootInode "f" [fileOp.id]
  have before : ((s.appendOp unlinkOp).storeDir rootInode
      (((s.appendOp unlinkOp).dirAt rootInode).removeDots "f" [fileOp.id])).imap = s.imap := rfl
  generalize (s.appendOp unlinkOp).storeDir rootInode
    (((s.appendOp unlinkOp).dirAt rootInode).removeDots "f" [fileOp.id]) = u
    at shape aside added removed before
  have linked : ∀ i < maxTreeNodes, (u.noteApplied unlinkOp).LinkedAs .dir rootInode
      (inodeForOp slotEnv (dirOp i).id) := by
    intro i bound
    refine ⟨"d", (dirOp i).id, createdValue slotEnv (dirOp i) .dir, ⟨?_, ?_⟩, rfl, rfl⟩
    · rw [added_noteApplied, added]
      exact crowd.dirs i bound
    · rw [removed_noteApplied, removed]
      rintro (⟨-, same, -⟩ | gone)
      · exact absurd same (by decide)
      · exact crowd.kept _ gone
  have below : ∀ i ∈ rootInode :: crowdInodes, DirBelow (u.noteApplied unlinkOp) rootInode i := by
    intro i inside
    rcases List.mem_cons.mp inside with rfl | made
    · exact .refl
    · obtain ⟨j, range, rfl⟩ := List.mem_map.mp made
      exact .single (linked j (List.mem_range.mp range))
  have kept := shape.rebuild_overfull crowdInodes_nodup below crowdInodes_many
  have maintained : (finalState (maintainInodeMap slotEnv unlinkOp (u.noteApplied unlinkOp))).imap =
      (finalState (rebuildInodeMap slotEnv (u.noteApplied unlinkOp))).imap := by
    unfold maintainInodeMap
    simp only [kindIs, bind_run]
    cases rebuildInodeMap slotEnv (u.noteApplied unlinkOp) <;> rfl
  obtain ⟨_, _, _, _, _, -, same⟩ := aside
  rw [same]
  exact (maintained.trans kept).trans before

def writtenState : CoreState :=
  deliver slotEnv (booted slotEnv (CoreState.new 7)) [fileOp, contentOp]

def unlinkedState : CoreState :=
  deliver slotEnv (booted slotEnv (CoreState.new 7)) [fileOp, contentOp, unlinkOp]

private theorem crowd_start (members : ∀ op ∈ [fileOp, contentOp, unlinkOp], op ∈ crowdedOps)
    {early : List FsOp} (among : ∀ op ∈ early, op ∈ [fileOp, contentOp, unlinkOp])
    (same : base = deliver slotEnv (booted slotEnv (CoreState.new 7)) early)
    (idle : base.pending.size = 0) (policy : base.proofs = .none)
    (kept : ((base.dirAt rootInode).removesAt "d").size = 0)
    (few : ∀ id ∈ base.applied.toList, id.counter.val < 4) : Crowd base 0 base := by
  refine ⟨?_, Std.ExtTreeMap.eq_empty_iff_size_eq_zero.mpr idle, policy, rfl, ?_, ?_, ?_, Iff.rfl⟩
  · rw [same]
    refine shape_deliver crowdedOps_batch.separate early ?_
      ((booted_spec slotEnv (blank_new 7)).shape (blank_new 7))
    exact fun op inside => ⟨op, members op (among op inside), rfl⟩
  · intro i none_yet
    exact absurd none_yet (Nat.not_lt_zero i)
  · intro dot removed
    have here : dot ∈ (base.dirAt rootInode).removesAt "d" := removed
    rw [Std.ExtTreeSet.eq_empty_iff_size_eq_zero.mpr kept] at here
    exact Std.ExtTreeSet.not_mem_empty here
  · intro i _ bound applied
    have low := few _ ((BTreeSet.mem_toList _ _).mpr applied)
    rw [dirOp_counter bound] at low
    omega

private theorem early_mem : ∀ op ∈ [fileOp, contentOp, unlinkOp], op ∈ crowdedOps := by
  intro op inside
  rw [crowdedOps, List.mem_toFinset]
  exact List.mem_append_left _ inside

private theorem crowd_written : Crowd writtenState 0 writtenState :=
  crowd_start early_mem (by simp) rfl (by decide +kernel) (by decide +kernel) (by decide +kernel)
    (by decide +kernel)

private theorem crowd_unlinked : Crowd unlinkedState 0 unlinkedState :=
  crowd_start early_mem (fun _ inside => inside) rfl (by decide +kernel) (by decide +kernel)
    (by decide +kernel) (by decide +kernel)

private theorem file_of_unlinkLast :
    (deliver slotEnv (booted slotEnv (CoreState.new 7)) unlinkLast).imap.contains fileInode
      = true := by
  have crowd := crowd_written.all le_rfl
  have new : unlinkOp.id ∉ (deliver slotEnv writtenState (dirOps maxTreeNodes)).applied := by
    rw [crowd.unlink]
    decide +kernel
  have kept := crowd.unlink_last new
  have split : deliver slotEnv (booted slotEnv (CoreState.new 7)) unlinkLast =
      finalState (applyOp slotEnv unlinkOp (deliver slotEnv writtenState (dirOps maxTreeNodes))) := by
    rw [unlinkLast, deliver_append, deliver_append, deliver_singleton, writtenState]
  have here : writtenState.imap.contains fileInode = true := by decide +kernel
  rw [split, kept, Std.ExtTreeMap.contains_eq_isSome_getElem?, crowd.file,
    ← Std.ExtTreeMap.contains_eq_isSome_getElem?]
  exact here

private theorem no_file_of_unlinkFirst :
    (deliver slotEnv (booted slotEnv (CoreState.new 7)) unlinkFirst).imap.contains fileInode
      = false := by
  have crowd := crowd_unlinked.all le_rfl
  have split : deliver slotEnv (booted slotEnv (CoreState.new 7)) unlinkFirst =
      deliver slotEnv unlinkedState (dirOps maxTreeNodes) := by
    rw [unlinkFirst, deliver_append, unlinkedState]
  have gone : unlinkedState.imap.contains fileInode = false := by decide +kernel
  rw [split, Std.ExtTreeMap.contains_eq_isSome_getElem?, crowd.file,
    ← Std.ExtTreeMap.contains_eq_isSome_getElem?]
  exact gone

private theorem crowdedOps_replica : Replica crowdedOps (CoreState.new 7) := by
  refine ⟨blank_new 7, ?_, rfl⟩
  intro op member inode offset chunks new_size encryption kindIs chunk inside
  rcases (mem_crowdedOps op).mp member with rfl | rfl | rfl | ⟨i, -, rfl⟩
  · cases kindIs
  · cases kindIs
    cases inside
  · cases kindIs
  · cases kindIs

private theorem crowdedOps_plain : ∀ op ∈ crowdedOps, isRename op = false ∧ ¬Hopeless op := by
  intro op member
  rcases (mem_crowdedOps op).mp member with rfl | rfl | rfl | ⟨i, -, rfl⟩
  · exact ⟨rfl, fun invalid => invalid rfl⟩
  · exact ⟨rfl, inodeForOp_ne_rootInode slotEnv fileOp.id⟩
  · exact ⟨rfl, id⟩
  · exact ⟨rfl, fun invalid => invalid rfl⟩

/-- A million directories beside an unlinked file: the two orders end with different maps. -/
theorem node_limit_splits :
    Batch slotEnv crowdedOps ∧ (∀ op ∈ crowdedOps, isRename op = false ∧ ¬Hopeless op) ∧
      Replica crowdedOps (CoreState.new 7) ∧ Covers crowdedOps unlinkLast ∧
      Covers crowdedOps unlinkFirst ∧
      ¬Converged (deliver slotEnv (booted slotEnv (CoreState.new 7)) unlinkLast)
        (deliver slotEnv (booted slotEnv (CoreState.new 7)) unlinkFirst) := by
  refine ⟨crowdedOps_batch, crowdedOps_plain, crowdedOps_replica, covers_unlinkLast,
    covers_unlinkFirst, fun converged => ?_⟩
  have here := file_of_unlinkLast
  have gone := no_file_of_unlinkFirst
  rw [Std.ExtTreeMap.contains_eq_isSome_getElem?, Option.isSome_iff_exists] at here
  obtain ⟨hash, row⟩ := here
  have listed := (BTreeMap.mem_toList _ _ _).mpr row
  have same := converged.map
  unfold inodeMap at same
  rw [same] at listed
  rw [Std.ExtTreeMap.contains_eq_isSome_getElem?, (BTreeMap.mem_toList _ _ _).mp listed] at gone
  cases gone

end Crowd

end NexusFS.Core
