/- GID: NexusFS/Core/Convergence
   source: crates/core/src/apply.rs, crates/core/tests/namespace.rs
   digest: Replicas that receive the same operations in any orders end in the same state. -/

import NexusFS.Core.Delivery

/-!
The applied operations of a replica that has received a whole batch are the least
set closed under what the batch enables, so they do not depend on the order of
delivery. The namespace is what they mean, and the map and the root follow.
-/

set_option autoImplicit false
set_option relaxedAutoImplicit false

namespace NexusFS.Core

open NexusFS.Lib NexusFS.Lib.Effect NexusFS.Proto NexusFS.Crdt CoreState

section Start

variable {env : Env} {ops : Finset FsOp} {s : CoreState}

theorem canon_genesis (env : Env) (ops : Finset FsOp) (blank : Blank s) :
    Canon env ops (genesis s) := by
  have done : (genesis s).done = ∅ := by
    ext id
    show id ∈ s.applied ↔ id ∈ (∅ : Set OpId)
    rw [blank.applied]
    exact iff_of_false Std.ExtTreeSet.not_mem_empty (Set.notMem_empty id)
  have none_done : ∀ {id : OpId}, id ∉ (genesis s).done := fun {id} here => by
    rw [done] at here
    exact here
  refine ⟨⟨?_, ?_, ?_, ?_, ?_⟩, ⟨?_, ?_, ?_⟩, ?_, ?_, ?_⟩
  · intro p n d v here
    rw [added_genesis blank] at here
    cases here
  · intro op kind p n mode _ applied
    exact absurd applied none_done
  · intro op p n q m observed top _ applied
    exact absurd applied none_done
  · intro p n d
    refine iff_of_false ?_ ?_
    · simp only [CoreState.Removed, dirAt_genesis blank, OrMap.removesAt_empty]
      exact Std.ExtTreeSet.not_mem_empty
    · rintro ⟨op, -, applied, -⟩
      exact none_done applied
  · intro p
    rw [dirAt_genesis blank]
    exact OrMap.tidy_empty
  · intro i r found
    rw [loadInode_genesis blank] at found
    split at found
    · rename_i same
      subst same
      obtain rfl := Option.some.inj found
      refine ⟨_, .root, rfl, rfl, .init _ ?_, .init _ ?_⟩
      · rintro c ⟨op, -, applied, -⟩
        exact none_done applied
      · rintro c ⟨op, -, applied, -⟩
        exact none_done applied
    · cases found
  · intro i first born
    cases born with
    | root => exact ⟨genesisRecord, (loadInode_genesis blank _).trans (if_pos rfl)⟩
    | created _ applied _ => exact absurd applied none_done
  · intro op i _ applied
    exact absurd applied none_done
  · intro _ i p
    have empty : (genesis s).parentOf i = none := by
      show s.parents[i]? = none
      rw [blank.parents, Std.ExtTreeMap.getElem?_empty]
    rw [empty]
    refine iff_of_false (by simp) ?_
    rintro ⟨op, -, applied, -⟩
    exact none_done applied
  · intro id op here
    have stored : s.pending[id]? = some op := here
    rw [blank.pending, Std.ExtTreeMap.getElem?_empty] at stored
    cases stored
  · intro later _
    rw [done]
    exact Set.empty_subset later

theorem steady_booted (env : Env) (ops : Finset FsOp) (blank : Blank s) (stocked : Stocked ops s)
    (policy : s.proofs = .none) : Steady env ops ∅ (booted env s) := by
  have fresh := booted_spec env blank
  have canon := canon_genesis env ops blank
  refine ⟨⟨⟨fresh.shape blank, fresh.exact⟩, ?_, ?_, ?_,
    fun inside => absurd inside (Set.notMem_empty _)⟩, current_booted env blank, queue_booted env blank, ?_⟩
  · obtain ⟨blobs, imap, head, root, version, kv, blob, -, same⟩ := fresh.records
    rw [same]
    exact canon.congr rfl rfl rfl rfl canon.parked
  · obtain ⟨blobs, imap, head, root, version, kv, blob, keeps, same⟩ := fresh.records
    rw [same]
    exact stocked.mono keeps
  · obtain ⟨blobs, imap, head, root, version, kv, blob, -, same⟩ := fresh.records
    rw [same]
    exact policy
  · intro id op here
    obtain ⟨blobs, imap, head, root, version, kv, blob, -, same⟩ := fresh.records
    rw [same] at here
    have stored : s.pending[id]? = some op := here
    rw [blank.pending, Std.ExtTreeMap.getElem?_empty] at stored
    cases stored

end Start

section Agreement

variable {env : Env} {ops : Finset FsOp} {s t : CoreState}

def hopefulIds (ops : Finset FsOp) : Set OpId := {id | ∃ op ∈ ops, op.id = id ∧ ¬Hopeless op}

def Complete (env : Env) (ops : Finset FsOp) (s : CoreState) : Prop :=
  Steady env ops (hopefulIds ops) s

theorem complete_deliver (batch : Batch env ops) (few : FewDirs ops) (blank : Blank s)
    (stocked : Stocked ops s) (policy : s.proofs = .none) {sequence : List FsOp}
    (covers : ∀ op, op ∈ sequence ↔ op ∈ ops)
    (safe : ∀ x ∈ deliverAttempts env (booted env s) sequence, x.2 ∈ ops → RenameSafe x.1 x.2) :
    Complete env ops (deliver env (booted env s) sequence) := by
  obtain ⟨later, steady, -, held⟩ := (steady_booted env ops blank stocked policy).deliver batch few
    sequence (fun op inside => (covers op).mp inside) safe
  have sound := steady.sound
  refine ⟨⟨sound.exact, sound.canon, sound.stocked, sound.proofs, ?_⟩, steady.current,
    steady.queue, steady.closed⟩
  rintro id ⟨op, inside, rfl, hope⟩
  exact sound.held (held op ((covers op).mpr inside) hope)

private theorem Complete.parked (complete : Complete env ops s) (batch : Batch env ops) {op : FsOp}
    (inside : op ∈ ops) {other : FsOp} (here : s.pending[op.id]? = some other) : other = op :=
  batch.distinct (complete.sound.canon.parked here).1 inside (complete.queue.keyed here)

theorem Complete.closedUnder (complete : Complete env ops s) (batch : Batch env ops) :
    ClosedUnder env ops s.done := by
  intro op inside enabled
  rcases complete.sound.held ⟨op, inside, rfl, enabled.not_hopeless⟩ with applied | ⟨other, here⟩
  · exact applied
  · have waiting := complete.closed here
    rw [complete.parked batch inside here] at waiting
    exact absurd enabled waiting

theorem Complete.done_eq (left : Complete env ops s) (right : Complete env ops t)
    (batch : Batch env ops) : s.done = t.done :=
  Set.Subset.antisymm (left.sound.canon.least _ (right.closedUnder batch))
    (right.sound.canon.least _ (left.closedUnder batch))

theorem Complete.applied_eq (left : Complete env ops s) (right : Complete env ops t)
    (batch : Batch env ops) : s.applied = t.applied := by
  refine BTreeSet.ext_mem fun id => ?_
  have same : id ∈ s.done ↔ id ∈ t.done := by rw [left.done_eq right batch]
  exact same

private theorem Complete.mem_pending (complete : Complete env ops s) (batch : Batch env ops)
    (id : OpId) (op : FsOp) :
    s.pending[id]? = some op ↔ op ∈ ops ∧ op.id = id ∧ ¬Hopeless op ∧ id ∉ s.done := by
  constructor
  · intro here
    obtain ⟨inside, hope⟩ := complete.sound.canon.parked here
    exact ⟨inside, complete.queue.keyed here, hope, complete.queue.apart here⟩
  · rintro ⟨inside, rfl, hope, new⟩
    rcases complete.sound.held ⟨op, inside, rfl, hope⟩ with applied | ⟨other, here⟩
    · exact absurd applied new
    · rw [← complete.parked batch inside here]
      rw [← complete.parked batch inside here] at here
      exact here

theorem Complete.pending_eq (left : Complete env ops s) (right : Complete env ops t)
    (batch : Batch env ops) : s.pending = t.pending := by
  refine BTreeMap.ext_get fun id => Option.ext fun op => ?_
  rw [left.mem_pending batch, right.mem_pending batch, left.done_eq right batch]

theorem Complete.dirAt_eq (left : Complete env ops s) (right : Complete env ops t)
    (batch : Batch env ops) (p : U128) : s.dirAt p = t.dirAt p := by
  have same := left.done_eq right batch
  have linksS := left.sound.canon.links
  have linksT := right.sound.canon.links
  refine (linksS.tidy p).ext (linksT.tidy p) ?_ ?_
  · intro n d
    refine Option.ext fun v => ?_
    show s.added p n d = some v ↔ t.added p n d = some v
    constructor
    · intro here
      exact linksT.added_of_adds (same ▸ linksS.adds here)
    · intro here
      exact linksS.added_of_adds (same ▸ linksT.adds here)
  · intro n d
    show s.Removed p n d ↔ t.Removed p n d
    rw [linksS.removed, linksT.removed, same]

theorem Complete.dirs_eq (left : Complete env ops s) (right : Complete env ops t)
    (batch : Batch env ops) : s.dirs = t.dirs := by
  refine BTreeMap.ext_get fun p => ?_
  show s.loadDir p = t.loadDir p
  have here := left.dirAt_eq right batch p
  have both : (s.loadDir p).isSome ↔ (t.loadDir p).isSome := by
    rw [left.sound.exact.shape.mapped, right.sound.exact.shape.mapped,
      left.sound.canon.inodes.isDir_iff batch, right.sound.canon.inodes.isDir_iff batch,
      left.done_eq right batch]
  unfold dirAt at here
  cases inS : s.loadDir p with
  | none =>
      cases inT : t.loadDir p with
      | none => rfl
      | some map => simp [inS, inT] at both
  | some map =>
      cases inT : t.loadDir p with
      | none => simp [inS, inT] at both
      | some map' =>
          rw [inS, inT] at here
          exact congrArg some here

private theorem id_eq_of_regKey {a b : FsOp} (same : regKey a = regKey b) : a.id = b.id := by
  obtain ⟨-, device, counter⟩ := orderKeyOf_inj.mp same
  show OpId.mk a.id.device_id a.id.counter = b.id
  rw [device, counter]

private theorem writes_keyed (batch : Batch env ops) {done : Set OpId} {i : U128}
    {a b : LwwReg ContentState} (left : Writes env ops done i a) (right : Writes env ops done i b)
    (same : a.orderKey = b.orderKey) : a = b := by
  obtain ⟨op, inside, -, offset, chunks, new_size, encryption, kindIs, rfl⟩ := left
  obtain ⟨op', inside', -, offset', chunks', new_size', encryption', kindIs', rfl⟩ := right
  obtain rfl := batch.distinct inside inside' (id_eq_of_regKey same)
  rw [kindIs] at kindIs'
  cases kindIs'
  rfl

private theorem sets_keyed (batch : Batch env ops) {done : Set OpId} {i : U128}
    {a b : LwwReg AttrState} (left : Sets ops done i a) (right : Sets ops done i b)
    (same : a.orderKey = b.orderKey) : a = b := by
  obtain ⟨op, inside, -, mode, uid, gid, kindIs, rfl⟩ := left
  obtain ⟨op', inside', -, mode', uid', gid', kindIs', rfl⟩ := right
  obtain rfl := batch.distinct inside inside' (id_eq_of_regKey same)
  rw [kindIs] at kindIs'
  cases kindIs'
  rfl

private theorem RecordCanon.unique (batch : Batch env ops) {done : Set OpId} {i : U128}
    {first x y : InodeRecord} (left : RecordCanon env ops done i first x)
    (right : RecordCanon env ops done i first y) : x = y := by
  have content := left.content.unique right.content fun _ _ => writes_keyed batch
  have attrs := left.attrs.unique right.attrs fun _ _ => sets_keyed batch
  have kind := left.kind.trans right.kind.symm
  have ctime := left.ctime.trans right.ctime.symm
  cases x
  cases y
  simp_all

theorem Complete.inodes_eq (left : Complete env ops s) (right : Complete env ops t)
    (batch : Batch env ops) : s.inodes = t.inodes := by
  have same := left.done_eq right batch
  have agree : ∀ {a b : CoreState}, RecordsCanon env ops a → RecordsCanon env ops b →
      a.done = b.done → ∀ {i r}, a.loadInode i = some r → b.loadInode i = some r := by
    intro a b inA inB equal i r found
    obtain ⟨first, born, canon⟩ := inA.records found
    rw [equal] at born canon
    obtain ⟨r', found'⟩ := inB.born born
    obtain ⟨first', born', canon'⟩ := inB.records found'
    obtain rfl := batch.born_unique born born'
    rw [found', canon'.unique batch canon]
  refine BTreeMap.ext_get fun i => Option.ext fun r => ?_
  exact ⟨agree left.sound.canon.inodes right.sound.canon.inodes same,
    agree right.sound.canon.inodes left.sound.canon.inodes same.symm⟩

theorem Complete.parents_eq (left : Complete env ops s) (right : Complete env ops t)
    (batch : Batch env ops) (still : ∀ op ∈ ops, isRename op = false) : s.parents = t.parents := by
  refine BTreeMap.ext_get fun i => Option.ext fun p => ?_
  show s.parentOf i = some p ↔ t.parentOf i = some p
  rw [left.sound.canon.parents still i p, right.sound.canon.parents still i p,
    left.done_eq right batch]

theorem Complete.imap_eq (left : Complete env ops s) (right : Complete env ops t)
    (batch : Batch env ops) : s.imap = t.imap := by
  refine BTreeMap.ext_get fun k => Option.ext fun x => ?_
  rw [left.sound.exact.map, right.sound.exact.map,
    treeEntry_congr (left.dirs_eq right batch) (left.inodes_eq right batch)]

theorem Complete.state_root_eq (left : Complete env ops s) (right : Complete env ops t)
    (batch : Batch env ops) : s.state_root = t.state_root := by
  rw [left.current.root, right.current.root]
  simp only [computeStateRoot, inodeMap, left.imap_eq right batch]

end Agreement

section Replicas

variable {env : Env} {ops : Finset FsOp} {s t : CoreState} {first second : List FsOp}

/-- A fresh store that holds the content of the batch and asks for no proofs. -/
structure Replica (ops : Finset FsOp) (s : CoreState) : Prop where
  blank : Blank s
  stocked : Stocked ops s
  policy : s.proofs = .none

def Covers (ops : Finset FsOp) (sequence : List FsOp) : Prop := ∀ op, op ∈ sequence ↔ op ∈ ops

/-- Two states with the same namespace, the same queue and the same commitment. -/
structure Converged (s t : CoreState) : Prop where
  dirs : s.dirs = t.dirs
  inodes : s.inodes = t.inodes
  parents : s.parents = t.parents
  applied : s.applied = t.applied
  pending : s.pending = t.pending
  map : inodeMap s = inodeMap t
  root : s.state_root = t.state_root

/-- Two fresh replicas that receive a batch without renames in any two orders, with any
redeliveries, converge, if the batch creates fewer directories than the walk allows. -/
theorem converged_of_renameFree (batch : Batch env ops) (few : FewDirs ops)
    (still : ∀ op ∈ ops, isRename op = false) (left : Replica ops s) (right : Replica ops t)
    (coversLeft : Covers ops first) (coversRight : Covers ops second) :
    Converged (deliver env (booted env s) first) (deliver env (booted env t) second) := by
  have safe : ∀ {u : CoreState} {op : FsOp}, op ∈ ops → RenameSafe u op := by
    intro u op inside old_parent old_name new_parent new_name observed kindIs
    have plain := still op inside
    simp [isRename, kindIs] at plain
  have one := complete_deliver batch few left.blank left.stocked left.policy coversLeft
    fun _ _ inside => safe inside
  have two := complete_deliver batch few right.blank right.stocked right.policy coversRight
    fun _ _ inside => safe inside
  exact ⟨one.dirs_eq two batch, one.inodes_eq two batch, one.parents_eq two batch still,
    one.applied_eq two batch, one.pending_eq two batch,
    by rw [inodeMap, inodeMap, one.imap_eq two batch], one.state_root_eq two batch⟩

def sampleMkdir : FsOp := sampleOp 1 (.mkdir rootInode "a" 0)

def batchCreate : FsOp := sampleOp 2 (.createFile sampleParent "f" 0)

def batchChunk : ChunkRef := ⟨Lib.blake3 [42], 1, 1, 0⟩

def batchWrite : FsOp := sampleOp 3 (.write sampleChild 0 [batchChunk] 1 none)

def sampleChmod : FsOp := sampleOp 4 (.setAttr sampleChild (some 1) (some 2) (some 3))

def sampleUnlink : FsOp := sampleOp 5 (.unlink sampleParent "f" [batchCreate.id])

def sampleBatch : Finset FsOp :=
  [sampleMkdir, batchCreate, batchWrite, sampleChmod, sampleUnlink].toFinset

def sampleStore : CoreState := (CoreState.new 7).putBlob batchChunk.hash [42]

theorem mem_sampleBatch {op : FsOp} (member : op ∈ sampleBatch) :
    op = sampleMkdir ∨ op = batchCreate ∨ op = batchWrite ∨ op = sampleChmod ∨
      op = sampleUnlink := by
  simpa [sampleBatch] using member

theorem sampleBatch_batch : Batch .plain sampleBatch := by
  have ids : ∀ a ∈ sampleBatch, ∀ b ∈ sampleBatch,
      inodeForOp .plain a.id = inodeForOp .plain b.id → a.id = b.id := by decide +kernel
  refine ⟨by decide +kernel, fun left right => ?_, ?_, ?_⟩
  · have distinct : ∀ a ∈ sampleBatch, ∀ b ∈ sampleBatch, a.id = b.id → a = b := by decide +kernel
    exact distinct _ left _ right
  · rintro _ ⟨a, left, rfl⟩ _ ⟨b, right, rfl⟩ same
    exact ids a left b right same
  · have apart : ∀ other ∈ sampleBatch, makesDir other = true →
        inodeForOp .plain other.id ≠ sampleChild := by decide +kernel
    intro op member
    rcases mem_sampleBatch member with rfl | rfl | rfl | rfl | rfl
    · exact trivial
    · exact trivial
    · exact ⟨rfl, rfl, apart⟩
    · exact ⟨rfl, rfl, rfl⟩
    · exact trivial

theorem sampleStore_replica : Replica sampleBatch sampleStore := by
  refine ⟨⟨rfl, rfl, rfl, rfl, rfl, rfl, rfl, rfl, rfl, rfl⟩, ?_, rfl⟩
  intro op member inode offset chunks new_size encryption kindIs chunk inside
  rcases mem_sampleBatch member with rfl | rfl | rfl | rfl | rfl
  · cases kindIs
  · cases kindIs
  · cases kindIs
    rw [List.mem_singleton.mp inside]
    decide +kernel
  · cases kindIs
  · cases kindIs

theorem converged_of_renameFree_sample :
    (deliver .plain (booted .plain sampleStore)
        [sampleUnlink, sampleChmod, batchWrite, batchCreate, sampleMkdir, batchWrite]).applied.size
      = 5 ∧
    Converged
      (deliver .plain (booted .plain sampleStore)
        [sampleMkdir, batchCreate, batchWrite, sampleChmod, sampleUnlink])
      (deliver .plain (booted .plain sampleStore)
        [sampleUnlink, sampleChmod, batchWrite, batchCreate, sampleMkdir, batchWrite]) := by
  refine ⟨by decide +kernel, converged_of_renameFree sampleBatch_batch (by decide +kernel)
    (by decide +kernel) sampleStore_replica sampleStore_replica ?_ ?_⟩
  · intro op
    rw [sampleBatch, List.mem_toFinset]
  · intro op
    simp only [sampleBatch, List.mem_toFinset, List.mem_cons, List.not_mem_nil, or_false]
    tauto

end Replicas

end NexusFS.Core
