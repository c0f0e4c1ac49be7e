/- GID: NexusFS/Core/Watch
   source: crates/core/src/apply.rs
   digest: A batch delivered to a node whose parked operations leave what is watched alone. -/

import NexusFS.Core.Delivery

/-!
A call retries the parked operations too. What a batch of operations does to one
inode can be followed when nothing that is parked touches it: `Watched` says so,
and `Watched.deliver` follows a delivery from what each accepted operation does.
-/

set_option autoImplicit false
set_option relaxedAutoImplicit false

namespace NexusFS.Core

open NexusFS.Lib NexusFS.Lib.Effect NexusFS.Proto NexusFS.Crdt CoreState

section Accepted

variable {env : Env} {s t : CoreState} {op : FsOp}

def accepted (env : Env) (s : CoreState) (op : FsOp) : Bool :=
  decide (Admits env op true s) && !s.isOpApplied op.id

theorem accepted_iff : accepted env s op = true ↔ Admits env op true s ∧ op.id ∉ s.applied := by
  have known : s.isOpApplied op.id = true ↔ op.id ∈ s.applied := by simp [isOpApplied]
  rw [accepted, Bool.and_eq_true, decide_eq_true_eq, Bool.not_eq_true', ← Bool.not_eq_true, known]

theorem admits_congr (proofs : t.proofs = s.proofs) (check_policy : Bool) :
    Admits env op check_policy t ↔ Admits env op check_policy s := by
  unfold Admits
  rw [proofs]

theorem applyOp_skips (skipped : ¬(Admits env op true s ∧ op.id ∉ s.applied)) :
    finalState (applyOp env op s) = s := by
  show finalState (applyOpInner env op true s) = s
  by_cases admits : Admits env op true s
  · by_cases known : op.id ∈ s.applied
    · rw [applyOpInner_known admits known]
      rfl
    · exact absurd ⟨admits, known⟩ skipped
  · obtain ⟨e, refused⟩ := applyOpInner_refused admits
    rw [refused]
    rfl

theorem regKey_inj {a b : FsOp} (same : regKey a = regKey b) : a.id = b.id := by
  obtain ⟨-, device, counter⟩ := orderKeyOf_inj.mp same
  calc a.id = ⟨a.id.device_id, a.id.counter⟩ := rfl
    _ = ⟨b.id.device_id, b.id.counter⟩ := by rw [device, counter]
    _ = b.id := rfl

theorem exists_order {keeps : FsOp → Bool} {ops kept : List FsOp}
    (perm : kept.Perm (ops.filter keeps)) :
    ∃ order : List FsOp, order.Perm ops ∧ order.filter keeps = kept := by
  refine ⟨kept ++ ops.filter fun op => !keeps op,
    (perm.append_right _).trans (List.filter_append_perm _ _), ?_⟩
  have all_kept : kept.filter keeps = kept := List.filter_eq_self.mpr fun op here =>
    (List.mem_filter.mp (perm.mem_iff.mp here)).2
  rw [List.filter_append, List.filter_filter]
  simp [all_kept]

end Accepted

section Watched

variable {env : Env} {ids : Set OpId} {touches : FsOp → Prop} {holds : CoreState → Prop}
  {ops : List FsOp} {policy : ProofPolicy} {done : Set OpId} {s t : CoreState} {op : FsOp}

/-- What is watched survives the operations that do not touch it, and all bookkeeping. -/
structure Undisturbed (env : Env) (ids : Set OpId) (touches : FsOp → Prop)
    (holds : CoreState → Prop) : Prop where
  took : ∀ {s t op}, Shape env ids s → op.id ∈ ids → op.id ∉ s.applied → ¬touches op →
    Took env op s t → holds s → holds t
  cleared : ∀ {s} (id : OpId), holds s → holds (s.clearPending id)
  logged : ∀ {s} (op : FsOp), holds s → holds (s.appendOp op)
  aside : ∀ {s t}, Aside s t → holds s → holds t

/-- A node of which something is known, and whose queue holds none of the operations of a batch
and nothing that touches what is known. -/
structure Watched (env : Env) (ids : Set OpId) (touches : FsOp → Prop)
    (holds : CoreState → Prop) (ops : List FsOp) (policy : ProofPolicy) (done : Set OpId)
    (s : CoreState) : Prop where
  shape : Shape env ids s
  holds : holds s
  policy : s.proofs = policy
  queue : ∀ {id : OpId} {parked}, s.pending[id]? = some parked →
    ¬touches parked ∧ ∀ op ∈ ops, op.id ≠ id
  done : ∀ op ∈ ops, op.id ∈ s.applied ↔ op.id ∈ done

theorem Watched.imp (watched : Watched env ids touches holds ops policy done s)
    {holds' : CoreState → Prop} (now : holds' s) : Watched env ids touches holds' ops policy done s :=
  ⟨watched.shape, now, watched.policy, watched.queue, watched.done⟩

theorem Shape.watched (shape : Shape env ids s) (now : holds s)
    (unparked : ∀ parked ∈ s.pendingOps, ¬touches parked ∧ ∀ op ∈ ops, op.id ≠ parked.id) :
    Watched env ids touches holds ops s.proofs {id | id ∈ s.applied} s := by
  refine ⟨shape, now, rfl, fun {id parked} here => ?_, fun _ _ => Iff.rfl⟩
  obtain ⟨other, apart⟩ := unparked parked (mem_pendingOps.mpr ⟨id, here⟩)
  exact ⟨other, fun op member => (shape.parked here).1 ▸ apart op member⟩

private theorem Watched.shrink (watched : Watched env ids touches holds ops policy done s)
    (shape : Shape env ids t) (now : holds t) (proofs : t.proofs = s.proofs)
    (queue : ∀ {id : OpId} {parked}, t.pending[id]? = some parked → s.pending[id]? = some parked)
    (applied : ∀ op ∈ ops, op.id ∈ t.applied ↔ op.id ∈ s.applied) :
    Watched env ids touches holds ops policy done t :=
  ⟨shape, now, proofs.trans watched.policy, fun here => watched.queue (queue here),
    fun op member => (applied op member).trans (watched.done op member)⟩

private theorem pending_of_erase {id other : OpId} {parked : FsOp}
    (here : (s.pending.erase id)[other]? = some parked) : s.pending[other]? = some parked := by
  rw [BTreeMap.get_erase] at here
  split at here
  · cases here
  · exact here

private theorem watchedRule (inj : Set.InjOn (inodeForOp env) ids)
    (still : Undisturbed env ids touches holds) :
    AttemptRule env (Watched env ids touches holds ops policy done)
      (fun op => op.id ∈ ids ∧ ¬touches op ∧ ∀ other ∈ ops, other.id ≠ op.id)
      (fun _ _ => True) (fun _ => Watched env ids touches holds ops policy done) := by
  refine .of_took ?_ ?_ ?_
  · rintro s t op watched ⟨member, other, apart⟩ new took
    refine watched.shrink (watched.shape.took inj member new took)
      (still.took watched.shape member new other took watched.holds) took.proofs ?_ ?_
    · intro id parked here
      rw [took.pending] at here
      exact pending_of_erase here
    · intro o inside
      rw [took.applied, BTreeSet.mem_insert]
      exact ⟨fun here => here.resolve_left fun same => apart o inside same.symm, .inr⟩
  · intro s op watched _ _
    exact watched.shrink (watched.shape.clearPending _) (still.cleared _ watched.holds) rfl
      (fun here => pending_of_erase here) fun _ _ => Iff.rfl
  · intro s op id watched here
    obtain ⟨same, member⟩ := watched.shape.parked here
    obtain ⟨other, apart⟩ := watched.queue here
    exact ⟨same ▸ member, other, fun o inside equal => apart o inside (equal.trans same)⟩

private theorem Watched.aside (watched : Watched env ids touches holds ops policy done s)
    (still : Undisturbed env ids touches holds) (aside : Aside s t) :
    Watched env ids touches holds ops policy done t := by
  have shape := watched.shape.aside aside
  have now := still.aside aside watched.holds
  obtain ⟨_, _, _, _, _, -, rfl⟩ := aside
  exact watched.shrink shape now rfl (fun here => here) fun _ _ => Iff.rfl

theorem Watched.appendOp (watched : Watched env ids touches holds ops policy done s)
    (still : Undisturbed env ids touches holds) (op : FsOp) :
    Watched env ids touches holds ops policy done (s.appendOp op) :=
  watched.shrink (watched.shape.appendOp op) (still.logged op watched.holds) rfl
    (fun here => here) fun _ _ => Iff.rfl

theorem Watched.took (watched : Watched env ids touches holds ops policy done s)
    (inj : Set.InjOn (inodeForOp env) ids) (member : op.id ∈ ids) (new : op.id ∉ s.applied)
    (took : Took env op s t) {holds' : CoreState → Prop} (now : holds' t) :
    Watched env ids touches holds' ops policy (insert op.id done) t := by
  refine ⟨watched.shape.took inj member new took, now, took.proofs.trans watched.policy,
    fun {id parked} here => ?_, fun o inside => ?_⟩
  · rw [took.pending] at here
    exact watched.queue (pending_of_erase here)
  · rw [took.applied, BTreeSet.mem_insert, watched.done o inside]
    exact or_congr_left ⟨Eq.symm, Eq.symm⟩

theorem Watched.close (inj : Set.InjOn (inodeForOp env) ids)
    (still : Undisturbed env ids touches holds) (admits : Admits env op true s)
    (new : op.id ∉ s.applied)
    (first : attempt env op (s.appendOp op) = .ok .done t ∨
      ∃ e, attempt env op (s.appendOp op) = .error e t)
    (watched : Watched env ids touches holds ops policy done t) :
    Watched env ids touches holds ops policy done (finalState (applyOp env op s)) := by
  show Watched env ids touches holds ops policy done (finalState (applyOpInner env op true s))
  rw [applyOpInner_new admits new]
  rcases first with run | ⟨e, run⟩
  · rw [run]
    have drained := (watchedRule inj still).drainPending watched fun _ _ => trivial
    dsimp only
    cases later : drainPending env t with
    | error e u =>
        rw [later] at drained
        exact drained
    | ok n u =>
        rw [later] at drained
        exact drained.aside still (aside_closeCall env _ u)
  · rw [run]
    exact watched

private theorem Watched.accepted_eq (watched : Watched env ids touches holds ops s.proofs done t)
    (inside : op ∈ ops) (fresh : op.id ∈ done ↔ op.id ∈ s.applied) :
    accepted env t op = accepted env s op := by
  rw [Bool.eq_iff_iff, accepted_iff, accepted_iff, admits_congr watched.policy,
    watched.done op inside, fresh]

/-- A delivery does what its accepted operations do, in order. The condition `along` holds at
each call. -/
theorem Watched.deliver {X : Type} {holds : X → CoreState → Prop} {merge : X → FsOp → X}
    {along : CoreState → List FsOp → Prop}
    (step : ∀ {x done t op rest}, along t (op :: rest) → op ∈ ops →
      Watched env ids touches (holds x) ops policy done t → Admits env op true t →
      op.id ∉ t.applied → Watched env ids touches (holds (merge x op)) ops policy
        (insert op.id done) (finalState (applyOp env op t)))
    (next : ∀ {t op rest}, along t (op :: rest) → along (finalState (applyOp env op t)) rest)
    (order : List FsOp) (inside : ∀ op ∈ order, op ∈ ops) (distinct : (order.map FsOp.id).Nodup)
    (start : along t order) {x : X} (same : s.proofs = policy)
    (watched : Watched env ids touches (holds x) ops policy done t)
    (fresh : ∀ op ∈ order, op.id ∈ done ↔ op.id ∈ s.applied) :
    holds ((order.filter (accepted env s)).foldl merge x) (deliver env t order) := by
  subst same
  induction order generalizing t x done with
  | nil => exact watched.holds
  | cons op order ih =>
      rw [List.map_cons, List.nodup_cons] at distinct
      have later : ∀ other ∈ order, other ∈ op :: order := fun _ => List.mem_cons_of_mem op
      have here := inside op List.mem_cons_self
      have still := watched.accepted_eq here (fresh op List.mem_cons_self)
      have after := fun {t x done} => @ih t done (fun o here => inside o (later o here)) distinct.2
        (x := x)
      show holds _ (Core.deliver env (finalState (applyOp env op t)) order)
      cases taken : accepted env s op with
      | true =>
          rw [List.filter_cons_of_pos taken, List.foldl_cons]
          obtain ⟨admits, new⟩ := accepted_iff.mp (still.trans taken)
          refine after (next start) (fun o member => ?_) (step start here watched admits new)
          rw [Set.mem_insert_iff, fresh o (later o member)]
          refine or_iff_right fun equal => distinct.1 ?_
          exact equal ▸ List.mem_map_of_mem member
      | false =>
          have refused : ¬accepted env s op = true := by simp [taken]
          have skipped := applyOp_skips fun both =>
            refused (still.symm.trans (accepted_iff.mpr both))
          rw [List.filter_cons_of_neg refused, skipped]
          refine after ?_ (fun o member => fresh o (later o member)) watched
          have onward := next start
          rwa [skipped] at onward

end Watched

end NexusFS.Core
