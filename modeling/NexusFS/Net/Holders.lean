/- GID: NexusFS/Net/Holders
   source: crates/core/src/ops.rs, crates/core/src/apply.rs, crates/net/src/session.rs
   digest: Whether all nodes that hold an operation hold the same bytes of it. -/

import NexusFS.Core.Postcard
import NexusFS.Net.Attribution

/-!
`apply_local` is taken apart into the steps between which other work can run: the
provisional operation is made, applied, given its evidence, signed again and filed
again. Any number of nodes run such calls, serve their logs and take what others
served, in any order.
-/

set_option autoImplicit false
set_option relaxedAutoImplicit false

namespace NexusFS.Net

open NexusFS.Lib NexusFS.Lib.Effect NexusFS.Proto NexusFS.Core

section Calls

/-- How far a running `apply_local` is. -/
inductive CallStage where
  | made
  | applied
  | bundled (bundle : ProofBundle)
  | signed (bundle : ProofBundle) (sig : Bytes)
  deriving DecidableEq

/-- A running `apply_local`: the root before it, its provisional operation, and how far it is. -/
structure LocalCall where
  old_root : Option Hash
  provisional : FsOp
  stage : CallStage
  deriving DecidableEq

variable (env : Env) (identity : Identity)

/-- The start of `apply_local`: the old root is read and the provisional operation is made. -/
def beginCall (kind : FsOpKind) (now : U64) (s : CoreState) : LocalCall :=
  ⟨s.state_root, authoredOp env identity kind now s, .made⟩

namespace LocalCall

variable (call : LocalCall)

def bundle (s : CoreState) : ProofBundle :=
  if s.proofs.commits then
    finishCommitProof env s call.old_root
      (subjectInode env call.provisional.id call.provisional.kind)
      (changedHashes call.provisional.kind)
  else finishProof env s call.old_root (changedHashes call.provisional.kind)

def proven (bundle : ProofBundle) (sig : Bytes) : FsOp :=
  { call.provisional with proof := some bundle, sig := sig }

def resign (bundle : ProofBundle) : Bytes :=
  env.ed25519Sign identity.signing_key
    (env.encodeOpToSign (call.proven bundle call.provisional.sig).toSign)

def advance (s : CoreState) : CoreState × Option LocalCall :=
  match call.stage with
  | .made =>
      match applyOpInner env call.provisional (!s.proofs.generates) s with
      | .ok (.pending _) t => (t, none)
      | .ok _ t => (t, if s.proofs.generates then some { call with stage := .applied } else none)
      | .error _ t => (t, none)
  | .applied => (s, some { call with stage := .bundled (call.bundle env s) })
  | .bundled bundle => (s, some { call with stage := .signed bundle (call.resign env identity bundle) })
  | .signed bundle sig => (s.appendOp (call.proven bundle sig), none)

end LocalCall

def finishCall : Nat → CoreState × Option LocalCall → CoreState × Option LocalCall
  | 0, x => x
  | _ + 1, (s, none) => (s, none)
  | fuel + 1, (s, some call) => finishCall fuel (call.advance env identity s)

private theorem applyOpInner_proofs (op : FsOp) (check_policy : Bool) (s : CoreState) :
    (finalState (applyOpInner env op check_policy s)).proofs = s.proofs := by
  have rule : CallRule env (fun t => t.proofs = s.proofs) (fun _ => True) (fun _ _ => True)
      (fun _ t => t.proofs = s.proofs) := by
    refine ⟨.of_took (fun kept _ _ took => took.proofs.trans kept) (fun kept _ _ => kept)
      (fun _ _ => trivial), fun kept _ => kept, ?_, fun kept _ _ => kept⟩
    rintro t u kept ⟨_, _, _, _, _, -, rfl⟩
    exact kept
  have ends := rule.applyOpInner rfl trivial
    (fun _ _ => trivial : ∀ x ∈ applyAttempts env op check_policy s, True)
  exact Ends.finalState (ends.imp (fun _ kept => kept) fun _ _ kept => kept.elim id id)

/-- Without other work in between, the steps of a call are `apply_local`. -/
theorem finishCall_eq_applyLocal (kind : FsOpKind) (now : U64) (s : CoreState) :
    finishCall env identity 4 (counted s, some (beginCall env identity kind now s)) =
      (finalState (applyLocal env identity kind now s), none) := by
  unfold applyLocal
  simp only [bind_run, get_run, applyOpUnproven, applyOp]
  have policy : (counted s).proofs = s.proofs := rfl
  cases generates : s.proofs.generates with
  | false =>
      simp only [Bool.not_false, if_true, finishCall, LocalCall.advance, beginCall, policy, generates,
        bind_run, makeOp_run]
      cases applyOpInner env (authoredOp env identity kind now s) true (counted s) with
      | error e t => rfl
      | ok outcome t => cases outcome <;> rfl
  | true =>
      simp only [Bool.not_true, Bool.false_eq_true, if_false, finishCall, LocalCall.advance, beginCall,
        policy, generates, bind_run, makeOp_run]
      have proven : ∀ {outcome t}, applyOpInner env (authoredOp env identity kind now s) false
          (counted s) = .ok outcome t → t.proofs = s.proofs := by
        intro outcome t run
        have kept := applyOpInner_proofs env (authoredOp env identity kind now s) false (counted s)
        rw [run] at kept
        exact kept
      cases run : applyOpInner env (authoredOp env identity kind now s) false (counted s) with
      | error e t => rfl
      | ok outcome t =>
          cases outcome with
          | pending reason => rfl
          | applied =>
              simp only [if_true, finishCall, LocalCall.advance, LocalCall.bundle, proven run]
              rfl
          | alreadyApplied =>
              simp only [if_true, finishCall, LocalCall.advance, LocalCall.bundle, proven run]
              rfl

end Calls

section Fleet

variable (ι : Type)

/-- A running call and the node it runs on. -/
structure NodeCall where
  node : ι
  call : LocalCall
  deriving DecidableEq

def NodeCall.id {ι : Type} (running : NodeCall ι) : OpId := running.call.provisional.id

/-- An operation on its way to a node. `unfinished` notes whether a call for its id was running when
it was served. -/
structure Served where
  node : ι
  op : FsOp
  unfinished : Bool

/-- The nodes, their running calls, and everything served so far. -/
structure Fleet where
  core : ι → CoreState
  calls : List (NodeCall ι)
  sent : List (Served ι)

/-- The steps of a fleet: a local call begins or goes on, a node answers a `Have` of another one,
a node takes an operation it was served, or a node does other work. -/
inductive FleetAct where
  | begins (node : ι) (kind : FsOpKind) (now : U64)
  | advances (running : NodeCall ι)
  | serves (node : ι) (puller : ι) (summary : ClockSummary)
  | receives (served : Served ι)
  | works (node : ι) (a : Act)

end Fleet

section Runs

variable {ι : Type} [DecidableEq ι] (env : Env) (identity : ι → Identity)

/-- Whether an `apply_local` for the id is still running. -/
def Fleet.running (w : Fleet ι) (id : OpId) : Bool := w.calls.any fun c => c.id = id

def FleetAct.run (w : Fleet ι) : FleetAct ι → Fleet ι
  | .begins node kind now =>
      { w with
        core := Function.update w.core node (counted (w.core node))
        calls := ⟨node, beginCall env (identity node) kind now (w.core node)⟩ :: w.calls }
  | .advances running =>
      let next := running.call.advance env (identity running.node) (w.core running.node)
      { w with
        core := Function.update w.core running.node next.1
        calls := (next.2.map (NodeCall.mk running.node)).toList ++ w.calls.erase running }
  | .serves node puller summary =>
      { w with
        sent := ((serveHave (w.core node) summary).1.map fun op => ⟨puller, op, w.running op.id⟩) ++
          w.sent }
  | .receives served =>
      { w with
        core := Function.update w.core served.node
          (finalState (applyOp env served.op (w.core served.node))) }
  | .works node a =>
      { w with core := Function.update w.core node (a.run env (identity node) (w.core node)) }

def Act.Other : Act → Prop
  | .receive _ => False
  | .author _ _ => False
  | _ => True

def FleetAct.Possible (w : Fleet ι) : FleetAct ι → Prop
  | .advances running => running ∈ w.calls
  | .receives served => served ∈ w.sent
  | .works _ a => a.Other
  | _ => True

/-- The states of a fleet of new nodes with a device id each, whose steps meet a condition. -/
inductive FleetRun (meets : Fleet ι → FleetAct ι → Prop) : Fleet ι → Prop
  | boot {core : ι → CoreState} (blank : ∀ i, Blank (core i))
      (devices : Function.Injective fun i => (core i).device_id) :
      FleetRun meets ⟨fun i => booted env (core i), [], []⟩
  | step {w : Fleet ι} {a : FleetAct ι} (before : FleetRun meets w) (possible : a.Possible w)
      (met : meets w a) : FleetRun meets (a.run env identity w)

/-- All holders of an operation that no running call is about hold the same bytes of it. -/
def HoldersAgree (w : Fleet ι) : Prop :=
  ∀ i j (id : OpId) first second, (w.core i).oplog[id]? = some first →
    (w.core j).oplog[id]? = some second → w.running id = false → first = second

/-- No node counts its operations past the last counter, and none takes an operation that was served
while the call for its id was running. -/
def TakesFinished (w : Fleet ι) : FleetAct ι → Prop
  | .begins node _ _ => (w.core node).next_counter.val + 1 < 2 ^ 64
  | .receives served => served.unfinished = true →
      Admits env served.op true (w.core served.node) →
        served.op.id ∈ (w.core served.node).applied
  | _ => True

end Runs

section Law

variable {ι : Type} {env : Env} {identity : ι → Identity} {w : Fleet ι}

/-- The operation is in the log of the node that has its device id, under a counter already taken. -/
def Authored (w : Fleet ι) (op : FsOp) : Prop :=
  ∃ i, (w.core i).device_id = op.id.device_id ∧ op.id.counter ≤ (w.core i).next_counter ∧
    (w.core i).oplog[op.id]? = some op

/-- What holds between the steps of a fleet that takes finished operations only: whatever is in a log
is in its author's log, and nobody else holds an operation whose call is running. -/
structure Law (w : Fleet ι) : Prop where
  logged : ∀ i, Logged (w.core i)
  devices : Function.Injective fun i => (w.core i).device_id
  rows : ∀ j (id : OpId) op, (w.core j).oplog[id]? = some op → Authored w op
  owned : ∀ c ∈ w.calls, c.id.device_id = (w.core c.node).device_id ∧
    c.id.counter ≤ (w.core c.node).next_counter
  distinct : (w.calls.map NodeCall.id).Nodup
  fresh : ∀ c ∈ w.calls, c.call.stage = .made → c.id ∉ (w.core c.node).oplog
  unshared : ∀ c ∈ w.calls, ∀ j, j ≠ c.node → c.id ∉ (w.core j).oplog
  sent : ∀ m ∈ w.sent, m.unfinished = false → Authored w m.op ∧ w.running m.op.id = false

theorem running_eq_false {id : OpId} : w.running id = false ↔ ∀ c ∈ w.calls, c.id ≠ id := by
  simp [Fleet.running]

private theorem Authored.unique {first second : FsOp} (devices : Function.Injective fun i =>
    (w.core i).device_id) (one : Authored w first) (two : Authored w second)
    (same : first.id = second.id) : first = second := by
  obtain ⟨i, mine, -, row⟩ := one
  obtain ⟨j, theirs, -, other⟩ := two
  obtain rfl : i = j := devices (mine.trans ((congrArg OpId.device_id same).trans theirs.symm))
  rw [same] at row
  exact Option.some.inj (row.symm.trans other)

theorem Law.agree (law : Law w) : HoldersAgree w := by
  intro i j id first second one two _
  have first_id := (law.logged i).keyed one
  have second_id := (law.logged j).keyed two
  exact (law.rows i id first one).unique law.devices (law.rows j id second two)
    (first_id.trans second_id.symm)

theorem law_booted {core : ι → CoreState} (blank : ∀ i, Blank (core i))
    (devices : Function.Injective fun i => (core i).device_id) :
    Law ⟨fun i => booted env (core i), [], []⟩ := by
  have records : ∀ i, (booted env (core i)).device_id = (core i).device_id ∧
      (booted env (core i)).oplog = ∅ := by
    intro i
    obtain ⟨_, _, _, _, _, _, _, -, same⟩ := (booted_spec env (blank i)).records
    rw [same]
    exact ⟨rfl, (blank i).oplog⟩
  refine ⟨fun i => logged_booted env (blank i), fun i j same => devices ?_, fun i id op row => ?_,
    by simp, by simp, by simp, by simp, by simp⟩
  · exact ((records i).1.symm.trans same).trans (records j).1
  · have empty : (booted env (core i)).oplog[id]? = some op := row
    rw [(records i).2, Std.ExtTreeMap.getElem?_empty] at empty
    cases empty

private theorem Law.recalled (law : Law w) {calls : List (NodeCall ι)}
    (known : ∀ c ∈ calls, ∃ old ∈ w.calls, c.node = old.node ∧ c.id = old.id ∧
      (c.call.stage = .made → old.call.stage = .made))
    (distinct : (calls.map NodeCall.id).Nodup) : Law { w with calls := calls } := by
  refine ⟨law.logged, law.devices, law.rows, fun c member => ?_, distinct, fun c member made => ?_,
    fun c member j apart => ?_, fun m member finished => ⟨(law.sent m member finished).1, ?_⟩⟩
  · obtain ⟨old, before, node, id, -⟩ := known c member
    rw [node, id]
    exact law.owned old before
  · obtain ⟨old, before, node, id, stage⟩ := known c member
    rw [node, id]
    exact law.fresh old before (stage made)
  · obtain ⟨old, before, node, id, -⟩ := known c member
    rw [id]
    exact law.unshared old before j (node ▸ apart)
  · refine running_eq_false.mpr fun c here => ?_
    obtain ⟨old, before, -, id, -⟩ := known c here
    rw [id]
    exact running_eq_false.mp (law.sent m member finished).2 old before

variable [DecidableEq ι]

private theorem Law.kept (law : Law w) {i : ι} {t : CoreState} (logged : Logged t)
    (device : t.device_id = (w.core i).device_id)
    (counter : (w.core i).next_counter ≤ t.next_counter) (log : t.oplog = (w.core i).oplog) :
    Law { w with core := Function.update w.core i t } := by
  have devices : ∀ j, (Function.update w.core i t j).device_id = (w.core j).device_id :=
    (Function.forall_update_iff w.core fun j s => s.device_id = (w.core j).device_id).mpr
      ⟨device, fun _ _ => rfl⟩
  have counters : ∀ j, (w.core j).next_counter ≤ (Function.update w.core i t j).next_counter :=
    (Function.forall_update_iff w.core fun j s => (w.core j).next_counter ≤ s.next_counter).mpr
      ⟨counter, fun _ _ => le_rfl⟩
  have logs : ∀ j, (Function.update w.core i t j).oplog = (w.core j).oplog :=
    (Function.forall_update_iff w.core fun j s => s.oplog = (w.core j).oplog).mpr
      ⟨log, fun _ _ => rfl⟩
  have authored : ∀ {op}, Authored w op →
      Authored { w with core := Function.update w.core i t } op := by
    rintro op ⟨j, mine, taken, row⟩
    exact ⟨j, (devices j).trans mine, taken.trans (counters j), (logs j).symm ▸ row⟩
  refine ⟨fun j => ?_, fun j k same => law.devices ?_, fun j id op row => ?_, fun c here => ?_,
    law.distinct, fun c here made => ?_, fun c here j other => ?_, fun m here finished => ?_⟩
  · exact (Function.forall_update_iff w.core fun _ s => Logged s).mpr
      ⟨logged, fun j _ => law.logged j⟩ j
  · exact ((devices j).symm.trans same).trans (devices k)
  · exact authored (law.rows j id op (logs j ▸ row))
  · exact ⟨(law.owned c here).1.trans (devices c.node).symm,
      (law.owned c here).2.trans (counters c.node)⟩
  · exact (logs c.node).symm ▸ law.fresh c here made
  · exact (logs j).symm ▸ law.unshared c here j other
  · exact ⟨authored (law.sent m here finished).1, (law.sent m here finished).2⟩

/-- A node may file what its author holds and no running call is about, or an operation of its own
that nobody else was given. -/
def MayFile (w : Fleet ι) (i : ι) (op : FsOp) : Prop :=
  (Authored w op ∧ w.running op.id = false) ∨
    (op.id.device_id = (w.core i).device_id ∧ op.id.counter ≤ (w.core i).next_counter ∧
      (∀ j, j ≠ i → op.id ∉ (w.core j).oplog) ∧
      (∀ c ∈ w.calls, c.id = op.id → c.node = i ∧ c.call.stage ≠ .made) ∧
      ∀ m ∈ w.sent, m.unfinished = false → m.op.id ≠ op.id)

private theorem Law.filed (law : Law w) {i : ι} {t : CoreState} {op : FsOp} (logged : Logged t)
    (device : t.device_id = (w.core i).device_id)
    (counter : t.next_counter = (w.core i).next_counter)
    (log : t.oplog = (w.core i).oplog.insert op.id op) (may : MayFile w i op) :
    Law { w with core := Function.update w.core i t } := by
  have devices : ∀ j, (Function.update w.core i t j).device_id = (w.core j).device_id :=
    (Function.forall_update_iff w.core fun j s => s.device_id = (w.core j).device_id).mpr
      ⟨device, fun _ _ => rfl⟩
  have counters : ∀ j, (Function.update w.core i t j).next_counter = (w.core j).next_counter :=
    (Function.forall_update_iff w.core fun j s => s.next_counter = (w.core j).next_counter).mpr
      ⟨counter, fun _ _ => rfl⟩
  -- only the row under the filed id can change
  have elsewhere : ∀ j (id : OpId), id ≠ op.id ∨ j ≠ i →
      (Function.update w.core i t j).oplog[id]? = (w.core j).oplog[id]? := by
    intro j id apart
    rcases eq_or_ne j i with rfl | other
    · have different : op.id ≠ id := fun same => (apart.resolve_right (by simp)) same.symm
      rw [Function.update_self, log, BTreeMap.get_insert, if_neg different]
    · rw [Function.update_of_ne other]
  have here : (Function.update w.core i t i).oplog[op.id]? = some op := by
    rw [Function.update_self, log, BTreeMap.get_insert, if_pos rfl]
  have authored : ∀ {other}, Authored w other → (other.id = op.id → Authored w op) →
      Authored { w with core := Function.update w.core i t } other := by
    rintro other ⟨j, mine, taken, row⟩ ours
    refine ⟨j, (devices j).trans mine, taken.trans (counters j).ge, ?_⟩
    by_cases moved : other.id = op.id ∧ j = i
    · obtain ⟨same, rfl⟩ := moved
      obtain rfl : other = op := Authored.unique law.devices ⟨j, mine, taken, row⟩ (ours same) same
      exact here
    · rw [← row]
      exact elsewhere j other.id (not_and_or.mp moved)
  have known : ∀ j (id : OpId), id ≠ op.id ∨ j ≠ i → id ∉ (w.core j).oplog →
      id ∉ (Function.update w.core i t j).oplog := by
    intro j id apart absent present
    rw [BTreeMap.mem_iff_get, elsewhere j id apart, ← BTreeMap.mem_iff_get] at present
    exact absent present
  refine ⟨fun j => ?_, fun j k same => law.devices ?_, fun j id other row => ?_, fun c member => ?_,
    law.distinct, fun c member made => ?_, fun c member j apart => ?_, fun m member finished => ?_⟩
  · exact (Function.forall_update_iff w.core fun _ s => Logged s).mpr
      ⟨logged, fun j _ => law.logged j⟩ j
  · exact ((devices j).symm.trans same).trans (devices k)
  · by_cases moved : id = op.id ∧ j = i
    · obtain ⟨rfl, rfl⟩ := moved
      obtain rfl := Option.some.inj (here.symm.trans row)
      rcases may with ⟨ours, -⟩ | ⟨mine, taken, -⟩
      · exact authored ours fun _ => ours
      · exact ⟨j, (devices j).trans mine.symm, taken.trans (counters j).ge, here⟩
    · have old : (w.core j).oplog[id]? = some other :=
        (elsewhere j id (not_and_or.mp moved)).symm.trans row
      have keyed := (law.logged j).keyed old
      refine authored (law.rows j id other old) fun same => ?_
      rcases may with ⟨ours, -⟩ | ⟨-, -, alone, -⟩
      · exact ours
      · rcases eq_or_ne j i with rfl | apart
        · exact absurd ⟨keyed.symm.trans same, rfl⟩ moved
        · have held : id ∈ (w.core j).oplog := (BTreeMap.mem_iff_get _ _).mpr ⟨other, old⟩
          exact absurd (same ▸ keyed.symm ▸ held) (alone j apart)
  · exact ⟨(law.owned c member).1.trans (devices c.node).symm,
      (law.owned c member).2.trans (counters c.node).ge⟩
  · refine known c.node c.id ?_ (law.fresh c member made)
    refine .inl fun same => ?_
    rcases may with ⟨-, idle⟩ | ⟨-, -, -, ours, -⟩
    · exact running_eq_false.mp idle c member same
    · exact (ours c member same).2 made
  · refine known j c.id ?_ (law.unshared c member j apart)
    by_cases same : c.id = op.id
    · right
      rintro rfl
      rcases may with ⟨-, idle⟩ | ⟨-, -, -, ours, -⟩
      · exact running_eq_false.mp idle c member same
      · exact apart (ours c member same).1.symm
    · exact .inl same
  · obtain ⟨held, idle⟩ := law.sent m member finished
    refine ⟨authored held fun same => ?_, idle⟩
    rcases may with ⟨ours, -⟩ | ⟨-, -, -, -, unsent⟩
    · exact ours
    · exact absurd same (unsent m member finished)

private theorem advance_spec (env : Env) (call : LocalCall) (who : Identity) {s : CoreState}
    (logged : Logged s) :
    Logged (call.advance env who s).1 ∧
      (SameLog s (call.advance env who s).1 ∨ ∃ op, op.id = call.provisional.id ∧
        SameLog (s.appendOp op) (call.advance env who s).1) ∧
      ∀ next, (call.advance env who s).2 = some next →
        next.provisional = call.provisional ∧ next.stage ≠ .made := by
  cases stage : call.stage with
  | made =>
      obtain ⟨after, same⟩ := logged.applyOpInner env call.provisional (!s.proofs.generates)
      have filed : SameLog s (finalState (applyOpInner env call.provisional
          (!s.proofs.generates) s)) ∨ ∃ op, op.id = call.provisional.id ∧
          SameLog (s.appendOp op) (finalState (applyOpInner env call.provisional
            (!s.proofs.generates) s)) := by
        split at same
        · exact .inr ⟨call.provisional, rfl, same⟩
        · exact .inl same
      have going : ∀ next, (call.advance env who s).2 = some next →
          next = { call with stage := .applied } := by
        intro next here
        simp only [LocalCall.advance, stage] at here
        split at here <;> try cases here
        split at here <;> cases here
        rfl
      have final : (call.advance env who s).1 =
          finalState (applyOpInner env call.provisional (!s.proofs.generates) s) := by
        simp only [LocalCall.advance, stage]
        split <;> rename_i run <;> rw [run] <;> rfl
      rw [final]
      refine ⟨after, filed, fun next here => ?_⟩
      rw [going next here]
      exact ⟨rfl, by simp⟩
  | applied =>
      simp only [LocalCall.advance, stage]
      refine ⟨logged, .inl (.refl s), ?_⟩
      rintro next here
      cases here
      exact ⟨rfl, by simp⟩
  | bundled bundle =>
      simp only [LocalCall.advance, stage]
      refine ⟨logged, .inl (.refl s), ?_⟩
      rintro next here
      cases here
      exact ⟨rfl, by simp⟩
  | signed bundle sig =>
      simp only [LocalCall.advance, stage]
      refine ⟨logged.appendOp _, .inr ⟨call.proven bundle sig, rfl, .refl _⟩, ?_⟩
      rintro next here
      cases here

private theorem Law.others (law : Law w) {running : NodeCall ι} (member : running ∈ w.calls) :
    (∀ c ∈ w.calls.erase running, c.id ≠ running.id) ∧
      ((w.calls.erase running).map NodeCall.id).Nodup := by
  have order := (List.perm_cons_erase member).map NodeCall.id
  have distinct := order.nodup_iff.mp law.distinct
  rw [List.map_cons, List.nodup_cons] at distinct
  refine ⟨fun c here same => distinct.1 ?_, distinct.2⟩
  exact same ▸ List.mem_map_of_mem here

private theorem Law.advanced (law : Law w) {running : NodeCall ι} (member : running ∈ w.calls) :
    Law ((FleetAct.advances running).run env identity w) := by
  obtain ⟨logged, files, goes⟩ := advance_spec env running.call (identity running.node)
    (law.logged running.node)
  obtain ⟨apart, distinct⟩ := law.others member
  have owned := law.owned running member
  have unshared := law.unshared running member
  have unsent : ∀ m ∈ w.sent, m.unfinished = false → m.op.id ≠ running.id := by
    intro m here finished same
    exact running_eq_false.mp (law.sent m here finished).2 running member same.symm
  show Law { w with
    core := Function.update w.core running.node
      (running.call.advance env (identity running.node) (w.core running.node)).1
    calls := ((running.call.advance env (identity running.node) (w.core running.node)).2.map
      (NodeCall.mk running.node)).toList ++ w.calls.erase running }
  generalize running.call.advance env (identity running.node) (w.core running.node) = next at *
  obtain ⟨t, later⟩ := next
  -- first the call moves on or ends, then its node files what it files
  have moved : Law { w with
      calls := (later.map (NodeCall.mk running.node)).toList ++ w.calls.erase running } ∧
      ∀ c ∈ (later.map (NodeCall.mk running.node)).toList ++ w.calls.erase running,
        c.id = running.id → c.node = running.node ∧ c.call.stage ≠ .made := by
    cases later with
    | none =>
        refine ⟨law.recalled (fun c here => ⟨c, List.mem_of_mem_erase here, rfl, rfl, id⟩) distinct,
          fun c here same => absurd same (apart c here)⟩
    | some next =>
        obtain ⟨kept, stage⟩ := goes next rfl
        have same_id : (NodeCall.mk running.node next).id = running.id := congrArg FsOp.id kept
        refine ⟨law.recalled (fun c here => ?_) ?_, fun c here same => ?_⟩
        · rcases List.mem_cons.mp here with rfl | old
          · exact ⟨running, member, rfl, same_id, fun made => absurd made stage⟩
          · exact ⟨c, List.mem_of_mem_erase old, rfl, rfl, id⟩
        · refine List.nodup_cons.mpr ⟨fun here => ?_, distinct⟩
          obtain ⟨c, old, same⟩ := List.mem_map.mp here
          exact apart c old (same.trans same_id)
        · rcases List.mem_cons.mp here with rfl | old
          · exact ⟨rfl, stage⟩
          · exact absurd same (apart c old)
  rcases files with same | ⟨op, same_id, same⟩
  · exact moved.1.kept logged same.device_id same.next_counter.ge same.oplog
  · refine moved.1.filed logged same.device_id same.next_counter same.oplog
      (.inr ⟨?_, ?_, ?_, ?_, ?_⟩)
    · exact same_id ▸ owned.1
    · exact same_id ▸ owned.2
    · exact same_id ▸ unshared
    · exact same_id ▸ moved.2
    · exact same_id ▸ unsent

private theorem Law.begun (law : Law w) (node : ι) (kind : FsOpKind) (now : U64)
    (room : (w.core node).next_counter.val + 1 < 2 ^ 64) :
    Law ((FleetAct.begins node kind now).run env identity w) := by
  have above : (w.core node).next_counter < (w.core node).next_counter + 1 := by
    rw [Fin.lt_def, Fin.val_add_one_of_lt' (by simpa using room)]
    omega
  have taken : Law { w with core := Function.update w.core node (counted (w.core node)) } :=
    law.kept ((law.logged node).congr rfl rfl rfl) rfl above.le rfl
  -- no log and no other call has the new counter
  have unused : ∀ (id : OpId) j, id.device_id = (w.core node).device_id →
      id.counter = (w.core node).next_counter + 1 → id ∉ (w.core j).oplog := by
    intro id j device counter held
    obtain ⟨op, row⟩ := (BTreeMap.mem_iff_get _ _).mp held
    obtain ⟨i, mine, early, -⟩ := law.rows j id op row
    rw [(law.logged j).keyed row] at mine early
    obtain rfl : i = node := law.devices (mine.trans device)
    rw [counter] at early
    exact absurd early (not_le.mpr above)
  have free : ∀ j, (⟨(w.core node).device_id, (w.core node).next_counter + 1⟩ : OpId) ∉
      (Function.update w.core node (counted (w.core node)) j).oplog :=
    (Function.forall_update_iff w.core fun _ s =>
      (⟨(w.core node).device_id, (w.core node).next_counter + 1⟩ : OpId) ∉ s.oplog).mpr
      ⟨unused _ node rfl rfl, fun j _ => unused _ j rfl rfl⟩
  have distinct : ∀ c ∈ w.calls,
      c.id ≠ ⟨(w.core node).device_id, (w.core node).next_counter + 1⟩ := by
    intro c here same
    obtain ⟨device, counter⟩ := law.owned c here
    rw [same] at device counter
    obtain rfl : node = c.node := law.devices device
    exact absurd counter (not_le.mpr above)
  refine ⟨taken.logged, taken.devices, taken.rows, ?_, ?_, ?_, ?_, ?_⟩
  · intro c here
    rcases List.mem_cons.mp here with rfl | old
    · show _ = (Function.update w.core node (counted (w.core node)) node).device_id ∧
        _ ≤ (Function.update w.core node (counted (w.core node)) node).next_counter
      rw [Function.update_self]
      exact ⟨rfl, le_rfl⟩
    · exact taken.owned c old
  · refine List.nodup_cons.mpr ⟨fun here => ?_, law.distinct⟩
    obtain ⟨c, old, same⟩ := List.mem_map.mp here
    exact distinct c old same
  · intro c here made
    rcases List.mem_cons.mp here with rfl | old
    · exact free node
    · exact taken.fresh c old made
  · intro c here j apart
    rcases List.mem_cons.mp here with rfl | old
    · exact free j
    · exact taken.unshared c old j apart
  · intro m here finished
    obtain ⟨held, idle⟩ := taken.sent m here finished
    refine ⟨held, running_eq_false.mpr fun c member same => ?_⟩
    rcases List.mem_cons.mp member with rfl | old
    · obtain ⟨i, -, -, row⟩ := held
      rw [← same] at row
      exact free i ((BTreeMap.mem_iff_get _ _).mpr ⟨m.op, row⟩)
    · exact running_eq_false.mp idle c old same

private theorem Law.served (law : Law w) (node puller : ι) (summary : ClockSummary) :
    Law ((FleetAct.serves node puller summary).run env identity w) := by
  refine ⟨law.logged, law.devices, law.rows, law.owned, law.distinct, law.fresh, law.unshared, ?_⟩
  intro m here finished
  rcases List.mem_append.mp here with new | old
  · obtain ⟨op, served, rfl⟩ := List.mem_map.mp new
    have row := (law.logged node).of_mem_opsMissingFor (by decide) served
    exact ⟨law.rows node op.id op row, finished⟩
  · exact law.sent m old finished

private theorem Law.received (law : Law w) {served : Served ι} (member : served ∈ w.sent)
    (met : TakesFinished env w (.receives served)) :
    Law ((FleetAct.receives served).run env identity w) := by
  obtain ⟨logged, same⟩ := (law.logged served.node).applyOpInner env served.op true
  split at same
  · rename_i accepted
    have finished : served.unfinished = false := by
      by_contra early
      exact accepted.2 (met (by simpa using early) accepted.1)
    exact law.filed logged same.device_id same.next_counter same.oplog
      (.inl (law.sent served member finished))
  · exact law.kept logged same.device_id same.next_counter.ge same.oplog

theorem other_sameLog (env : Env) {s : CoreState} (logged : Logged s) (who : Identity)
    {a : Act} (other : a.Other) : Logged (a.run env who s) ∧ SameLog s (a.run env who s) := by
  cases a with
  | receive op => cases other
  | author kind now => cases other
  | store data =>
      obtain ⟨_, t, run, blobs, draws, -, rfl⟩ := storesOnly_storeContent env data s
      have same : (Act.store data).run env who s = { s with blobs := blobs, draws := draws } :=
        congrArg finalState run
      rw [same]
      exact ⟨logged.congr rfl rfl rfl, rfl, rfl, rfl, rfl⟩
  | retry => exact logged.retryPending env
  | snapshot =>
      have aside := aside_buildSnapshot env s
      exact ⟨logged.aside aside, sameLog_aside aside⟩
  | collect dry_run => exact logged.collectGarbage env dry_run
  | flush => exact ⟨logged.congr rfl rfl rfl, rfl, rfl, rfl, rfl⟩
  | content limits reply outcome =>
      have run : (Act.content limits reply outcome).run env who s = _ :=
        contentRound_core limits reply ⟨s, outcome⟩
      rw [run]
      cases got : contentStored env limits reply ⟨s, outcome⟩ with
      | none => exact ⟨logged, .refl s⟩
      | some stored =>
          obtain ⟨kept, frame⟩ := (contentStored_fromWire got).frame
          have core : stored.core = { s with blobs := kept } := frame
          dsimp only
          rw [core]
          obtain ⟨after, same⟩ := Logged.retryPending (s := { s with blobs := kept })
            (logged.congr rfl rfl rfl) env
          exact ⟨after, same.oplog, same.proofs, same.device_id, same.next_counter⟩
  | fetch reply stored outstanding =>
      obtain ⟨kept, same⟩ := (@fetchRound_fromWire env reply ⟨s, stored, outstanding⟩).frame
      have run : (Act.fetch reply stored outstanding).run env who s = { s with blobs := kept } := same
      rw [run]
      exact ⟨logged.congr rfl rfl rfl, rfl, rfl, rfl, rfl⟩
  | hello policy device pubkey =>
      obtain ⟨_, _, _, _, same⟩ := (pinned_authorize policy device pubkey s).frame
      have run : (Act.hello policy device pubkey).run env who s = _ := same
      rw [run]
      exact ⟨logged.congr rfl rfl rfl, rfl, rfl, rfl, rfl⟩
  | enrol device pubkey seal_key allow_rotation =>
      obtain ⟨_, _, _, _, same⟩ :=
        (pinned_enrolPeer device pubkey seal_key allow_rotation s).frame
      have run : (Act.enrol device pubkey seal_key allow_rotation).run env who s = _ := same
      rw [run]
      exact ⟨logged.congr rfl rfl rfl, rfl, rfl, rfl, rfl⟩
  | revoke device =>
      obtain ⟨_, _, _, _, same, -⟩ := revokePeer_forgets device s
      have run : (Act.revoke device).run env who s = _ := same
      rw [run]
      exact ⟨logged.congr rfl rfl rfl, rfl, rfl, rfl, rfl⟩

theorem Law.act (law : Law w) {a : FleetAct ι} (possible : a.Possible w)
    (met : TakesFinished env w a) : Law (a.run env identity w) := by
  cases a with
  | begins node kind now => exact law.begun node kind now met
  | advances running => exact law.advanced possible
  | serves node puller summary => exact law.served node puller summary
  | receives served => exact law.received possible met
  | works node a =>
      obtain ⟨logged, same⟩ := other_sameLog env (law.logged node) (identity node) possible
      exact law.kept logged same.device_id same.next_counter.ge same.oplog

/-- In every run in which no node counts past the last counter and none takes an operation that was
served while the call for its id was running, all holders of an operation hold the same bytes. -/
theorem holders_agree (run : FleetRun env identity (TakesFinished env) w) : HoldersAgree w := by
  suffices Law w from this.agree
  induction run with
  | boot blank devices => exact law_booted blank devices
  | step _ possible met ih => exact ih.act possible met

end Law

section Early

def sampleCore (node : Bool) : CoreState :=
  { CoreState.new (if node then 8 else 7) with proofs := .transparent }

def sampleFleet : Fleet Bool := ⟨fun i => booted .proving (sampleCore i), [], []⟩

def goOn (w : Fleet Bool) : Fleet Bool :=
  match w.calls with
  | running :: _ => (FleetAct.advances running).run .proving (fun _ => sampleIdentity) w
  | [] => w

def takeFirst (w : Fleet Bool) : Fleet Bool :=
  match w.sent with
  | served :: _ => (FleetAct.receives served).run .proving (fun _ => sampleIdentity) w
  | [] => w

def serveAll (w : Fleet Bool) : Fleet Bool :=
  (FleetAct.serves false true ⟨[], []⟩).run .proving (fun _ => sampleIdentity) w

def begunFleet : Fleet Bool :=
  (FleetAct.begins false (.mkdir rootInode "a" 0) 0).run .proving (fun _ => sampleIdentity)
    sampleFleet

def endedFleet : Fleet Bool := goOn (goOn (goOn (goOn begunFleet)))

def settledFleet : Fleet Bool := takeFirst (serveAll endedFleet)

/-- The operation is served and taken before its evidence is there; then the call ends. -/
def earlyFleet : Fleet Bool := goOn (goOn (goOn (takeFirst (serveAll (goOn begunFleet)))))

variable {meets : Fleet Bool → FleetAct Bool → Prop} {w : Fleet Bool}

private theorem FleetRun.goOn (run : FleetRun .proving (fun _ => sampleIdentity) meets w)
    (met : ∀ running, meets w (.advances running)) :
    FleetRun .proving (fun _ => sampleIdentity) meets (goOn w) := by
  unfold Net.goOn
  split
  · rename_i running rest calls
    exact run.step (by simp [FleetAct.Possible, calls]) (met running)
  · exact run

private theorem FleetRun.takeFirst (run : FleetRun .proving (fun _ => sampleIdentity) meets w)
    (met : ∀ served, w.sent.head? = some served → meets w (.receives served)) :
    FleetRun .proving (fun _ => sampleIdentity) meets (takeFirst w) := by
  unfold Net.takeFirst
  split
  · rename_i served rest sent
    exact run.step (by simp [FleetAct.Possible, sent]) (met served (by simp [sent]))
  · exact run

private theorem sampleFleet_run : FleetRun .proving (fun _ => sampleIdentity) meets sampleFleet := by
  refine .boot (fun i => ?_) ?_
  · exact ⟨rfl, rfl, rfl, rfl, rfl, rfl, rfl, rfl, rfl, rfl⟩
  · have apart : ∀ i j, (sampleCore i).device_id = (sampleCore j).device_id → i = j := by decide
    exact fun i j => apart i j

private theorem goOn_idle {w : Fleet Bool} (none_left : w.calls = []) : Net.goOn w = w := by
  unfold Net.goOn
  rw [none_left]

private theorem goOn_alone (n : Nat) {w : Fleet Bool} {node : Bool} {call : LocalCall}
    (only : w.calls = [⟨node, call⟩]) : (Net.goOn^[n] w).core node =
      (finishCall .proving sampleIdentity n (w.core node, some call)).1 := by
  induction n generalizing w call with
  | zero => rfl
  | succ n ih =>
      rw [Function.iterate_succ_apply, finishCall]
      have next : Net.goOn w = (FleetAct.advances ⟨node, call⟩).run .proving (fun _ => sampleIdentity) w := by
        unfold Net.goOn
        rw [only]
      have core : (Net.goOn w).core node = (call.advance .proving sampleIdentity (w.core node)).1 := by
        rw [next]
        exact Function.update_self ..
      have calls : (Net.goOn w).calls = ((call.advance .proving sampleIdentity (w.core node)).2.map
          (NodeCall.mk node)).toList := by
        rw [next]
        show _ ++ w.calls.erase ⟨node, call⟩ = _
        rw [only, List.erase_cons_head, List.append_nil]
      cases result : call.advance .proving sampleIdentity (w.core node) with
      | mk s left =>
          rw [result] at core calls
          cases left with
          | some later => rw [ih calls, core]
          | none =>
              rw [Function.iterate_fixed (goOn_idle calls), core]
              cases n <;> rfl

/-- The call left alone is `apply_local`, and the node that takes its operation has the evidence too. -/
theorem holders_agree_sample :
    HoldersAgree settledFleet ∧
      endedFleet.core false = finalState (applyLocal .proving sampleIdentity (.mkdir rootInode "a" 0) 0
        (booted .proving (sampleCore false))) ∧
      (((settledFleet.core true).oplog[(⟨7, 1⟩ : OpId)]?).map fun op => op.proof.isSome) = some true := by
  have counter : (sampleFleet.core false).next_counter = 0 := by decide +kernel
  have finished : ((serveAll endedFleet).sent.head?.map Served.unfinished) = some false := by
    decide +kernel
  have begun : FleetRun .proving (fun _ => sampleIdentity) (TakesFinished .proving) begunFleet := by
    refine sampleFleet_run.step trivial ?_
    show (sampleFleet.core false).next_counter.val + 1 < 2 ^ 64
    rw [counter]
    decide
  have ended : FleetRun .proving (fun _ => sampleIdentity) (TakesFinished .proving) endedFleet :=
    (((begun.goOn fun _ => trivial).goOn fun _ => trivial).goOn fun _ => trivial).goOn fun _ => trivial
  have served : FleetRun .proving (fun _ => sampleIdentity) (TakesFinished .proving)
      (serveAll endedFleet) := ended.step trivial trivial
  have run : FleetRun .proving (fun _ => sampleIdentity) (TakesFinished .proving) settledFleet := by
    refine served.takeFirst fun m first early => ?_
    rw [first] at finished
    exact absurd (early.symm.trans (Option.some.inj finished)) (by simp)
  have only : begunFleet.calls = [⟨false, beginCall .proving sampleIdentity (.mkdir rootInode "a" 0) 0
      (booted .proving (sampleCore false))⟩] := rfl
  have core : begunFleet.core false = counted (booted .proving (sampleCore false)) := rfl
  refine ⟨holders_agree run, ?_, by decide +kernel⟩
  have four : ∀ f : Fleet Bool → Fleet Bool, f (f (f (f begunFleet))) = f^[4] begunFleet := fun _ => rfl
  rw [endedFleet, four goOn, goOn_alone 4 only, core, finishCall_eq_applyLocal]

/-- An operation taken while its call runs stays without evidence at the node that took it, and its
author replaces its own copy. -/
theorem early_copy_differs :
    FleetRun .proving (fun _ => sampleIdentity) (fun _ _ => True) earlyFleet ∧
      (∀ i, (earlyFleet.core i).proofs = .transparent) ∧ earlyFleet.running ⟨7, 1⟩ = false ∧
      ¬HoldersAgree earlyFleet := by
  have begun : FleetRun .proving (fun _ => sampleIdentity) (fun _ _ => True) begunFleet :=
    sampleFleet_run.step trivial trivial
  have served : FleetRun .proving (fun _ => sampleIdentity) (fun _ _ => True)
      (serveAll (goOn begunFleet)) := (begun.goOn fun _ => trivial).step trivial trivial
  have taken := served.takeFirst fun _ _ => trivial
  have idle : earlyFleet.running ⟨7, 1⟩ = false := by decide +kernel
  refine ⟨((taken.goOn fun _ => trivial).goOn fun _ => trivial).goOn fun _ => trivial, ?_, idle, ?_⟩
  · decide +kernel
  · intro agree
    have own : (((earlyFleet.core false).oplog[(⟨7, 1⟩ : OpId)]?).map fun op => op.proof.isSome) =
        some true := by decide +kernel
    have theirs : (((earlyFleet.core true).oplog[(⟨7, 1⟩ : OpId)]?).map fun op => op.proof.isSome) =
        some false := by decide +kernel
    obtain ⟨first, one, proven⟩ := Option.map_eq_some_iff.mp own
    obtain ⟨second, two, bare⟩ := Option.map_eq_some_iff.mp theirs
    obtain rfl := agree false true _ first second one two idle
    exact absurd (proven.symm.trans bare) (by simp)

end Early

end NexusFS.Net
