/- GID: NexusFS/Net/Local
   source: crates/core/src/ops.rs, crates/core/src/apply.rs
   digest: What a local operation that returns has done to the state. -/

import NexusFS.Core.Call
import NexusFS.Core.Log
import NexusFS.Core.Recipients
import NexusFS.Net.Attribution

set_option autoImplicit false
set_option relaxedAutoImplicit false

namespace NexusFS.Net

open NexusFS.Lib NexusFS.Lib.Effect NexusFS.Proto NexusFS.Core

section Local

variable {env : Env} {identity : Identity} {kind : FsOpKind} {now : U64} {s t : CoreState}

theorem sameKeys_applyLocal (env : Env) (identity : Identity) (kind : FsOpKind) (now : U64)
    (s : CoreState) : SameKeys s (finalState (applyLocal env identity kind now s)) := by
  have applied : SameKeys s (finalState (applyOpInner env (authoredOp env identity kind now s)
      (!s.proofs.generates) (counted s))) :=
    @CallRule.run env (counted s) (SameKeys s) (fun _ => True) (sameKeysRule env s)
      ⟨⟨rfl, rfl, rfl⟩, rfl, rfl⟩ (.apply (authoredOp env identity kind now s) (!s.proofs.generates))
      (fun _ _ _ => trivial) fun _ collects => nomatch collects
  rcases applyLocal_final env identity kind now s with same | ⟨proven, -, same⟩
  · rw [same]
    exact applied
  · rw [same]
    exact applied.trans ⟨⟨rfl, rfl, rfl⟩, rfl, rfl⟩

private theorem numberRule (env : Env) (device : DeviceId) (counter : U64) :
    CallRule env (fun t => t.device_id = device ∧ t.next_counter = counter) (fun _ => True)
      (fun _ _ => True) fun _ t => t.device_id = device ∧ t.next_counter = counter where
  toAttemptRule := by
    refine .of_took ?_ (fun same _ _ => same) fun _ _ => trivial
    rintro s t op same - - took
    have log := took.sameLog
    exact ⟨log.device_id.trans same.1, log.next_counter.trans same.2⟩
  logged same _ := same
  aside := by
    rintro s t same ⟨_, _, _, _, _, -, rfl⟩
    exact same
  park same _ _ := same

theorem numbers_applyLocal (env : Env) (identity : Identity) (kind : FsOpKind) (now : U64)
    (s : CoreState) : (finalState (applyLocal env identity kind now s)).device_id = s.device_id ∧
      (finalState (applyLocal env identity kind now s)).next_counter = s.next_counter + 1 := by
  have applied := @CallRule.run env (counted s) _ (fun _ => True)
    (numberRule env s.device_id (s.next_counter + 1)) ⟨rfl, rfl⟩
    (.apply (authoredOp env identity kind now s) (!s.proofs.generates)) (fun _ _ _ => trivial)
    fun _ collects => nomatch collects
  rcases applyLocal_final env identity kind now s with same | ⟨proven, -, same⟩
  · rw [same]
    exact applied
  · rw [same]
    exact applied

def nextId (s : CoreState) : OpId := ⟨s.device_id, s.next_counter + 1⟩

def localRetries (env : Env) (identity : Identity) (kind : FsOpKind) (now : U64) (s : CoreState) :
    List (CoreState × FsOp) :=
  applyRetries env (authoredOp env identity kind now s) (!s.proofs.generates) (counted s)

/-- The attempts of a local operation: its own, and those of the parked operations after it. -/
def localAttempts (env : Env) (identity : Identity) (kind : FsOpKind) (now : U64) (s : CoreState) :
    List (CoreState × FsOp) :=
  applyAttempts env (authoredOp env identity kind now s) (!s.proofs.generates) (counted s)

def Closes (s t : CoreState) : Prop :=
  ∃ u log, Aside s u ∧ t = { u with oplog := log }

/-- A local operation that was applied before is reported as applied again. -/
structure Repeated (s t : CoreState) : Prop where
  known : nextId s ∈ s.applied
  closes : Closes (counted s) t

/-- A local operation that took effect: what it changed, what the retries of the queue left, and the
end of the call. -/
structure Performed (env : Env) (identity : Identity) (kind : FsOpKind) (now : U64)
    (s w u v t : CoreState) : Prop where
  new : nextId s ∉ s.applied
  mutated : mutate env (authoredOp env identity kind now s)
    ((counted s).appendOp (authoredOp env identity kind now s)) = .ok .done w
  mapped : OnlyMap (w.noteApplied (authoredOp env identity kind now s)) u
  tried : finalState (attempt env (authoredOp env identity kind now s)
    ((counted s).appendOp (authoredOp env identity kind now s))) = u
  attempts : localAttempts env identity kind now s =
    ((counted s).appendOp (authoredOp env identity kind now s), authoredOp env identity kind now s) ::
      drainRetries env u
  drained : ∃ n, drainPending env u = .ok n v
  closes : Closes v t

/-- How a local operation ends, by how `apply_op` of the operation it made ends. -/
theorem applyLocal_ends (env : Env) (identity : Identity) (kind : FsOpKind) (now : U64)
    (s : CoreState) :
    (∃ e t, applyLocal env identity kind now s = .error e t ∧
      ((∃ e, applyOpInner env (authoredOp env identity kind now s) (!s.proofs.generates) (counted s) =
          .error e t) ∨
        ∃ reason, applyOpInner env (authoredOp env identity kind now s) (!s.proofs.generates)
          (counted s) = .ok (.pending reason) t)) ∨
      ∃ op t outcome v, applyLocal env identity kind now s = .ok op t ∧ op.id = nextId s ∧
        applyOpInner env (authoredOp env identity kind now s) (!s.proofs.generates) (counted s) =
          .ok outcome v ∧ (outcome = .applied ∨ outcome = .alreadyApplied) ∧
        (t = v ∨ t = v.appendOp op) := by
  unfold applyLocal
  simp only [bind_run, get_run]
  cases generates : s.proofs.generates with
  | false =>
      simp only [Bool.not_false, if_true, makeOp_run, bind_run, applyOp]
      cases inner : applyOpInner env (authoredOp env identity kind now s) true (counted s) with
      | error e v => exact .inl ⟨e, v, rfl, .inl ⟨e, rfl⟩⟩
      | ok outcome v =>
          cases outcome with
          | pending reason => exact .inl ⟨_, v, rfl, .inr ⟨reason, rfl⟩⟩
          | applied => exact .inr ⟨_, v, _, v, rfl, rfl, rfl, .inl rfl, .inl rfl⟩
          | alreadyApplied => exact .inr ⟨_, v, _, v, rfl, rfl, rfl, .inr rfl, .inl rfl⟩
  | true =>
      simp only [Bool.not_true, Bool.false_eq_true, if_false, makeOp_run, bind_run, applyOpUnproven]
      cases inner : applyOpInner env (authoredOp env identity kind now s) false (counted s) with
      | error e v => exact .inl ⟨e, v, rfl, .inl ⟨e, rfl⟩⟩
      | ok outcome v =>
          cases outcome with
          | pending reason => exact .inl ⟨_, v, rfl, .inr ⟨reason, rfl⟩⟩
          | applied => exact .inr ⟨_, _, _, v, rfl, rfl, rfl, .inl rfl, .inr rfl⟩
          | alreadyApplied => exact .inr ⟨_, _, _, v, rfl, rfl, rfl, .inr rfl, .inr rfl⟩

private theorem applyLocal_outcome {op : FsOp} (run : applyLocal env identity kind now s = .ok op t) :
    op.id = nextId s ∧ ∃ outcome v log,
      applyOpInner env (authoredOp env identity kind now s) (!s.proofs.generates) (counted s) =
        .ok outcome v ∧ (outcome = .applied ∨ outcome = .alreadyApplied) ∧
      t = { v with oplog := log } := by
  rcases applyLocal_ends env identity kind now s with
    ⟨e, u, failed, -⟩ | ⟨made, u, outcome, v, returned, own, inner, ended, closes⟩
  · rw [failed] at run
    cases run
  · rw [returned] at run
    cases run
    refine ⟨own, outcome, v, t.oplog, inner, ended, ?_⟩
    rcases closes with rfl | rfl <;> rfl

theorem applyLocal_ok {op : FsOp} (run : applyLocal env identity kind now s = .ok op t) :
    op.id = nextId s ∧ (Repeated s t ∨ ∃ w u v, Performed env identity kind now s w u v t) := by
  obtain ⟨same_id, outcome, v, log, inner, returned, rfl⟩ := applyLocal_outcome run
  refine ⟨same_id, ?_⟩
  by_cases admits : Admits env (authoredOp env identity kind now s) (!s.proofs.generates) (counted s)
  · by_cases known : (authoredOp env identity kind now s).id ∈ (counted s).applied
    · rw [applyOpInner_known admits known] at inner
      cases inner
      exact .inl ⟨known, counted s, log, ⟨_, _, _, _, _, fun _ here => here, rfl⟩, rfl⟩
    · have attempts : localAttempts env identity kind now s = _ := applyAttempts_new admits known
      rw [applyRetries_new admits known] at attempts
      rw [applyOpInner_new admits known] at inner
      unfold afterFirst at attempts
      have tried := @attempt_run env (authoredOp env identity kind now s)
        ((counted s).appendOp (authoredOp env identity kind now s))
      rw [tried] at inner attempts
      cases mutated : mutate env (authoredOp env identity kind now s)
          ((counted s).appendOp (authoredOp env identity kind now s)) with
      | error e w =>
          rw [mutated] at inner
          cases inner
      | ok effect w =>
          rw [mutated] at inner attempts tried
          cases effect with
          | unmet reason =>
              dsimp only at inner
              cases later : drainPending env (w.storePending (authoredOp env identity kind now s)) with
              | error e x =>
                  rw [later] at inner
                  cases inner
              | ok n x =>
                  rw [later] at inner
                  cases inner
                  rcases returned with same | same <;> cases same
          | done =>
              have mapped := onlyMap_maintain env (authoredOp env identity kind now s)
                (w.noteApplied (authoredOp env identity kind now s))
              have settled : settleApplied env (authoredOp env identity kind now s) w =
                  maintainInodeMap env (authoredOp env identity kind now s)
                    (w.noteApplied (authoredOp env identity kind now s)) := rfl
              dsimp only at inner attempts tried
              rw [settled] at inner attempts tried
              cases maintained : maintainInodeMap env (authoredOp env identity kind now s)
                  (w.noteApplied (authoredOp env identity kind now s)) with
              | error e u =>
                  rw [maintained] at inner
                  cases inner
              | ok _ u =>
                  rw [maintained] at inner attempts mapped tried
                  dsimp only at inner attempts
                  cases later : drainPending env u with
                  | error e x =>
                      rw [later] at inner
                      cases inner
                  | ok n x =>
                      rw [later] at inner
                      cases inner
                      exact .inr ⟨w, u, x, known, mutated, mapped, congrArg finalState tried, attempts,
                        ⟨n, later⟩, _, log, aside_closeCall env True x, rfl⟩
  · obtain ⟨e, refused⟩ := applyOpInner_refused admits
    rw [refused] at inner
    cases inner

end Local

section Writing

variable {env : Env} {identity : Identity} {path : String} {data : Bytes} {now : U64}
  {s a b t : CoreState} {inode : U128} {op : FsOp}

/-- The first half of `write_file`: find the file, creating it and its parents as needed. -/
def prepareFile (env : Env) (identity : Identity) (path : String) (now : U64) : M U128 := do
  let parts ← liftCheck (splitPath path)
  match parts.getLast? with
  | none => throw (.noFinalComponent path)
  | some name => do
      let parent ← mkdirP env identity ("/".intercalate parts.dropLast) now
      let s ← get
      match s.lookup parent name with
      | some entry =>
          if entry.entry_type = .file then pure entry.inode_id else throw (.existsNotFile path)
      | none => do
          let op ← applyLocal env identity (.createFile parent name 0o100644) now
          pure (inodeForOp env op.id)

/-- The operation that `write_file` makes of stored content. -/
def writeKind (env : Env) (a : CoreState) (inode : U128) (data : Bytes) : FsOpKind :=
  .write inode 0 (contentRefs env a data) (Fin.ofNat (2 ^ 64) data.length) (contentInfo env a data)

/-- A `write_file` that returned: the file was found or made, the content stored, and one write of
it made. -/
structure Wrote (env : Env) (identity : Identity) (path : String) (data : Bytes) (now : U64)
    (s : CoreState) (inode : U128) (a b : CoreState) (op : FsOp) (t : CoreState) : Prop where
  prepared : prepareFile env identity path now s = .ok inode a
  stored : storeContent env data a = .ok (contentRefs env a data, contentInfo env a data) b
  performed : applyLocal env identity (writeKind env a inode data) now b = .ok op t

private theorem writeFile_halves (env : Env) (identity : Identity) (path : String) (data : Bytes)
    (now : U64) : writeFile env identity path data now = (do
      let inode ← prepareFile env identity path now
      let (chunks, encryption) ← storeContent env data
      let _ ← applyLocal env identity
        (.write inode 0 chunks (Fin.ofNat (2 ^ 64) data.length) encryption) now
      return inode) := by
  unfold writeFile prepareFile
  simp only [bind_assoc]
  congr 1
  funext parts
  cases parts.getLast? with
  | none => rfl
  | some name =>
      simp only [bind_assoc]
      congr 1
      funext parent
      congr 1
      funext s
      cases s.lookup parent name with
      | some entry =>
          dsimp only
          split <;> rfl
      | none => simp only [bind_assoc]

/-- A `write_file` returns exactly if its steps do. -/
theorem writeFile_ok_iff (ideal : Ideal env) :
    writeFile env identity path data now s = .ok inode t ↔
      ∃ a b op, Wrote env identity path data now s inode a b op t := by
  rw [writeFile_halves, bind_run]
  constructor
  · intro run
    cases first : prepareFile env identity path now s with
    | error e a =>
        rw [first] at run
        cases run
    | ok file a =>
        obtain ⟨d, stores⟩ := storeContent_eq ideal data a
        rw [first] at run
        dsimp only at run
        rw [bind_run, stores] at run
        dsimp only at run
        rw [bind_run] at run
        cases last : applyLocal env identity (writeKind env a file data) now
            { putAll env (contentPieces env a data) a with draws := d } with
        | error e u =>
            unfold writeKind at last
            rw [last] at run
            cases run
        | ok op u =>
            have performed := last
            unfold writeKind at last
            rw [last] at run
            cases run
            exact ⟨a, _, op, first, stores, performed⟩
  · rintro ⟨a, b, op, prepared, stored, performed⟩
    unfold writeKind at performed
    rw [prepared]
    dsimp only
    rw [bind_run, stored]
    dsimp only
    rw [bind_run, performed]
    rfl

theorem keeps_prepareFile {p : CoreState → Prop}
    (authored : ∀ kind now, Keeps p (applyLocal env identity kind now)) (path : String) (now : U64) :
    Keeps p (prepareFile env identity path now) := by
  refine (keeps_liftCheck _).bind fun parts => ?_
  split
  · exact Keeps.throw _
  · refine (keeps_mkdirP authored _ now).bind fun parent => Keeps.read fun s _ => ?_
    split
    · split
      · exact Keeps.pure _
      · exact Keeps.throw _
    · exact (authored _ _).bind fun _ => Keeps.pure _

theorem Wrote.sameKeys (wrote : Wrote env identity path data now s inode a b op t) :
    SameKeys s a := by
  have authored : ∀ kind now, Keeps (SameKeys s) (applyLocal env identity kind now) :=
    fun kind now u same => same.trans (sameKeys_applyLocal env identity kind now u)
  have kept := keeps_prepareFile authored path now s (.refl s)
  rw [wrote.prepared] at kept
  exact kept

end Writing

end NexusFS.Net
