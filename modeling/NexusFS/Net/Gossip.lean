/- GID: NexusFS/Net/Gossip
   source: crates/net/src/session.rs, crates/core/src/state.rs
   digest: What reaches which node through pulls of many nodes that interleave in any way. -/

import NexusFS.Core.Clock
import NexusFS.Net.Failing

/-!
A pull asks with the clock summary of one moment, is answered from the log of another, and applies
the batch one operation at a time. In between its puller and its responder go on working, and take
part in other pulls.
-/

set_option autoImplicit false
set_option relaxedAutoImplicit false

namespace NexusFS.Net

open NexusFS.Lib NexusFS.Lib.Effect NexusFS.Proto NexusFS.Core

/-- How far the operation phase of a pull is. -/
inductive Phase where
  | asking
  | asked (summary : ClockSummary)
  | answered (summary : ClockSummary) (ops : List FsOp) (more : Bool)
  | taking (summary : ClockSummary) (rest : List FsOp) (more : Bool)
  | complete
  | stalled
  | overrun
  | lost

/-- A pull of one node from another, and how many operations it has received. -/
structure PullOf (ι : Type) where
  puller : ι
  responder : ι
  received : Nat
  phase : Phase

/-- The nodes, and the pulls that were started. -/
structure Swarm (ι κ : Type) where
  core : ι → CoreState
  pulls : κ → Option (PullOf ι)

section Steps

variable {ι κ : Type} [DecidableEq ι] [DecidableEq κ] (env : Env) (identity : ι → Identity)

namespace Swarm

variable (w : Swarm ι κ)

def setPhase (k : κ) (pull : PullOf ι) (phase : Phase) : Swarm ι κ :=
  { w with pulls := Function.update w.pulls k (some { pull with phase := phase }) }

def advance (k : κ) (pull : PullOf ι) : Swarm ι κ :=
  match pull.phase with
  | .asking => w.setPhase k pull (.asked (clockSummary (w.core pull.puller)))
  | .asked summary =>
      let (ops, more) := serveHave (w.core pull.responder) summary
      w.setPhase k pull (.answered summary ops more)
  | .answered summary ops more =>
      if ops.isEmpty && !more then w.setPhase k pull .complete
      else
        let counted := { pull with received := pull.received + ops.length }
        if maxOpsPerSession < counted.received then w.setPhase k counted .overrun
        else w.setPhase k counted (.taking summary ops more)
  | .taking summary (op :: rest) more =>
      { w.setPhase k pull (.taking summary rest more) with
        core := Function.update w.core pull.puller (finalState (applyOp env op (w.core pull.puller))) }
  | .taking summary [] more =>
      if !more then w.setPhase k pull .complete
      else if clockSummary (w.core pull.puller) = summary then w.setPhase k pull .stalled
      else w.setPhase k pull .asking
  | _ => w

end Swarm

/-- A node does any work of its own, a pull starts, goes on, or loses its connection. -/
inductive SwarmStep (w : Swarm ι κ) : Swarm ι κ → Prop
  | work (i : ι) (a : Act) : SwarmStep w
      { w with core := Function.update w.core i (a.run env (identity i) (w.core i)) }
  | start (k : κ) (puller responder : ι) (unused : w.pulls k = none) : SwarmStep w
      { w with pulls := Function.update w.pulls k (some ⟨puller, responder, 0, .asking⟩) }
  | advance (k : κ) (pull : PullOf ι) (running : w.pulls k = some pull) :
      SwarmStep w (w.advance env k pull)
  | lose (k : κ) (pull : PullOf ι) (running : w.pulls k = some pull) :
      SwarmStep w (w.setPhase k pull .lost)

/-- The states of a swarm of new nodes in which every state that is left meets a condition. -/
inductive SwarmRun (meets : Swarm ι κ → Prop) : Swarm ι κ → Prop
  | boot {core : ι → CoreState} (blank : ∀ i, Blank (core i)) :
      SwarmRun meets ⟨fun i => booted env (core i), fun _ => none⟩
  | step {u v : Swarm ι κ} (before : SwarmRun meets u) (met : meets u)
      (step : SwarmStep env identity u v) : SwarmRun meets v

/-- Steps from one state of the swarm to a later one. -/
inductive LaterSwarm (meets : Swarm ι κ → Prop) (w : Swarm ι κ) : Swarm ι κ → Prop
  | now : LaterSwarm meets w w
  | step {u v : Swarm ι κ} (before : LaterSwarm meets w u) (met : meets u)
      (step : SwarmStep env identity u v) : LaterSwarm meets w v

end Steps

section Growing

variable {env : Env} {identity : Identity} {s t u : CoreState}

/-- The log only grew, and the policy stayed. -/
structure LogGrew (s t : CoreState) : Prop where
  logged : Logged t
  proofs : t.proofs = s.proofs
  kept : ∀ {id}, id ∈ s.oplog → id ∈ t.oplog

theorem grown_applyOpInner (logged : Logged s) (env : Env) (op : FsOp) (check_policy : Bool) :
    LogGrew s (finalState (applyOpInner env op check_policy s)) := by
  obtain ⟨after, same⟩ := logged.applyOpInner env op check_policy
  split at same
  · exact ⟨after, same.proofs, fun here => same.oplog ▸ Std.ExtTreeMap.mem_insert.mpr (.inr here)⟩
  · exact ⟨after, same.proofs, fun here => same.oplog ▸ here⟩

theorem grown_act (logged : Logged s) (a : Act) : LogGrew s (a.run env identity s) := by
  by_cases other : a.Other
  · obtain ⟨after, same⟩ := other_sameLog env logged identity other
    exact ⟨after, same.proofs, fun here => same.oplog ▸ here⟩
  · cases a with
    | receive op => exact grown_applyOpInner logged env op true
    | author kind now =>
        have counts : Logged (counted s) := logged.congr rfl rfl rfl
        have inner := grown_applyOpInner counts env (authoredOp env identity kind now s) (!s.proofs.generates)
        refine ⟨logged_act logged _, ?_, fun {id} here => ?_⟩
        · rcases applyLocal_final env identity kind now s with same | ⟨proven, -, same⟩
          · exact (congrArg CoreState.proofs same).trans inner.proofs
          · exact (congrArg CoreState.proofs same).trans inner.proofs
        · rcases applyLocal_final env identity kind now s with same | ⟨proven, -, same⟩
          · exact (congrArg CoreState.oplog same : _ = _) ▸ inner.kept here
          · have later : id ∈ ((finalState (applyOpInner env (authoredOp env identity kind now s)
                (!s.proofs.generates) (counted s))).appendOp proven).oplog :=
              Std.ExtTreeMap.mem_insert.mpr (.inr (inner.kept here))
            exact (congrArg CoreState.oplog same : _ = _) ▸ later
    | _ => exact absurd trivial other

end Growing

section Delivery

variable {ι κ : Type} [DecidableEq ι] [DecidableEq κ] {env : Env} {identity : ι → Identity}
  {w u v : Swarm ι κ} {id : OpId} {k : κ} {pull : PullOf ι} {i j : ι}

def Accepted (env : Env) (id : OpId) (w : Swarm ι κ) : Prop :=
  ∀ i j op, (w.core i).oplog[id]? = some op → Admits env op true (w.core j)

def Phase.batch : Phase → List FsOp
  | .answered _ ops _ => ops
  | .taking _ rest _ => rest
  | _ => []

/-- What a summary on its way says about the id is true of the puller, and the puller accepts what is on
its way under the id. -/
structure Truthful (env : Env) (id : OpId) (pull : PullOf ι) (core : ι → CoreState) : Prop where
  covered : ∀ summary, pull.phase = .asked summary → holdsCounter summary id →
    id ∈ (core pull.puller).oplog
  accepts : ∀ op ∈ pull.phase.batch, op.id = id → Admits env op true (core pull.puller)

/-- The logs are in order, and the pulls are truthful about the id. -/
structure Accounted (env : Env) (id : OpId) (w : Swarm ι κ) : Prop where
  logged : ∀ i, Logged (w.core i)
  pulls : ∀ k pull, w.pulls k = some pull → Truthful env id pull w.core

omit [DecidableEq ι] in
theorem Truthful.mono {core core' : ι → CoreState} (truthful : Truthful env id pull core)
    (grown : ∀ i, LogGrew (core i) (core' i)) : Truthful env id pull core' where
  covered summary phase held := (grown _).kept (truthful.covered summary phase held)
  accepts op member same := by
    have admits := truthful.accepts op member same
    unfold Admits at admits ⊢
    rwa [(grown _).proofs]

theorem SwarmStep.core (step : SwarmStep env identity w u) (i : ι) :
    u.core i = w.core i ∨ ∃ a : Act, u.core i = a.run env (identity i) (w.core i) := by
  have updated : ∀ {j : ι} {t : CoreState}, (∃ a : Act, t = a.run env (identity j) (w.core j)) →
      Function.update w.core j t i = w.core i ∨
        ∃ a : Act, Function.update w.core j t i = a.run env (identity i) (w.core i) := by
    rintro j t ⟨a, rfl⟩
    by_cases same : i = j
    · subst same
      exact .inr ⟨a, Function.update_self _ _ _⟩
    · exact .inl (Function.update_of_ne same _ _)
  cases step with
  | work j a => exact updated ⟨a, rfl⟩
  | start k puller responder unused => exact .inl rfl
  | lose k pull running => exact .inl rfl
  | advance k pull running =>
      unfold Swarm.advance
      split
      · exact .inl rfl
      · exact .inl rfl
      · split
        · exact .inl rfl
        · dsimp only
          split <;> exact .inl rfl
      · exact updated ⟨.receive _, rfl⟩
      · split
        · exact .inl rfl
        · split <;> exact .inl rfl
      · exact .inl rfl

theorem SwarmStep.grown (step : SwarmStep env identity w u) (logged : ∀ i, Logged (w.core i)) (i : ι) :
    LogGrew (w.core i) (u.core i) := by
  rcases step.core i with same | ⟨a, same⟩
  · rw [same]
    exact ⟨logged i, rfl, fun here => here⟩
  · rw [same]
    exact grown_act (logged i) a

theorem advance_others (k : κ) (pull : PullOf ι) {l : κ} (apart : l ≠ k) :
    (w.advance env k pull).pulls l = w.pulls l := by
  have others : ∀ (pull' : PullOf ι) phase, (w.setPhase k pull' phase).pulls l = w.pulls l :=
    fun pull' phase => Function.update_of_ne apart _ _
  unfold Swarm.advance
  split
  · exact others _ _
  · exact others _ _
  · split
    · exact others _ _
    · dsimp only
      split <;> exact others _ _
  · exact others _ _
  · split
    · exact others _ _
    · split <;> exact others _ _
  · rfl

/-- What a pull that was answered from a log with the id still owes: the id is there, or is on its way, or
will be asked for again. -/
def Phase.Keeps (id : OpId) (there : Prop) : Phase → Prop
  | .answered _ ops more => there ∨ (∃ op ∈ ops, op.id = id) ∨ more = true
  | .taking _ rest more => there ∨ (∃ op ∈ rest, op.id = id) ∨ more = true
  | .complete => there
  | _ => True

theorem Phase.Keeps.mono {here there : Prop} {phase : Phase} (keeps : phase.Keeps id here)
    (later : here → there) : phase.Keeps id there := by
  cases phase with
  | answered summary ops more => exact keeps.imp_left later
  | taking summary rest more => exact keeps.imp_left later
  | complete => exact later keeps
  | _ => trivial

theorem serveHave_keeps {responder : CoreState} {summary : ClockSummary} (logged : Logged responder)
    (held : id ∈ responder.oplog) (new : ¬holdsCounter summary id) :
    (∃ op ∈ (serveHave responder summary).1, op.id = id) ∨ (serveHave responder summary).2 = true := by
  unfold serveHave
  rw [opsMissingFor_eq responder summary (by decide), decide_eq_true_eq]
  obtain ⟨op, row⟩ := (BTreeMap.mem_iff_get _ _).mp held
  have listed : op ∈ uncovered responder summary :=
    List.mem_map.mpr ⟨(id, op), List.mem_filter.mpr ⟨(responder.oplog.mem_toList _ _).mpr row,
      by simpa using new⟩, rfl⟩
  by_cases full : opsBatch ≤ (uncovered responder summary).length
  · exact .inr (List.length_take_of_le full)
  · refine .inl ⟨op, ?_, logged.keyed row⟩
    rwa [List.take_of_length_le (Nat.le_of_not_le full)]

theorem advance_self (logged : ∀ i, Logged (w.core i)) (positive : id.counter ≠ 0)
    (accepted : Accepted env id w) (here : w.pulls k = some pull) (truthful : Truthful env id pull w.core) :
    ∃ pull', (w.advance env k pull).pulls k = some pull' ∧ pull'.puller = pull.puller ∧
      pull'.responder = pull.responder ∧ Truthful env id pull' (w.advance env k pull).core ∧
      (id ∈ (w.core pull.responder).oplog →
        pull.phase.Keeps id (id ∈ (w.core pull.puller).oplog) →
          pull'.phase.Keeps id (id ∈ ((w.advance env k pull).core pull.puller).oplog)) := by
  obtain ⟨puller, responder, received, phase⟩ := pull
  have own : ∀ (pull' : PullOf ι) phase, (w.setPhase k pull' phase).pulls k =
      some { pull' with phase := phase } := fun pull' phase => Function.update_self _ _ _
  have bare : ∀ {phase : Phase} {received : Nat}, phase.batch = [] → (∀ summary, phase ≠ .asked summary) →
      Truthful env id ⟨puller, responder, received, phase⟩ w.core := by
    intro phase received empty other
    refine ⟨fun summary same => absurd same (other summary), fun op member => ?_⟩
    rw [show (PullOf.mk puller responder received phase).phase.batch = [] from empty] at member
    cases member
  cases phase with
  | asking =>
      refine ⟨_, own _ _, rfl, rfl, ⟨fun summary same held => ?_, fun op member => by cases member⟩,
        fun _ _ => trivial⟩
      obtain rfl := Phase.asked.inj same
      by_contra absent
      exact positive (counter_eq_zero_of_covered held absent)
  | asked summary =>
      refine ⟨_, own _ _, rfl, rfl, ⟨fun summary same => ?_, fun op member same => ?_⟩, fun held _ => ?_⟩
      · cases same
      · have row := (logged responder).of_mem_opsMissingFor (show 0 < opsBatch by decide) member
        exact accepted responder puller op (same ▸ row)
      · by_cases covered : holdsCounter summary id
        · exact .inl (truthful.covered summary rfl covered)
        · exact .inr (serveHave_keeps (logged responder) held covered)
  | answered summary ops more =>
      unfold Swarm.advance
      dsimp only
      split
      · rename_i idle
        obtain ⟨empty, last⟩ := Bool.and_eq_true_iff.mp idle
        refine ⟨_, own _ _, rfl, rfl, bare rfl (by rintro _ ⟨⟩), fun _ keeps => ?_⟩
        rcases keeps with there | ⟨op, member, -⟩ | again
        · exact there
        · rw [List.isEmpty_iff.mp empty] at member
          cases member
        · rw [again] at last
          cases last
      · split
        · exact ⟨_, own _ _, rfl, rfl, bare rfl (by rintro _ ⟨⟩), fun _ _ => trivial⟩
        · refine ⟨_, own _ _, rfl, rfl, ⟨fun summary same => ?_, truthful.accepts⟩, fun _ keeps => keeps⟩
          cases same
  | taking summary rest more =>
      unfold Swarm.advance
      cases rest with
      | nil =>
          dsimp only
          split
          · rename_i last
            refine ⟨_, own _ _, rfl, rfl, bare rfl (by rintro _ ⟨⟩), fun _ keeps => ?_⟩
            rcases keeps with there | ⟨op, member, -⟩ | again
            · exact there
            · cases member
            · rw [again] at last
              cases last
          · split
            · exact ⟨_, own _ _, rfl, rfl, bare rfl (by rintro _ ⟨⟩), fun _ _ => trivial⟩
            · exact ⟨_, own _ _, rfl, rfl, bare rfl (by rintro _ ⟨⟩), fun _ _ => trivial⟩
      | cons op rest =>
          dsimp only
          have grown := grown_applyOpInner (logged puller) env op true
          have at_puller : Function.update w.core puller (finalState (applyOp env op (w.core puller))) puller =
              finalState (applyOp env op (w.core puller)) := Function.update_self _ _ _
          refine ⟨_, own _ _, rfl, rfl, ⟨fun summary same => ?_, fun other member same => ?_⟩,
            fun _ keeps => ?_⟩
          · cases same
          · have admits := truthful.accepts other (List.mem_cons_of_mem op member) same
            unfold Admits at admits ⊢
            rwa [at_puller, show (finalState (applyOp env op (w.core puller))).proofs = _ from grown.proofs]
          · show id ∈ (Function.update w.core puller (finalState (applyOp env op (w.core puller))) puller).oplog ∨ _
            rw [at_puller]
            rcases keeps with there | ⟨other, member, same⟩ | again
            · exact .inl (grown.kept there)
            · rcases List.mem_cons.mp member with rfl | later
              · have admits := truthful.accepts other List.mem_cons_self same
                exact .inl (((logged puller).mem_applyOp env other id).mpr (.inr ⟨same.symm, admits⟩))
              · exact .inr (.inl ⟨other, later, same⟩)
            · exact .inr (.inr again)
  | complete | stalled | overrun | lost => exact ⟨_, here, rfl, rfl, truthful, fun _ keeps => keeps⟩

theorem step_pulls (sound : Accounted env id w) (positive : id.counter ≠ 0) (accepted : Accepted env id w)
    (step : SwarmStep env identity w u) :
    Accounted env id u ∧ ∀ k pull, w.pulls k = some pull →
      ∃ pull', u.pulls k = some pull' ∧ pull'.puller = pull.puller ∧ pull'.responder = pull.responder ∧
        (id ∈ (w.core pull.responder).oplog →
          pull.phase.Keeps id (id ∈ (w.core pull.puller).oplog) →
            pull'.phase.Keeps id (id ∈ (u.core pull.puller).oplog)) := by
  have grown := step.grown sound.logged
  have logged : ∀ i, Logged (u.core i) := fun i => (grown i).logged
  have kept : ∀ k pull, w.pulls k = some pull → u.pulls k = w.pulls k →
      ∃ pull', u.pulls k = some pull' ∧ pull'.puller = pull.puller ∧ pull'.responder = pull.responder ∧
        (id ∈ (w.core pull.responder).oplog →
          pull.phase.Keeps id (id ∈ (w.core pull.puller).oplog) →
            pull'.phase.Keeps id (id ∈ (u.core pull.puller).oplog)) :=
    fun k pull here same => ⟨pull, same.trans here, rfl, rfl, fun _ keeps => keeps.mono (grown _).kept⟩
  have idle : ∀ {core : ι → CoreState} {pull : PullOf ι}, pull.phase.batch = [] →
      (∀ summary, pull.phase ≠ .asked summary) → Truthful env id pull core := by
    intro core pull empty other
    refine ⟨fun summary same => absurd same (other summary), fun op member => ?_⟩
    rw [empty] at member
    cases member
  have one : ∀ {k : κ} {changed : PullOf ι}, u.pulls k = some changed → Truthful env id changed u.core →
      (∀ l, l ≠ k → u.pulls l = w.pulls l) →
        ∀ l pull, u.pulls l = some pull → Truthful env id pull u.core := by
    intro k changed now truthful others l pull here
    by_cases same : l = k
    · subst same
      obtain rfl := Option.some.inj (now.symm.trans here)
      exact truthful
    · exact (sound.pulls l pull ((others l same).symm.trans here)).mono grown
  cases step with
  | work i a =>
      exact ⟨⟨logged, fun k pull here => (sound.pulls k pull here).mono grown⟩,
        fun k pull here => kept k pull here rfl⟩
  | start k puller responder unused =>
      refine ⟨⟨logged, one (Function.update_self k _ _) (idle rfl (by rintro _ ⟨⟩))
        fun l apart => Function.update_of_ne apart _ _⟩, fun l pull here => kept l pull here ?_⟩
      refine Function.update_of_ne ?_ _ _
      rintro rfl
      cases unused.symm.trans here
  | advance k pull running =>
      obtain ⟨pull', now, puller, responder, truthful, keeps⟩ :=
        advance_self sound.logged positive accepted running (sound.pulls k pull running)
      refine ⟨⟨logged, one now truthful fun l => advance_others k pull⟩, fun l other here => ?_⟩
      by_cases same : l = k
      · subst same
        obtain rfl := Option.some.inj (running.symm.trans here)
        exact ⟨pull', now, puller, responder, keeps⟩
      · exact kept l other here (advance_others k pull same)
  | lose k pull running =>
      refine ⟨⟨logged, one (Function.update_self k _ _) (idle rfl (by rintro _ ⟨⟩))
        fun l apart => Function.update_of_ne apart _ _⟩, fun l other here => ?_⟩
      by_cases same : l = k
      · subst same
        obtain rfl := Option.some.inj (running.symm.trans here)
        exact ⟨_, Function.update_self _ _ _, rfl, rfl, fun _ _ => trivial⟩
      · exact kept l other here (Function.update_of_ne same _ _)

theorem SwarmRun.sound (run : SwarmRun env identity (Accepted env id) w) (positive : id.counter ≠ 0) :
    Accounted env id w := by
  induction run with
  | boot blank => exact ⟨fun i => logged_booted env (blank i), fun k pull here => by cases here⟩
  | step _ accepted step ih => exact (step_pulls ih positive accepted step).1

theorem LaterSwarm.sound (later : LaterSwarm env identity (Accepted env id) w u) (positive : id.counter ≠ 0)
    (sound : Accounted env id w) : Accounted env id u := by
  induction later with
  | now => exact sound
  | step _ accepted step ih => exact (step_pulls ih positive accepted step).1

theorem LaterSwarm.kept (later : LaterSwarm env identity (Accepted env id) w u) (positive : id.counter ≠ 0)
    (sound : Accounted env id w) (here : id ∈ (w.core i).oplog) : id ∈ (u.core i).oplog := by
  induction later with
  | now => exact here
  | step before accepted step ih =>
      exact (step.grown (before.sound positive sound).logged i).kept ih

def Phase.Unanswered : Phase → Prop
  | .asking | .asked _ => True
  | _ => False

theorem LaterSwarm.brings {pull pull' : PullOf ι} (later : LaterSwarm env identity (Accepted env id) w u)
    (positive : id.counter ≠ 0) (sound : Accounted env id w) (before : w.pulls k = some pull)
    (unanswered : pull.phase.Unanswered) (held : id ∈ (w.core pull.responder).oplog)
    (after : u.pulls k = some pull') (complete : pull'.phase = .complete) :
    pull'.puller = pull.puller ∧ id ∈ (u.core pull.puller).oplog := by
  have carried : ∃ last, u.pulls k = some last ∧ last.puller = pull.puller ∧
      last.responder = pull.responder ∧ last.phase.Keeps id (id ∈ (u.core pull.puller).oplog) := by
    clear after
    induction later with
    | now =>
        refine ⟨pull, before, rfl, rfl, ?_⟩
        cases phase : pull.phase with
        | asking | asked => trivial
        | _ =>
            rw [phase] at unanswered
            cases unanswered
    | step earlier accepted step ih =>
        obtain ⟨mid, here, puller, responder, keeps⟩ := ih
        obtain ⟨-, pulls⟩ := step_pulls (earlier.sound positive sound) positive accepted step
        obtain ⟨last, there, puller', responder', owes⟩ := pulls k mid here
        refine ⟨last, there, puller'.trans puller, responder'.trans responder, ?_⟩
        rw [puller, responder] at owes
        exact owes (earlier.kept positive sound held) keeps
  obtain ⟨last, there, puller, -, keeps⟩ := carried
  obtain rfl := Option.some.inj (there.symm.trans after)
  rw [complete] at keeps
  exact ⟨puller, keeps⟩

/-- From node `i` in one state to node `j` in a later one: pulls that were answered after the one before
them was complete, and that are complete. -/
inductive Relayed (env : Env) (identity : ι → Identity) (meets : Swarm ι κ → Prop) (w : Swarm ι κ) (i : ι) :
    Swarm ι κ → ι → Prop
  | wait {u : Swarm ι κ} (later : LaterSwarm env identity meets w u) : Relayed env identity meets w i u i
  | pull {u v : Swarm ι κ} {k : κ} {started ended : PullOf ι}
      (before : Relayed env identity meets w i u started.responder) (running : u.pulls k = some started)
      (unanswered : started.phase.Unanswered) (later : LaterSwarm env identity meets u v)
      (finished : v.pulls k = some ended) (complete : ended.phase = .complete) :
      Relayed env identity meets w i v ended.puller

theorem Relayed.sound (relayed : Relayed env identity (Accepted env id) w i u j)
    (run : SwarmRun env identity (Accepted env id) w) (positive : id.counter ≠ 0)
    (held : id ∈ (w.core i).oplog) : Accounted env id u ∧ id ∈ (u.core j).oplog := by
  induction relayed with
  | wait later =>
      have sound := run.sound positive
      exact ⟨later.sound positive sound, later.kept positive sound held⟩
  | pull before running unanswered later finished complete ih =>
      obtain ⟨sound, here⟩ := ih
      obtain ⟨same, there⟩ := later.brings positive sound running unanswered here finished complete
      exact ⟨later.sound positive sound, same ▸ there⟩

/-- Whatever work goes on and however the pulls interleave: what one node has logged is logged by every
node that a relay of complete pulls leads to, if nobody refuses it and its counter is not zero. -/
theorem relayed_delivers (run : SwarmRun env identity (Accepted env id) w) (positive : id.counter ≠ 0)
    (held : id ∈ (w.core i).oplog) (relayed : Relayed env identity (Accepted env id) w i u j) :
    id ∈ (u.core j).oplog :=
  (relayed.sound run positive held).2

end Delivery

section Lenient

variable {ι κ : Type} [DecidableEq ι] [DecidableEq κ] {env : Env} {identity : ι → Identity}
  {s : CoreState} {w u : Swarm ι κ} {id : OpId} {i j : ι}

/-- A node without a proof policy whose logged operations all verify. -/
structure Verified (env : Env) (s : CoreState) : Prop where
  lenient : s.proofs = .none
  verifies : ∀ {id : OpId} {op}, s.oplog[id]? = some op → verifyOp env op = .ok ()

theorem Verified.applyOpInner (verified : Verified env s) (logged : Logged s) (op : FsOp)
    (check_policy : Bool) : Verified env (finalState (applyOpInner env op check_policy s)) := by
  obtain ⟨-, same⟩ := logged.applyOpInner env op check_policy
  split at same
  · rename_i filed
    refine ⟨same.proofs.trans verified.lenient, fun {id other} here => ?_⟩
    rw [same.oplog] at here
    have inserted : (s.oplog.insert op.id op)[id]? = some other := here
    rw [BTreeMap.get_insert] at inserted
    split at inserted
    · obtain rfl := Option.some.inj inserted
      exact filed.1.1
    · exact verified.verifies inserted
  · exact ⟨same.proofs.trans verified.lenient, fun here => verified.verifies (same.oplog ▸ here)⟩

theorem Verified.act (verified : Verified env s) (logged : Logged s) {identity : Identity} (a : Act) :
    Verified env (a.run env identity s) := by
  by_cases other : a.Other
  · obtain ⟨-, same⟩ := other_sameLog env logged identity other
    exact ⟨same.proofs.trans verified.lenient, fun here => verified.verifies (same.oplog ▸ here)⟩
  · cases a with
    | receive op => exact verified.applyOpInner logged op true
    | author kind now =>
        have generates : s.proofs.generates = false := by
          rw [verified.lenient]
          rfl
        have counts : Verified env (counted s) := ⟨verified.lenient, verified.verifies⟩
        have same : (Act.author kind now).run env identity s = _ :=
          applyLocal_unproven env identity kind now generates
        rw [same]
        exact counts.applyOpInner (logged.congr rfl rfl rfl) (authoredOp env identity kind now s) true
    | _ => exact absurd trivial other

theorem SwarmRun.verified {meets : Swarm ι κ → Prop} (run : SwarmRun env identity meets w)
    (lenient : ∀ i, (w.core i).proofs = .none) (i : ι) : Logged (w.core i) ∧ Verified env (w.core i) := by
  have logged : ∀ {w : Swarm ι κ}, SwarmRun env identity meets w → ∀ i, Logged (w.core i) := by
    intro w run
    induction run with
    | boot blank => exact fun i => logged_booted env (blank i)
    | step _ _ step ih => exact fun i => (step.grown ih i).logged
  induction run generalizing i with
  | @boot core blank =>
      refine ⟨logged_booted env (blank i), lenient i, fun {id op} here => ?_⟩
      obtain ⟨_, _, _, _, _, _, _, -, same⟩ := (booted_spec env (blank i)).records
      have empty : (booted env (core i)).oplog = ∅ := by
        rw [same]
        exact (blank i).oplog
      have none_there : (booted env (core i)).oplog[id]? = some op := here
      rw [empty, Std.ExtTreeMap.getElem?_empty] at none_there
      cases none_there
  | @step u v before _ step ih =>
      have grown := step.grown (logged before)
      have verified := fun i => ih (fun i => (grown i).proofs.symm.trans (lenient i)) i
      refine ⟨(grown i).logged, ?_⟩
      rcases step.core i with same | ⟨a, same⟩
      · rw [same]
        exact (verified i).2
      · rw [same]
        exact (verified i).2.act (verified i).1 a

theorem SwarmRun.accepted {meets : Swarm ι κ → Prop} (run : SwarmRun env identity meets w)
    (lenient : ∀ i, (w.core i).proofs = .none) : Accepted env id w := by
  intro i j op here
  refine ⟨(run.verified lenient i).2.verifies here, fun _ => ?_⟩
  rw [lenient j]
  rfl

theorem LaterSwarm.run {meets : Swarm ι κ → Prop}
    (later : LaterSwarm env identity meets w u) (run : SwarmRun env identity meets w) :
    SwarmRun env identity meets u := by
  induction later with
  | now => exact run
  | step _ met step ih => exact ih.step met step

theorem SwarmRun.later {meets : Swarm ι κ → Prop} (run : SwarmRun env identity meets w)
    (lenient : ∀ i, (w.core i).proofs = .none) (later : LaterSwarm env identity meets w u) :
    SwarmRun env identity meets u ∧ (∀ i, (u.core i).proofs = .none) ∧
      LaterSwarm env identity (Accepted env id) w u := by
  refine ⟨later.run run, ?_⟩
  induction later with
  | now => exact ⟨lenient, .now⟩
  | step before met step ih =>
      obtain ⟨lenient, later⟩ := ih
      have run := before.run run
      have logged := fun i => (run.verified lenient i).1
      exact ⟨fun i => (step.grown logged i).proofs.trans (lenient i),
        later.step (run.accepted lenient) step⟩

theorem Relayed.accepted {meets : Swarm ι κ → Prop} (run : SwarmRun env identity meets w)
    (lenient : ∀ i, (w.core i).proofs = .none)
    (relayed : Relayed env identity meets w i u j) :
    SwarmRun env identity meets u ∧ (∀ i, (u.core i).proofs = .none) ∧
      Relayed env identity (Accepted env id) w i u j := by
  induction relayed with
  | wait later =>
      obtain ⟨run', lenient', later'⟩ := run.later lenient later
      exact ⟨run', lenient', .wait later'⟩
  | pull before running unanswered later finished complete ih =>
      obtain ⟨mid, mid_lenient, before'⟩ := ih
      obtain ⟨run', lenient', later'⟩ := mid.later mid_lenient later
      exact ⟨run', lenient', .pull before' running unanswered later' finished complete⟩

end Lenient

section Sample

def Swarm.steps {ι κ : Type} [DecidableEq ι] [DecidableEq κ] (env : Env) (k : κ) :
    Nat → Swarm ι κ → Swarm ι κ
  | 0, w => w
  | n + 1, w =>
      match w.pulls k with
      | some pull => Swarm.steps env k n (w.advance env k pull)
      | none => w

theorem later_steps {ι κ : Type} [DecidableEq ι] [DecidableEq κ] {env : Env} {identity : ι → Identity}
    (k : κ) (n : Nat) (w : Swarm ι κ) :
    LaterSwarm env identity (fun _ => True) w (Swarm.steps env k n w) := by
  have before : ∀ {u : Swarm ι κ} (n : Nat), LaterSwarm env identity (fun _ => True) w u →
      LaterSwarm env identity (fun _ => True) w (Swarm.steps env k n u) := by
    intro u n later
    induction n generalizing u with
    | zero => exact later
    | succ n ih =>
        unfold Swarm.steps
        split
        · rename_i pull running
          exact ih (later.step trivial (.advance k pull running))
        · exact later
  exact before n .now

private theorem steps_others {ι κ : Type} [DecidableEq ι] [DecidableEq κ] {env : Env} {k l : κ}
    (apart : l ≠ k) (n : Nat) (w : Swarm ι κ) : (Swarm.steps env k n w).pulls l = w.pulls l := by
  induction n generalizing w with
  | zero => rfl
  | succ n ih =>
      unfold Swarm.steps
      split
      · rename_i pull running
        exact (ih _).trans (advance_others k pull apart)
      · rfl

def newSwarm : Swarm (Fin 3) (Fin 2) where
  core := fun i => booted .plain (CoreState.new (if i = 0 then 7 else if i = 1 then 8 else 9))
  pulls := fun _ => none

def startedSwarm : Swarm (Fin 3) (Fin 2) where
  core := Function.update newSwarm.core 0
    ((Act.author (.mkdir rootInode "a" 0) 0).run .plain sampleIdentity (newSwarm.core 0))
  pulls := newSwarm.pulls

/-- Node 0 made a directory and a file in it, and two pulls wait: node 1 from node 0, and node 2 from
node 1. -/
def waitingSwarm : Swarm (Fin 3) (Fin 2) where
  core := Function.update startedSwarm.core 0
    ((Act.author (.createFile sampleParent "f" 0) 0).run .plain sampleIdentity (startedSwarm.core 0))
  pulls := Function.update (Function.update startedSwarm.pulls 0 (some ⟨1, 0, 0, .asking⟩)) 1
    (some ⟨2, 1, 0, .asking⟩)

def halfSwarm : Swarm (Fin 3) (Fin 2) := Swarm.steps .plain 0 6 waitingSwarm

def relayedSwarm : Swarm (Fin 3) (Fin 2) := Swarm.steps .plain 1 6 halfSwarm

private theorem relayed_facts :
    (waitingSwarm.core 0).oplog.contains ⟨7, 2⟩ = true ∧
      (waitingSwarm.core 2).oplog.contains ⟨7, 2⟩ = false ∧
      ((halfSwarm.pulls 0).any fun pull => pull.phase matches .complete) = true ∧
      ((relayedSwarm.pulls 1).any fun pull => pull.phase matches .complete) = true ∧
      (halfSwarm.pulls 0).map PullOf.puller = some 1 ∧
      (relayedSwarm.pulls 1).map PullOf.puller = some 2 ∧
      ∀ i, (newSwarm.core i).proofs = .none := by
  decide +kernel

private theorem finished_of_facts {w : Swarm (Fin 3) (Fin 2)} {k : Fin 2} {i : Fin 3}
    (finished : ((w.pulls k).any fun pull => pull.phase matches .complete) = true)
    (puller : (w.pulls k).map PullOf.puller = some i) :
    ∃ pull, w.pulls k = some pull ∧ pull.phase = .complete ∧ pull.puller = i := by
  cases here : w.pulls k with
  | none =>
      rw [here] at puller
      cases puller
  | some pull =>
      rw [here] at finished puller
      refine ⟨pull, rfl, ?_, Option.some.inj puller⟩
      cases phase : pull.phase with
      | complete => rfl
      | _ =>
          rw [Option.any_some, phase] at finished
          cases finished

theorem relayed_swarm : Relayed .plain (fun _ => sampleIdentity) (fun _ => True) waitingSwarm 0
    relayedSwarm 2 := by
  obtain ⟨-, -, finished, finished', puller, puller', -⟩ := relayed_facts
  obtain ⟨first, here, complete, one⟩ := finished_of_facts finished puller
  obtain ⟨second, here', complete', two⟩ := finished_of_facts finished' puller'
  have hop : Relayed .plain (fun _ => sampleIdentity) (fun _ => True) waitingSwarm 0 halfSwarm 1 :=
    one ▸ .pull (.wait .now) (show waitingSwarm.pulls 0 = some ⟨1, 0, 0, .asking⟩ from rfl) trivial
      (later_steps 0 6 waitingSwarm) here complete
  have asking : halfSwarm.pulls 1 = some ⟨2, 1, 0, .asking⟩ := by
    unfold halfSwarm
    rw [steps_others (by decide)]
    rfl
  exact two ▸ .pull hop asking trivial (later_steps 1 6 halfSwarm) here' complete'

theorem relayed_delivers_sample : (⟨7, 2⟩ : OpId) ∉ (waitingSwarm.core 2).oplog ∧
    (⟨7, 2⟩ : OpId) ∈ (relayedSwarm.core 2).oplog := by
  obtain ⟨held, missing, -, -, -, -, lenient⟩ := relayed_facts
  have boot : ∀ meets, SwarmRun .plain (fun _ => sampleIdentity) meets newSwarm :=
    fun _ => .boot fun i => blank_new _
  have waiting : LaterSwarm .plain (fun _ => sampleIdentity) (fun _ => True) newSwarm waitingSwarm :=
    (((LaterSwarm.now.step trivial (.work 0 (.author (.mkdir rootInode "a" 0) 0))).step trivial
      (.work 0 (.author (.createFile sampleParent "f" 0) 0))).step trivial (.start 0 1 0 rfl)).step
        trivial (.start 1 2 1 rfl)
  obtain ⟨run, waiting_lenient, accepted⟩ := (boot fun _ => True).later lenient waiting
  have strict : SwarmRun .plain (fun _ => sampleIdentity) (Accepted .plain ⟨7, 2⟩) waitingSwarm :=
    accepted.run (boot _)
  have relayed : Relayed .plain (fun _ => sampleIdentity) (Accepted .plain ⟨7, 2⟩) waitingSwarm 0
      relayedSwarm 2 := (relayed_swarm.accepted run waiting_lenient).2.2
  refine ⟨fun there => ?_, relayed_delivers strict (by decide) (Std.ExtTreeMap.mem_iff_contains.mpr held)
    relayed⟩
  rw [Std.ExtTreeMap.mem_iff_contains.mp there] at missing
  cases missing

end Sample

end NexusFS.Net
