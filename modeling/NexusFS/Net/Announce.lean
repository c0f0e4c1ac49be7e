/- GID: NexusFS/Net/Announce
   source: crates/core/src/ops.rs, crates/nexusfs/src/daemon.rs, crates/net/src/peers.rs
   digest: Every peer is told of every operation a daemon wrote, however often it writes meanwhile. -/

import NexusFS.Core.Notify
import NexusFS.Lib.Signal
import NexusFS.Net.Gossip

/-!
A local operation that was applied is announced over a channel of one slot, after it was logged. The
task at the other end waits out a burst of writes, empties the channel, reads the clock summary once,
and tries one configured peer after the other with it.
-/

set_option autoImplicit false
set_option relaxedAutoImplicit false

namespace NexusFS.Net

open NexusFS.Lib NexusFS.Lib.Effect NexusFS.Proto NexusFS.Core

section Steps

variable {P : Type} (env : Env) (identity : Identity) (parse : String → Option P) (peers : List String)

/-- A local operation that is given back to its caller, which is when it is announced. -/
def GivesBack (op : FsOp) (s t : CoreState) : Prop :=
  ∃ kind now, applyLocal env identity kind now s = .ok op t

def Unannounced (s t : CoreState) : Prop :=
  ∃ a : Act, t = a.run env identity s ∧
    ∀ kind now, a = .author kind now → ∀ op u, applyLocal env identity kind now s ≠ .ok op u

def addressed : List P := peers.filterMap parse

/-- The node works, writes, announces what it wrote, or its notifying task goes on. -/
abbrev DaemonStep : Signal CoreState ClockSummary P → Signal CoreState ClockSummary P → Prop :=
  Signal.Step clockSummary (addressed parse peers) (Unannounced env identity)
    fun s t => ∃ op, GivesBack env identity op s t

abbrev DaemonSteps : Signal CoreState ClockSummary P → Signal CoreState ClockSummary P → Prop :=
  Relation.ReflTransGen (DaemonStep env identity parse peers)

end Steps

section Announced

variable {P : Type} {env : Env} {identity : Identity} {parse : String → Option P} {peers : List String}
  {s t : CoreState} {d e : Signal CoreState ClockSummary P} {id : OpId} {op : FsOp}

theorem GivesBack.act (written : GivesBack env identity op s t) : ∃ a : Act, t = a.run env identity s := by
  obtain ⟨kind, now, run⟩ := written
  exact ⟨.author kind now, (congrArg finalState run).symm⟩

theorem GivesBack.logged (written : GivesBack env identity op s t) (logged : Logged s) :
    op.id ∈ t.oplog := by
  obtain ⟨kind, now, run⟩ := written
  rcases applyLocal_ends env identity kind now s with
    ⟨e, u, failed, -⟩ | ⟨made, u, outcome, v, returned, own, inner, -, closes⟩
  · rw [failed] at run
    cases run
  · rw [returned] at run
    cases run
    have counts : Logged (counted s) := logged.congr rfl rfl rfl
    obtain ⟨-, same⟩ := counts.applyOpInner env (authoredOp env identity kind now s) (!s.proofs.generates)
    have here : op.id ∈ v.oplog := by
      rw [inner] at same
      rw [show v.oplog = _ from same.oplog]
      split
      · exact own ▸ Std.ExtTreeMap.mem_insert_self
      · rename_i other
        by_cases admits : Admits env (authoredOp env identity kind now s) (!s.proofs.generates) (counted s)
        · have known : nextId s ∈ (counted s).applied := not_not.mp fun new => other ⟨admits, new⟩
          exact own ▸ counts.applied known
        · obtain ⟨e, refused⟩ := applyOpInner_refused admits
          rw [inner] at refused
          cases refused
    rcases closes with rfl | rfl
    · exact here
    · exact Std.ExtTreeMap.mem_insert.mpr (.inr here)

def Has (id : OpId) (s : CoreState) : Prop := Logged s ∧ id ∈ s.oplog

def Reports (id : OpId) (summary : ClockSummary) : Prop := ∃ s, Has id s ∧ summary = clockSummary s

theorem DaemonStep.act (step : DaemonStep env identity parse peers d e) :
    e.world = d.world ∨ ∃ a : Act, e.world = a.run env identity d.world := by
  rcases step.world with same | ⟨a, work, -⟩ | ⟨op, written⟩
  · exact .inl same
  · exact .inr ⟨a, work⟩
  · exact .inr written.act

theorem DaemonStep.logged (step : DaemonStep env identity parse peers d e) (logged : Logged d.world) :
    Logged e.world := by
  rcases DaemonStep.act step with same | ⟨a, work⟩
  · exact same ▸ logged
  · exact work ▸ logged_act logged a

theorem DaemonStep.has (step : DaemonStep env identity parse peers d e) (has : Has id d.world) :
    Has id e.world := by
  refine ⟨DaemonStep.logged step has.1, ?_⟩
  rcases DaemonStep.act step with same | ⟨a, work⟩
  · exact same ▸ has.2
  · exact work ▸ (grown_act has.1 a).kept has.2

theorem DaemonSteps.promised (steps : DaemonSteps env identity parse peers d e) (has : Has id d.world)
    (promised : Signal.Promised (Reports id) (addressed parse peers) d) :
    Has id e.world ∧ Signal.Promised (Reports id) (addressed parse peers) e := by
  induction steps with
  | refl => exact ⟨has, promised⟩
  | tail before step ih =>
      exact ⟨DaemonStep.has step ih.1,
        ih.2.step ih.1 (fun world there => ⟨world, there, rfl⟩) step⟩

theorem DaemonSteps.frugal (steps : DaemonSteps env identity parse peers d e)
    (frugal : Signal.Frugal (addressed parse peers) d) : Signal.Frugal (addressed parse peers) e := by
  induction steps with
  | refl => exact frugal
  | tail before step ih => exact ih.step step

theorem DaemonSteps.logged (steps : DaemonSteps env identity parse peers d e) (logged : Logged d.world) :
    Logged e.world := by
  induction steps with
  | refl => exact logged
  | tail before step ih => exact DaemonStep.logged step ih

/-- Whoever lacks the id and is sent a summary read from a log with it is woken, unless the summary had
to cut counters off. -/
theorem Has.wakes (has : Has id s) (few : FewAbove s) (positive : id.counter ≠ 0) {peer : CoreState}
    (lacks : id ∉ peer.oplog) : isBehind peer (clockSummary s) = true :=
  few.notices has.2 fun covered => positive (counter_eq_zero_of_covered covered lacks)

/-- The peer was tried with a summary read from a log with the id, which wakes it if it lacks the id. -/
def TriedWith (id : OpId) (d : Signal CoreState ClockSummary P) (address : P) : Prop :=
  ∃ s, (address, clockSummary s) ∈ d.tried ∧ id ∈ s.oplog ∧
    (FewAbove s → id.counter ≠ 0 → ∀ peer : CoreState, id ∉ peer.oplog →
      isBehind peer (clockSummary s) = true)

/-- Whatever a daemon and its callers do after an operation was written: the notifying task comes to
rest, after a bounded number of steps once nothing else is written; whenever it rests, each peer was
tried with a summary that has the operation; and a burst costs at most one try per peer and write. -/
theorem written_announced (blank : Blank s)
    (before : DaemonSteps env identity parse peers (Signal.silent (booted env s)) d)
    (written : GivesBack env identity op d.world t)
    (after : DaemonSteps env identity parse peers
      { d with world := t, owed := d.owed + 1, changes := d.changes + 1 } e) :
    (∃ n rest, Signal.OwnRun clockSummary (addressed parse peers) e n rest ∧ rest.Quiet) ∧
      (∀ n rest, Signal.OwnRun clockSummary (addressed parse peers) e n rest →
        n ≤ Signal.rank (addressed parse peers) e ∧ rest.world = e.world) ∧
      (e.Quiet → ∀ peer ∈ peers, ∀ address, parse peer = some address → TriedWith op.id e address) ∧
      e.tried.length ≤ e.changes * (addressed parse peers).length := by
  have logged : Logged d.world := before.logged (logged_booted env blank)
  obtain ⟨a, work⟩ := written.act
  have has : Has op.id t := ⟨work ▸ logged_act logged a, written.logged logged⟩
  obtain ⟨-, promised⟩ := after.promised has (.inl (Nat.succ_ne_zero _))
  have frugal := (DaemonSteps.frugal before (Signal.frugal_silent _ _)).step
    (.publish (⟨op, written⟩ : ∃ op, GivesBack env identity op d.world t) :
      DaemonStep env identity parse peers d _)
  refine ⟨Signal.settles _ _ e, fun n rest run => ?_, fun quiet peer member address parsed => ?_, ?_⟩
  · obtain ⟨bound, same⟩ := run.bounded
    exact ⟨by omega, same⟩
  · obtain ⟨report, sent, u, has, rfl⟩ :=
      quiet.told promised address (List.mem_filterMap.mpr ⟨peer, member, parsed⟩)
    exact ⟨u, sent, has.2, fun few positive lacking lacks => has.wakes few positive lacks⟩
  · have bound := DaemonSteps.frugal after frugal
    unfold Signal.Frugal at bound
    omega

end Announced

section Sample

private theorem round_of_written {P : Type} {env : Env} {identity : Identity} {parse : String → Option P}
    {peers : List String} {address : P} (only : addressed parse peers = [address]) (world : CoreState) :
    DaemonSteps env identity parse peers ⟨world, 1, false, .idle, [], 1⟩
      ⟨world, 0, false, .idle, [(address, clockSummary world)], 1⟩ := by
  have sent : DaemonSteps env identity parse peers ⟨world, 1, false, .idle, [], 1⟩
      ⟨world, 0, false, .draining, [], 1⟩ :=
    ((Relation.ReflTransGen.single (.own (.send Nat.one_ne_zero))).tail
      (.own (.receive rfl rfl))).tail (.own (.settle rfl))
  have looked : DaemonSteps env identity parse peers ⟨world, 1, false, .idle, [], 1⟩
      ⟨world, 0, false, .telling (clockSummary world) [address], [], 1⟩ :=
    (sent.tail (.own (.drained rfl rfl))).tail (only ▸ .own (.look rfl))
  exact (looked.tail (.own (.tell rfl))).tail (.own (.done rfl))

private theorem directory_written :
    returned (applyLocal .plain sampleIdentity (.mkdir rootInode "a" 0) 5
      (booted .plain (CoreState.new 7))) = true ∧
    (nextId (booted .plain (CoreState.new 7))).counter ≠ 0 := by decide +kernel

def samplePeer (peer : String) : Option Nat := if peer = "a" then some 1 else none

theorem written_announced_sample : ∃ op e,
    GivesBack .plain sampleIdentity op (booted .plain (CoreState.new 7)) e.world ∧
      e.tried.length = 1 ∧ op.id.counter ≠ 0 ∧ TriedWith op.id e 1 := by
  obtain ⟨done, positive⟩ := directory_written
  cases run : applyLocal .plain sampleIdentity (.mkdir rootInode "a" 0) 5 (booted .plain (CoreState.new 7)) with
  | error e t =>
      rw [run] at done
      cases done
  | ok op t =>
      have written : GivesBack .plain sampleIdentity op (booted .plain (CoreState.new 7)) t := ⟨_, _, run⟩
      have only : addressed samplePeer ["a", "b"] = [1] := by decide
      have round : DaemonSteps .plain sampleIdentity samplePeer ["a", "b"] ⟨t, 1, false, .idle, [], 1⟩
          ⟨t, 0, false, .idle, [(1, clockSummary t)], 1⟩ := round_of_written only t
      have rests := written_announced (blank_new 7) .refl written round
      refine ⟨op, _, written, rfl, ?_, rests.2.2.1 ⟨rfl, rfl, rfl⟩ "a" List.mem_cons_self 1 (if_pos rfl)⟩
      rw [(applyLocal_ok run).1]
      exact positive

end Sample

end NexusFS.Net
