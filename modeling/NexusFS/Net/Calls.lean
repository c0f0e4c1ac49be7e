/- GID: NexusFS/Net/Calls
   source: crates/net/src/session.rs, crates/core/src/ops.rs
   digest: Every step of a node is a few calls of its core, with quiet changes around them. -/

import NexusFS.Core.Coherent
import NexusFS.Net.Attribution

set_option autoImplicit false
set_option relaxedAutoImplicit false

namespace NexusFS.Net

open NexusFS.Lib NexusFS.Lib.Effect NexusFS.Proto NexusFS.Core

section Steps

variable {env : Env} {identity : Identity} {s t u : CoreState}

def Act.calls (env : Env) (identity : Identity) (s : CoreState) : Act → List (CoreState × Call)
  | .receive op => [(s, .apply op true)]
  | .author kind now =>
      [(counted s, .apply (authoredOp env identity kind now s) (!s.proofs.generates))]
  | .retry => [(s, .retry)]
  | .snapshot => [(s, .snapshot)]
  | .collect dry_run => [(s, .collect dry_run)]
  | .content limits reply outcome =>
      match contentStored env limits reply ⟨s, outcome⟩ with
      | none => []
      | some stored => [(stored.core, .retry)]
  | _ => []

/-- `t` is reached from `s` by the listed calls, with quiet changes before, between and after. -/
inductive Through (env : Env) : CoreState → List (CoreState × Call) → CoreState → Prop
  | quiet {s t : CoreState} (still : Quiet s t) : Through env s [] t
  | call {s u t : CoreState} {call : Call} {rest : List (CoreState × Call)} (still : Quiet s u)
      (later : Through env (call.run env u) rest t) : Through env s ((u, call) :: rest) t

private theorem quiet_counted (s : CoreState) : Quiet s (counted s) :=
  ⟨rfl, rfl, rfl, rfl, rfl, rfl, rfl, rfl, rfl, rfl, fun _ here => here⟩

private theorem quiet_appendOp (s : CoreState) (op : FsOp) : Quiet s (s.appendOp op) :=
  ⟨rfl, rfl, rfl, rfl, rfl, rfl, rfl, rfl, rfl, rfl, fun _ here => here⟩

private theorem through_one {call : Call} (still : Quiet s u) (last : Quiet (call.run env u) t) :
    Through env s [(u, call)] t := .call still (.quiet last)

private theorem quiet_fromWire {asked : Hash → Prop} (wire : FromWire env asked s t) :
    Quiet s t := by
  have grows := wire.grows
  obtain ⟨kept, rfl⟩ := wire.frame
  exact ⟨rfl, rfl, rfl, rfl, rfl, rfl, rfl, rfl, rfl, rfl, grows⟩

private theorem quiet_pinned {device : DeviceId} {pubkey : Hash} (pinned : Pinned device pubkey s t) :
    Quiet s t := by
  obtain ⟨_, _, _, _, rfl⟩ := pinned.frame
  exact ⟨rfl, rfl, rfl, rfl, rfl, rfl, rfl, rfl, rfl, rfl, fun _ here => here⟩

theorem Act.after_call {a : Act} {call : Call} (made : (t, call) ∈ a.calls env identity s) :
    Quiet s t ∧ (Keyed env s → Keyed env t) ∧ (call.run env t = a.run env identity s ∨
      ∃ proven, (call.run env t).appendOp proven = a.run env identity s) := by
  cases a with
  | receive op =>
      obtain ⟨rfl, rfl⟩ := Prod.mk.inj (List.mem_singleton.mp made)
      exact ⟨.refl _, fun keyed => keyed, .inl rfl⟩
  | author kind now =>
      obtain ⟨rfl, rfl⟩ := Prod.mk.inj (List.mem_singleton.mp made)
      refine ⟨quiet_counted s, fun keyed => keyed, ?_⟩
      rcases applyLocal_final env identity kind now s with same | ⟨proven, -, same⟩
      · exact .inl same.symm
      · exact .inr ⟨proven, same.symm⟩
  | retry =>
      obtain ⟨rfl, rfl⟩ := Prod.mk.inj (List.mem_singleton.mp made)
      exact ⟨.refl _, fun keyed => keyed, .inl rfl⟩
  | snapshot =>
      obtain ⟨rfl, rfl⟩ := Prod.mk.inj (List.mem_singleton.mp made)
      exact ⟨.refl _, fun keyed => keyed, .inl rfl⟩
  | collect dry_run =>
      obtain ⟨rfl, rfl⟩ := Prod.mk.inj (List.mem_singleton.mp made)
      exact ⟨.refl _, fun keyed => keyed, .inl rfl⟩
  | content limits reply outcome =>
      have core : (Act.content limits reply outcome).run env identity s = _ :=
        contentRound_core limits reply ⟨s, outcome⟩
      simp only [Act.calls] at made
      cases got : contentStored env limits reply ⟨s, outcome⟩ with
      | none =>
          rw [got] at made
          cases made
      | some stored =>
          rw [got] at made core
          obtain ⟨rfl, rfl⟩ := Prod.mk.inj (List.mem_singleton.mp made)
          exact ⟨quiet_fromWire (contentStored_fromWire got),
            fun keyed => keyed_fromWire keyed (contentStored_fromWire got), .inl core.symm⟩
  | store data => cases made
  | flush => cases made
  | fetch reply stored outstanding => cases made
  | hello policy device pubkey => cases made
  | enrol device pubkey seal_key allow_rotation => cases made
  | revoke device => cases made

theorem through_act (a : Act) :
    Through env s (a.calls env identity s) (a.run env identity s) := by
  cases a with
  | receive op => exact through_one (.refl s) (.refl _)
  | author kind now =>
      rcases applyLocal_final env identity kind now s with same | ⟨proven, -, same⟩
      · have run : (Act.author kind now).run env identity s = _ := same
        rw [run]
        exact through_one (quiet_counted s) (.refl _)
      · have run : (Act.author kind now).run env identity s = _ := same
        rw [run]
        exact through_one (quiet_counted s) (quiet_appendOp _ proven)
  | store data =>
      obtain ⟨_, t, run, blobs, draws, keeps, rfl⟩ := storesOnly_storeContent env data s
      have same : (Act.store data).run env identity s = { s with blobs := blobs, draws := draws } :=
        congrArg finalState run
      rw [same]
      exact .quiet ⟨rfl, rfl, rfl, rfl, rfl, rfl, rfl, rfl, rfl, rfl, keeps⟩
  | retry => exact through_one (.refl s) (.refl _)
  | snapshot => exact through_one (.refl s) (.refl _)
  | collect dry_run => exact through_one (.refl s) (.refl _)
  | flush => exact .quiet ⟨rfl, rfl, rfl, rfl, rfl, rfl, rfl, rfl, rfl, rfl, fun _ here => here⟩
  | content limits reply outcome =>
      have run : (Act.content limits reply outcome).run env identity s = _ :=
        contentRound_core limits reply ⟨s, outcome⟩
      have calls : (Act.content limits reply outcome).calls env identity s =
          match contentStored env limits reply ⟨s, outcome⟩ with
          | none => []
          | some stored => [(stored.core, .retry)] := rfl
      rw [run, calls]
      cases got : contentStored env limits reply ⟨s, outcome⟩ with
      | none => exact .quiet (.refl s)
      | some stored => exact through_one (quiet_fromWire (contentStored_fromWire got)) (.refl _)
  | fetch reply stored outstanding =>
      exact .quiet (quiet_fromWire (@fetchRound_fromWire env reply ⟨s, stored, outstanding⟩))
  | hello policy device pubkey => exact .quiet (quiet_pinned (pinned_authorize policy device pubkey s))
  | enrol device pubkey seal_key allow_rotation =>
      exact .quiet (quiet_pinned (pinned_enrolPeer device pubkey seal_key allow_rotation s))
  | revoke device =>
      obtain ⟨peers, seals, kv, blob, same, -⟩ := revokePeer_forgets device s
      have run : (Act.revoke device).run env identity s = _ := same
      rw [run]
      exact .quiet ⟨rfl, rfl, rfl, rfl, rfl, rfl, rfl, rfl, rfl, rfl, fun _ here => here⟩

theorem Through.carry {I : CoreState → Prop} {Ok : CoreState → Call → Prop}
    (still : ∀ {s t}, I s → Quiet s t → I t)
    (called : ∀ {s} {call : Call}, I s → Ok s call → I (call.run env s))
    {calls : List (CoreState × Call)} (through : Through env s calls t) (inv : I s)
    (along : ∀ x ∈ calls, Ok x.1 x.2) : I t := by
  induction through with
  | quiet quiet => exact still inv quiet
  | call quiet _ ih =>
      have first := called (still inv quiet) (along _ List.mem_cons_self)
      exact ih first fun x member => along x (List.mem_cons_of_mem _ member)

def EachCall (env : Env) (identity : Identity) (Ok : CoreState → Call → Prop) (s : CoreState)
    (a : Act) : Prop := ∀ x ∈ a.calls env identity s, Ok x.1 x.2

theorem NodeRun.carry {I : CoreState → Prop} {Ok : CoreState → Call → Prop}
    (boot : ∀ {s}, Blank s → I (booted env s)) (still : ∀ {s t}, I s → Quiet s t → I t)
    (called : ∀ {s} {call : Call}, I s → Ok s call → I (call.run env s))
    (run : NodeRun env identity (EachCall env identity Ok) s) : I s := by
  induction run with
  | boot blank _ _ => exact boot blank
  | step _ met ih => exact (through_act _).carry still called ih met

/-- Every state of a node whose operations have ids in `ids` is in order. -/
theorem NodeRun.orderly {ids : Set OpId} {Ok : CoreState → Call → Prop}
    (run : NodeRun env identity (EachCall env identity Ok) s)
    (inj : Set.InjOn (inodeForOp env) ids) (within : ∀ s call, Ok s call → call.Within ids) :
    Orderly env ids s :=
  run.carry (fun blank => orderly_booted env ids blank) (fun orderly still => orderly.quiet still)
    fun orderly met => orderly.call inj (within _ _ met)

end Steps

end NexusFS.Net
