/- GID: NexusFS/Net/Node
   source: crates/net/src/session.rs, crates/core/src/ops.rs, crates/core/src/peers.rs
   digest: Runs of a whole node: local work, sessions with any peer, and enrolments. -/

import NexusFS.Core.Addressed
import NexusFS.Net.Pull
import NexusFS.Net.Trust

/-!
A pull is the handshake, one `receive` for every operation of its batches, and the
rounds of its content phase; an on-demand fetch is its rounds, a retry and a flush.
Sessions may interleave with each other and with local work at these steps.
-/

set_option autoImplicit false
set_option relaxedAutoImplicit false

namespace NexusFS.Net

open NexusFS.Lib NexusFS.Lib.Effect NexusFS.Proto NexusFS.Core

/-- The steps of a node. -/
inductive Act where
  | receive (op : FsOp)
  | author (kind : FsOpKind) (now : U64)
  | store (data : Bytes)
  | retry
  | snapshot
  | collect (dry_run : Bool)
  | flush
  | content (limits : SyncLimits) (reply : Msg) (outcome : SyncOutcome)
  | fetch (reply : Msg) (stored : Nat) (outstanding : List Hash)
  | hello (policy : TrustPolicy) (device : DeviceId) (pubkey : Hash)
  | enrol (device : DeviceId) (pubkey : Hash) (seal_key : Option Hash) (allow_rotation : Bool)
  | revoke (device : DeviceId)

section Run

variable (env : Env) (identity : Identity)

def Act.run (s : CoreState) : Act → CoreState
  | .receive op => finalState (applyOp env op s)
  | .author kind now => finalState (applyLocal env identity kind now s)
  | .store data => finalState (storeContent env data s)
  | .retry => finalState (retryPending env s)
  | .snapshot => finalState (buildSnapshot env s)
  | .collect dry_run => finalState (collectGarbage env dry_run s)
  | .flush => s.flush
  | .content limits reply outcome => roundCore (contentRound env limits reply ⟨s, outcome⟩)
  | .fetch reply stored outstanding => fetchCore (fetchRound env reply ⟨s, stored, outstanding⟩)
  | .hello policy device pubkey => finalState (authorize policy device pubkey s)
  | .enrol device pubkey seal_key allow_rotation =>
      finalState (enrolPeer device pubkey seal_key allow_rotation s)
  | .revoke device => finalState (revokePeer device s)

/-- The states of a node that started from an empty store and trusts no one yet. -/
inductive NodeRun (meets : CoreState → Act → Prop) : CoreState → Prop
  | boot {s : CoreState} (blank : Blank s) (empty : s.blobs = ∅) (strangers : s.peer_keys = ∅) :
      NodeRun meets (booted env s)
  | step {s : CoreState} {a : Act} (before : NodeRun meets s) (met : meets s a) :
      NodeRun meets (a.run env identity s)

end Run

section Closed

variable {env : Env} {identity : Identity} {s : CoreState}

abbrev AnyRun (env : Env) (identity : Identity) : CoreState → Prop :=
  NodeRun env identity fun _ _ => True

private theorem keeps_author (kind : FsOpKind) (now : U64) :
    Keeps (AnyRun env identity) (applyLocal env identity kind now) :=
  fun _ run => run.step (a := .author kind now) trivial

private theorem keeps_store (data : Bytes) :
    Keeps (AnyRun env identity) (storeContent env data) :=
  fun _ run => run.step (a := .store data) trivial

theorem keeps_api (path target : String) (data : Bytes) (now : U64) :
    Keeps (AnyRun env identity) (mkdirP env identity path now) ∧
      Keeps (AnyRun env identity) (writeFile env identity path data now) ∧
      Keeps (AnyRun env identity) (removePath env identity path now) ∧
      Keeps (AnyRun env identity) (renamePath env identity path target now) :=
  ⟨keeps_mkdirP keeps_author path now, keeps_writeFile keeps_author keeps_store path data now,
    keeps_removePath keeps_author path now, keeps_renamePath keeps_author path target now⟩

end Closed

section Integrity

variable {env : Env} {identity : Identity} {s : CoreState}

theorem keyed_fromWire {asked : Hash → Prop} {t : CoreState} (keyed : Keyed env s)
    (wire : FromWire env asked s t) : Keyed env t := by
  intro hash bytes here
  rcases wire.new hash bytes here with old | ⟨-, sound⟩
  · exact keyed hash bytes old
  · exact sound

theorem keyed_act (keyed : Keyed env s) (a : Act) : Keyed env (a.run env identity s) := by
  cases a with
  | receive op => exact keeps_applyOp env op s keyed
  | author kind now => exact keeps_applyLocal env identity kind now s keyed
  | store data => exact keeps_storeContent env data s keyed
  | retry => exact keeps_retryPending env s keyed
  | snapshot => exact keeps_buildSnapshot env s keyed
  | collect dry_run => exact keeps_collectGarbage env dry_run s keyed
  | flush => exact keyed
  | content limits reply outcome =>
      show Keyed env (roundCore (contentRound env limits reply ⟨s, outcome⟩))
      rw [contentRound_core]
      cases got : contentStored env limits reply ⟨s, outcome⟩ with
      | none => exact keyed
      | some stored =>
          exact keeps_retryPending env _ (keyed_fromWire keyed (contentStored_fromWire got))
  | fetch reply stored outstanding =>
      exact keyed_fromWire keyed (fetchRound_fromWire reply ⟨s, stored, outstanding⟩)
  | hello policy device pubkey =>
      obtain ⟨_, _, _, _, same⟩ := (pinned_authorize policy device pubkey s).frame
      show Keyed env (finalState (authorize policy device pubkey s))
      rw [same]
      exact keyed
  | enrol device pubkey seal_key allow_rotation =>
      obtain ⟨_, _, _, _, same⟩ :=
        (pinned_enrolPeer device pubkey seal_key allow_rotation s).frame
      show Keyed env (finalState (enrolPeer device pubkey seal_key allow_rotation s))
      rw [same]
      exact keyed
  | revoke device =>
      obtain ⟨_, _, _, _, same, -⟩ := revokePeer_forgets device s
      show Keyed env (finalState (revokePeer device s))
      rw [same]
      exact keyed

theorem NodeRun.keyed {meets : CoreState → Act → Prop} (run : NodeRun env identity meets s) :
    Keyed env s := by
  induction run with
  | boot blank empty strangers =>
      refine keeps_bootstrapIfNeeded env _ ?_
      intro hash bytes here
      rw [empty, Std.ExtTreeMap.getElem?_empty] at here
      cases here
  | step _ _ ih => exact keyed_act ih _

/-- In every state of a node, against peers that send anything: each blob is kept under its own
hash; a round of the operation phase only delivers operations; and what a round of the content
phase or of a fetch takes from the wire was missing, or outstanding, when that round asked. -/
theorem content_store_integrity (run : AnyRun env identity s) :
    Keyed env s ∧
      (∀ reply outcome, ∃ ops,
        roundCore (Net.opsRound env reply ⟨s, outcome⟩) = applyBatch env s ops) ∧
      (∀ limits reply outcome, ∃ t, FromWire env (· ∈ missingChunkHashes s) s t ∧
        (roundCore (contentRound env limits reply ⟨s, outcome⟩) = t ∨
          roundCore (contentRound env limits reply ⟨s, outcome⟩) =
            finalState (retryPending env t))) ∧
      ∀ reply stored outstanding, FromWire env (· ∈ outstanding) s
        (fetchCore (fetchRound env reply ⟨s, stored, outstanding⟩)) := by
  refine ⟨run.keyed, fun reply outcome => opsRound_core reply ⟨s, outcome⟩, ?_,
    fun reply stored outstanding => fetchRound_fromWire reply ⟨s, stored, outstanding⟩⟩
  intro limits reply outcome
  rw [contentRound_core]
  cases got : contentStored env limits reply ⟨s, outcome⟩ with
  | none => exact ⟨s, .refl s, .inl rfl⟩
  | some stored => exact ⟨stored.core, contentStored_fromWire got, .inr rfl⟩

def sampleIdentity : Identity := ⟨5⟩

def sampleChunk : Bytes := [1, 2, 3]

def sampleChunkHash : Hash := Env.plain.blake3 sampleChunk

def sampleCreate : Act := .receive (sampleOp 1 (.createFile rootInode "f" 0))

def sampleWrite : Act :=
  .receive (sampleOp 2 (.write (inodeForOp .plain ⟨7, 1⟩) 0 [⟨sampleChunkHash, 3, 3, 0⟩] 3 none))

/-- A peer's answer: the chunk that was asked for, one under a false hash, and one unasked. -/
def sampleReply : Act :=
  .content .unlimited
    (.blobsBatch [(sampleChunkHash, [9]), (sampleChunkHash, sampleChunk),
      (Env.plain.blake3 [7], [7])] false) ⟨0, 0, 0, 0, false⟩

def waitingState : CoreState :=
  sampleWrite.run .plain sampleIdentity
    (sampleCreate.run .plain sampleIdentity (booted .plain (CoreState.new 7)))

def fetchedState : CoreState := sampleReply.run .plain sampleIdentity waitingState

private theorem waitingState_run : AnyRun .plain sampleIdentity waitingState :=
  .step (.step (.boot (blank_new 7) rfl rfl) trivial) trivial

theorem content_store_integrity_sample :
    Keyed .plain fetchedState ∧ fetchedState.hasBlob sampleChunkHash = true ∧
      fetchedState.hasBlob (Env.plain.blake3 [7]) = false := by
  have run : AnyRun .plain sampleIdentity fetchedState := .step waitingState_run trivial
  exact ⟨(content_store_integrity run).1, by decide +kernel, by decide +kernel⟩

end Integrity

end NexusFS.Net
