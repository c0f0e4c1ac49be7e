/- GID: NexusFS/Net/Trust
   source: crates/core/src/peers.rs, crates/net/src/trust.rs
   digest: The pinned peer keys: enrolment, revocation, and who may open a session. -/

import NexusFS.Core.State

set_option autoImplicit false
set_option relaxedAutoImplicit false

namespace NexusFS.Net

open NexusFS.Lib NexusFS.Lib.Effect NexusFS.Proto NexusFS.Core

/-- Why a key was not pinned, or a peer not admitted. -/
inductive TrustError where
  | differentSealingKey (device : DeviceId)
  | differentKey (device : DeviceId)
  | presentedDifferentKey (device : DeviceId)
  | notEnrolled (device : DeviceId)
  deriving DecidableEq

/-- What an enrolment did. -/
inductive Enrolment where
  | added
  | unchanged
  | rotated
  deriving DecidableEq

abbrev T := EStateM TrustError CoreState

/-- Trust on first use, or enrolment before first contact. -/
structure TrustPolicy where
  tofu : Bool
  deriving DecidableEq

def pinSealKey (device : DeviceId) (seal_key : Hash) (s : CoreState) : CoreState :=
  CoreState.flush { s with seal_keys := s.seal_keys.insert device seal_key }

def pinKey (device : DeviceId) (pubkey : Hash) (s : CoreState) : CoreState :=
  CoreState.flush { s with peer_keys := s.peer_keys.insert device pubkey }

def enrolSealKey (device : DeviceId) (seal_key : Option Hash) (allow_rotation : Bool) : T Unit := do
  let s ← get
  match seal_key with
  | none => return ()
  | some offered =>
      match s.seal_keys[device]? with
      | some existing =>
          if existing = offered then return ()
          else if !allow_rotation then throw (.differentSealingKey device)
          else modify (pinSealKey device offered)
      | none => modify (pinSealKey device offered)

/-- Pin `pubkey` for `device`. Replacing a different key requires `allow_rotation`. -/
def enrolPeer (device : DeviceId) (pubkey : Hash) (seal_key : Option Hash)
    (allow_rotation : Bool) : T Enrolment := do
  enrolSealKey device seal_key allow_rotation
  let s ← get
  match s.peer_keys[device]? with
  | some existing =>
      if existing = pubkey then return .unchanged
      else if !allow_rotation then throw (.differentKey device)
      else
        modify (pinKey device pubkey)
        return .rotated
  | none =>
      modify (pinKey device pubkey)
      return .added

def revokePeer (device : DeviceId) : T Bool := do
  let s ← get
  if s.peer_keys[device]?.isNone && s.seal_keys[device]?.isNone then return false
  else
    modify fun s => CoreState.flush
      { s with peer_keys := s.peer_keys.erase device, seal_keys := s.seal_keys.erase device }
    return true

def authorize (policy : TrustPolicy) (device : DeviceId) (pubkey : Hash) : T Unit := do
  let s ← get
  match s.peer_keys[device]? with
  | some known => if known = pubkey then return () else throw (.presentedDifferentKey device)
  | none =>
      if policy.tofu then
        let _ ← enrolPeer device pubkey none false
        return ()
      else throw (.notEnrolled device)

section Pins

variable {s t : CoreState}

/-- `t` differs from `s` in the trust store alone, where at most the key of one device is new. -/
structure Pinned (device : DeviceId) (pubkey : Hash) (s t : CoreState) : Prop where
  frame : ∃ peers seals kv blob, t = { s with
    peer_keys := peers, seal_keys := seals, kv_flushes := kv, blob_flushes := blob }
  keys : ∀ other key, t.peer_keys[other]? = some key →
    s.peer_keys[other]? = some key ∨ (other = device ∧ key = pubkey)

theorem Pinned.refl (device : DeviceId) (pubkey : Hash) (s : CoreState) :
    Pinned device pubkey s s :=
  ⟨⟨_, _, _, _, rfl⟩, fun _ _ here => .inl here⟩

theorem Pinned.trans {device : DeviceId} {pubkey : Hash} {u : CoreState}
    (first : Pinned device pubkey s t) (second : Pinned device pubkey t u) :
    Pinned device pubkey s u := by
  obtain ⟨_, _, _, _, rfl⟩ := first.frame
  obtain ⟨_, _, _, _, rfl⟩ := second.frame
  refine ⟨⟨_, _, _, _, rfl⟩, fun other key here => ?_⟩
  rcases second.keys other key here with old | new
  · exact first.keys other key old
  · exact .inr new

theorem pinned_pinSealKey (device : DeviceId) (pubkey seal_key : Hash) (s : CoreState) :
    Pinned device pubkey s (pinSealKey device seal_key s) :=
  ⟨⟨_, _, _, _, rfl⟩, fun _ _ here => .inl here⟩

theorem pinned_pinKey (device : DeviceId) (pubkey : Hash) (s : CoreState) :
    Pinned device pubkey s (pinKey device pubkey s) := by
  refine ⟨⟨_, _, _, _, rfl⟩, fun other key here => ?_⟩
  have inserted : (s.peer_keys.insert device pubkey)[other]? = some key := here
  rw [BTreeMap.get_insert] at inserted
  split at inserted
  · rename_i same
    exact .inr ⟨same.symm, (Option.some.inj inserted).symm⟩
  · exact .inl inserted

private theorem pinned_enrolSealKey (device : DeviceId) (pubkey : Hash) (seal_key : Option Hash)
    (allow_rotation : Bool) (s : CoreState) :
    Pinned device pubkey s (finalState (enrolSealKey device seal_key allow_rotation s)) := by
  unfold enrolSealKey
  rw [bind_run, get_run]
  cases seal_key with
  | none => exact .refl _ _ s
  | some offered =>
      dsimp only
      cases s.seal_keys[device]? with
      | none => exact pinned_pinSealKey device pubkey offered s
      | some existing =>
          dsimp only
          split
          · exact .refl _ _ s
          · split
            · exact .refl _ _ s
            · exact pinned_pinSealKey device pubkey offered s

theorem pinned_enrolPeer (device : DeviceId) (pubkey : Hash) (seal_key : Option Hash)
    (allow_rotation : Bool) (s : CoreState) :
    Pinned device pubkey s (finalState (enrolPeer device pubkey seal_key allow_rotation s)) := by
  have first := pinned_enrolSealKey device pubkey seal_key allow_rotation s
  unfold enrolPeer
  rw [bind_run]
  cases run : enrolSealKey device seal_key allow_rotation s with
  | error e t =>
      rw [run] at first
      exact first
  | ok u t =>
      rw [run] at first
      refine first.trans ?_
      simp only [bind_run, get_run]
      cases t.peer_keys[device]? with
      | none => exact pinned_pinKey device pubkey t
      | some existing =>
          dsimp only
          split
          · exact .refl _ _ t
          · split
            · exact .refl _ _ t
            · exact pinned_pinKey device pubkey t

theorem pinned_authorize (policy : TrustPolicy) (device : DeviceId) (pubkey : Hash)
    (s : CoreState) : Pinned device pubkey s (finalState (authorize policy device pubkey s)) := by
  unfold authorize
  rw [bind_run, get_run]
  dsimp only
  cases s.peer_keys[device]? with
  | some known =>
      dsimp only
      split <;> exact .refl _ _ s
  | none =>
      dsimp only
      split
      · have enrolled := pinned_enrolPeer device pubkey none false s
        rw [bind_run]
        cases run : enrolPeer device pubkey none false s with
        | error e t =>
            rw [run] at enrolled
            exact enrolled
        | ok outcome t =>
            rw [run] at enrolled
            exact enrolled
      · exact .refl _ _ s

theorem authorize_keeps (policy : TrustPolicy) (device : DeviceId) (pubkey : Hash) {other : DeviceId}
    {key : Hash} (pinned : s.peer_keys[other]? = some key) :
    (finalState (authorize policy device pubkey s)).peer_keys[other]? = some key := by
  unfold authorize
  rw [bind_run, get_run]
  dsimp only
  cases known : s.peer_keys[device]? with
  | some found =>
      dsimp only
      split <;> exact pinned
  | none =>
      have differs : device ≠ other := by
        rintro rfl
        cases known.symm.trans pinned
      have enrolled : enrolPeer device pubkey none false s = .ok .added (pinKey device pubkey s) := by
        simp only [enrolPeer, enrolSealKey, bind_run, get_run, pure_run, modify_run, known]
      dsimp only
      split
      · rw [bind_run, enrolled]
        show (s.peer_keys.insert device pubkey)[other]? = some key
        rw [BTreeMap.get_insert, if_neg differs]
        exact pinned
      · exact pinned

theorem revokePeer_forgets (device : DeviceId) (s : CoreState) :
    ∃ peers seals kv blob, finalState (revokePeer device s) = { s with
        peer_keys := peers, seal_keys := seals, kv_flushes := kv, blob_flushes := blob } ∧
      ∀ (other : DeviceId) key, peers[other]? = some key → s.peer_keys[other]? = some key := by
  unfold revokePeer
  rw [bind_run, get_run]
  dsimp only
  split
  · exact ⟨_, _, _, _, rfl, fun _ _ here => here⟩
  · refine ⟨_, _, _, _, rfl, fun other key here => ?_⟩
    rw [BTreeMap.get_erase] at here
    split at here
    · cases here
    · exact here

end Pins

end NexusFS.Net
