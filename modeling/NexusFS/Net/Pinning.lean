/- GID: NexusFS/Net/Pinning
   source: crates/core/src/peers.rs, crates/net/src/trust.rs
   digest: Which calls change a pinned key, and when a refused enrolment leaves every key alone. -/

import NexusFS.Net.Handshake
import NexusFS.Net.Readers

set_option autoImplicit false
set_option relaxedAutoImplicit false

namespace NexusFS.Net

open NexusFS.Lib NexusFS.Lib.Effect NexusFS.Proto NexusFS.Core NexusFS.Core.CoreState

section Sequences

variable {s : CoreState} {device : DeviceId}

/-- The calls that decide which keys are pinned: those of the operator, and those of sessions. -/
inductive PinCall where
  | operator (call : TrustCall)
  | session (policy : TrustPolicy) (device : DeviceId) (pubkey : Hash)

def PinCall.run (s : CoreState) : PinCall → CoreState
  | .operator call => call.run s
  | .session policy device pubkey => finalState (authorize policy device pubkey s)

def afterPinCalls (s : CoreState) (calls : List PinCall) : CoreState := calls.foldl PinCall.run s

/-- A session pins a signing key on first contact alone, and only if the policy trusts it. -/
def Pins.contact (policy : TrustPolicy) (pubkey : Hash) (pins : Pins) : Pins :=
  if pins.signing.isNone && policy.tofu then { pins with signing := some pubkey } else pins

def PinCall.pins (device : DeviceId) (pins : Pins) : PinCall → Pins
  | .operator call => call.pins device pins
  | .session policy owner pubkey => if owner = device then pins.contact policy pubkey else pins

private theorem pinsOf_authorize (policy : TrustPolicy) (owner : DeviceId) (pubkey : Hash) :
    pinsOf (finalState (authorize policy owner pubkey s)) device =
      if owner = device then (pinsOf s device).contact policy pubkey else pinsOf s device := by
  have enrolled := @pinsOf_enrolPeer s device owner pubkey none false
  unfold authorize
  rw [bind_run, get_run]
  dsimp only
  cases pinned : s.peer_keys[owner]? with
  | some known =>
      have kept : pinsOf s device = if owner = device then (pinsOf s device).contact policy pubkey
          else pinsOf s device := by
        split
        · rename_i owns
          subst owns
          simp [Pins.contact, pinsOf, pinned]
        · rfl
      dsimp only
      split <;> exact kept
  | none =>
      dsimp only
      cases tofu : policy.tofu with
      | false =>
          show pinsOf s device = _
          simp [Pins.contact, tofu]
      | true =>
          have first : pinsOf (finalState (enrolPeer owner pubkey none false s)) device =
              if owner = device then (pinsOf s device).contact policy pubkey else pinsOf s device := by
            rw [enrolled]
            split
            · rename_i owns
              subst owns
              simp [Pins.contact, Pins.enrol, conflicts, pinsOf, pinned, tofu]
            · rfl
          rw [if_pos rfl, bind_run]
          cases run : enrolPeer owner pubkey none false s with
          | error e t =>
              rw [run] at first
              exact first
          | ok outcome t =>
              rw [run] at first
              exact first

theorem pinsOf_pinCall (s : CoreState) (call : PinCall) (device : DeviceId) :
    pinsOf (call.run s) device = call.pins device (pinsOf s device) := by
  cases call with
  | operator call => exact pinsOf_run s call device
  | session policy owner pubkey => exact pinsOf_authorize policy owner pubkey

/-- A key of one family, once pinned, is replaced only by an enrolment of its device that allows
rotation, by the key that brings, and removed only by a revocation of the device. -/
def KeptBy (device : DeviceId) (brings : Hash → Option Hash → Option Hash) (call : PinCall)
    (before after : Option Hash) : Prop :=
  ∀ key, before = some key → after = some key ∨
    (∃ pubkey seal_key, call = .operator (.enrol device pubkey seal_key true) ∧
      (brings pubkey seal_key).isSome ∧ after = brings pubkey seal_key) ∨
    call = .operator (.revoke device) ∧ after = none

private theorem KeptBy.refl {brings : Hash → Option Hash → Option Hash} {call : PinCall}
    (pinned : Option Hash) : KeptBy device brings call pinned pinned :=
  fun _ here => .inl here

private theorem Pins.enrol_kept {pins : Pins} {pubkey key : Hash} {seal_key : Option Hash} :
    (pins.signing = some key → (pins.enrol pubkey seal_key false).signing = some key) ∧
      (pins.sealing = some key → (pins.enrol pubkey seal_key false).sealing = some key) := by
  obtain ⟨signing, sealing⟩ := pins
  refine ⟨fun here => ?_, fun here => ?_⟩
  · dsimp only at here
    subst here
    unfold Pins.enrol
    split
    · rfl
    · by_cases same : key = pubkey
      · simp [conflicts, same]
      · simp [conflicts, same]
  · dsimp only at here
    subst here
    unfold Pins.enrol
    cases seal_key with
    | none => simp
    | some offered =>
        by_cases same : key = offered
        · simp [conflicts, same]
        · simp [conflicts, same]

theorem PinCall.keeps (call : PinCall) (device : DeviceId) (pins : Pins) :
    KeptBy device (fun pubkey _ => some pubkey) call pins.signing (call.pins device pins).signing ∧
      KeptBy device (fun _ seal_key => seal_key) call pins.sealing
        (call.pins device pins).sealing := by
  cases call with
  | session policy owner pubkey =>
      simp only [PinCall.pins, Pins.contact]
      split
      · split
        · rename_i first
          refine ⟨fun key here => ?_, .refl _⟩
          simp [here] at first
        · exact ⟨.refl _, .refl _⟩
      · exact ⟨.refl _, .refl _⟩
  | operator call =>
      cases call with
      | revoke owner =>
          simp only [PinCall.pins, TrustCall.pins]
          split
          · rename_i owns
            subst owns
            exact ⟨fun _ _ => .inr (.inr ⟨rfl, rfl⟩), fun _ _ => .inr (.inr ⟨rfl, rfl⟩)⟩
          · exact ⟨.refl _, .refl _⟩
      | enrol owner pubkey seal_key allow_rotation =>
          simp only [PinCall.pins, TrustCall.pins]
          split
          · rename_i owns
            subst owns
            cases allow_rotation with
            | false => exact ⟨fun _ here => .inl (Pins.enrol_kept.1 here),
                fun _ here => .inl (Pins.enrol_kept.2 here)⟩
            | true =>
                refine ⟨fun _ _ => .inr (.inl ⟨pubkey, seal_key, rfl, rfl, rfl⟩), fun key here => ?_⟩
                cases seal_key with
                | none => exact .inl here
                | some offered => exact .inr (.inl ⟨pubkey, some offered, rfl, rfl, rfl⟩)
          · exact ⟨.refl _, .refl _⟩

def PinCall.Replaces (device : DeviceId) : PinCall → Prop
  | .operator (.enrol owner _ _ allow_rotation) => owner = device ∧ allow_rotation = true
  | .operator (.revoke owner) => owner = device
  | .session .. => False

private theorem KeptBy.kept {brings : Hash → Option Hash → Option Hash} {call : PinCall}
    {before after : Option Hash} {key : Hash} (kept : KeptBy device brings call before after)
    (never : ¬call.Replaces device) (here : before = some key) : after = some key := by
  rcases kept key here with same | ⟨pubkey, seal_key, rfl, -⟩ | ⟨rfl, -⟩
  · exact same
  · exact absurd ⟨rfl, rfl⟩ never
  · exact absurd rfl never

theorem pinned_through (s : CoreState) (calls : List PinCall) (device : DeviceId) (key : Hash)
    (never : ∀ call ∈ calls, ¬call.Replaces device) :
    ((pinsOf s device).signing = some key →
      (pinsOf (afterPinCalls s calls) device).signing = some key) ∧
    ((pinsOf s device).sealing = some key →
      (pinsOf (afterPinCalls s calls) device).sealing = some key) := by
  induction calls generalizing s with
  | nil => exact ⟨id, id⟩
  | cons call rest ih =>
      obtain ⟨signing, sealing⟩ := call.keeps device (pinsOf s device)
      rw [← pinsOf_pinCall] at signing sealing
      have first := never call List.mem_cons_self
      obtain ⟨later_signing, later_sealing⟩ :=
        ih (call.run s) fun other member => never other (List.mem_cons_of_mem call member)
      exact ⟨fun here => later_signing (signing.kept first here),
        fun here => later_sealing (sealing.kept first here)⟩

/-- Over any sequence of enrolments, revocations and sessions: a pinned key changes only through an
enrolment that allows rotation and disappears only through a revocation, a session is let through
only with the key that is pinned then and leaves other devices alone, and a device that was just
revoked receives no sealed content. -/
theorem pinning_invariant (s : CoreState) (calls : List PinCall) :
    (∀ device, (∀ call ∈ calls, ¬call.Replaces device) → ∀ key,
      ((pinsOf s device).signing = some key →
        (pinsOf (afterPinCalls s calls) device).signing = some key) ∧
      ((pinsOf s device).sealing = some key →
        (pinsOf (afterPinCalls s calls) device).sealing = some key)) ∧
    (∀ call device,
      KeptBy device (fun pubkey _ => some pubkey) call (pinsOf (afterPinCalls s calls) device).signing
        (pinsOf (afterPinCalls s (calls ++ [call])) device).signing ∧
      KeptBy device (fun _ seal_key => seal_key) call (pinsOf (afterPinCalls s calls) device).sealing
        (pinsOf (afterPinCalls s (calls ++ [call])) device).sealing) ∧
    (∀ policy device pubkey,
      (∀ t, authorize policy device pubkey (afterPinCalls s calls) = .ok () t →
        (pinsOf t device).signing = some pubkey) ∧
      ∀ other, other ≠ device →
        pinsOf (finalState (authorize policy device pubkey (afterPinCalls s calls))) other =
          pinsOf (afterPinCalls s calls) other) ∧
    ∀ device, ∀ row ∈ (finalState (revokePeer device (afterPinCalls s calls))).sealingRecipients,
      row.1 ≠ device := by
  refine ⟨fun device never key => pinned_through s calls device key never, fun call device => ?_,
    fun policy device pubkey => ⟨fun t run => authorize_pins run, fun other apart => ?_⟩,
    fun device row member => ?_⟩
  · have after : afterPinCalls s (calls ++ [call]) = call.run (afterPinCalls s calls) :=
      List.foldl_append
    rw [after, pinsOf_pinCall]
    exact call.keeps device _
  · rw [pinsOf_authorize, if_neg (Ne.symm apart)]
  · rintro rfl
    have pins := @pinsOf_revokePeer (afterPinCalls s calls) row.1 row.1
    rw [if_pos rfl] at pins
    have sealing : (pinsOf _ row.1).sealing = some row.2 := (mem_sealingRecipients.mp member).2
    rw [pins] at sealing
    cases sealing

def metNode : CoreState := afterPinCalls strangersNode [.session ⟨true⟩ 8 21]

theorem pinning_invariant_sample :
    (pinsOf (afterPinCalls metNode [.session ⟨true⟩ 8 22,
      .operator (.enrol 8 23 (some 6) false)]) 8).signing = some 21 := by
  have first : (pinsOf metNode 8).signing = some 21 := by decide +kernel
  have never : ∀ call ∈ [PinCall.session ⟨true⟩ 8 22, .operator (.enrol 8 23 (some 6) false)],
      ¬call.Replaces 8 := by
    intro call member
    rcases List.mem_cons.mp member with rfl | later
    · exact id
    · obtain rfl := List.mem_singleton.mp later
      exact fun replaces => Bool.false_ne_true replaces.2
  exact ((pinning_invariant metNode _).1 8 never 21).1 first

end Sequences

section Refusals

variable {s : CoreState} {device : DeviceId} {pubkey : Hash} {seal_key : Option Hash}
  {allow_rotation : Bool}

/-- No device has another key than before, so nobody is sealed to who was not. -/
structure KeysKept (s t : CoreState) : Prop where
  pins : ∀ other, pinsOf t other = pinsOf s other
  recipients : t.sealingRecipients = s.sealingRecipients

private theorem keysKept_of_pins {t : CoreState} (pins : ∀ other, pinsOf t other = pinsOf s other) :
    KeysKept s t := by
  refine ⟨pins, ?_⟩
  have signing : t.peer_keys = s.peer_keys :=
    BTreeMap.ext_get fun other => congrArg Pins.signing (pins other)
  have sealing : t.seal_keys = s.seal_keys :=
    BTreeMap.ext_get fun other => congrArg Pins.sealing (pins other)
  unfold sealingRecipients
  rw [signing, sealing]

theorem enrolPeer_error : (∃ e t, enrolPeer device pubkey seal_key allow_rotation s = .error e t) ↔
    allow_rotation = false ∧ (seal_key.any (conflicts (pinsOf s device).sealing) = true ∨
      conflicts (pinsOf s device).signing pubkey = true) := by
  have first := @enrolSealKey_run s device seal_key allow_rotation
  unfold enrolPeer
  rw [bind_run]
  split at first
  · rename_i refused
    obtain ⟨e, run⟩ := first
    obtain ⟨strict, other⟩ := Bool.and_eq_true_iff.mp refused
    rw [run]
    exact ⟨fun _ => ⟨by simpa using strict, .inl other⟩, fun _ => ⟨e, s, rfl⟩⟩
  · rename_i allowed
    obtain ⟨t, run, pins⟩ := first
    have signing : t.peer_keys[device]? = (pinsOf s device).signing := by
      have here := congrArg Pins.signing (pins device)
      rw [if_pos rfl] at here
      exact here
    rw [run]
    simp only [bind_run, get_run]
    rw [signing]
    cases pinned : (pinsOf s device).signing with
    | none =>
        constructor
        · rintro ⟨e, u, refused⟩
          cases refused
        · rintro ⟨strict, other | other⟩
          · simp [strict, other] at allowed
          · cases other
    | some existing =>
        dsimp only
        by_cases same : existing = pubkey
        · rw [if_pos same]
          constructor
          · rintro ⟨e, u, refused⟩
            cases refused
          · rintro ⟨strict, other | other⟩
            · simp [strict, other] at allowed
            · simp [conflicts, same] at other
        · rw [if_neg same]
          cases allow_rotation with
          | true => simp [bind_run]
          | false => simp [conflicts, same]

private theorem Pins.enrol_refused {pins : Pins}
    (causes : seal_key.any (conflicts pins.sealing) = true ∨ conflicts pins.signing pubkey = true) :
    pins.enrol pubkey seal_key false = pins ↔
      ¬(seal_key.isSome ∧ pins.sealing = none ∧
        ∃ known, pins.signing = some known ∧ known ≠ pubkey) := by
  obtain ⟨signing, sealing⟩ := pins
  cases signing with
  | none =>
      rcases causes with refused | differs
      · simp [Pins.enrol, refused]
      · cases differs
  | some known =>
      by_cases same : known = pubkey
      · rcases causes with refused | differs
        · simp [Pins.enrol, refused, same]
        · simp [conflicts, same] at differs
      · cases seal_key with
        | none => simp [Pins.enrol, conflicts, same]
        | some offered =>
            cases sealing with
            | none => simp [Pins.enrol, conflicts, same]
            | some existing =>
                by_cases equal : existing = offered
                · simp [Pins.enrol, conflicts, same, equal]
                · simp [Pins.enrol, conflicts, equal]

/-- A refused enrolment leaves every key as it was unless it offers a device that has no sealing key
a first one along with a signing key that is not the pinned one: that sealing key stays. -/
theorem refused_enrolment_iff (s : CoreState) (device : DeviceId) (pubkey : Hash)
    (seal_key : Option Hash) (allow_rotation : Bool) :
    (∀ e t, enrolPeer device pubkey seal_key allow_rotation s = .error e t → KeysKept s t) ↔
      ¬(allow_rotation = false ∧ seal_key.isSome ∧ s.seal_keys[device]? = none ∧
        ∃ known, s.peer_keys[device]? = some known ∧ known ≠ pubkey) := by
  have refusal := @enrolPeer_error s device pubkey seal_key allow_rotation
  have after : ∀ e t, enrolPeer device pubkey seal_key allow_rotation s = .error e t →
      ∀ other, pinsOf t other =
        if device = other then (pinsOf s other).enrol pubkey seal_key allow_rotation
        else pinsOf s other := by
    intro e t run other
    have pins := @pinsOf_enrolPeer s other device pubkey seal_key allow_rotation
    rw [run] at pins
    exact pins
  constructor
  · rintro kept ⟨rfl, offers, sealing, known, signing, differs⟩
    have conflict : conflicts (pinsOf s device).signing pubkey = true := by
      simp [conflicts, pinsOf, signing, differs]
    obtain ⟨e, t, run⟩ := refusal.mpr ⟨rfl, .inr conflict⟩
    have same := after e t run device
    rw [if_pos rfl, (kept e t run).pins device] at same
    exact (Pins.enrol_refused (.inr conflict)).mp same.symm ⟨offers, sealing, known, signing, differs⟩
  · intro clear e t run
    obtain ⟨rfl, causes⟩ := refusal.mp ⟨e, t, run⟩
    refine keysKept_of_pins fun other => ?_
    rw [after e t run other]
    split
    · rename_i owns
      subst owns
      exact (Pins.enrol_refused causes).mpr fun first => clear ⟨rfl, first⟩
    · rfl

/-- Someone who offers another signing key for a pinned device is refused, and is sealed to from
then on. -/
theorem refused_enrolment_adds :
    ∃ (s t : CoreState) (e : TrustError), enrolPeer 9 99 (some 66) false s = .error e t ∧
      (9, 66) ∉ s.sealingRecipients ∧ (9, 66) ∈ t.sealingRecipients ∧ ¬KeysKept s t := by
  have facts : (pinsOf enrolledNode 9).signing = some 22 ∧ (9, 66) ∉ enrolledNode.sealingRecipients ∧
      (9, 66) ∈ (finalState (enrolPeer 9 99 (some 66) false enrolledNode)).sealingRecipients := by
    decide +kernel
  obtain ⟨signing, before, after⟩ := facts
  obtain ⟨e, t, run⟩ := (@enrolPeer_error enrolledNode 9 99 (some 66) false).mpr
    ⟨rfl, .inr (by rw [signing]; decide)⟩
  rw [run] at after
  exact ⟨enrolledNode, t, e, run, before, after, fun kept => before (kept.recipients ▸ after)⟩

end Refusals

end NexusFS.Net
