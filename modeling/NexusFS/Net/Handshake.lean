/- GID: NexusFS/Net/Handshake
   source: crates/net/src/replication.rs, crates/net/src/session.rs, crates/net/src/trust.rs,
     crates/crypto/src/sign.rs
   digest: The signed Hello and HelloAck, and what each side of a session does with them. -/

import NexusFS.Core.Apply
import NexusFS.Net.Message
import NexusFS.Net.Trust

set_option autoImplicit false
set_option relaxedAutoImplicit false

namespace NexusFS.Net

open NexusFS.Lib NexusFS.Lib.Effect NexusFS.Proto NexusFS.Core

/-- Why a handshake failed. -/
inductive HandshakeError where
  | notAHello
  | notAHelloAck
  | differentHandshake
  | invalidSignatureLength
  | invalidVerifyingKey
  | signatureVerifyFailed
  | refused (reason : String)
  | unsupportedVersion (version : U16)
  | peerError (code : U16) (message : String)
  | untrusted (error : TrustError)
  deriving DecidableEq

/-- What a verified handshake message says about its sender. -/
structure PeerHello where
  device_id : DeviceId
  pubkey : Hash
  features : List String
  deriving DecidableEq

def Hello.signingBytes (h : Hello) : Bytes :=
  Wire.helloToSign.encode
    (h.device_id, h.pubkey_ed25519, h.features, h.build, h.time_unix_ms, h.nonce)

/-- The bytes the signature of a HelloAck covers. They include the initiator's nonce. -/
def HelloAck.signingBytes (a : HelloAck) : Bytes :=
  Wire.ackToSign.encode (a.accepted, a.reason, a.features, a.peer_device, a.peer_pubkey, a.nonce)

section Messages

variable (env : Env)

def verifySig (key : Hash) (bytes sig : Bytes) : Except HandshakeError Unit :=
  if sig.length ≠ 64 then throw .invalidSignatureLength
  else if !env.verifyingKeyValid key then throw .invalidVerifyingKey
  else if !env.ed25519Verify key bytes sig then throw .signatureVerifyFailed
  else pure ()

def makeHello (identity : Identity) (device_id : DeviceId) (features : List String)
    (build : BuildInfo) (now_ms : U64) (nonce : Hash) : Hello :=
  let unsigned_hello : Hello :=
    ⟨device_id, env.ed25519Public identity.signing_key, features, build, now_ms, nonce, []⟩
  { unsigned_hello with
    sig := env.ed25519Sign identity.signing_key unsigned_hello.signingBytes }

def verifyHello (msg : WireMsg) : Except HandshakeError PeerHello :=
  match msg with
  | .hello h => do
      verifySig env h.pubkey_ed25519 h.signingBytes h.sig
      return ⟨h.device_id, h.pubkey_ed25519, h.features⟩
  | _ => throw .notAHello

def makeHelloAck (identity : Identity) (device_id : DeviceId) (accepted : Bool)
    (reason : Option String) (features : List String) (nonce : Hash) : HelloAck :=
  let unsigned_ack : HelloAck :=
    ⟨accepted, reason, features, device_id, env.ed25519Public identity.signing_key, nonce, []⟩
  { unsigned_ack with sig := env.ed25519Sign identity.signing_key unsigned_ack.signingBytes }

def verifyHelloAck (msg : WireMsg) (expected_nonce : Hash) : Except HandshakeError PeerHello :=
  match msg with
  | .helloAck a =>
      if a.nonce ≠ expected_nonce then throw .differentHandshake
      else do
        verifySig env a.peer_pubkey a.signingBytes a.sig
        if !a.accepted then throw (.refused (a.reason.getD ""))
        else return ⟨a.peer_device, a.peer_pubkey, a.features⟩
  | _ => throw .notAHelloAck

def helloNonce (msg : WireMsg) : Except HandshakeError Hash :=
  match msg with
  | .hello h => pure h.nonce
  | _ => throw .notAHello

end Messages

/-- What a session needs from the node it belongs to. -/
structure SessionCtx where
  identity : Identity
  device_id : DeviceId
  trust : TrustPolicy

/-- `build_info`: the version of the package. -/
def buildInfo : BuildInfo := ⟨"0.1.0", none⟩

/-- How a side of the handshake ended: the store it leaves, the message it sent, and the peer it
accepted or the reason it stopped. -/
structure Greeted where
  core : CoreState
  sent : Option HelloAck
  result : Except HandshakeError PeerHello

section Sides

variable (env : Env) (ctx : SessionCtx)

def hexDevice (device : DeviceId) : String := String.ofList (Nat.toDigits 16 device.val)

def TrustError.device : TrustError → DeviceId
  | .differentSealingKey device => device
  | .differentKey device => device
  | .presentedDifferentKey device => device
  | .notEnrolled device => device

def TrustError.reason : TrustError → String
  | .differentSealingKey _ =>
      " is already enrolled with a different sealing key. " ++
        "If this is a deliberate rotation, re-run with --rotate."
  | .differentKey _ =>
      " is already enrolled with a different key. " ++
        "If this is a deliberate rotation, re-run with --rotate; if it is not, " ++
        "the peer is not who it claims to be."
  | .presentedDifferentKey _ =>
      " presented a different key than the one pinned; " ++
        "refusing to sync (re-enrol the peer if this was a deliberate rotation)"
  | .notEnrolled _ => " is not enrolled and trust-on-first-use is disabled"

def TrustError.text (e : TrustError) : String := "device " ++ hexDevice e.device ++ e.reason

/-- The opening of `serve_session`: every refusal is signed over the nonce of the opening message. -/
def serveHandshake (opening : MessageEnvelope) (core : CoreState) : Greeted :=
  let nonce := (helloNonce opening.payload).toOption.getD 0
  let refuse := fun reason =>
    makeHelloAck env ctx.identity ctx.device_id false (some reason) [] nonce
  if opening.protocol_version ≠ protocolVersion then
    let message := "protocol version " ++ toString opening.protocol_version.val ++
      " is not supported"
    ⟨core, some (refuse message), .error (.unsupportedVersion opening.protocol_version)⟩
  else
    match verifyHello env opening.payload with
    | .error e => ⟨core, none, .error e⟩
    | .ok peer =>
        match authorize ctx.trust peer.device_id peer.pubkey core with
        | .error e core => ⟨core, some (refuse e.text), .error (.untrusted e)⟩
        | .ok _ core =>
            ⟨core, some (makeHelloAck env ctx.identity ctx.device_id true none ["ops", "blobs"] nonce),
              .ok peer⟩

def concludeHandshake (nonce : Hash) (reply : WireMsg) (core : CoreState) : Greeted :=
  match reply with
  | .error code message _ => ⟨core, none, .error (.peerError code message)⟩
  | reply =>
      match verifyHelloAck env reply nonce with
      | .error e => ⟨core, none, .error e⟩
      | .ok peer =>
          match authorize ctx.trust peer.device_id peer.pubkey core with
          | .error e core => ⟨core, none, .error (.untrusted e)⟩
          | .ok _ core => ⟨core, none, .ok peer⟩

end Sides

section Spec

variable {env : Env} {ctx : SessionCtx} {core : CoreState}

theorem verifySig_eq_ok {key : Hash} {bytes sig : Bytes} :
    verifySig env key bytes sig = .ok () ↔
      sig.length = 64 ∧ env.verifyingKeyValid key ∧ env.ed25519Verify key bytes sig := by
  unfold verifySig
  by_cases size : sig.length = 64
  · cases valid : env.verifyingKeyValid key
    · simp [size, throw, throwThe, MonadExceptOf.throw]
    · cases verified : env.ed25519Verify key bytes sig
      · simp [size, throw, throwThe, MonadExceptOf.throw]
      · simp [size, pure, Except.pure]
  · simp [size, throw, throwThe, MonadExceptOf.throw]

/-- The devices and keys a trust store lets through: the key it pinned, or any key on first
contact. -/
def Welcome (policy : TrustPolicy) (core : CoreState) (device : DeviceId) (pubkey : Hash) : Prop :=
  core.peer_keys[device]? = some pubkey ∨ (core.peer_keys[device]? = none ∧ policy.tofu)

theorem authorize_ok {policy : TrustPolicy} {device : DeviceId} {pubkey : Hash} :
    (∃ t, authorize policy device pubkey core = .ok () t) ↔ Welcome policy core device pubkey := by
  unfold authorize Welcome
  rw [bind_run, get_run]
  dsimp only
  cases pinned : core.peer_keys[device]? with
  | some known =>
      dsimp only
      by_cases same : known = pubkey
      · simp [same]
      · simp [same]
  | none =>
      dsimp only
      cases policy.tofu
      · simp
      · rw [if_pos rfl, bind_run]
        unfold enrolPeer enrolSealKey
        simp [bind_run, pinned]

/-- A Hello that opens a session of a node: of this version, verified under its own key, from a
device and key its trust store lets through. -/
structure Introduces (env : Env) (ctx : SessionCtx) (core : CoreState) (opening : MessageEnvelope)
    (h : Hello) : Prop where
  payload : opening.payload = .hello h
  version : opening.protocol_version = protocolVersion
  verified : verifySig env h.pubkey_ed25519 h.signingBytes h.sig = .ok ()
  welcome : Welcome ctx.trust core h.device_id h.pubkey_ed25519

theorem verifyHello_ok {msg : WireMsg} {peer : PeerHello} :
    verifyHello env msg = .ok peer ↔ ∃ h, msg = .hello h ∧
      verifySig env h.pubkey_ed25519 h.signingBytes h.sig = .ok () ∧
      peer = ⟨h.device_id, h.pubkey_ed25519, h.features⟩ := by
  cases msg with
  | hello h =>
      cases verified : verifySig env h.pubkey_ed25519 h.signingBytes h.sig with
      | error e =>
          constructor
          · intro run
            simp [verifyHello, verified, bind, Except.bind] at run
          · rintro ⟨_, same, accepted, -⟩
            cases same
            rw [verified] at accepted
            cases accepted
      | ok u =>
          constructor
          · intro run
            simp only [verifyHello, verified, bind, Except.bind, pure, Except.pure,
              Except.ok.injEq] at run
            exact ⟨h, rfl, verified, run.symm⟩
          · rintro ⟨_, same, -, rfl⟩
            cases same
            simp [verifyHello, verified, bind, Except.bind, pure, Except.pure]
  | _ => simp [verifyHello, throw, throwThe, MonadExceptOf.throw]

theorem verifyHelloAck_ok {msg : WireMsg} {nonce : Hash} {peer : PeerHello} :
    verifyHelloAck env msg nonce = .ok peer ↔ ∃ a, msg = .helloAck a ∧ a.nonce = nonce ∧
      verifySig env a.peer_pubkey a.signingBytes a.sig = .ok () ∧ a.accepted = true ∧
      peer = ⟨a.peer_device, a.peer_pubkey, a.features⟩ := by
  cases msg with
  | helloAck a =>
      by_cases answers : a.nonce = nonce
      · cases verified : verifySig env a.peer_pubkey a.signingBytes a.sig with
        | error e => simp [verifyHelloAck, answers, verified, bind, Except.bind]
        | ok u =>
            cases accepted : a.accepted
            · simp [verifyHelloAck, answers, verified, accepted, bind, Except.bind, throw, throwThe,
                MonadExceptOf.throw]
            · have run : verifyHelloAck env (.helloAck a) nonce =
                  .ok ⟨a.peer_device, a.peer_pubkey, a.features⟩ := by
                simp [verifyHelloAck, answers, verified, accepted, bind, Except.bind, pure,
                  Except.pure]
              rw [run]
              constructor
              · intro same
                exact ⟨a, rfl, answers, verified, accepted, (Except.ok.inj same).symm⟩
              · rintro ⟨_, same, -, -, -, rfl⟩
                cases same
                rfl
      · simp [verifyHelloAck, answers, throw, throwThe, MonadExceptOf.throw]
  | _ => simp [verifyHelloAck, throw, throwThe, MonadExceptOf.throw]

theorem authorize_pins {policy : TrustPolicy} {device : DeviceId} {pubkey : Hash} {t : CoreState}
    (run : authorize policy device pubkey core = .ok () t) :
    t.peer_keys[device]? = some pubkey := by
  unfold authorize at run
  rw [bind_run, get_run] at run
  dsimp only at run
  cases pinned : core.peer_keys[device]? with
  | some known =>
      rw [pinned] at run
      dsimp only at run
      split at run
      · rename_i same
        cases run
        rw [pinned, same]
      · cases run
  | none =>
      rw [pinned] at run
      dsimp only at run
      split at run
      · unfold enrolPeer enrolSealKey at run
        simp only [bind_run, get_run, pure_run, pinned, modify_run] at run
        cases run
        exact (BTreeMap.get_insert _ _ _ _).trans (if_pos rfl)
      · cases run

/-- What the opening of `serve_session` does: it accepts exactly the Hellos that open a session,
and every other acknowledgment it signs is a refusal. -/
theorem serveHandshake_spec (env : Env) (ctx : SessionCtx) (opening : MessageEnvelope)
    (core : CoreState) :
    (∃ h, Introduces env ctx core opening h ∧
      (serveHandshake env ctx opening core).result =
        .ok ⟨h.device_id, h.pubkey_ed25519, h.features⟩ ∧
      (serveHandshake env ctx opening core).core.peer_keys[h.device_id]? =
        some h.pubkey_ed25519 ∧
      (serveHandshake env ctx opening core).sent =
        some (makeHelloAck env ctx.identity ctx.device_id true none ["ops", "blobs"] h.nonce)) ∨
    ((∀ h, ¬Introduces env ctx core opening h) ∧
      (∃ e, (serveHandshake env ctx opening core).result = .error e) ∧
      ∀ ack, (serveHandshake env ctx opening core).sent = some ack → ∃ reason nonce,
        ack = makeHelloAck env ctx.identity ctx.device_id false (some reason) [] nonce) := by
  unfold serveHandshake
  dsimp only
  by_cases version : opening.protocol_version = protocolVersion
  · rw [if_neg (not_not_intro version)]
    cases hello : verifyHello env opening.payload with
    | error e =>
        refine .inr ⟨fun h opens => ?_, ⟨e, rfl⟩, fun ack sent => by cases sent⟩
        rw [verifyHello_ok.mpr ⟨h, opens.payload, opens.verified, rfl⟩] at hello
        cases hello
    | ok peer =>
        obtain ⟨h, payload, verified, rfl⟩ := verifyHello_ok.mp hello
        dsimp only
        cases auth : authorize ctx.trust h.device_id h.pubkey_ed25519 core with
        | error e t =>
            refine .inr ⟨fun other opens => ?_, ⟨_, rfl⟩, fun ack sent =>
              ⟨_, _, (Option.some.inj sent).symm⟩⟩
            cases payload.symm.trans opens.payload
            obtain ⟨u, welcome⟩ := authorize_ok.mpr opens.welcome
            rw [auth] at welcome
            cases welcome
        | ok u t =>
            refine .inl ⟨h, ⟨payload, version, verified, authorize_ok.mp ⟨t, auth⟩⟩, rfl,
              authorize_pins auth, ?_⟩
            rw [payload]
            rfl
  · rw [if_pos version]
    exact .inr ⟨fun h opens => version opens.version, ⟨_, rfl⟩, fun ack sent =>
      ⟨_, _, (Option.some.inj sent).symm⟩⟩

/-- A reply that an initiator accepts: an acceptance signed over its nonce, from a device and key
its trust store lets through. -/
structure Answers (env : Env) (ctx : SessionCtx) (core : CoreState) (nonce : Hash) (reply : WireMsg)
    (a : HelloAck) : Prop where
  payload : reply = .helloAck a
  nonce : a.nonce = nonce
  verified : verifySig env a.peer_pubkey a.signingBytes a.sig = .ok ()
  accepted : a.accepted = true
  welcome : Welcome ctx.trust core a.peer_device a.peer_pubkey

theorem concludeHandshake_ok {nonce : Hash} {reply : WireMsg} {peer : PeerHello} :
    (concludeHandshake env ctx nonce reply core).result = .ok peer ↔
      ∃ a, Answers env ctx core nonce reply a ∧
        peer = ⟨a.peer_device, a.peer_pubkey, a.features⟩ := by
  have reads : ∀ a, reply = .helloAck a →
      ((concludeHandshake env ctx nonce reply core).result = .ok peer ↔
        a.nonce = nonce ∧ verifySig env a.peer_pubkey a.signingBytes a.sig = .ok () ∧
          a.accepted = true ∧ Welcome ctx.trust core a.peer_device a.peer_pubkey ∧
          peer = ⟨a.peer_device, a.peer_pubkey, a.features⟩) := by
    rintro a rfl
    unfold concludeHandshake
    dsimp only
    cases acked : verifyHelloAck env (.helloAck a) nonce with
    | error e =>
        constructor
        · intro run
          cases run
        · rintro ⟨answers, verified, accepted, -, -⟩
          rw [verifyHelloAck_ok.mpr ⟨a, rfl, answers, verified, accepted, rfl⟩] at acked
          cases acked
    | ok found =>
        obtain ⟨b, same, answers, verified, accepted, rfl⟩ := verifyHelloAck_ok.mp acked
        cases same
        dsimp only
        rw [← authorize_ok]
        cases auth : authorize ctx.trust a.peer_device a.peer_pubkey core with
        | error e t => simp
        | ok u t => simp [answers, verified, accepted, eq_comm]
  constructor
  · intro run
    cases reply with
    | helloAck a =>
        obtain ⟨answers, verified, accepted, welcome, same⟩ := (reads a rfl).mp run
        exact ⟨a, ⟨rfl, answers, verified, accepted, welcome⟩, same⟩
    | _ => cases run
  · rintro ⟨a, answers, same⟩
    exact (reads a answers.payload).mpr
      ⟨answers.nonce, answers.verified, answers.accepted, answers.welcome, same⟩

theorem HelloAck.ext_signed {a b : HelloAck} (bytes : a.signingBytes = b.signingBytes)
    (sig : a.sig = b.sig) : a = b := by
  have same := Wire.ackToSign.encode_injective bytes
  cases a
  cases b
  simp_all

theorem Hello.ext_signed {h k : Hello} (bytes : h.signingBytes = k.signingBytes)
    (sig : h.sig = k.sig) : h = k := by
  have same := Wire.helloToSign.encode_injective bytes
  cases h
  cases k
  simp_all

end Spec

end NexusFS.Net
