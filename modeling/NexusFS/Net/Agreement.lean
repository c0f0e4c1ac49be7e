/- GID: NexusFS/Net/Agreement
   source: crates/net/src/replication.rs, crates/net/src/session.rs, crates/net/src/trust.rs
   digest: Handshakes of many nodes under an attacker on the network: who agrees with whom. -/

import NexusFS.Net.Attribution
import NexusFS.Net.Handshake

/-!
The attacker delivers any message it can put together: it relays, drops, replays and composes,
and signs with its own keys. It cannot make a signature that verifies under the key of an
honest node unless an honest node with that key made it.
-/

set_option autoImplicit false
set_option relaxedAutoImplicit false

namespace NexusFS.Net

open NexusFS.Lib NexusFS.Lib.Effect NexusFS.Proto NexusFS.Core

section Network

variable (ι : Type)

/-- A session an honest node opened. -/
structure OpenedSession where
  node : ι
  hello : Hello
  deriving DecidableEq

/-- A session an honest node served past the handshake. -/
structure ServedSession where
  node : ι
  opening : Hello
  ack : HelloAck

/-- A session whose initiator accepted the reply to its Hello. -/
structure AcceptedSession where
  node : ι
  hello : Hello
  ack : HelloAck

/-- A signature an honest node made. -/
structure Signature where
  node : ι
  bytes : Bytes
  sig : Bytes

/-- The stores of the honest nodes, and what they did so far. `waiting` holds the sessions that
have not read the reply to their Hello. -/
structure Network where
  core : ι → CoreState
  signed : List (Signature ι)
  opened : List (OpenedSession ι)
  waiting : List (OpenedSession ι)
  served : List (ServedSession ι)
  accepted : List (AcceptedSession ι)

/-- What an honest node does next, and which message the network hands it. `work` is the rest of
a node's work on its store, and `author` the signing of an operation. -/
inductive NetAct where
  | opens (node : ι) (features : List String) (now_ms : U64) (nonce : Hash)
  | serves (node : ι) (opening : MessageEnvelope)
  | concludes (session : OpenedSession ι) (reply : WireMsg)
  | author (node : ι) (op : FsOp)
  | work (node : ι) (core : CoreState)

end Network

section Runs

variable {ι : Type} [DecidableEq ι] (env : Env) (ctx : ι → SessionCtx)

def nodeKey (node : ι) : Hash := ownKey env (ctx node).identity

def openingHello (node : ι) (features : List String) (now_ms : U64) (nonce : Hash) : Hello :=
  makeHello env (ctx node).identity (ctx node).device_id features buildInfo now_ms nonce

def helloSignature (session : OpenedSession ι) : Signature ι :=
  ⟨session.node, session.hello.signingBytes, session.hello.sig⟩

def ackSignature (node : ι) (ack : HelloAck) : Signature ι := ⟨node, ack.signingBytes, ack.sig⟩

def opSignature (node : ι) (op : FsOp) : Signature ι :=
  ⟨node, env.encodeOpToSign op.toSign,
    env.ed25519Sign (ctx node).identity.signing_key (env.encodeOpToSign op.toSign)⟩

def servedSession (node : ι) (opening : MessageEnvelope) (greeted : Greeted) :
    List (ServedSession ι) :=
  match opening.payload, greeted.result, greeted.sent with
  | .hello h, .ok _, some ack => [⟨node, h, ack⟩]
  | _, _, _ => []

def acceptedSession (session : OpenedSession ι) (reply : WireMsg) (greeted : Greeted) :
    List (AcceptedSession ι) :=
  match reply, greeted.result with
  | .helloAck ack, .ok _ => [⟨session.node, session.hello, ack⟩]
  | _, _ => []

def NetAct.run (net : Network ι) : NetAct ι → Network ι
  | .opens node features now_ms nonce =>
      let session : OpenedSession ι := ⟨node, openingHello env ctx node features now_ms nonce⟩
      { net with
        signed := helloSignature session :: net.signed
        opened := session :: net.opened
        waiting := session :: net.waiting }
  | .serves node opening =>
      let greeted := serveHandshake env (ctx node) opening (net.core node)
      { net with
        core := Function.update net.core node greeted.core
        signed := greeted.sent.toList.map (ackSignature node) ++ net.signed
        served := servedSession node opening greeted ++ net.served }
  | .concludes session reply =>
      let greeted := concludeHandshake env (ctx session.node) session.hello.nonce reply
        (net.core session.node)
      { net with
        core := Function.update net.core session.node greeted.core
        waiting := net.waiting.erase session
        accepted := acceptedSession session reply greeted ++ net.accepted }
  | .author node op => { net with signed := opSignature env ctx node op :: net.signed }
  | .work node core => { net with core := Function.update net.core node core }

/-- A signature under the key of an honest node is one that an honest node with that key made. -/
def Unforged (net : Network ι) (key : Hash) (bytes sig : Bytes) : Prop :=
  (∃ node, nodeKey env ctx node = key) → verifySig env key bytes sig = .ok () →
    ∃ x ∈ net.signed, nodeKey env ctx x.node = key ∧ x.bytes = bytes ∧ x.sig = sig

/-- What the network can do: every nonce is fresh, and no delivered signature is forged. -/
def NetAct.Possible (net : Network ι) : NetAct ι → Prop
  | .opens _ _ _ nonce =>
      (∀ x ∈ net.opened, x.hello.nonce ≠ nonce) ∧ ∀ r ∈ net.served, r.opening.nonce ≠ nonce
  | .serves _ opening =>
      ∀ h, opening.payload = .hello h → Unforged env ctx net h.pubkey_ed25519 h.signingBytes h.sig
  | .concludes session reply =>
      session ∈ net.waiting ∧
        ∀ a, reply = .helloAck a → Unforged env ctx net a.peer_pubkey a.signingBytes a.sig
  | .author _ _ => True
  | .work _ _ => True

def Network.idle (core : ι → CoreState) : Network ι := ⟨core, [], [], [], [], []⟩

/-- The runs whose steps meet a condition. -/
inductive NetRun (Ok : Network ι → NetAct ι → Prop) : Network ι → Prop
  | idle (core : ι → CoreState) : NetRun Ok (.idle core)
  | step {net : Network ι} {a : NetAct ι} (run : NetRun Ok net) (possible : a.Possible env ctx net)
      (met : Ok net a) : NetRun Ok (a.run env ctx net)

end Runs

section Confusion

def NotAck (bytes : Bytes) : Prop := ∀ a : HelloAck, bytes ≠ a.signingBytes

def NotHello (key : Hash) (bytes : Bytes) : Prop :=
  ∀ h : Hello, h.pubkey_ed25519 = key → bytes ≠ h.signingBytes

private theorem varint_head (n : Nat) :
    ∃ rest, Codec.varint.encode n = UInt8.ofNat (if n < 128 then n else n % 128 + 128) :: rest := by
  have encode : Codec.varint.encode n = Codec.varintBytes n.log2 n := rfl
  rw [encode]
  cases fuel : n.log2 with
  | zero =>
      have small : n < 2 ^ (n.log2 + 1) := Nat.lt_log2_self
      rw [fuel] at small
      rw [if_pos (by omega)]
      exact ⟨[], rfl⟩
  | succ fuel =>
      unfold Codec.varintBytes
      split
      · exact ⟨[], rfl⟩
      · exact ⟨_, rfl⟩

private theorem ack_head (a : HelloAck) :
    ∃ flag rest, a.signingBytes = flag :: rest ∧ flag.toNat ≤ 1 := by
  have flags : (if a.accepted then (1 : UInt8) else 0).toNat ≤ 1 := by
    split <;> decide
  unfold HelloAck.signingBytes Wire.ackToSign Codec.pair Codec.bool
  exact ⟨_, _, rfl, flags⟩

theorem notAck_hello {h : Hello} (large : 2 ≤ h.device_id.val) : NotAck h.signingBytes := by
  intro a same
  obtain ⟨flag, rest, bytes, small⟩ := ack_head a
  obtain ⟨more, device⟩ := varint_head h.device_id.val
  have starts : ∃ rest', h.signingBytes = UInt8.ofNat
      (if h.device_id.val < 128 then h.device_id.val else h.device_id.val % 128 + 128) :: rest' := by
    unfold Hello.signingBytes Wire.helloToSign Codec.pair
    dsimp only
    have first : Postcard.u128.encode h.device_id = Codec.varint.encode h.device_id.val := rfl
    rw [first, device]
    exact ⟨_, rfl⟩
  obtain ⟨rest', starts⟩ := starts
  rw [same, bytes] at starts
  have head := (List.cons.inj starts).1
  rw [head, UInt8.toNat_ofNat'] at small
  split at small <;> omega

private theorem nonce_of_bytes {a : HelloAck} {h : Hello} (same : a.signingBytes = h.signingBytes) :
    a.nonce = h.nonce := by
  have ackBytes : ∃ front, a.signingBytes = front ++ Postcard.digest.encode a.nonce := by
    unfold HelloAck.signingBytes Wire.ackToSign Codec.pair
    dsimp only
    simp only [← List.append_assoc]
    exact ⟨_, rfl⟩
  have helloBytes : ∃ front, h.signingBytes = front ++ Postcard.digest.encode h.nonce := by
    unfold Hello.signingBytes Wire.helloToSign Codec.pair
    dsimp only
    simp only [← List.append_assoc]
    exact ⟨_, rfl⟩
  obtain ⟨front, ackBytes⟩ := ackBytes
  obtain ⟨front', helloBytes⟩ := helloBytes
  rw [ackBytes, helloBytes] at same
  have size : (Postcard.digest.encode a.nonce).length = (Postcard.digest.encode h.nonce).length :=
    (beBytes_length 32 _).trans (beBytes_length 32 _).symm
  exact Postcard.digest.encode_injective (List.append_inj_right' same size)

end Confusion

section Records

variable {ι : Type} [DecidableEq ι] {env : Env} {ctx : ι → SessionCtx} {R : ι → FsOp → Prop}
  {net : Network ι}

def Backed (env : Env) (ctx : ι → SessionCtx) (net : Network ι) (key : Hash) (bytes sig : Bytes) :
    Prop :=
  (∃ node, nodeKey env ctx node = key) →
    ∃ y ∈ net.signed, nodeKey env ctx y.node = key ∧ y.bytes = bytes ∧ y.sig = sig

/-- What an honest node signs: the Hello of a session it opened, the acceptance of one it served, a
refusal, and operations with `R`. -/
def Made (env : Env) (ctx : ι → SessionCtx) (R : ι → FsOp → Prop) (net : Network ι)
    (y : Signature ι) : Prop :=
  (∃ x ∈ net.opened, y = helloSignature x) ∨ (∃ r ∈ net.served, y = ackSignature r.node r.ack) ∨
    (∃ a : HelloAck, y.bytes = a.signingBytes ∧ a.accepted = false ∧
      a.peer_pubkey = nodeKey env ctx y.node) ∨
    ∃ op, y.bytes = env.encodeOpToSign op.toSign ∧ R y.node op

/-- What the record of a network holds, whatever the attacker delivered. -/
structure Recorded (env : Env) (ctx : ι → SessionCtx) (R : ι → FsOp → Prop) (net : Network ι) :
    Prop where
  signed : ∀ y ∈ net.signed, Made env ctx R net y
  opened : ∀ x ∈ net.opened, x.hello.device_id = (ctx x.node).device_id ∧
    x.hello.pubkey_ed25519 = nodeKey env ctx x.node
  waiting : ∀ x ∈ net.waiting, x ∈ net.opened
  served : ∀ r ∈ net.served,
    Backed env ctx net r.opening.pubkey_ed25519 r.opening.signingBytes r.opening.sig ∧
    r.ack = makeHelloAck env (ctx r.node).identity (ctx r.node).device_id true none
      ["ops", "blobs"] r.opening.nonce
  accepted : ∀ x ∈ net.accepted, ⟨x.node, x.hello⟩ ∈ net.opened ∧ x.ack.nonce = x.hello.nonce ∧
    x.ack.accepted = true ∧ Backed env ctx net x.ack.peer_pubkey x.ack.signingBytes x.ack.sig

/-- `later` remembers what `net` records. -/
structure Remembers (net later : Network ι) : Prop where
  signed : ∀ y ∈ net.signed, y ∈ later.signed
  opened : ∀ x ∈ net.opened, x ∈ later.opened
  served : ∀ r ∈ net.served, r ∈ later.served

omit [DecidableEq ι] in
private theorem Backed.later {later : Network ι} {key : Hash} {bytes sig : Bytes}
    (backed : Backed env ctx net key bytes sig) (remembers : Remembers net later) :
    Backed env ctx later key bytes sig := by
  intro honest
  obtain ⟨y, member, named⟩ := backed honest
  exact ⟨y, remembers.signed y member, named⟩

omit [DecidableEq ι] in
private theorem Made.later {later : Network ι} {y : Signature ι} (made : Made env ctx R net y)
    (remembers : Remembers net later) : Made env ctx R later y := by
  rcases made with ⟨x, member, same⟩ | ⟨r, member, same⟩ | refusal | op
  · exact .inl ⟨x, remembers.opened x member, same⟩
  · exact .inr (.inl ⟨r, remembers.served r member, same⟩)
  · exact .inr (.inr (.inl refusal))
  · exact .inr (.inr (.inr op))

theorem serves_of_opens {node : ι} {opening : MessageEnvelope} {h : Hello}
    (opens : Introduces env (ctx node) (net.core node) opening h) :
    ∃ core ack, ack = makeHelloAck env (ctx node).identity (ctx node).device_id true none
        ["ops", "blobs"] h.nonce ∧ core.peer_keys[h.device_id]? = some h.pubkey_ed25519 ∧
      NetAct.run env ctx net (.serves node opening) = { net with
        core := Function.update net.core node core
        signed := ackSignature node ack :: net.signed
        served := ⟨node, h, ack⟩ :: net.served } := by
  rcases serveHandshake_spec env (ctx node) opening (net.core node) with
    ⟨k, again, result, pinned, sent⟩ | ⟨never, -⟩
  · cases opens.payload.symm.trans again.payload
    refine ⟨(serveHandshake env (ctx node) opening (net.core node)).core, _, rfl, pinned, ?_⟩
    simp only [NetAct.run, servedSession, opens.payload, result, sent]
    rfl
  · exact absurd opens (never h)

theorem serves_of_refused {node : ι} {opening : MessageEnvelope}
    (refused : ∀ h, ¬Introduces env (ctx node) (net.core node) opening h) :
    ∃ core refusals, NetAct.run env ctx net (.serves node opening) = { net with
        core := core
        signed := refusals ++ net.signed } ∧
      ∀ y ∈ refusals, ∃ a : HelloAck, y.bytes = a.signingBytes ∧ a.accepted = false ∧
        a.peer_pubkey = nodeKey env ctx y.node := by
  rcases serveHandshake_spec env (ctx node) opening (net.core node) with
    ⟨k, opens, -⟩ | ⟨-, ⟨e, result⟩, refusal⟩
  · exact absurd opens (refused k)
  · refine ⟨Function.update net.core node
      (serveHandshake env (ctx node) opening (net.core node)).core,
      (serveHandshake env (ctx node) opening (net.core node)).sent.toList.map (ackSignature node),
      ?_, ?_⟩
    · simp only [NetAct.run, servedSession, result]
      cases opening.payload <;> rfl
    · intro y member
      obtain ⟨ack, sent, rfl⟩ := List.mem_map.mp member
      obtain ⟨reason, nonce, rfl⟩ := refusal ack (Option.mem_toList.mp sent)
      exact ⟨_, rfl, rfl, rfl⟩

theorem concludes_run (net : Network ι) (session : OpenedSession ι) (reply : WireMsg) :
    ∃ core accepted, NetAct.run env ctx net (.concludes session reply) = { net with
        core := core
        waiting := net.waiting.erase session
        accepted := accepted ++ net.accepted } ∧
      (∀ x ∈ accepted, x.node = session.node ∧ x.hello = session.hello ∧
        Answers env (ctx session.node) (net.core session.node) session.hello.nonce reply x.ack) ∧
      ∀ a, Answers env (ctx session.node) (net.core session.node) session.hello.nonce reply a →
        ⟨session.node, session.hello, a⟩ ∈ accepted := by
  refine ⟨_, _, rfl, fun x member => ?_, fun a answers => ?_⟩
  · unfold acceptedSession at member
    cases result : (concludeHandshake env (ctx session.node) session.hello.nonce reply
        (net.core session.node)).result with
    | error e =>
        rw [result] at member
        cases reply <;> cases member
    | ok peer =>
        obtain ⟨a, answers, -⟩ := concludeHandshake_ok.mp result
        obtain rfl := answers.payload
        rw [result] at member
        obtain rfl := List.mem_singleton.mp member
        exact ⟨rfl, rfl, answers⟩
  · unfold acceptedSession
    rw [concludeHandshake_ok.mpr ⟨a, answers, rfl⟩, answers.payload]
    exact List.mem_singleton_self _

omit [DecidableEq ι] in
private theorem Recorded.add {later : Network ι} (recorded : Recorded env ctx R net)
    (remembers : Remembers net later)
    (signed : ∀ y ∈ later.signed, y ∈ net.signed ∨ Made env ctx R later y)
    (opened : ∀ x ∈ later.opened, x ∈ net.opened ∨ (x.hello.device_id = (ctx x.node).device_id ∧
      x.hello.pubkey_ed25519 = nodeKey env ctx x.node))
    (waiting : ∀ x ∈ later.waiting, x ∈ net.waiting ∨ x ∈ later.opened)
    (served : ∀ r ∈ later.served, r ∈ net.served ∨
      (Backed env ctx net r.opening.pubkey_ed25519 r.opening.signingBytes r.opening.sig ∧
        r.ack = makeHelloAck env (ctx r.node).identity (ctx r.node).device_id true none
          ["ops", "blobs"] r.opening.nonce))
    (accepted : ∀ x ∈ later.accepted, x ∈ net.accepted ∨
      (⟨x.node, x.hello⟩ ∈ net.opened ∧ x.ack.nonce = x.hello.nonce ∧ x.ack.accepted = true ∧
        Backed env ctx net x.ack.peer_pubkey x.ack.signingBytes x.ack.sig)) :
    Recorded env ctx R later := by
  constructor
  · intro y member
    rcases signed y member with old | new
    · exact (recorded.signed y old).later remembers
    · exact new
  · intro x member
    rcases opened x member with old | new
    · exact recorded.opened x old
    · exact new
  · intro x member
    rcases waiting x member with old | new
    · exact remembers.opened x (recorded.waiting x old)
    · exact new
  · intro r member
    have known : Backed env ctx net r.opening.pubkey_ed25519 r.opening.signingBytes r.opening.sig ∧
        _ := (served r member).elim (recorded.served r) id
    exact ⟨known.1.later remembers, known.2⟩
  · intro x member
    have known : (⟨x.node, x.hello⟩ : OpenedSession ι) ∈ net.opened ∧ x.ack.nonce = x.hello.nonce ∧
        x.ack.accepted = true ∧ Backed env ctx net x.ack.peer_pubkey x.ack.signingBytes x.ack.sig :=
      (accepted x member).elim (recorded.accepted x) id
    obtain ⟨opens, nonce, accepts, backed⟩ := known
    exact ⟨remembers.opened _ opens, nonce, accepts, backed.later remembers⟩

theorem Recorded.act (recorded : Recorded env ctx R net) {a : NetAct ι}
    (possible : a.Possible env ctx net) (authored : ∀ node op, a = .author node op → R node op) :
    Recorded env ctx R (a.run env ctx net) := by
  cases a with
  | opens node features now_ms nonce =>
      refine recorded.add ⟨fun y here => .tail _ here, fun x here => .tail _ here, fun r here => here⟩
        ?_ ?_ ?_ (fun r here => .inl here) fun x here => .inl here
      · rintro y (_ | ⟨_, old⟩)
        · exact .inr (.inl ⟨_, .head _, rfl⟩)
        · exact .inl old
      · rintro x (_ | ⟨_, old⟩)
        · exact .inr ⟨rfl, rfl⟩
        · exact .inl old
      · rintro x (_ | ⟨_, old⟩)
        · exact .inr (.head _)
        · exact .inl old
  | serves node opening =>
      by_cases opens : ∃ h, Introduces env (ctx node) (net.core node) opening h
      · obtain ⟨h, opens⟩ := opens
        obtain ⟨core, ack, made, -, run⟩ := serves_of_opens opens
        rw [run]
        refine recorded.add ⟨fun y here => .tail _ here, fun x here => here, fun r here => .tail _ here⟩
          ?_ (fun x here => .inl here) (fun x here => .inl here) ?_ fun x here => .inl here
        · rintro y (_ | ⟨_, old⟩)
          · exact .inr (.inr (.inl ⟨_, .head _, rfl⟩))
          · exact .inl old
        · rintro r (_ | ⟨_, old⟩)
          · exact .inr ⟨fun honest => possible h opens.payload honest opens.verified, made⟩
          · exact .inl old
      · obtain ⟨core, refusals, run, refused⟩ :=
          serves_of_refused (not_exists.mp opens)
        rw [run]
        refine recorded.add
          ⟨fun y here => List.mem_append_right _ here, fun x here => here, fun r here => here⟩
          ?_ (fun x here => .inl here) (fun x here => .inl here) (fun r here => .inl here)
          fun x here => .inl here
        intro y member
        rcases List.mem_append.mp member with new | old
        · exact .inr (.inr (.inr (.inl (refused y new))))
        · exact .inl old
  | concludes session reply =>
      obtain ⟨core, accepted, run, answered, -⟩ := concludes_run net session reply
      rw [run]
      obtain ⟨waits, unforged⟩ := possible
      refine recorded.add ⟨fun y here => here, fun x here => here, fun r here => here⟩
        (fun y here => .inl here) (fun x here => .inl here)
        (fun x here => .inl (List.mem_of_mem_erase here)) (fun r here => .inl here) ?_
      intro x member
      rcases List.mem_append.mp member with new | old
      · obtain ⟨node, hello, answers⟩ := answered x new
        rw [node, hello]
        exact .inr ⟨recorded.waiting _ waits, answers.nonce, answers.accepted, fun honest =>
          unforged x.ack answers.payload honest answers.verified⟩
      · exact .inl old
  | author node op =>
      refine recorded.add ⟨fun y here => .tail _ here, fun x here => here, fun r here => here⟩
        ?_ (fun x here => .inl here) (fun x here => .inl here) (fun r here => .inl here)
        fun x here => .inl here
      rintro y (_ | ⟨_, old⟩)
      · exact .inr (.inr (.inr (.inr ⟨op, rfl, authored node op rfl⟩)))
      · exact .inl old
  | work node core =>
      exact recorded.add ⟨fun y here => here, fun x here => here, fun r here => here⟩
        (fun y here => .inl here) (fun x here => .inl here) (fun x here => .inl here)
        (fun r here => .inl here) fun x here => .inl here

omit [DecidableEq ι] in
theorem recorded_idle (core : ι → CoreState) : Recorded env ctx R (.idle core) := by
  constructor <;> intro _ here <;> cases here

theorem NetRun.recorded {Ok : Network ι → NetAct ι → Prop}
    (authored : ∀ net node op, Ok net (.author node op) → R node op)
    (run : NetRun env ctx Ok net) : Recorded env ctx R net := by
  induction run with
  | idle core => exact recorded_idle core
  | step _ possible met ih =>
      refine ih.act possible ?_
      rintro node op rfl
      exact authored _ node op met

end Records

section Agreement

variable {ι : Type} [DecidableEq ι] (env : Env) (ctx : ι → SessionCtx)

/-- Whenever an initiator accepted an acknowledgment that names an honest node and its key, that
node made it in a session whose opening Hello was the initiator's and which it accepted. -/
def InitiatorAgrees (net : Network ι) : Prop :=
  ∀ x ∈ net.accepted, ∀ node, x.ack.peer_device = (ctx node).device_id →
    x.ack.peer_pubkey = nodeKey env ctx node →
    ∃ r ∈ net.served, (ctx r.node).device_id = (ctx node).device_id ∧
      nodeKey env ctx r.node = nodeKey env ctx node ∧ r.ack = x.ack ∧
      r.opening.device_id = (ctx x.node).device_id ∧
      r.opening.pubkey_ed25519 = nodeKey env ctx x.node ∧ r.opening.nonce = x.hello.nonce

/-- Every session that an honest node served past the handshake for a Hello naming the key of an
honest node answers a session of its own that this key's holder opened with that Hello. -/
def ResponderAgrees (net : Network ι) : Prop :=
  ∃ session : ℕ → ℕ,
    (∀ k r, net.served[k]? = some r → (∃ node, nodeKey env ctx node = r.opening.pubkey_ed25519) →
      ∃ x, net.opened[session k]? = some x ∧ x.hello = r.opening ∧
        (ctx x.node).device_id = r.opening.device_id ∧
        nodeKey env ctx x.node = r.opening.pubkey_ed25519) ∧
    Set.InjOn session {k | ∃ r, net.served[k]? = some r ∧
      ∃ node, nodeKey env ctx node = r.opening.pubkey_ed25519}

/-- No session is served for a Hello with the nonce of an honest node's session but another device
or key, and no acknowledgment has the bytes of the Hello it answers or of an operation. -/
def NoncesKept (net : Network ι) : NetAct ι → Prop
  | .serves node opening => ∀ h, Introduces env (ctx node) (net.core node) opening h →
      ∀ x ∈ net.opened, x.hello.nonce = h.nonce → h.device_id = (ctx x.node).device_id ∧
        h.pubkey_ed25519 = nodeKey env ctx x.node
  | .concludes session reply =>
      ∀ a, reply = .helloAck a → a.signingBytes ≠ session.hello.signingBytes
  | .author _ op => NotAck (env.encodeOpToSign op.toSign)
  | _ => True

/-- No Hello is served a second time, and none has the bytes of an acknowledgment or an operation. -/
def HellosOnce (net : Network ι) : NetAct ι → Prop
  | .serves node opening => ∀ h, Introduces env (ctx node) (net.core node) opening h →
      NotAck h.signingBytes ∧ ∀ r ∈ net.served, r.opening.signingBytes ≠ h.signingBytes
  | .author node op => NotHello (nodeKey env ctx node) (env.encodeOpToSign op.toSign)
  | _ => True

variable {env ctx} {net : Network ι}

/-- What a run under `NoncesKept` keeps beyond the record. -/
private structure Kept (env : Env) (ctx : ι → SessionCtx) (net : Network ι) : Prop where
  nonces : ∀ r ∈ net.served, ∀ x ∈ net.opened, x.hello.nonce = r.opening.nonce →
    r.opening.device_id = (ctx x.node).device_id ∧
      r.opening.pubkey_ed25519 = nodeKey env ctx x.node
  distinct : ∀ x ∈ net.opened, ∀ z ∈ net.opened, x.hello.nonce = z.hello.nonce → x = z
  acks : ∀ x ∈ net.accepted, x.ack.signingBytes ≠ x.hello.signingBytes

private theorem Kept.act (kept : Kept env ctx net) {a : NetAct ι} (possible : a.Possible env ctx net)
    (met : NoncesKept env ctx net a) : Kept env ctx (a.run env ctx net) := by
  cases a with
  | opens node features now_ms nonce =>
      obtain ⟨unused, unserved⟩ := possible
      refine ⟨?_, ?_, kept.acks⟩
      · rintro r served x (_ | ⟨_, old⟩) same
        · exact absurd same.symm (unserved r served)
        · exact kept.nonces r served x old same
      · rintro x (_ | ⟨_, old⟩) z (_ | ⟨_, old'⟩) same
        · rfl
        · exact absurd same.symm (unused z old')
        · exact absurd same (unused x old)
        · exact kept.distinct x old z old' same
  | serves node opening =>
      by_cases opens : ∃ h, Introduces env (ctx node) (net.core node) opening h
      · obtain ⟨h, opens⟩ := opens
        obtain ⟨core, ack, made, -, run⟩ := serves_of_opens opens
        rw [run]
        refine ⟨?_, kept.distinct, kept.acks⟩
        rintro r (_ | ⟨_, old⟩) x opened same
        · exact met h opens x opened same
        · exact kept.nonces r old x opened same
      · obtain ⟨core, refusals, run, -⟩ := serves_of_refused (not_exists.mp opens)
        rw [run]
        exact ⟨kept.nonces, kept.distinct, kept.acks⟩
  | concludes session reply =>
      obtain ⟨core, accepted, run, answered, -⟩ := concludes_run net session reply
      rw [run]
      refine ⟨kept.nonces, kept.distinct, ?_⟩
      intro x member
      rcases List.mem_append.mp member with new | old
      · obtain ⟨-, hello, answers⟩ := answered x new
        rw [hello]
        exact met x.ack answers.payload
      · exact kept.acks x old
  | author node op => exact ⟨kept.nonces, kept.distinct, kept.acks⟩
  | work node core => exact ⟨kept.nonces, kept.distinct, kept.acks⟩

private theorem NetRun.kept (run : NetRun env ctx (NoncesKept env ctx) net) : Kept env ctx net := by
  induction run with
  | idle core => constructor <;> intro _ here <;> cases here
  | step _ possible met ih => exact ih.act possible met

/-- In every run whose steps keep the nonces, initiators agree with the nodes they reached. -/
theorem initiator_agrees (run : NetRun env ctx (NoncesKept env ctx) net) :
    InitiatorAgrees env ctx net := by
  have recorded : Recorded env ctx (fun _ op => NotAck (env.encodeOpToSign op.toSign)) net :=
    run.recorded fun _ _ _ met => met
  have kept := run.kept
  intro x member node device key
  obtain ⟨opened, nonce, accepts, backed⟩ := recorded.accepted x member
  obtain ⟨y, signed, named, bytes, sig⟩ := backed ⟨node, key.symm⟩
  -- B's key signed these bytes; only the acceptance of a served session has them
  rcases recorded.signed y signed with ⟨z, hello, rfl⟩ | ⟨r, served, rfl⟩ |
    ⟨a, refusal, refuses, -⟩ | ⟨op, operation, apart⟩
  · have shared : x.hello.nonce = z.hello.nonce := nonce.symm.trans (nonce_of_bytes bytes.symm)
    obtain rfl := kept.distinct _ opened z hello shared
    exact absurd bytes.symm (kept.acks x member)
  · have same : r.ack = x.ack := HelloAck.ext_signed bytes sig
    have made := (recorded.served r served).2
    have ackNonce : r.ack.nonce = r.opening.nonce := by rw [made]; rfl
    have ackDevice : r.ack.peer_device = (ctx r.node).device_id := by rw [made]; rfl
    have answers : r.opening.nonce = x.hello.nonce := by
      rw [← ackNonce, same, nonce]
    obtain ⟨initiator, initiatorKey⟩ := kept.nonces r served _ opened answers.symm
    refine ⟨r, served, ?_, named.trans key, same, initiator, initiatorKey, answers⟩
    rw [← ackDevice, same, device]
  · have same := Wire.ackToSign.encode_injective (bytes.symm.trans refusal)
    have accepted : x.ack.accepted = a.accepted := congrArg Prod.fst same
    rw [accepts, refuses] at accepted
    cases accepted
  · exact absurd (operation.symm.trans bytes) (apart x.ack)

/-- What a run under `HellosOnce` keeps beyond the record. -/
private structure Once (env : Env) (ctx : ι → SessionCtx) (net : Network ι) : Prop where
  apart : net.served.Pairwise fun r q => r.opening.signingBytes ≠ q.opening.signingBytes
  hellos : ∀ r ∈ net.served, NotAck r.opening.signingBytes

private theorem Once.act (once : Once env ctx net) {a : NetAct ι} (met : HellosOnce env ctx net a) :
    Once env ctx (a.run env ctx net) := by
  cases a with
  | opens node features now_ms nonce => exact ⟨once.apart, once.hellos⟩
  | serves node opening =>
      by_cases opens : ∃ h, Introduces env (ctx node) (net.core node) opening h
      · obtain ⟨h, opens⟩ := opens
        obtain ⟨core, ack, made, -, run⟩ := serves_of_opens opens
        obtain ⟨clear, new⟩ := met h opens
        rw [run]
        refine ⟨List.pairwise_cons.mpr ⟨fun r here => (new r here).symm, once.apart⟩, ?_⟩
        rintro r (_ | ⟨_, old⟩)
        · exact clear
        · exact once.hellos r old
      · obtain ⟨core, refusals, run, -⟩ := serves_of_refused (not_exists.mp opens)
        rw [run]
        exact ⟨once.apart, once.hellos⟩
  | concludes session reply => exact ⟨once.apart, once.hellos⟩
  | author node op => exact ⟨once.apart, once.hellos⟩
  | work node core => exact ⟨once.apart, once.hellos⟩

private theorem NetRun.once (run : NetRun env ctx (HellosOnce env ctx) net) : Once env ctx net := by
  induction run with
  | idle core => exact ⟨.nil, fun _ here => by cases here⟩
  | step _ _ met ih => exact ih.act met

omit [DecidableEq ι] in
private theorem Once.opened (once : Once env ctx net)
    (recorded : Recorded env ctx
      (fun node op => NotHello (nodeKey env ctx node) (env.encodeOpToSign op.toSign)) net)
    {r : ServedSession ι} (served : r ∈ net.served)
    (honest : ∃ node, nodeKey env ctx node = r.opening.pubkey_ed25519) :
    ∃ x ∈ net.opened, x.hello = r.opening := by
  obtain ⟨y, signed, named, bytes, sig⟩ := (recorded.served r served).1 honest
  rcases recorded.signed y signed with ⟨x, opened, rfl⟩ | ⟨q, -, rfl⟩ | ⟨a, refusal, -, -⟩ |
    ⟨op, operation, apart⟩
  · exact ⟨x, opened, Hello.ext_signed bytes sig⟩
  · exact absurd bytes.symm (once.hellos r served q.ack)
  · exact absurd (bytes.symm.trans refusal) (once.hellos r served a)
  · exact absurd (operation.symm.trans bytes) (apart r.opening named.symm)

/-- In every run whose Hellos open one session each, responders agree with the holders of the keys
they saw, session by session. -/
theorem responder_agrees (run : NetRun env ctx (HellosOnce env ctx) net) :
    ResponderAgrees env ctx net := by
  have recorded : Recorded env ctx
      (fun node op => NotHello (nodeKey env ctx node) (env.encodeOpToSign op.toSign)) net :=
    run.recorded fun _ _ _ met => met
  have once := run.once
  have found : ∀ (k : ℕ) (r : ServedSession ι), net.served[k]? = some r →
      (∃ node, nodeKey env ctx node = r.opening.pubkey_ed25519) →
      ∃ (i : ℕ) (x : OpenedSession ι), net.opened[i]? = some x ∧ x.hello = r.opening := by
    intro k r here honest
    obtain ⟨x, opened, same⟩ := once.opened recorded (List.mem_of_getElem? here) honest
    obtain ⟨i, there⟩ := List.mem_iff_getElem?.mp opened
    exact ⟨i, x, there, same⟩
  have chosen : ∀ k : ℕ, ∃ i : ℕ, ∀ r : ServedSession ι, net.served[k]? = some r →
      (∃ node, nodeKey env ctx node = r.opening.pubkey_ed25519) →
      ∃ x, net.opened[i]? = some x ∧ x.hello = r.opening := by
    intro k
    by_cases here : ∃ r, net.served[k]? = some r ∧
        ∃ node, nodeKey env ctx node = r.opening.pubkey_ed25519
    · obtain ⟨r, here, honest⟩ := here
      obtain ⟨i, x, there⟩ := found k r here honest
      refine ⟨i, fun q again _ => ?_⟩
      rw [here] at again
      cases again
      exact ⟨x, there⟩
    · exact ⟨0, fun r found honest => absurd ⟨r, found, honest⟩ here⟩
  choose session picks using chosen
  refine ⟨session, ?_, ?_⟩
  · intro k r here honest
    obtain ⟨x, there, same⟩ := picks k r here honest
    obtain ⟨device, key⟩ := recorded.opened x (List.mem_of_getElem? there)
    rw [same] at device key
    exact ⟨x, there, same, device.symm, key.symm⟩
  · rintro k ⟨r, here, honest⟩ l ⟨q, there, honest'⟩ same
    obtain ⟨x, opened, helloR⟩ := picks k r here honest
    obtain ⟨z, opened', helloQ⟩ := picks l q there honest'
    rw [same, opened'] at opened
    cases opened
    have equal : r.opening.signingBytes = q.opening.signingBytes := by rw [← helloR, helloQ]
    obtain ⟨boundR, rfl⟩ := List.getElem?_eq_some_iff.mp here
    obtain ⟨boundQ, rfl⟩ := List.getElem?_eq_some_iff.mp there
    rcases lt_trichotomy k l with less | rfl | less
    · exact absurd equal (List.pairwise_iff_getElem.mp once.apart k l boundR boundQ less)
    · rfl
    · exact absurd equal.symm (List.pairwise_iff_getElem.mp once.apart l k boundQ boundR less)

end Agreement

section Attacked

def sampleParty (device : DeviceId) (key : Hash) : SessionCtx where
  identity := ⟨key⟩
  device_id := device
  trust := ⟨true⟩

def sampleParties : Bool → SessionCtx
  | false => sampleParty 5 (Fin.ofNat _ (3 * 256 ^ 31))
  | true => sampleParty 7 (Fin.ofNat _ (4 * 256 ^ 31))

def sampleNetwork : Network Bool :=
  .idle fun node => booted signEnv (CoreState.new (sampleParties node).device_id)

def sampleSession : OpenedSession Bool :=
  ⟨false, openingHello signEnv sampleParties false ["ops", "blobs"] 0 6⟩

/-- A Hello of the attacker, under its own device id and key, with the initiator's nonce. -/
def relayedHello : Hello := makeHello signEnv ⟨99⟩ 9 ["ops", "blobs"] buildInfo 0 6

def sampleAck : HelloAck :=
  makeHelloAck signEnv (sampleParties true).identity 7 true none ["ops", "blobs"] 6

def openedNetwork : Network Bool :=
  NetAct.run signEnv sampleParties sampleNetwork (.opens false ["ops", "blobs"] 0 6)

private theorem opened_run {Ok : Network Bool → NetAct Bool → Prop}
    (met : Ok sampleNetwork (.opens false ["ops", "blobs"] 0 6)) :
    NetRun signEnv sampleParties Ok openedNetwork :=
  .step (.idle _) ⟨fun _ here => (by cases here), fun _ here => (by cases here)⟩ met

private theorem signed_verifies (key : Hash) (bytes : Bytes) :
    verifySig signEnv key bytes (signatureOf key bytes) = .ok () := by
  refine verifySig_eq_ok.mpr ⟨?_, rfl, ?_⟩
  · rw [signatureOf, List.length_append, be256, be256, beBytes_length, beBytes_length]
  · simp [signEnv]

private theorem sample_stranger (node : Bool) (device : DeviceId) :
    (sampleNetwork.core node).peer_keys[device]? = none := by
  have blank : (booted signEnv (CoreState.new (sampleParties node).device_id)).peer_keys = ∅ := by
    obtain ⟨_, _, _, _, _, _, _, -, same⟩ :=
      (booted_spec signEnv (blank_new (sampleParties node).device_id)).records
    rw [same]
    rfl
  have same : (sampleNetwork.core node).peer_keys = ∅ := blank
  rw [same, Std.ExtTreeMap.getElem?_empty]

private theorem opens_sample (core : CoreState) {h : Hello} (unsigned_hello : Hello)
    (signs : h = { unsigned_hello with
      sig := signatureOf unsigned_hello.pubkey_ed25519 unsigned_hello.signingBytes })
    (welcome : Welcome ⟨true⟩ core h.device_id h.pubkey_ed25519) :
    Introduces signEnv (sampleParties true) core (envelope 1 none (.hello h)) h := by
  refine ⟨rfl, rfl, ?_, welcome⟩
  rw [signs]
  exact signed_verifies _ _

private theorem opens_opening (core : CoreState)
    (welcome : Welcome ⟨true⟩ core 5 sampleSession.hello.pubkey_ed25519) :
    Introduces signEnv (sampleParties true) core (envelope 1 none (.hello sampleSession.hello))
      sampleSession.hello :=
  opens_sample core { sampleSession.hello with sig := [] } rfl welcome

private theorem opening_unforged {net : Network Bool}
    (signed : helloSignature sampleSession ∈ net.signed) :
    NetAct.Possible signEnv sampleParties net
      (.serves true (envelope 1 none (.hello sampleSession.hello))) := by
  intro h payload _ _
  cases payload
  exact ⟨_, signed, rfl, rfl, rfl⟩

def servedNetwork : Network Bool :=
  NetAct.run signEnv sampleParties openedNetwork
    (.serves true (envelope 1 none (.hello sampleSession.hello)))

private theorem servedNetwork_eq : ∃ core, servedNetwork = { openedNetwork with
    core := Function.update sampleNetwork.core true core
    signed := [ackSignature true sampleAck, helloSignature sampleSession]
    served := [⟨true, sampleSession.hello, sampleAck⟩] } ∧
    core.peer_keys[(5 : DeviceId)]? = some sampleSession.hello.pubkey_ed25519 := by
  have opens := opens_opening (openedNetwork.core true)
    (.inr ⟨sample_stranger true 5, rfl⟩)
  obtain ⟨core, ack, rfl, pinned, run⟩ := serves_of_opens opens
  exact ⟨core, run, pinned⟩

private theorem sampleSession_device : 2 ≤ sampleSession.hello.device_id.val := by decide

theorem responder_agrees_sample :
    ResponderAgrees signEnv sampleParties servedNetwork ∧ servedNetwork.served.length = 1 := by
  refine ⟨responder_agrees ((opened_run trivial).step ?_ ?_), ?_⟩
  · exact opening_unforged (.head _)
  · intro h opens
    cases opens.payload
    exact ⟨notAck_hello sampleSession_device, fun r here => by cases here⟩
  · obtain ⟨core, same, -⟩ := servedNetwork_eq
    rw [same]
    rfl

/-- The responder serves a recorded Hello again: two sessions, and the holder of the key opened
one. -/
theorem recorded_hello_served_again :
    NetRun signEnv sampleParties (fun _ _ => True)
        (NetAct.run signEnv sampleParties servedNetwork
          (.serves true (envelope 1 none (.hello sampleSession.hello)))) ∧
      ¬ResponderAgrees signEnv sampleParties
        (NetAct.run signEnv sampleParties servedNetwork
          (.serves true (envelope 1 none (.hello sampleSession.hello)))) := by
  have first : NetRun signEnv sampleParties (fun _ _ => True) servedNetwork :=
    (opened_run trivial).step (opening_unforged (.head _)) trivial
  obtain ⟨core, same, pinned⟩ := servedNetwork_eq
  have signed : helloSignature sampleSession ∈ servedNetwork.signed := by
    rw [same]
    exact .tail _ (.head _)
  refine ⟨first.step (opening_unforged signed) trivial, ?_⟩
  have opens := opens_opening (servedNetwork.core true) (.inl (by rw [same]; exact pinned))
  obtain ⟨later, ack, -, -, run⟩ := serves_of_opens opens
  rw [run, same]
  rintro ⟨session, answered, injective⟩
  have honest : ∃ node, nodeKey signEnv sampleParties node = sampleSession.hello.pubkey_ed25519 :=
    ⟨false, rfl⟩
  have only : ∀ k (r : ServedSession Bool), r.opening = sampleSession.hello →
      (⟨true, sampleSession.hello, ack⟩ :: [⟨true, sampleSession.hello, sampleAck⟩] :
        List (ServedSession Bool))[k]? = some r → session k = 0 := by
    intro k r hello here
    obtain ⟨x, there, -⟩ := answered k r here (hello ▸ honest)
    obtain ⟨bound, -⟩ := List.getElem?_eq_some_iff.mp there
    exact Nat.lt_one_iff.mp bound
  have zero := only 0 _ rfl rfl
  have one := only 1 _ rfl rfl
  have equal := injective ⟨_, rfl, honest⟩ ⟨_, rfl, honest⟩ (zero.trans one.symm)
  cases equal

def relayedNetwork : Network Bool :=
  NetAct.run signEnv sampleParties openedNetwork
    (.serves true (envelope 1 none (.hello relayedHello)))

private theorem relayedNetwork_eq : ∃ core, relayedNetwork = { openedNetwork with
    core := Function.update sampleNetwork.core true core
    signed := [ackSignature true sampleAck, helloSignature sampleSession]
    served := [⟨true, relayedHello, sampleAck⟩] } := by
  have opens := opens_sample (openedNetwork.core true) { relayedHello with sig := [] } rfl
    (.inr ⟨sample_stranger true 9, rfl⟩)
  obtain ⟨core, ack, rfl, -, run⟩ := serves_of_opens opens
  exact ⟨core, run⟩

private theorem answered_sample (net : Network Bool) (waiting : sampleSession ∈ net.waiting)
    (signed : ackSignature true sampleAck ∈ net.signed)
    (core : net.core false = sampleNetwork.core false) :
    NetAct.Possible signEnv sampleParties net (.concludes sampleSession (.helloAck sampleAck)) ∧
      ∃ x ∈ (NetAct.run signEnv sampleParties net
        (.concludes sampleSession (.helloAck sampleAck))).accepted,
        x.node = false ∧ x.ack = sampleAck := by
  refine ⟨⟨waiting, fun a payload _ _ => ?_⟩, ?_⟩
  · cases payload
    exact ⟨_, signed, rfl, rfl, rfl⟩
  · have answers : Answers signEnv (sampleParties false) (net.core false) sampleSession.hello.nonce
        (.helloAck sampleAck) sampleAck :=
      ⟨rfl, rfl, signed_verifies _ _, rfl, .inr ⟨core ▸ sample_stranger false 7, rfl⟩⟩
    obtain ⟨later, accepted, run, -, taken⟩ :=
      @concludes_run _ _ signEnv sampleParties net sampleSession (.helloAck sampleAck)
    rw [run]
    exact ⟨_, List.mem_append_left _ (taken _ answers), rfl, rfl⟩

theorem initiator_agrees_sample :
    InitiatorAgrees signEnv sampleParties (NetAct.run signEnv sampleParties servedNetwork
        (.concludes sampleSession (.helloAck sampleAck))) ∧
      ∃ x ∈ (NetAct.run signEnv sampleParties servedNetwork
        (.concludes sampleSession (.helloAck sampleAck))).accepted,
        x.node = false ∧ x.ack = sampleAck := by
  obtain ⟨core, same, -⟩ := servedNetwork_eq
  obtain ⟨possible, taken⟩ := answered_sample servedNetwork (by rw [same]; exact .head _)
    (by rw [same]; exact .head _) (by rw [same]; rfl)
  refine ⟨initiator_agrees (((opened_run trivial).step ?_ ?_).step possible ?_), taken⟩
  · exact opening_unforged (.head _)
  · intro h opens x member _
    cases opens.payload
    obtain rfl := List.mem_singleton.mp member
    exact ⟨rfl, rfl⟩
  · intro a payload
    cases payload
    exact (notAck_hello sampleSession_device sampleAck).symm

/-- The attacker opens a session of its own with the initiator's nonce and relays the
acknowledgment: the initiator accepts a reply that was made for another device. -/
theorem acknowledgment_of_another_hello :
    NetRun signEnv sampleParties (fun _ _ => True) (NetAct.run signEnv sampleParties relayedNetwork
        (.concludes sampleSession (.helloAck sampleAck))) ∧
      ¬InitiatorAgrees signEnv sampleParties (NetAct.run signEnv sampleParties relayedNetwork
        (.concludes sampleSession (.helloAck sampleAck))) := by
  obtain ⟨core, same⟩ := relayedNetwork_eq
  obtain ⟨possible, x, taken, initiator, named⟩ := answered_sample relayedNetwork
    (by rw [same]; exact .head _) (by rw [same]; exact .head _) (by rw [same]; rfl)
  have relayed : NetAct.Possible signEnv sampleParties openedNetwork
      (.serves true (envelope 1 none (.hello relayedHello))) := by
    rintro h payload ⟨node, honest⟩ _
    cases payload
    cases node <;> revert honest <;> decide
  refine ⟨((opened_run trivial).step relayed trivial).step possible trivial, fun agrees => ?_⟩
  obtain ⟨r, served, -, -, -, device, -⟩ := agrees x taken true (by rw [named]; rfl)
    (by rw [named]; rfl)
  have only : r ∈ relayedNetwork.served := served
  rw [same] at only
  obtain rfl := List.mem_singleton.mp only
  rw [initiator] at device
  revert device
  decide

end Attacked

end NexusFS.Net
