/- GID: NexusFS/Net/Message
   source: crates/proto/src/msg.rs, crates/proto/src/types.rs, crates/proto/src/op.rs,
     crates/net/src/codec.rs
   digest: The messages on the wire, byte for byte: postcard envelopes behind a length prefix. -/

import NexusFS.Core.Postcard

/-!
Postcard writes the fields of a structure in order, integers as varints, arrays of
bytes bare, sequences and text behind their length, options behind a tag byte, and an
enumeration as the index of its variant.
-/

set_option autoImplicit false
set_option relaxedAutoImplicit false

namespace NexusFS.Net

open NexusFS.Lib NexusFS.Proto NexusFS.Core

/-- `u16`. -/
abbrev U16 := Fin (2 ^ 16)

instance neZero_u16 : NeZero (2 ^ 16) := ⟨by decide⟩

structure BuildInfo where
  version : String
  git_hash : Option String
  deriving DecidableEq

structure SignedHead where
  head_hash : Hash
  device_id : DeviceId
  time_unix_ms : U64
  sig : Bytes
  deriving DecidableEq

/-- The fields of `Msg::Hello`. -/
structure Hello where
  device_id : DeviceId
  pubkey_ed25519 : Hash
  features : List String
  build : BuildInfo
  time_unix_ms : U64
  nonce : Hash
  sig : Bytes
  deriving DecidableEq

/-- The fields of `Msg::HelloAck`. -/
structure HelloAck where
  accepted : Bool
  reason : Option String
  features : List String
  peer_device : DeviceId
  peer_pubkey : Hash
  nonce : Hash
  sig : Bytes
  deriving DecidableEq

structure OpRange where
  device_id : DeviceId
  start : U64
  end_ : U64
  deriving DecidableEq

/-- The temperature as its zigzag word, and the floats as the words that their four bytes are. -/
structure TelemetryMsg where
  battery_pct : Option UInt8
  charging : Bool
  temp_c : Option U16
  cpu_load : U32
  link_cost : U32
  storage_free_bytes : U64
  time_unix_ms : U64
  deriving DecidableEq

/-- `Msg`: what an envelope carries. -/
inductive WireMsg where
  | hello (hello : Hello)
  | helloAck (ack : HelloAck)
  | have_ (summary : ClockSummary) (head : Option SignedHead)
  | wantOps (ranges : List OpRange) (limit_ops : U32)
  | opsBatch (ops : List FsOp) (more : Bool)
  | wantBlobs (hashes : List Hash) (max_bytes : U64)
  | blobsBatch (blobs : List (Hash × Bytes)) (more : Bool)
  | snapshotAnnounce (signed_head : SignedHead)
  | telemetry (telemetry : TelemetryMsg)
  | ping
  | pong
  | bye
  | error (code : U16) (message : String) (retry_after_ms : Option U64)
  | notify (summary : ClockSummary)
  | noted (behind : Bool)
  deriving DecidableEq

structure MessageEnvelope where
  protocol_version : U16
  msg_id : U64
  reply_to : Option U64
  payload : WireMsg
  deriving DecidableEq

namespace Wire

open Codec Postcard

def u16 : Codec U16 := .word (2 ^ 16)

def clockSummary : Codec ClockSummary :=
  ((u128.pair u64).list.pair (u128.pair u64.list).list).cover (fun p => ⟨p.1, p.2⟩)
    (fun c => (c.entries, c.above)) fun _ => rfl

def buildInfo : Codec BuildInfo :=
  (utf8.pair utf8.option).cover (fun p => ⟨p.1, p.2⟩) (fun b => (b.version, b.git_hash))
    fun _ => rfl

def signedHead : Codec SignedHead :=
  (digest.pair (u128.pair (u64.pair Postcard.bytes))).cover
    (fun p => ⟨p.1, p.2.1, p.2.2.1, p.2.2.2⟩)
    (fun h => (h.head_hash, h.device_id, h.time_unix_ms, h.sig)) fun _ => rfl

def helloToSign : Codec (DeviceId × Hash × List String × BuildInfo × U64 × Hash) :=
  u128.pair (digest.pair (utf8.list.pair (buildInfo.pair (u64.pair digest))))

def ackToSign : Codec (Bool × Option String × List String × DeviceId × Hash × Hash) :=
  Codec.bool.pair (utf8.option.pair (utf8.list.pair (u128.pair (digest.pair digest))))

def hello : Codec Hello :=
  (helloToSign.pair Postcard.bytes).cover
    (fun p => ⟨p.1.1, p.1.2.1, p.1.2.2.1, p.1.2.2.2.1, p.1.2.2.2.2.1, p.1.2.2.2.2.2, p.2⟩)
    (fun h => ((h.device_id, h.pubkey_ed25519, h.features, h.build, h.time_unix_ms, h.nonce), h.sig))
    fun _ => rfl

def helloAck : Codec HelloAck :=
  (ackToSign.pair Postcard.bytes).cover
    (fun p => ⟨p.1.1, p.1.2.1, p.1.2.2.1, p.1.2.2.2.1, p.1.2.2.2.2.1, p.1.2.2.2.2.2, p.2⟩)
    (fun a => ((a.accepted, a.reason, a.features, a.peer_device, a.peer_pubkey, a.nonce), a.sig))
    fun _ => rfl

def opRange : Codec OpRange :=
  (u128.pair (u64.pair u64)).cover (fun p => ⟨p.1, p.2.1, p.2.2⟩)
    (fun r => (r.device_id, r.start, r.end_)) fun _ => rfl

def float : Codec U32 := .array 4 (2 ^ 32) (by norm_num)

def telemetry : Codec TelemetryMsg :=
  (Codec.byte.option.pair (Codec.bool.pair (u16.option.pair (float.pair (float.pair
    (u64.pair u64)))))).cover
    (fun p => ⟨p.1, p.2.1, p.2.2.1, p.2.2.2.1, p.2.2.2.2.1, p.2.2.2.2.2.1, p.2.2.2.2.2.2⟩)
    (fun t => (t.battery_pct, t.charging, t.temp_c, t.cpu_load, t.link_cost, t.storage_free_bytes,
      t.time_unix_ms))
    fun _ => rfl

def have_ : Codec (ClockSummary × Option SignedHead) := clockSummary.pair signedHead.option

def wantOps : Codec (List OpRange × U32) := opRange.list.pair u32

def opsBatch : Codec (List FsOp × Bool) := Postcard.op.list.pair .bool

def wantBlobs : Codec (List Hash × U64) := digest.list.pair u64

def blob : Codec (Hash × Bytes) := digest.pair Postcard.bytes

def blobsBatch : Codec (List (Hash × Bytes) × Bool) := blob.list.pair .bool

def error : Codec (U16 × String × Option U64) := u16.pair (utf8.pair u64.option)

def msg : Codec WireMsg where
  encode
    | .hello h => 0 :: hello.encode h
    | .helloAck a => 1 :: helloAck.encode a
    | .have_ summary head => 2 :: have_.encode (summary, head)
    | .wantOps ranges limit_ops => 3 :: wantOps.encode (ranges, limit_ops)
    | .opsBatch ops more => 4 :: opsBatch.encode (ops, more)
    | .wantBlobs hashes max_bytes => 5 :: wantBlobs.encode (hashes, max_bytes)
    | .blobsBatch blobs more => 6 :: blobsBatch.encode (blobs, more)
    | .snapshotAnnounce signed_head => 7 :: signedHead.encode signed_head
    | .telemetry t => 8 :: telemetry.encode t
    | .ping => [9]
    | .pong => [10]
    | .bye => [11]
    | .error code message retry_after_ms => 12 :: error.encode (code, message, retry_after_ms)
    | .notify summary => 13 :: clockSummary.encode summary
    | .noted behind => 14 :: Codec.bool.encode behind
  decode
    | [] => none
    | tag :: bytes =>
        if tag = 0 then (hello.decode bytes).map fun p => (.hello p.1, p.2)
        else if tag = 1 then (helloAck.decode bytes).map fun p => (.helloAck p.1, p.2)
        else if tag = 2 then (have_.decode bytes).map fun p => (.have_ p.1.1 p.1.2, p.2)
        else if tag = 3 then (wantOps.decode bytes).map fun p => (.wantOps p.1.1 p.1.2, p.2)
        else if tag = 4 then (opsBatch.decode bytes).map fun p => (.opsBatch p.1.1 p.1.2, p.2)
        else if tag = 5 then (wantBlobs.decode bytes).map fun p => (.wantBlobs p.1.1 p.1.2, p.2)
        else if tag = 6 then (blobsBatch.decode bytes).map fun p => (.blobsBatch p.1.1 p.1.2, p.2)
        else if tag = 7 then (signedHead.decode bytes).map fun p => (.snapshotAnnounce p.1, p.2)
        else if tag = 8 then (telemetry.decode bytes).map fun p => (.telemetry p.1, p.2)
        else if tag = 9 then some (.ping, bytes)
        else if tag = 10 then some (.pong, bytes)
        else if tag = 11 then some (.bye, bytes)
        else if tag = 12 then (error.decode bytes).map fun p => (.error p.1.1 p.1.2.1 p.1.2.2, p.2)
        else if tag = 13 then (clockSummary.decode bytes).map fun p => (.notify p.1, p.2)
        else if tag = 14 then (Codec.bool.decode bytes).map fun p => (.noted p.1, p.2)
        else none
  roundTrip := by
    intro msg rest
    cases msg with
    | hello => simp [hello.roundTrip]
    | helloAck => simp [helloAck.roundTrip]
    | have_ => simp [have_.roundTrip]
    | wantOps => simp [wantOps.roundTrip]
    | opsBatch => simp [opsBatch.roundTrip]
    | wantBlobs => simp [wantBlobs.roundTrip]
    | blobsBatch => simp [blobsBatch.roundTrip]
    | snapshotAnnounce => simp [signedHead.roundTrip]
    | telemetry => simp [telemetry.roundTrip]
    | ping | pong | bye => rfl
    | error => simp [error.roundTrip]
    | notify => simp [clockSummary.roundTrip]
    | noted => simp [Codec.bool.roundTrip]

def envelope : Codec MessageEnvelope :=
  (u16.pair (u64.pair (u64.option.pair msg))).cover (fun p => ⟨p.1, p.2.1, p.2.2.1, p.2.2.2⟩)
    (fun e => (e.protocol_version, e.msg_id, e.reply_to, e.payload)) fun _ => rfl

end Wire

def protocolVersion : U16 := 4

def maxFrameLen : Nat := 8 * 1024 * 1024

def envelope (msg_id : U64) (reply_to : Option U64) (payload : WireMsg) : MessageEnvelope :=
  ⟨protocolVersion, msg_id, reply_to, payload⟩

end NexusFS.Net
