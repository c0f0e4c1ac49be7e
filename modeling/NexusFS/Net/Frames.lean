/- GID: NexusFS/Net/Frames
   source: crates/net/src/session.rs, crates/net/src/codec.rs, crates/net/src/replication.rs
   digest: How long the frames are that honest nodes send each other, and when they are accepted. -/

import Mathlib.Order.Fin.Basic
import Mathlib.Algebra.Order.BigOperators.Group.List
import NexusFS.Net.Attribution
import NexusFS.Net.Handshake

set_option autoImplicit false
set_option relaxedAutoImplicit false

namespace NexusFS.Net

open NexusFS.Lib NexusFS.Lib.Effect NexusFS.Proto NexusFS.Core

def blobBatchBytes : U64 := 4 * 1024 * 1024

section Serve

def collectBlobs (s : CoreState) (limit : Nat) :
    List Hash → Nat → List (Hash × Bytes) → List (Hash × Bytes) × Bool
  | [], _, blobs => (blobs, false)
  | hash :: rest, bytes, blobs =>
      if limit ≤ bytes then (blobs, true)
      else
        match s.blobs[hash]? with
        | some data => collectBlobs s limit rest (bytes + data.length) (blobs ++ [(hash, data)])
        | none => collectBlobs s limit rest bytes blobs

/-- What `serve_session` answers a request with after the handshake. `debug` is the `Debug` text of
a message. -/
def serveRequest (debug : WireMsg → String) (s : CoreState) : WireMsg → Option WireMsg
  | .have_ summary _ =>
      let reply := serveHave s summary
      some (.opsBatch reply.1 reply.2)
  | .wantBlobs hashes max_bytes =>
      let reply := collectBlobs s (min max_bytes blobBatchBytes).val hashes 0 []
      some (.blobsBatch reply.1 reply.2)
  | .notify summary => some (.noted (isBehind s summary))
  | .ping => some .pong
  | .bye => none
  | other => some (.error 400 ("unexpected message: " ++ debug other) none)

/-- What an initiator sends after the handshake: a pull, a notification, or a fetch of `wanted`. -/
inductive Asks (s : CoreState) (wanted : List Hash) : WireMsg → Prop
  | have_ : Asks s wanted (.have_ (clockSummary s) none)
  | wants (max_bytes : U64) (budget : max_bytes ≤ blobBatchBytes) :
      Asks s wanted (.wantBlobs (missingChunkHashes s).toList max_bytes)
  | fetches (outstanding : List Hash) (rest : outstanding.Sublist wanted) :
      Asks s wanted (.wantBlobs outstanding blobBatchBytes)
  | notify : Asks s wanted (.notify (clockSummary s))
  | bye : Asks s wanted .bye

/-- What a node sends to an honest peer, in either role. The peer's requests are asked from the state
`theirs`, and `wanted` and `theirWanted` are the chunks that fetches ask for. -/
inductive Emits (env : Env) (ctx : SessionCtx) (mine theirs : CoreState)
    (wanted theirWanted : List Hash) : WireMsg → Prop
  | hello (features : List String) (known : features = ["ops", "blobs"] ∨ features = ["blobs"])
      (now_ms : U64) (nonce : Hash) : Emits env ctx mine theirs wanted theirWanted
        (.hello (makeHello env ctx.identity ctx.device_id features buildInfo now_ms nonce))
  | helloAck (opening : MessageEnvelope) (ack : HelloAck)
      (sent : (serveHandshake env ctx opening mine).sent = some ack) :
      Emits env ctx mine theirs wanted theirWanted (.helloAck ack)
  | asks (msg : WireMsg) (asks : Asks mine wanted msg) :
      Emits env ctx mine theirs wanted theirWanted msg
  | replies (debug : WireMsg → String) (request reply : WireMsg)
      (asked : Asks theirs theirWanted request) (served : serveRequest debug mine request = some reply) :
      Emits env ctx mine theirs wanted theirWanted reply

end Serve

section Sizes

open Codec

def textSize (s : String) : Nat := groups s.utf8ByteSize + s.utf8ByteSize

def bytesSize (b : Bytes) : Nat := groups b.length + b.length

def listSize {α : Type} (size : α → Nat) (l : List α) : Nat := groups l.length + (l.map size).sum

def optionSize {α : Type} (size : α → Nat) : Option α → Nat
  | none => 1
  | some a => 1 + size a

def opIdSize (id : OpId) : Nat := groups id.device_id.val + groups id.counter.val

def chunkSize (c : ChunkRef) : Nat :=
  32 + (groups c.len.val + (groups c.plain_len.val + groups c.offset.val))

def sealedKeySize (k : SealedFileKey) : Nat := 32 + (24 + bytesSize k.ciphertext)

def encryptionSize (e : FileEncryption) : Nat :=
  optionSize bytesSize e.sealed_key + (listSize sealedKeySize e.recipients +
    optionSize (fun _ => 32) e.recipients_digest)

def wordSize {n : Nat} (x : Fin n) : Nat := groups x.val

def kindSize : FsOpKind → Nat
  | .createFile parent name mode => 1 + (wordSize parent + (textSize name + wordSize mode))
  | .mkdir parent name mode => 1 + (wordSize parent + (textSize name + wordSize mode))
  | .write inode offset chunks new_size encryption =>
      1 + (wordSize inode + (wordSize offset + (listSize chunkSize chunks + (wordSize new_size +
        optionSize encryptionSize encryption))))
  | .rename old_parent old_name new_parent new_name observed =>
      1 + (wordSize old_parent + (textSize old_name + (wordSize new_parent + (textSize new_name +
        listSize opIdSize observed))))
  | .unlink parent name observed =>
      1 + (wordSize parent + (textSize name + listSize opIdSize observed))
  | .setAttr inode mode uid gid =>
      1 + (wordSize inode + (optionSize wordSize mode + (optionSize wordSize uid +
        optionSize wordSize gid)))

def opSize (op : FsOp) : Nat :=
  opIdSize op.id + (wordSize op.time_unix_ms + (listSize opIdSize op.ctx.deps + (kindSize op.kind +
    (32 + (bytesSize op.sig + optionSize (fun bundle => 1 + bytesSize bundle.bytes) op.proof)))))

def summarySize (c : ClockSummary) : Nat :=
  listSize (fun e : DeviceId × U64 => wordSize e.1 + wordSize e.2) c.entries +
    listSize (fun e : DeviceId × List U64 => wordSize e.1 + listSize wordSize e.2) c.above

def helloSize (h : Hello) : Nat :=
  wordSize h.device_id + (32 + (listSize textSize h.features +
    ((textSize h.build.version + optionSize textSize h.build.git_hash) +
      (wordSize h.time_unix_ms + 32)))) + bytesSize h.sig

def helloAckSize (a : HelloAck) : Nat :=
  1 + (optionSize textSize a.reason + (listSize textSize a.features +
    (wordSize a.peer_device + (32 + 32)))) + bytesSize a.sig

def headSize (h : SignedHead) : Nat :=
  32 + (wordSize h.device_id + (wordSize h.time_unix_ms + bytesSize h.sig))

def blobSize (blob : Hash × Bytes) : Nat := 32 + bytesSize blob.2

def rangeSize (r : OpRange) : Nat := wordSize r.device_id + (wordSize r.start + wordSize r.end_)

def telemetrySize (t : TelemetryMsg) : Nat :=
  optionSize (fun _ => 1) t.battery_pct + (1 + (optionSize wordSize t.temp_c + (4 + (4 +
    (wordSize t.storage_free_bytes + wordSize t.time_unix_ms)))))

/-- The length of a message on the wire: words take a byte for every seven bits, arrays their own
length, and sequences, text and options what counts them and what they hold. -/
def msgSize : WireMsg → Nat
  | .hello hello => 1 + helloSize hello
  | .helloAck ack => 1 + helloAckSize ack
  | .have_ summary head => 1 + (summarySize summary + optionSize headSize head)
  | .wantOps ranges limit_ops => 1 + (listSize rangeSize ranges + wordSize limit_ops)
  | .opsBatch ops _ => 1 + (listSize opSize ops + 1)
  | .wantBlobs hashes max_bytes => 1 + (groups hashes.length + 32 * hashes.length + wordSize max_bytes)
  | .blobsBatch blobs _ => 1 + (listSize blobSize blobs + 1)
  | .snapshotAnnounce signed_head => 1 + headSize signed_head
  | .telemetry telemetry => 1 + telemetrySize telemetry
  | .ping | .pong | .bye => 1
  | .error code message retry_after_ms =>
      1 + (wordSize code + (textSize message + optionSize wordSize retry_after_ms))
  | .notify summary => 1 + summarySize summary
  | .noted _ => 2

def envelopeSize (e : MessageEnvelope) : Nat :=
  wordSize e.protocol_version + (wordSize e.msg_id + (optionSize wordSize e.reply_to +
    msgSize e.payload))

def Sized (wire : Codec MessageEnvelope) : Prop := ∀ e, (wire.encode e).length = envelopeSize e

def prefixSize (msg_id : U64) (reply_to : Option U64) : Nat :=
  1 + wordSize msg_id + optionSize wordSize reply_to

private theorem optionCodec_length {α : Type} (c : Codec α) (o : Option α) :
    (c.option.encode o).length = optionSize (fun a => (c.encode a).length) o := by
  rw [option_length]
  cases o <;> rfl

private theorem codecList_length {α : Type} (c : Codec α) (l : List α) :
    (c.list.encode l).length = listSize (fun a => (c.encode a).length) l := list_length c l

private theorem bytes_length (b : Bytes) : (Postcard.bytes.encode b).length = bytesSize b := by
  have each : (b.map fun x => (Codec.byte.encode x).length).sum = b.length := by simp
  exact (list_length .byte b).trans (congrArg (groups b.length + ·) each)

private theorem text_length (s : String) : (utf8.encode s).length = textSize s := utf8_length s

private theorem digest_length (h : Hash) : (Postcard.digest.encode h).length = 32 :=
  beBytes_length 32 h.val

private theorem nonce_length (n : Nonce) : (Postcard.nonce.encode n).length = 24 :=
  beBytes_length 24 n.val

private theorem float_length (f : U32) : (Wire.float.encode f).length = 4 := beBytes_length 4 f.val

private theorem u16_length (x : U16) : (Wire.u16.encode x).length = wordSize x := word_length _ x

private theorem u32_length (x : U32) : (Postcard.u32.encode x).length = wordSize x := word_length _ x

private theorem u64_length (x : U64) : (Postcard.u64.encode x).length = wordSize x := word_length _ x

private theorem u128_length (x : U128) : (Postcard.u128.encode x).length = wordSize x := word_length _ x

private theorem opId_length (id : OpId) : (Postcard.opId.encode id).length = opIdSize id := by
  simp only [Postcard.opId, cover_encode, pair_length, u128_length, u64_length, opIdSize, wordSize]

private theorem chunk_length (c : ChunkRef) : (Postcard.chunkRef.encode c).length = chunkSize c := by
  simp only [Postcard.chunkRef, cover_encode, pair_length, digest_length, u32_length, u64_length,
    chunkSize, wordSize]

private theorem sealedKey_length (k : SealedFileKey) :
    (Postcard.sealedFileKey.encode k).length = sealedKeySize k := by
  simp only [Postcard.sealedFileKey, cover_encode, pair_length, digest_length, nonce_length,
    bytes_length, sealedKeySize]

private theorem encryption_length (e : FileEncryption) :
    (Postcard.fileEncryption.encode e).length = encryptionSize e := by
  simp only [Postcard.fileEncryption, cover_encode, pair_length, optionCodec_length, codecList_length,
    bytes_length, sealedKey_length, digest_length, encryptionSize]

private theorem kind_length (kind : FsOpKind) : (Postcard.kind.encode kind).length = kindSize kind := by
  cases kind <;>
    simp only [Postcard.kind, List.length_cons, Postcard.entryFields, Postcard.writeFields,
      Postcard.renameFields, Postcard.unlinkFields, Postcard.attrFields, pair_length, u32_length,
      u64_length, u128_length, text_length, codecList_length, optionCodec_length, chunk_length,
      opId_length, encryption_length, kindSize] <;>
    exact Nat.add_comm _ _

private theorem bundle_length (b : ProofBundle) :
    (Postcard.bundle.encode b).length = 1 + bytesSize b.bytes := by
  have mode : (Postcard.proofMode.encode b.mode).length = 1 := by cases b.mode <;> rfl
  simp only [Postcard.bundle, cover_encode, pair_length, mode, bytes_length]

private theorem op_length (op : FsOp) : (Postcard.op.encode op).length = opSize op := by
  simp only [Postcard.op, cover_encode, pair_length, opId_length, u64_length, codecList_length,
    kind_length, digest_length, bytes_length, optionCodec_length, bundle_length, opSize]

private theorem summary_length (c : ClockSummary) :
    (Wire.clockSummary.encode c).length = summarySize c := by
  simp only [Wire.clockSummary, cover_encode, pair_length, codecList_length, u64_length, u128_length,
    summarySize]

private theorem hello_length (h : Hello) : (Wire.hello.encode h).length = helloSize h := by
  simp only [Wire.hello, Wire.helloToSign, Wire.buildInfo, cover_encode, pair_length, digest_length,
    codecList_length, optionCodec_length, text_length, u64_length, u128_length, bytes_length, helloSize]

private theorem helloAck_length (a : HelloAck) : (Wire.helloAck.encode a).length = helloAckSize a := by
  simp only [Wire.helloAck, Wire.ackToSign, cover_encode, pair_length, bool_length, optionCodec_length,
    codecList_length, text_length, u128_length, digest_length, bytes_length, helloAckSize]

private theorem head_length (h : SignedHead) : (Wire.signedHead.encode h).length = headSize h := by
  simp only [Wire.signedHead, cover_encode, pair_length, digest_length, u64_length, u128_length,
    bytes_length, headSize]

private theorem range_length (r : OpRange) : (Wire.opRange.encode r).length = rangeSize r := by
  simp only [Wire.opRange, cover_encode, pair_length, u64_length, u128_length, rangeSize]

private theorem telemetry_length (t : TelemetryMsg) :
    (Wire.telemetry.encode t).length = telemetrySize t := by
  simp only [Wire.telemetry, cover_encode, pair_length, optionCodec_length, byte_length, bool_length,
    u16_length, float_length, u64_length, telemetrySize]

private theorem blob_length (blob : Hash × Bytes) : (Wire.blob.encode blob).length = blobSize blob := by
  rw [Wire.blob, pair_length, digest_length, bytes_length, blobSize]

private theorem digests_size (l : List Hash) :
    listSize (fun _ => 32) l = groups l.length + 32 * l.length := by
  rw [listSize, List.map_const', List.sum_replicate_nat, Nat.mul_comm]

private theorem msg_length (msg : WireMsg) : (Wire.msg.encode msg).length = msgSize msg := by
  cases msg <;>
    simp only [Wire.msg, Wire.have_, Wire.wantOps, Wire.opsBatch, Wire.wantBlobs, Wire.blobsBatch,
      Wire.error, List.length_cons, List.length_nil, codecList_length, blob_length, pair_length,
      hello_length, helloAck_length, summary_length, head_length, range_length, telemetry_length,
      op_length, digest_length, digests_size, text_length, bool_length, u16_length, u32_length,
      u64_length, optionCodec_length, msgSize, Nat.add_comm]

theorem envelope_sized : Sized Wire.envelope := by
  intro e
  simp only [Wire.envelope, cover_encode, pair_length, u16_length, u64_length, optionCodec_length,
    msg_length, envelopeSize]

private theorem envelopeSize_eq (msg_id : U64) (reply_to : Option U64) (msg : WireMsg) :
    envelopeSize (envelope msg_id reply_to msg) = prefixSize msg_id reply_to + msgSize msg := by
  have version : wordSize protocolVersion = 1 := by decide
  simp only [envelopeSize, envelope, version, prefixSize, Nat.add_assoc]

end Sizes

section Batches

variable {s : CoreState}

def heldBlobs (s : CoreState) (hashes : List Hash) : List (Hash × Bytes) :=
  hashes.filterMap fun hash => s.blobs[hash]?.map fun data => (hash, data)

def reaching : Nat → List (Hash × Bytes) → List (Hash × Bytes)
  | _, [] => []
  | left, blob :: rest => if left = 0 then [] else blob :: reaching (left - blob.2.length) rest

private theorem collectBlobs_blobs (limit : Nat) (hashes : List Hash) (bytes : Nat)
    (blobs : List (Hash × Bytes)) : (collectBlobs s limit hashes bytes blobs).1 =
      blobs ++ reaching (limit - bytes) (heldBlobs s hashes) := by
  have held : ∀ hash rest, heldBlobs s (hash :: rest) =
      (s.blobs[hash]?.map fun data => (hash, data)).toList ++ heldBlobs s rest := by
    intro hash rest
    unfold heldBlobs
    cases here : s.blobs[hash]? with
    | none => rw [List.filterMap_cons_none (by rw [here]; rfl)]; rfl
    | some data => rw [List.filterMap_cons_some (by rw [here]; rfl)]; rfl
  induction hashes generalizing bytes blobs with
  | nil => exact (List.append_nil blobs).symm
  | cons hash rest ih =>
      unfold collectBlobs
      rw [held]
      split
      · rename_i spent
        have none_left : limit - bytes = 0 := Nat.sub_eq_zero_of_le spent
        rw [none_left]
        cases (s.blobs[hash]?.map fun data => (hash, data)).toList ++ heldBlobs s rest <;>
          simp [reaching]
      · rename_i room
        cases here : s.blobs[hash]? with
        | none => exact ih bytes blobs
        | some data =>
            have left : limit - bytes ≠ 0 := by omega
            dsimp only [Option.map_some, Option.toList_some, List.cons_append, List.nil_append]
            rw [ih, reaching, if_neg left, Nat.sub_sub, List.append_assoc]
            rfl

private theorem reaching_initial {less more : Nat} (le : less ≤ more) (l : List (Hash × Bytes)) :
    reaching less l <+: reaching more l := by
  induction l generalizing less more with
  | nil => exact List.prefix_rfl
  | cons blob rest ih =>
      unfold reaching
      split
      · exact List.nil_prefix
      · rename_i left
        rw [if_neg (by omega)]
        exact (List.prefix_cons_inj blob).mpr (ih (by omega))

private theorem listSize_initial {α : Type} (size : α → Nat) {l m : List α} (le : l <+: m) :
    listSize size l ≤ listSize size m := by
  obtain ⟨rest, rfl⟩ := le
  have count : Codec.groups l.length ≤ Codec.groups (l ++ rest).length :=
    Codec.groups_mono (by rw [List.length_append]; omega)
  unfold listSize
  rw [List.map_append, List.sum_append]
  omega

end Batches

section Accepted

variable {env : Env} {ctx : SessionCtx} {mine theirs : CoreState} {wanted theirWanted : List Hash}
  {wire : Codec MessageEnvelope}

/-- A frame that `recv_msg` accepts, with a length that fits its prefix. -/
def Framed (wire : Codec MessageEnvelope) (e : MessageEnvelope) : Prop :=
  (wire.encode e).length ≤ maxFrameLen ∧ (wire.encode e).length < 2 ^ 32

theorem framed_iff (sizes : Sized wire) (msg_id : U64) (reply_to : Option U64) (msg : WireMsg) :
    Framed wire (envelope msg_id reply_to msg) ↔
      prefixSize msg_id reply_to + msgSize msg ≤ maxFrameLen := by
  unfold Framed
  rw [sizes, envelopeSize_eq]
  refine ⟨And.left, fun short => ⟨short, lt_of_le_of_lt short (by decide)⟩⟩

/-- The bounds under which every frame is accepted, after an envelope prefix of `before` bytes: on
the clock summary, on the number of chunks asked for, on the sizes of the first operations that the
peer lacks, and on the lengths of the requested blobs up to the one that reaches the batch limit. -/
structure FramesFit (before : Nat) (mine theirs : CoreState) (wanted theirWanted : List Hash) :
    Prop where
  summary : before + 2 + summarySize (clockSummary mine) ≤ maxFrameLen
  missing : before + 5 + (Codec.groups (missingChunkHashes mine).toList.length +
    32 * (missingChunkHashes mine).toList.length) ≤ maxFrameLen
  fetched : before + 5 + (Codec.groups wanted.length + 32 * wanted.length) ≤ maxFrameLen
  ops : before + 2 + listSize opSize ((uncovered mine (clockSummary theirs)).take opsBatch) ≤
    maxFrameLen
  blobs : ∀ hashes, hashes = (missingChunkHashes theirs).toList ∨ hashes.Sublist theirWanted →
    before + 2 + listSize blobSize (reaching blobBatchBytes.val (heldBlobs mine hashes)) ≤
      maxFrameLen

private theorem wordSize_le {n : Nat} (x : Fin n) (k : Nat) (bound : n ≤ 2 ^ (7 * k)) (pos : 0 < k) :
    wordSize x ≤ k := Codec.groups_le (lt_of_lt_of_le x.isLt bound) pos

private theorem prefixSize_le (msg_id : U64) (reply_to : Option U64) :
    prefixSize msg_id reply_to ≤ 22 := by
  have id := wordSize_le msg_id 10 (by decide) (by decide)
  unfold prefixSize
  cases reply_to with
  | none =>
      simp only [optionSize]
      omega
  | some request =>
      have answered := wordSize_le request 10 (by decide) (by decide)
      simp only [optionSize]
      omega

private theorem textSize_le {s : String} {bound : Nat} (short : s.utf8ByteSize ≤ bound) :
    textSize s ≤ 2 * bound + 1 := by
  have few : s.utf8ByteSize.log2 ≤ s.utf8ByteSize := Nat.log2_le_self _
  unfold textSize Codec.groups
  omega

private theorem ofList_size (l : List Char) : (String.ofList l).utf8ByteSize ≤ 4 * l.length := by
  induction l with
  | nil => simp
  | cons c l ih =>
      have wide := c.utf8Size_le_four
      rw [← List.singleton_append, String.ofList_append, String.utf8ByteSize_append]
      have head : (String.ofList [c]).utf8ByteSize = c.utf8Size := String.utf8ByteSize_singleton
      rw [head, List.length_append, List.length_singleton]
      omega

private theorem hexDevice_size (device : DeviceId) : (hexDevice device).utf8ByteSize ≤ 128 := by
  have digits : (Nat.toDigits 16 device.val).length ≤ 32 :=
    (Nat.length_toDigits_le_iff (by decide) (by decide)).mpr
      (lt_of_lt_of_le device.isLt (by decide))
  have size := ofList_size (Nat.toDigits 16 device.val)
  unfold hexDevice
  omega

private theorem reason_size (e : TrustError) : e.reason.utf8ByteSize ≤ 240 := by
  have two : ∀ {x y : String}, x.utf8ByteSize ≤ 80 → y.utf8ByteSize ≤ 80 →
      (x ++ y).utf8ByteSize ≤ 160 := by
    intro x y first second
    rw [String.utf8ByteSize_append]
    exact Nat.add_le_add first second
  have three : ∀ {x y z : String}, x.utf8ByteSize ≤ 80 → y.utf8ByteSize ≤ 80 →
      z.utf8ByteSize ≤ 80 → (x ++ y ++ z).utf8ByteSize ≤ 240 := by
    intro x y z first second third
    rw [String.utf8ByteSize_append]
    exact Nat.add_le_add (two first second) third
  cases e with
  | differentSealingKey device =>
      exact (two (by decide +kernel) (by decide +kernel)).trans (by decide)
  | differentKey device =>
      exact three (by decide +kernel) (by decide +kernel) (by decide +kernel)
  | presentedDifferentKey device =>
      exact (two (by decide +kernel) (by decide +kernel)).trans (by decide)
  | notEnrolled device =>
      dsimp only [TrustError.reason]
      decide +kernel

private theorem trustError_size (e : TrustError) : e.text.utf8ByteSize ≤ 400 := by
  have hex := hexDevice_size e.device
  have front : "device ".utf8ByteSize ≤ 10 := by decide
  have back := reason_size e
  rw [TrustError.text, String.utf8ByteSize_append, String.utf8ByteSize_append]
  omega

private theorem version_size (version : U16) : ("protocol version " ++ toString version.val ++
    " is not supported").utf8ByteSize ≤ 400 := by
  have digits : (Nat.toDigits 10 version.val).length ≤ 5 :=
    (Nat.length_toDigits_le_iff (by decide) (by decide)).mpr
      (lt_of_lt_of_le version.isLt (by decide))
  have number : (toString version.val).utf8ByteSize ≤ 20 := by
    have size := ofList_size (Nat.toDigits 10 version.val)
    have same : toString version.val = String.ofList (Nat.toDigits 10 version.val) := rfl
    rw [same]
    omega
  have front : "protocol version ".utf8ByteSize ≤ 20 := by decide
  have back : " is not supported".utf8ByteSize ≤ 20 := by decide
  rw [String.utf8ByteSize_append, String.utf8ByteSize_append]
  omega

private theorem serveHandshake_sent {opening : MessageEnvelope} {ack : HelloAck}
    (sent : (serveHandshake env ctx opening mine).sent = some ack) :
    ∃ accepted reason features nonce,
      ack = makeHelloAck env ctx.identity ctx.device_id accepted reason features nonce ∧
      optionSize textSize reason ≤ 802 ∧ listSize textSize features ≤ 12 := by
  have short : ∀ {text : String}, text.utf8ByteSize ≤ 400 →
      optionSize textSize (some text) ≤ 802 := by
    intro text bound
    have size := textSize_le bound
    simp only [optionSize]
    omega
  have none_known : listSize textSize [] ≤ 12 := by decide
  have both_known : listSize textSize ["ops", "blobs"] ≤ 12 := by decide
  unfold serveHandshake at sent
  dsimp only at sent
  split at sent
  · cases sent
    exact ⟨_, _, _, _, rfl, short (version_size _), none_known⟩
  · cases hello : verifyHello env opening.payload with
    | error e =>
        rw [hello] at sent
        cases sent
    | ok peer =>
        rw [hello] at sent
        dsimp only at sent
        cases auth : authorize ctx.trust peer.device_id peer.pubkey mine with
        | error e t =>
            rw [auth] at sent
            cases sent
            exact ⟨_, _, _, _, rfl, short (trustError_size e), none_known⟩
        | ok u t =>
            rw [auth] at sent
            cases sent
            exact ⟨_, _, _, _, rfl, by decide, both_known⟩

private theorem hello_small (sized : ∀ secret bytes, (env.ed25519Sign secret bytes).length = 64)
    {features : List String} (known : features = ["ops", "blobs"] ∨ features = ["blobs"])
    (now_ms : U64) (nonce : Hash) : msgSize (.hello
      (makeHello env ctx.identity ctx.device_id features buildInfo now_ms nonce)) ≤ 2000 := by
  have device := wordSize_le ctx.device_id 19 (by decide) (by decide)
  have time := wordSize_le now_ms 10 (by decide) (by decide)
  have feature : listSize textSize features ≤ 12 := by
    rcases known with rfl | rfl <;> decide
  have version : textSize buildInfo.version + optionSize textSize buildInfo.git_hash ≤ 10 := by
    decide
  have signature : bytesSize (env.ed25519Sign ctx.identity.signing_key
      (Hello.signingBytes ⟨ctx.device_id, env.ed25519Public ctx.identity.signing_key, features,
        buildInfo, now_ms, nonce, []⟩)) = 65 := by
    rw [bytesSize, sized]
    rfl
  simp only [msgSize, helloSize, makeHello, signature]
  omega

private theorem helloAck_small (sized : ∀ secret bytes, (env.ed25519Sign secret bytes).length = 64)
    {opening : MessageEnvelope} {ack : HelloAck}
    (sent : (serveHandshake env ctx opening mine).sent = some ack) :
    msgSize (.helloAck ack) ≤ 2000 := by
  obtain ⟨accepted, reason, features, nonce, rfl, short, few⟩ := serveHandshake_sent sent
  have device := wordSize_le ctx.device_id 19 (by decide) (by decide)
  have signature : bytesSize (env.ed25519Sign ctx.identity.signing_key
      (HelloAck.signingBytes ⟨accepted, reason, features, ctx.device_id,
        env.ed25519Public ctx.identity.signing_key, nonce, []⟩)) = 65 := by
    rw [bytesSize, sized]
    rfl
  simp only [msgSize, helloAckSize, makeHelloAck, signature]
  omega

private theorem asks_fit {before : Nat} (fit : FramesFit before mine theirs wanted theirWanted)
    {msg : WireMsg} (asks : Asks mine wanted msg) : before + msgSize msg ≤ maxFrameLen := by
  have batch : wordSize blobBatchBytes = 4 := by decide
  cases asks with
  | have_ =>
      have bound := fit.summary
      simp only [msgSize, optionSize]
      omega
  | wants max_bytes budget =>
      have bound := fit.missing
      have size : wordSize max_bytes ≤ 4 := batch ▸ Codec.groups_mono budget
      simp only [msgSize]
      omega
  | fetches outstanding rest =>
      have bound := fit.fetched
      have fewer := rest.length_le
      have count := Codec.groups_mono fewer
      simp only [msgSize, batch]
      omega
  | notify =>
      have bound := fit.summary
      simp only [msgSize]
      omega
  | bye =>
      have bound := fit.summary
      simp only [msgSize]
      omega

private theorem ops_size (more : Bool) : msgSize (.opsBatch
    (opsMissingFor mine (clockSummary theirs) opsBatch) more) =
      2 + listSize opSize ((uncovered mine (clockSummary theirs)).take opsBatch) := by
  rw [msgSize, opsMissingFor_eq mine _ (by decide)]
  omega

private theorem blobs_size (limit : Nat) (hashes : List Hash) (more : Bool) :
    msgSize (.blobsBatch (collectBlobs mine limit hashes 0 []).1 more) =
      2 + listSize blobSize (reaching limit (heldBlobs mine hashes)) := by
  rw [msgSize, collectBlobs_blobs, Nat.sub_zero, List.nil_append]
  omega

private theorem replies_fit {before : Nat} (fit : FramesFit before mine theirs wanted theirWanted)
    {debug : WireMsg → String} {request reply : WireMsg} (asked : Asks theirs theirWanted request)
    (served : serveRequest debug mine request = some reply) :
    before + msgSize reply ≤ maxFrameLen := by
  have batch : ∀ (max_bytes : U64) hashes more,
      hashes = (missingChunkHashes theirs).toList ∨ hashes.Sublist theirWanted →
      before + msgSize (.blobsBatch (collectBlobs mine (min max_bytes blobBatchBytes).val hashes
        0 []).1 more) ≤ maxFrameLen := by
    intro max_bytes hashes more requested
    have bound := fit.blobs hashes requested
    have limit : (min max_bytes blobBatchBytes).val ≤ blobBatchBytes.val := min_le_right max_bytes _
    have shorter := listSize_initial blobSize (reaching_initial limit (heldBlobs mine hashes))
    rw [blobs_size]
    omega
  cases asked with
  | have_ =>
      cases served
      have bound := fit.ops
      rw [serveHave, ops_size]
      omega
  | wants max_bytes budget =>
      cases served
      exact batch max_bytes _ _ (.inl rfl)
  | fetches outstanding rest =>
      cases served
      exact batch blobBatchBytes outstanding _ (.inr rest)
  | notify =>
      cases served
      have bound := fit.summary
      simp only [msgSize]
      omega
  | bye => cases served

/-- Between honest nodes, every frame of a node is accepted exactly when the bounds hold: on its
clock summary, on the chunks it asks for, on the operations its peer lacks, and on the blobs its
peer asks for. -/
theorem frames_accepted_iff (wire : Codec MessageEnvelope) (sizes : Sized wire)
    (sized : ∀ secret bytes, (env.ed25519Sign secret bytes).length = 64)
    (msg_id : U64) (reply_to : Option U64) :
    (∀ msg, Emits env ctx mine theirs wanted theirWanted msg →
      Framed wire (envelope msg_id reply_to msg)) ↔
    FramesFit (prefixSize msg_id reply_to) mine theirs wanted theirWanted := by
  simp only [framed_iff sizes]
  have short := prefixSize_le msg_id reply_to
  have room : (8000 : Nat) ≤ maxFrameLen := by decide
  constructor
  · intro accepted
    have batch : wordSize blobBatchBytes = 4 := by decide
    constructor
    · have sent := accepted _ (.asks _ .have_)
      simp only [msgSize, optionSize] at sent
      omega
    · have sent := accepted _ (.asks _ (.wants blobBatchBytes le_rfl))
      simp only [msgSize, batch] at sent
      omega
    · have sent := accepted _ (.asks _ (.fetches wanted (List.Sublist.refl wanted)))
      simp only [msgSize, batch] at sent
      omega
    · have sent := accepted _ (.replies (fun _ => "") _ _ .have_ rfl)
      rw [serveHave, ops_size] at sent
      omega
    · rintro hashes (rfl | rest)
      · have sent := accepted _ (.replies (fun _ => "") _ _ (.wants blobBatchBytes le_rfl) rfl)
        rw [min_self, blobs_size] at sent
        omega
      · have sent := accepted _ (.replies (fun _ => "") _ _ (.fetches hashes rest) rfl)
        rw [min_self, blobs_size] at sent
        omega
  · intro fit msg emits
    cases emits with
    | hello features known now_ms nonce =>
        have small := @hello_small env ctx sized features known now_ms nonce
        omega
    | helloAck opening ack sent =>
        have small := helloAck_small sized sent
        omega
    | asks msg asks => exact asks_fit fit asks
    | replies debug request reply asked served => exact replies_fit fit asked served

end Accepted

section Large

def framesCtx : SessionCtx := ⟨sampleIdentity, 7, ⟨true⟩⟩

private theorem booted_idle (env : Env) (device : DeviceId) :
    (booted env (CoreState.new device)).oplog = ∅ ∧
      (booted env (CoreState.new device)).pending = ∅ ∧
      (booted env (CoreState.new device)).applied = ∅ ∧
      (booted env (CoreState.new device)).proofs = .none ∧
      (booted env (CoreState.new device)).device_id = device := by
  obtain ⟨_, _, _, _, _, _, _, -, same⟩ := (booted_spec env (blank_new device)).records
  rw [same]
  exact ⟨rfl, rfl, rfl, rfl, rfl⟩

private theorem clockSummary_empty {s : CoreState} (empty : s.oplog = ∅) :
    clockSummary s = ⟨[], []⟩ := by
  have none_seen : s.seenCounters = ∅ := by
    rw [CoreState.seenCounters, empty]
    rfl
  rw [clockSummary, none_seen]
  rfl

def framesMine : CoreState :=
  (Act.author (.mkdir rootInode "a" 0) 5).run signEnv sampleIdentity
    ((Act.store sampleChunk).run signEnv sampleIdentity (booted signEnv (CoreState.new 7)))

def framesTheirs : CoreState :=
  (Act.author (.write (inodeForOp signEnv ⟨9, 1⟩) 0 [⟨sampleChunkHash, 3, 3, 0⟩] 3 none) 6).run signEnv
    sampleIdentity ((Act.author (.createFile rootInode "f" 0) 5).run signEnv sampleIdentity
      (booted signEnv (CoreState.new 9)))

private theorem frames_facts :
    (missingChunkHashes framesTheirs).toList = [sampleChunkHash] ∧
    (uncovered framesMine (clockSummary framesTheirs)).length = 1 ∧
    heldBlobs framesMine [sampleChunkHash] = [(sampleChunkHash, sampleChunk)] := by
  decide +kernel

private theorem frames_fit :
    FramesFit (prefixSize 1 none) framesMine framesTheirs [] [sampleChunkHash] := by
  obtain ⟨missing, -, held⟩ := frames_facts
  have requested : prefixSize 1 none + 2 + listSize blobSize (reaching blobBatchBytes.val
      (heldBlobs framesMine [sampleChunkHash])) ≤ maxFrameLen := by
    rw [held]
    decide
  refine ⟨by decide +kernel, by decide +kernel, by decide, by decide +kernel, ?_⟩
  rintro hashes (same | rest)
  · rw [same, missing]
    exact requested
  · rcases List.sublist_singleton.mp rest with rfl | rfl
    · decide
    · exact requested

theorem frames_accepted_sample :
    (uncovered framesMine (clockSummary framesTheirs)).length = 1 ∧
      heldBlobs framesMine [sampleChunkHash] = [(sampleChunkHash, sampleChunk)] ∧
      ∀ msg, Emits signEnv framesCtx framesMine framesTheirs [] [sampleChunkHash] msg →
        Framed Wire.envelope (envelope 1 none msg) := by
  obtain ⟨-, lacks, held⟩ := frames_facts
  refine ⟨lacks, held,
    (frames_accepted_iff Wire.envelope envelope_sized ?_ 1 none).mpr frames_fit⟩
  intro secret bytes
  show (signatureOf secret bytes).length = 64
  rw [signatureOf, List.length_append, be256, be256, beBytes_length, beBytes_length]

def longWrite : FsOpKind := .write 2 0 (List.replicate 300000 ⟨0, 1, 1, 0⟩) 300000 none

def longLog : CoreState :=
  (Act.author longWrite 0).run .plain sampleIdentity (booted .plain (CoreState.new 7))

private theorem write_large (inode : U128) (offset new_size : U64) (chunks : List ChunkRef)
    (encryption : Option FileEncryption) :
    32 * chunks.length ≤ kindSize (.write inode offset chunks new_size encryption) := by
  have each : 32 * chunks.length ≤ (chunks.map chunkSize).sum := by
    induction chunks with
    | nil => exact le_rfl
    | cons c rest ih =>
        rw [List.length_cons, List.map_cons, List.sum_cons, chunkSize]
        omega
  rw [kindSize, listSize]
  omega

private theorem kindSize_le_listSize {op : FsOp} {ops : List FsOp} (member : op ∈ ops) :
    kindSize op.kind ≤ listSize opSize ops := by
  have whole : opSize op ≤ (ops.map opSize).sum :=
    List.le_sum_of_mem (List.mem_map_of_mem member)
  rw [opSize] at whole
  rw [listSize]
  omega

def longOp : FsOp := authoredOp .plain sampleIdentity longWrite 0 (booted .plain (CoreState.new 7))

private theorem author_oplog {s : CoreState} (kind : FsOpKind) (logged : Logged s)
    (policy : s.proofs = .none)
    (new : (authoredOp .plain sampleIdentity kind 0 s).id ∉ s.applied) :
    ((Act.author kind 0).run .plain sampleIdentity s).oplog =
      s.oplog.insert (authoredOp .plain sampleIdentity kind 0 s).id
        (authoredOp .plain sampleIdentity kind 0 s) := by
  have run : (Act.author kind 0).run .plain sampleIdentity s =
      finalState (applyOp .plain (authoredOp .plain sampleIdentity kind 0 s) (counted s)) :=
    applyLocal_unproven .plain sampleIdentity kind 0 (by rw [policy]; rfl)
  have verified : verifyOp .plain (authoredOp .plain sampleIdentity kind 0 s) = .ok () := rfl
  have checked : checkProof .plain (authoredOp .plain sampleIdentity kind 0 s) (counted s).proofs =
      .ok () := by
    have none : (counted s).proofs = .none := policy
    rw [none]
    rfl
  have counts : Logged (counted s) := logged.congr rfl rfl rfl
  obtain ⟨-, -, rows⟩ := counts.applyOp .plain (authoredOp .plain sampleIdentity kind 0 s)
  have fresh : (authoredOp .plain sampleIdentity kind 0 s).id ∉ (counted s).applied := new
  rw [run, rows, if_pos ⟨⟨verified, fun _ => checked⟩, fresh⟩]
  rfl

private theorem longLog_oplog : longLog.oplog = (∅ : BTreeMap OpId FsOp).insert longOp.id longOp := by
  obtain ⟨log, -, applied, policy, -⟩ := booted_idle .plain 7
  have rows := author_oplog longWrite (logged_booted .plain (blank_new 7)) policy
    (by rw [applied]; exact Std.ExtTreeSet.not_mem_empty)
  rw [log] at rows
  unfold longLog longOp
  exact rows

private theorem longOp_served : longOp ∈ (uncovered longLog ⟨[], []⟩).take opsBatch := by
  have row : (longOp.id, longOp) ∈ longLog.oplog.toList := by
    rw [BTreeMap.mem_toList, longLog_oplog, BTreeMap.get_insert, if_pos rfl]
  have counter : longOp.id.counter = 1 := by
    obtain ⟨_, _, _, _, _, _, _, -, same⟩ := (booted_spec .plain (blank_new 7)).records
    unfold longOp authoredOp
    rw [same]
    rfl
  have member : longOp ∈ uncovered longLog ⟨[], []⟩ := by
    refine List.mem_map.mpr ⟨_, List.mem_filter.mpr ⟨row, ?_⟩, rfl⟩
    have unknown : holdsCounter ⟨[], []⟩ longOp.id = decide (longOp.id.counter ≤ 0) := by
      simp [holdsCounter, knownCounters, aboveCounters]
    rw [unknown, counter]
    rfl
  have few : (uncovered longLog ⟨[], []⟩).length ≤ opsBatch := by
    have rows : longLog.oplog.toList.length ≤ 1 := by
      rw [Std.ExtTreeMap.length_toList, longLog_oplog]
      exact Std.ExtTreeMap.size_insert_le
    have kept := List.length_filter_le (fun row => !holdsCounter ⟨[], []⟩ row.1)
      longLog.oplog.toList
    rw [uncovered, List.length_map]
    have batch : 1 ≤ opsBatch := by decide
    omega
  rw [List.take_of_length_le few]
  exact member

private theorem emits_ops (env : Env) (ctx : SessionCtx) (mine theirs : CoreState)
    (msg_id : U64) (reply_to : Option U64) :
    ∃ msg, Emits env ctx mine theirs [] [] msg ∧ (Framed Wire.envelope (envelope msg_id reply_to msg) →
      listSize opSize ((uncovered mine (clockSummary theirs)).take opsBatch) ≤ maxFrameLen) := by
  refine ⟨_, .replies (fun _ => "") _ _ .have_ rfl, ?_⟩
  rw [framed_iff envelope_sized, serveHave, ops_size]
  omega

/-- A file of 300000 chunks: the batch with its write is longer than a peer accepts. -/
theorem long_write_not_framed :
    AnyRun .plain sampleIdentity longLog ∧
      AnyRun .plain sampleIdentity (booted .plain (CoreState.new 9)) ∧
      ∃ msg, Emits .plain framesCtx longLog (booted .plain (CoreState.new 9)) [] [] msg ∧
        ¬Framed Wire.envelope (envelope 2 (some 2) msg) := by
  obtain ⟨log, -⟩ := booted_idle .plain 9
  have start : AnyRun .plain sampleIdentity (booted .plain (CoreState.new 7)) :=
    .boot (blank_new 7) rfl rfl
  have wrote : AnyRun .plain sampleIdentity longLog := by
    unfold longLog
    exact start.step (a := .author longWrite 0) trivial
  obtain ⟨msg, emits, fits⟩ :=
    emits_ops .plain framesCtx longLog (booted .plain (CoreState.new 9)) 2 (some 2)
  rw [clockSummary_empty log] at fits
  have kind : longOp.kind = longWrite := by
    unfold longOp authoredOp
    rfl
  have chunks : 32 * 300000 ≤ kindSize longOp.kind := by
    rw [kind]
    exact le_trans (by rw [List.length_replicate]) (write_large 2 0 300000 _ none)
  have batch := le_trans chunks (kindSize_le_listSize longOp_served)
  refine ⟨wrote, .boot (blank_new 9) rfl rfl, msg, emits, fun framed => ?_⟩
  exact absurd (le_trans batch (fits framed)) (by decide)

end Large

end NexusFS.Net
