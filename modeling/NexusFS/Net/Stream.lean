/- GID: NexusFS/Net/Stream
   source: crates/net/src/codec.rs
   digest: A stream of messages is read back message by message, wherever it is cut. -/

import NexusFS.Lib.Framing
import NexusFS.Net.Frames

set_option autoImplicit false
set_option relaxedAutoImplicit false

namespace NexusFS.Net

open NexusFS.Lib NexusFS.Proto NexusFS.Core

section Streams

variable (wire : Codec MessageEnvelope)

/-- `send_msg`: what it writes to the stream. -/
def sendMsg (e : MessageEnvelope) : Bytes := Framing.send wire e

/-- `recv_msg`: the next message of the stream, and what is left. -/
def recvMsg (max_len : Nat) (stream : Bytes) : Except FrameError (MessageEnvelope × Bytes) :=
  Framing.recv wire max_len stream

def recvMsgs (max_len : Nat) : Nat → Bytes → List MessageEnvelope × Except FrameError Bytes
  | 0, stream => ([], .ok stream)
  | n + 1, stream =>
      match recvMsg wire max_len stream with
      | .error e => ([], .error e)
      | .ok (e, rest) => (e :: (recvMsgs max_len n rest).1, (recvMsgs max_len n rest).2)

private theorem recvMsgs_eq (max_len n : Nat) (stream : Bytes) :
    recvMsgs wire max_len n stream = Framing.recvMany wire max_len n stream := by
  induction n generalizing stream with
  | zero => rfl
  | succ n ih =>
      unfold recvMsgs Framing.recvMany recvMsg
      cases Framing.recv wire max_len stream with
      | error e => rfl
      | ok p => simp only [ih]

private theorem frame_limit : maxFrameLen < 2 ^ 32 := by decide

/-- Messages sent one after another are read one after another; and where the stream is cut, the
messages that arrived whole are read and nothing else is. -/
theorem stream_delivers (sent : List MessageEnvelope) (framed : ∀ e ∈ sent, Framed wire e) :
    (∀ rest, recvMsgs wire maxFrameLen sent.length (sent.flatMap (sendMsg wire) ++ rest) =
        (sent, .ok rest)) ∧
      ∀ cut, cut <+: sent.flatMap (sendMsg wire) →
        ∃ k, (sent.take k).flatMap (sendMsg wire) <+: cut ∧
          (k < sent.length → ¬(sent.take (k + 1)).flatMap (sendMsg wire) <+: cut) ∧
          ∀ n, k < n → recvMsgs wire maxFrameLen n cut = (sent.take k, .error .length) ∨
            recvMsgs wire maxFrameLen n cut = (sent.take k, .error .payload) := by
  have within : ∀ e ∈ sent, (wire.encode e).length ≤ maxFrameLen := fun e member =>
    (framed e member).1
  simp only [recvMsgs_eq]
  exact ⟨fun rest => Framing.recvMany_stream sent rest frame_limit within,
    fun cut part => Framing.recvMany_cut sent cut frame_limit within part⟩

end Streams

def shortSession : List MessageEnvelope :=
  [envelope 1 none (.wantBlobs [7, 8] 4096),
    envelope 2 (some 1) (.telemetry ⟨some 80, true, none, 0, 0, 1000, 12⟩), envelope 3 none .bye]

theorem stream_delivers_sample :
    recvMsgs Wire.envelope maxFrameLen 3 (shortSession.flatMap (sendMsg Wire.envelope) ++ [7]) =
      (shortSession, .ok [7]) := by
  have framed : ∀ e ∈ shortSession, Framed Wire.envelope e := by
    unfold shortSession Framed
    decide +kernel
  exact (stream_delivers Wire.envelope shortSession framed).1 [7]

end NexusFS.Net
