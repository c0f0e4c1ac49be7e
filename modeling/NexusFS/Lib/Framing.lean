/- GID: NexusFS/Lib/Framing
   layer: library
   digest: A stream of frames under a length limit is read back frame by frame, wherever it is cut. -/

import NexusFS.Lib.Codec

set_option autoImplicit false
set_option relaxedAutoImplicit false

namespace NexusFS.Lib

/-- Why no frame was read: the stream ended in the length, the length is past the limit, the stream
ended in the payload, or the payload is no value of the format. -/
inductive FrameError where
  | length
  | tooLarge (len max_len : Nat)
  | payload
  | format
  deriving DecidableEq

namespace Framing

variable {α : Type}

def lengthWord (len : Nat) : Bytes := (beBytes 4 len).reverse

def readLength (word : Bytes) : Nat := ofBytes word.reverse

@[simp] theorem lengthWord_length (len : Nat) : (lengthWord len).length = 4 := by
  rw [lengthWord, List.length_reverse, beBytes_length]

theorem readLength_lengthWord (len : Nat) : readLength (lengthWord len) = len % 2 ^ 32 := by
  rw [readLength, lengthWord, List.reverse_reverse, ofBytes_beBytes]
  norm_num

section Frames

variable (c : Codec α) (max_len : Nat)

def send (a : α) : Bytes := lengthWord (c.encode a).length ++ c.encode a

/-- The length is checked ahead of the payload, which is read whole before it is decoded. -/
def recv (stream : Bytes) : Except FrameError (α × Bytes) :=
  if stream.length < 4 then .error .length
  else
    let len := readLength (stream.take 4)
    if max_len < len then .error (.tooLarge len max_len)
    else if (stream.drop 4).length < len then .error .payload
    else
      match c.read ((stream.drop 4).take len) with
      | none => .error .format
      | some a => .ok (a, (stream.drop 4).drop len)

def recvMany : Nat → Bytes → List α × Except FrameError Bytes
  | 0, stream => ([], .ok stream)
  | n + 1, stream =>
      match recv c max_len stream with
      | .error e => ([], .error e)
      | .ok (a, rest) => (a :: (recvMany n rest).1, (recvMany n rest).2)

end Frames

variable {c : Codec α} {max_len : Nat}

theorem send_length (a : α) : (send c a).length = 4 + (c.encode a).length := by
  rw [send, List.length_append, lengthWord_length]

theorem recv_append {word payload : Bytes} (rest : Bytes) (size : word.length = 4)
    (named : readLength word = payload.length) (within : payload.length ≤ max_len) :
    recv c max_len (word ++ (payload ++ rest)) =
      match c.read payload with
      | none => .error .format
      | some a => .ok (a, rest) := by
  have long : ¬(word ++ (payload ++ rest)).length < 4 := by
    rw [List.length_append]
    omega
  have enough : ¬(payload ++ rest).length < payload.length := by
    rw [List.length_append]
    omega
  unfold recv
  simp only [if_neg long, List.take_left' size, List.drop_left' size, named, if_neg (not_lt.mpr within),
    if_neg enough, List.take_left, List.drop_left]

theorem recv_send {a : α} (rest : Bytes) (within : (c.encode a).length ≤ max_len)
    (limit : max_len < 2 ^ 32) : recv c max_len (send c a ++ rest) = .ok (a, rest) := by
  have named : readLength (lengthWord (c.encode a).length) = (c.encode a).length := by
    rw [readLength_lengthWord]
    exact Nat.mod_eq_of_lt (by omega)
  rw [send, List.append_assoc, recv_append rest (lengthWord_length _) named within,
    c.read_encode a]

theorem recv_cut {a : α} {cut : Bytes} (part : cut <+: send c a) (short : cut ≠ send c a)
    (within : (c.encode a).length ≤ max_len) (limit : max_len < 2 ^ 32) :
    recv c max_len cut = .error .length ∨ recv c max_len cut = .error .payload := by
  have fewer : cut.length < (send c a).length :=
    lt_of_le_of_ne part.length_le fun same => short (part.eq_of_length same)
  rw [send_length] at fewer
  unfold recv
  by_cases brief : cut.length < 4
  · exact .inl (if_pos brief)
  · obtain ⟨missing, whole⟩ := part
    have front : cut.take 4 = lengthWord (c.encode a).length := by
      have both := congrArg (List.take 4) whole
      rwa [List.take_append_of_le_length (by omega), send, List.take_left' (lengthWord_length _)] at both
    have named : readLength (cut.take 4) = (c.encode a).length := by
      rw [front, readLength_lengthWord]
      exact Nat.mod_eq_of_lt (by omega)
    have lacks : (cut.drop 4).length < (c.encode a).length := by
      rw [List.length_drop]
      omega
    right
    simp only [if_neg brief, named, if_neg (not_lt.mpr within), if_pos lacks]

theorem recvMany_cons {a : α} {stream rest : Bytes} (n : Nat)
    (got : recv c max_len stream = .ok (a, rest)) :
    recvMany c max_len (n + 1) stream =
      (a :: (recvMany c max_len n rest).1, (recvMany c max_len n rest).2) := by
  rw [recvMany, got]

theorem recvMany_stop {e : FrameError} {stream : Bytes} (n : Nat)
    (failed : recv c max_len stream = .error e) :
    recvMany c max_len (n + 1) stream = ([], .error e) := by
  rw [recvMany, failed]

theorem recvMany_stream (l : List α) (rest : Bytes) (limit : max_len < 2 ^ 32)
    (sendable : ∀ a ∈ l, (c.encode a).length ≤ max_len) :
    recvMany c max_len l.length (l.flatMap (send c) ++ rest) = (l, .ok rest) := by
  induction l with
  | nil => rfl
  | cons a l ih =>
      obtain ⟨within, later⟩ := List.forall_mem_cons.mp sendable
      rw [List.flatMap_cons, List.append_assoc, List.length_cons,
        recvMany_cons _ (recv_send _ within limit), ih later]

theorem recvMany_cut (l : List α) (cut : Bytes) (limit : max_len < 2 ^ 32)
    (sendable : ∀ a ∈ l, (c.encode a).length ≤ max_len)
    (part : cut <+: l.flatMap (send c)) :
    ∃ k, (l.take k).flatMap (send c) <+: cut ∧
      (k < l.length → ¬(l.take (k + 1)).flatMap (send c) <+: cut) ∧
      ∀ n, k < n → recvMany c max_len n cut = (l.take k, .error .length) ∨
        recvMany c max_len n cut = (l.take k, .error .payload) := by
  induction l generalizing cut with
  | nil =>
      obtain rfl := List.prefix_nil.mp part
      refine ⟨0, List.nil_prefix, fun impossible => absurd impossible (Nat.not_lt_zero 0), ?_⟩
      rintro (_ | n) more
      · exact absurd more (Nat.lt_irrefl 0)
      · exact .inl (recvMany_stop n (if_pos (by decide)))
  | cons a l ih =>
      obtain ⟨within, later⟩ := List.forall_mem_cons.mp sendable
      rw [List.flatMap_cons] at part
      by_cases arrived : send c a <+: cut
      · obtain ⟨cut, rfl⟩ := arrived
        obtain ⟨k, whole, not_more, reads⟩ := ih cut later ((List.prefix_append_right_inj _).mp part)
        refine ⟨k + 1, ?_, ?_, ?_⟩
        · rw [List.take_succ_cons, List.flatMap_cons]
          exact (List.prefix_append_right_inj _).mpr whole
        · intro few more
          rw [List.take_succ_cons, List.flatMap_cons] at more
          exact not_more (Nat.lt_of_succ_lt_succ few) ((List.prefix_append_right_inj _).mp more)
        · rintro (_ | n) more
          · exact absurd more (Nat.not_lt_zero _)
          · rw [recvMany_cons n (recv_send cut within limit), List.take_succ_cons]
            rcases reads n (Nat.lt_of_succ_lt_succ more) with read | read
            · exact .inl (by rw [read])
            · exact .inr (by rw [read])
      · have inside : cut <+: send c a :=
          (List.prefix_or_prefix_of_prefix part (List.prefix_append _ _)).resolve_right arrived
        have unfinished : cut ≠ send c a := by
          rintro rfl
          exact arrived List.prefix_rfl
        refine ⟨0, List.nil_prefix, fun _ more => arrived (by simpa using more), ?_⟩
        rintro (_ | n) more
        · exact absurd more (Nat.lt_irrefl 0)
        · rcases recv_cut inside unfinished within limit with failed | failed
          · exact .inl (recvMany_stop n failed)
          · exact .inr (recvMany_stop n failed)

end Framing

end NexusFS.Lib
