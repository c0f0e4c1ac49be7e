/- GID: NexusFS/Lib/Blake3
   layer: library
   digest: The BLAKE3 hash function, computable by the kernel on small inputs. -/

import NexusFS.Lib.BinTree
import NexusFS.Lib.Bytes

set_option autoImplicit false
set_option relaxedAutoImplicit false

namespace NexusFS.Lib.Blake3

open NexusFS.Lib.BinTree

/-- Sixteen words: the state of a compression, or the block that it takes in. -/
structure Words where
  (w0 w1 w2 w3 w4 w5 w6 w7 w8 w9 w10 w11 w12 w13 w14 w15 : Nat)

def Words.ofList : List Nat → Words
  | [w0, w1, w2, w3, w4, w5, w6, w7, w8, w9, w10, w11, w12, w13, w14, w15] =>
      ⟨w0, w1, w2, w3, w4, w5, w6, w7, w8, w9, w10, w11, w12, w13, w14, w15⟩
  | _ => ⟨0, 0, 0, 0, 0, 0, 0, 0, 0, 0, 0, 0, 0, 0, 0, 0⟩

def rotr (x n m : Nat) : Nat := Nat.lor (Nat.shiftRight x n) (Nat.mod (Nat.shiftLeft x m) 4294967296)

-- The functions of `Nat` stand by name here: the kernel then meets no instance in any round.
def quarter {β : Type} (a b c d x y : Nat) (rest : Nat → Nat → Nat → Nat → β) : β :=
  let a := Nat.mod (Nat.add (Nat.add a b) x) 4294967296
  let d := rotr (Nat.xor d a) 16 16
  let c := Nat.mod (Nat.add c d) 4294967296
  let b := rotr (Nat.xor b c) 12 20
  let a := Nat.mod (Nat.add (Nat.add a b) y) 4294967296
  let d := rotr (Nat.xor d a) 8 24
  let c := Nat.mod (Nat.add c d) 4294967296
  let b := rotr (Nat.xor b c) 7 25
  rest a b c d

def round : Words → Words → Words
  | ⟨a0, a1, a2, a3, b0, b1, b2, b3, c0, c1, c2, c3, d0, d1, d2, d3⟩,
    ⟨m0, m1, m2, m3, m4, m5, m6, m7, m8, m9, m10, m11, m12, m13, m14, m15⟩ =>
      quarter a0 b0 c0 d0 m0 m1 fun a0 b0 c0 d0 =>
      quarter a1 b1 c1 d1 m2 m3 fun a1 b1 c1 d1 =>
      quarter a2 b2 c2 d2 m4 m5 fun a2 b2 c2 d2 =>
      quarter a3 b3 c3 d3 m6 m7 fun a3 b3 c3 d3 =>
      quarter a0 b1 c2 d3 m8 m9 fun a0 b1 c2 d3 =>
      quarter a1 b2 c3 d0 m10 m11 fun a1 b2 c3 d0 =>
      quarter a2 b3 c0 d1 m12 m13 fun a2 b3 c0 d1 =>
      quarter a3 b0 c1 d2 m14 m15 fun a3 b0 c1 d2 =>
      ⟨a0, a1, a2, a3, b0, b1, b2, b3, c0, c1, c2, c3, d0, d1, d2, d3⟩

def permute : Words → Words
  | ⟨m0, m1, m2, m3, m4, m5, m6, m7, m8, m9, m10, m11, m12, m13, m14, m15⟩ =>
      ⟨m2, m6, m3, m10, m7, m0, m4, m13, m1, m11, m12, m5, m9, m14, m15, m8⟩

def rounds : Nat → Words → Words → Words
  | 0, state, _ => state
  | n + 1, state, message => rounds n (round state message) (permute message)

def halves : Words → List Nat
  | ⟨a0, a1, a2, a3, b0, b1, b2, b3, c0, c1, c2, c3, d0, d1, d2, d3⟩ =>
      [a0 ^^^ c0, a1 ^^^ c1, a2 ^^^ c2, a3 ^^^ c3, b0 ^^^ d0, b1 ^^^ d1, b2 ^^^ d2, b3 ^^^ d3]

def iv : List Nat :=
  [0x6A09E667, 0xBB67AE85, 0x3C6EF372, 0xA54FF53A, 0x510E527F, 0x9B05688C, 0x1F83D9AB, 0x5BE0CD19]

def compress (chaining message : List Nat) (counter len flags : Nat) : List Nat :=
  halves (rounds 7
    (.ofList (chaining ++ iv.take 4 ++ [counter % 2 ^ 32, counter / 2 ^ 32, len, flags]))
    (.ofList message))

def word (a b c d : UInt8) : Nat := a.toNat + 256 * (b.toNat + 256 * (c.toNat + 256 * d.toNat))

def words : Nat → Bytes → List Nat
  | 0, _ => []
  | n + 1, a :: b :: c :: d :: rest => word a b c d :: words n rest
  | n + 1, [a, b, c] => word a b c 0 :: words n []
  | n + 1, [a, b] => word a b 0 0 :: words n []
  | n + 1, [a] => word a 0 0 0 :: words n []
  | n + 1, [] => 0 :: words n []

/-- The blocks of one chunk. `start` is the flag of the first block and `last` those of the
final one; `mode` is set on all of them. -/
def chunkBlocks (mode counter last : Nat) : Nat → List Nat → Nat → Bytes → List Nat
  | 0, chaining, _, _ => chaining
  | fuel + 1, chaining, start, bytes =>
      if bytes.length ≤ 64 then
        compress chaining (words 16 bytes) counter bytes.length (mode ||| start ||| last)
      else
        chunkBlocks mode counter last fuel
          (compress chaining (words 16 (bytes.take 64)) counter 64 (mode ||| start)) 0
          (bytes.drop 64)

/-- The chaining value of one chunk: the first block is flagged 1, the last 2 and `root`. -/
def chunkValue (key : List Nat) (mode counter root : Nat) (bytes : Bytes) : List Nat :=
  chunkBlocks mode counter (2 ||| root) 16 key 1 bytes

def chunkValues (key : List Nat) (mode : Nat) : Nat → Nat → Bytes → List (List Nat)
  | 0, _, _ => []
  | fuel + 1, counter, bytes =>
      if bytes.length ≤ 1024 then [chunkValue key mode counter 0 bytes]
      else
        chunkValue key mode counter 0 (bytes.take 1024) ::
          chunkValues key mode fuel (counter + 1) (bytes.drop 1024)

def parentValue (key : List Nat) (mode root : Nat) (left right : List Nat) : List Nat :=
  compress key (left ++ right) 0 64 (mode ||| 4 ||| root)

def rootValue (key : List Nat) (mode : Nat) : Nat → List (List Nat) → List Nat
  | _, [left, right] => parentValue key mode 8 left right
  | 0, _ => []
  | fuel + 1, level => rootValue key mode fuel (pairUp (parentValue key mode 0) level)

def digestWords (key : List Nat) (mode : Nat) (bytes : Bytes) : List Nat :=
  if bytes.length ≤ 1024 then chunkValue key mode 0 8 bytes
  else
    let chunks := chunkValues key mode bytes.length 0 bytes
    rootValue key mode chunks.length chunks

def digest (output : List Nat) : Nat :=
  output.foldl (fun acc w =>
    acc * 2 ^ 32 +
      (w % 256 * 2 ^ 24 + w / 256 % 256 * 2 ^ 16 + w / 2 ^ 16 % 256 * 256 + w / 2 ^ 24)) 0

end NexusFS.Lib.Blake3

namespace NexusFS.Lib

def blake3 (bytes : Bytes) : Fin (2 ^ 256) :=
  Fin.ofNat (2 ^ 256) (Blake3.digest (Blake3.digestWords Blake3.iv 0 bytes))

def blake3Keyed (key : Bytes) (bytes : Bytes) : Fin (2 ^ 256) :=
  Fin.ofNat (2 ^ 256) (Blake3.digest (Blake3.digestWords (Blake3.words 8 key) 16 bytes))

example : blake3 [] = 0xaf1349b9f5f9a1a6a0404dea36dcc9499bcb25c9adc112b7cc9a93cae41f3262 := by
  decide +kernel

example : blake3 (ascii "abc") =
    0x6437b3ac38465133ffb63b75273a8db548c558465d79db03fd359c6cd5bd9d85 := by
  decide +kernel

end NexusFS.Lib
