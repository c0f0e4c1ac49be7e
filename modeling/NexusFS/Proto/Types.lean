/- GID: NexusFS/Proto/Types
   source: crates/proto/src/types.rs
   digest: Machine words, digests, operation ids, chunk references and file-key records. -/

import NexusFS.Lib.Bytes
import Mathlib.Data.Prod.Lex
import Mathlib.Order.Fin.Basic
import Mathlib.Order.Compare
import Mathlib.Algebra.NeZero

set_option autoImplicit false
set_option relaxedAutoImplicit false

namespace NexusFS.Proto

open NexusFS.Lib

/-- `u32`. -/
abbrev U32 := Fin (2 ^ 32)

/-- `u64`. -/
abbrev U64 := Fin (2 ^ 64)

/-- `u128`. -/
abbrev U128 := Fin (2 ^ 128)

/-- `[u8; 32]`, read big-endian, so that the array order is the numeric order. -/
abbrev Hash := Fin (2 ^ 256)

/-- `[u8; 24]`, as the number that its bytes are. -/
abbrev Nonce := Fin (2 ^ 192)

/-- `u64::to_be_bytes`. -/
def be64 (x : U64) : Bytes := beBytes 8 x.val

/-- `u128::to_be_bytes`. -/
def be128 (x : U128) : Bytes := beBytes 16 x.val

def be256 (x : Hash) : Bytes := beBytes 32 x.val

def be192 (x : Nonce) : Bytes := beBytes 24 x.val

theorem be128_injective : Function.Injective be128 := by
  intro x y same
  exact Fin.ext (beBytes_injective (by have := x.isLt; omega) (by have := y.isLt; omega) same)

theorem be256_injective : Function.Injective be256 := by
  intro x y same
  exact Fin.ext (beBytes_injective (by have := x.isLt; omega) (by have := y.isLt; omega) same)

/-- `DeviceId(pub u128)`. -/
abbrev DeviceId := U128

/-- The identity of one operation: its author device and that device's counter. -/
structure OpId where
  device_id : DeviceId
  counter : U64
  deriving DecidableEq

def OpId.key (id : OpId) : U128 ×ₗ U64 := toLex (id.device_id, id.counter)

theorem OpId.key_injective : Function.Injective OpId.key := by
  rintro ⟨d, c⟩ ⟨d', c'⟩ same
  simpa [OpId.key] using same

instance : LinearOrder OpId := LinearOrder.lift' OpId.key OpId.key_injective

instance transCmpU64 : Std.TransCmp (@compare U64 LinearOrder.toOrd) := inferInstance

instance transCmpU128 : Std.TransCmp (@compare U128 LinearOrder.toOrd) := inferInstance

instance transCmpHash : Std.TransCmp (@compare Hash LinearOrder.toOrd) := inferInstance

instance transCmpOpId : Std.TransCmp (@compare OpId LinearOrder.toOrd) := inferInstance

/-- A reference to a chunk stored as a blob in the CAS. -/
structure ChunkRef where
  hash : Hash
  len : U32
  plain_len : U32
  offset : U64
  deriving DecidableEq

/-- A file key sealed to one recipient's X25519 public key. -/
structure SealedFileKey where
  ephemeral_pub : Hash
  nonce : Nonce
  ciphertext : Bytes
  deriving DecidableEq

/-- How a file's content key is protected, when its chunks hold ciphertext. -/
structure FileEncryption where
  sealed_key : Option Bytes
  recipients : List SealedFileKey
  recipients_digest : Option Hash
  deriving DecidableEq

end NexusFS.Proto
