/- GID: NexusFS/Proto/Op
   source: crates/proto/src/op.rs, crates/proto/src/msg.rs
   digest: Signed filesystem operations, their proof bundles, and clock summaries. -/

import NexusFS.Proto.Types

set_option autoImplicit false
set_option relaxedAutoImplicit false

namespace NexusFS.Proto

open NexusFS.Lib

inductive ProofMode where
  | none
  | transparent
  | zkCommit
  | zkFull
  deriving DecidableEq

structure ProofBundle where
  mode : ProofMode
  bytes : Bytes
  deriving DecidableEq

structure CausalCtx where
  deps : List OpId
  deriving DecidableEq

/-- What an operation does. Removals and renames name the entries their author saw. -/
inductive FsOpKind where
  | createFile (parent : U128) (name : String) (mode : U32)
  | mkdir (parent : U128) (name : String) (mode : U32)
  | write (inode : U128) (offset : U64) (chunks : List ChunkRef) (new_size : U64)
      (encryption : Option FileEncryption)
  | rename (old_parent : U128) (old_name : String) (new_parent : U128) (new_name : String)
      (observed : List OpId)
  | unlink (parent : U128) (name : String) (observed : List OpId)
  | setAttr (inode : U128) (mode uid gid : Option U32)
  deriving DecidableEq

structure FsOp where
  id : OpId
  time_unix_ms : U64
  ctx : CausalCtx
  kind : FsOpKind
  author_pubkey : Hash
  sig : Bytes
  proof : Option ProofBundle
  deriving DecidableEq

/-- The part of an operation its signature covers: everything except the signature. -/
structure FsOpToSign where
  id : OpId
  time_unix_ms : U64
  ctx : CausalCtx
  kind : FsOpKind
  author_pubkey : Hash
  proof : Option ProofBundle
  deriving DecidableEq

def FsOp.toSign (op : FsOp) : FsOpToSign where
  id := op.id
  time_unix_ms := op.time_unix_ms
  ctx := op.ctx
  kind := op.kind
  author_pubkey := op.author_pubkey
  proof := op.proof

/-- What a node already holds, per device: the contiguous watermark, and the counters held
above it. -/
structure ClockSummary where
  entries : List (DeviceId × U64)
  above : List (DeviceId × List U64)
  deriving DecidableEq

end NexusFS.Proto
