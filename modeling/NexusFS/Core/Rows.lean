/- GID: NexusFS/Core/Rows
   source: crates/core/src/state.rs, crates/core/src/namespace.rs, crates/core/src/apply.rs,
     crates/core/src/snapshot.rs, crates/storage/src/mem_store.rs
   digest: The keys of the stored records, and the byte store behind the record maps. -/

import Mathlib.Data.List.Induction
import NexusFS.Core.Log
import NexusFS.Core.Postcard
import NexusFS.Core.Reachable
import NexusFS.Core.Snapshot
import NexusFS.Lib.Keyspace

/-!
The record maps of a `CoreState` are families of rows in an ordered byte store. Their keys are
tags followed by big-endian words, so families never mix and a scan lists each in key order.
-/

set_option autoImplicit false
set_option relaxedAutoImplicit false

namespace NexusFS.Core.Rows

open NexusFS.Lib NexusFS.Proto NexusFS.Crdt

def cfMeta : String := "meta"

def cfOplog : String := "oplog"

def cfState : String := "state"

def opPrefix : Bytes := ascii "op" ++ [0]

def appliedPrefix : Bytes := ascii "applied" ++ [0]

def pendingPrefix : Bytes := ascii "pending" ++ [0]

def dirPrefix : Bytes := ascii "dir" ++ [0]

def inodePrefix : Bytes := ascii "inode" ++ [0]

def imapPrefix : Bytes := ascii "imap" ++ [0]

def parentPrefix : Bytes := ascii "parent" ++ [0]

def opKey (device_id : DeviceId) (counter : U64) : Bytes :=
  opPrefix ++ be128 device_id ++ be64 counter

/-- `u128::from_be_bytes`. -/
def fromBe128 (bytes : Bytes) : U128 := Fin.ofNat _ (ofBytes bytes)

/-- `u64::from_be_bytes`. -/
def fromBe64 (bytes : Bytes) : U64 := Fin.ofNat _ (ofBytes bytes)

def parseOpKey (key : Bytes) : Option (DeviceId × U64) :=
  if !opPrefix.isPrefixOf key || key.length ≠ opPrefix.length + 16 + 8 then none
  else
    let did := (key.drop opPrefix.length).take 16
    let ctr := (key.drop (opPrefix.length + 16)).take 8
    some (fromBe128 did, fromBe64 ctr)

def appliedKey (device_id : DeviceId) (counter : U64) : Bytes :=
  appliedPrefix ++ be128 device_id ++ be64 counter

def pendingKey (op_id : OpId) : Bytes :=
  pendingPrefix ++ be128 op_id.device_id ++ be64 op_id.counter

def prefixedKey (tag : Bytes) (inode : U128) : Bytes := tag ++ be128 inode

def dirKey (inode : U128) : Bytes := prefixedKey dirPrefix inode

def imapKey (inode : U128) : Bytes := imapPrefix ++ be128 inode

def inodeFromKey (tag key : Bytes) : Option U128 :=
  if !tag.isPrefixOf key || key.length ≠ tag.length + 16 then none
  else some (fromBe128 (key.drop tag.length))

def parseImapKey (key : Bytes) : Option U128 := inodeFromKey imapPrefix key

def parentKey (inode : U128) : Bytes := parentPrefix ++ be128 inode

def inodeKey (inode : U128) : Bytes := prefixedKey inodePrefix inode

section Words

theorem be128_lt_iff (x y : U128) : be128 x < be128 y ↔ x < y := by
  refine (beBytes_lt_iff ?_ ?_).trans Fin.lt_def.symm
  · have := x.isLt
    omega
  · have := y.isLt
    omega

theorem be64_lt_iff (x y : U64) : be64 x < be64 y ↔ x < y := by
  refine (beBytes_lt_iff ?_ ?_).trans Fin.lt_def.symm
  · have := x.isLt
    omega
  · have := y.isLt
    omega

theorem fromBe128_be128 (x : U128) : fromBe128 (be128 x) = x := by
  apply Fin.ext
  have fits : x.val < 256 ^ 16 := by have := x.isLt; omega
  rw [fromBe128, be128, ofBytes_beBytes, Nat.mod_eq_of_lt fits, Fin.val_ofNat]
  exact Nat.mod_eq_of_lt x.isLt

theorem fromBe64_be64 (x : U64) : fromBe64 (be64 x) = x := by
  apply Fin.ext
  have fits : x.val < 256 ^ 8 := by have := x.isLt; omega
  rw [fromBe64, be64, ofBytes_beBytes, Nat.mod_eq_of_lt fits, Fin.val_ofNat]
  exact Nat.mod_eq_of_lt x.isLt

theorem be128_fromBe128 {bytes : Bytes} (width : bytes.length = 16) : be128 (fromBe128 bytes) = bytes := by
  have small := ofBytes_lt bytes
  have back := beBytes_ofBytes bytes
  rw [width] at small back
  rw [fromBe128, be128, Fin.val_ofNat, Nat.mod_eq_of_lt (by omega), back]

theorem be64_fromBe64 {bytes : Bytes} (width : bytes.length = 8) : be64 (fromBe64 bytes) = bytes := by
  have small := ofBytes_lt bytes
  have back := beBytes_ofBytes bytes
  rw [width] at small back
  rw [fromBe64, be64, Fin.val_ofNat, Nat.mod_eq_of_lt (by omega), back]

@[simp] theorem be128_length (x : U128) : (be128 x).length = 16 := beBytes_length 16 x.val

@[simp] theorem be64_length (x : U64) : (be64 x).length = 8 := beBytes_length 8 x.val

end Words

def opFamily (tag : Bytes) : KeyFamily OpId where
  tag := tag
  width := 24
  body id := be128 id.device_id ++ be64 id.counter
  read bytes := ⟨fromBe128 (bytes.take 16), fromBe64 (bytes.drop 16)⟩
  body_length id := by simp
  read_body id := by
    rw [List.take_left' (be128_length _), List.drop_left' (be128_length _), fromBe128_be128,
      fromBe64_be64]
  body_read bytes width := by
    rw [be128_fromBe128 (by simp [width]), be64_fromBe64 (by simp [width]), List.take_append_drop]
  body_lt id id' := by
    rw [Bytes.append_lt_append_iff (by simp), be128_lt_iff, be64_lt_iff, be128_injective.eq_iff]
    exact (Prod.Lex.lt_iff (x := id.key) (y := id'.key)).symm

def inodeFamily (tag : Bytes) : KeyFamily U128 where
  tag := tag
  width := 16
  body := be128
  read := fromBe128
  body_length := be128_length
  read_body := fromBe128_be128
  body_read _ width := be128_fromBe128 width
  body_lt := be128_lt_iff

theorem opKey_eq (id : OpId) : opKey id.device_id id.counter = (opFamily opPrefix).key id :=
  List.append_assoc _ _ _

theorem parseOpKey_eq (key : Bytes) :
    parseOpKey key = ((opFamily opPrefix).parse key).map fun id => (id.device_id, id.counter) := by
  by_cases refused : (!opPrefix.isPrefixOf key || decide (key.length ≠ opPrefix.length + 16 + 8)) = true
  · have left : parseOpKey key = none := if_pos refused
    have right : (opFamily opPrefix).parse key = none := if_pos refused
    rw [left, right, Option.map_none]
  · have left : parseOpKey key = some (fromBe128 ((key.drop opPrefix.length).take 16),
        fromBe64 ((key.drop (opPrefix.length + 16)).take 8)) := if_neg refused
    have right : (opFamily opPrefix).parse key =
        some ((opFamily opPrefix).read (key.drop opPrefix.length)) := if_neg refused
    have length : key.length = opPrefix.length + 16 + 8 := by
      by_contra other
      simp [other] at refused
    have whole : (key.drop (opPrefix.length + 16)).take 8 = key.drop (opPrefix.length + 16) :=
      List.take_of_length_le (by rw [List.length_drop]; omega)
    rw [left, right, Option.map_some, whole, ← List.drop_drop]
    rfl

/-- The record families of the log's column. -/
inductive OplogFamily where
  | op
  | applied
  | pending
  deriving DecidableEq

namespace OplogFamily

def tag : OplogFamily → Bytes
  | .op => opPrefix
  | .applied => appliedPrefix
  | .pending => pendingPrefix

def key : OplogFamily → OpId → Bytes
  | .op, id => opKey id.device_id id.counter
  | .applied, id => appliedKey id.device_id id.counter
  | .pending, id => pendingKey id

def keys (f : OplogFamily) : KeyFamily OpId := opFamily f.tag

@[simp] theorem keys_tag (f : OplogFamily) : f.keys.tag = f.tag := rfl

theorem key_eq (f : OplogFamily) (id : OpId) : f.key id = f.keys.key id := by
  cases f <;> exact List.append_assoc _ _ _

theorem tags_apart {f g : OplogFamily} (other : g ≠ f) : ¬f.tag <+: g.tag ∧ ¬g.tag <+: f.tag := by
  cases f <;> cases g <;> first | exact absurd rfl other | decide

theorem not_tag_prefix_key {f g : OplogFamily} (other : g ≠ f) (id : OpId) : ¬f.tag <+: g.key id := by
  rw [key_eq]
  exact f.keys.not_tag_prefix_key g.keys (tags_apart other) id

end OplogFamily

/-- The record families of the state column. -/
inductive StateFamily where
  | dir
  | inode
  | parent
  | imap
  deriving DecidableEq

namespace StateFamily

def tag : StateFamily → Bytes
  | .dir => dirPrefix
  | .inode => inodePrefix
  | .parent => parentPrefix
  | .imap => imapPrefix

def key : StateFamily → U128 → Bytes
  | .dir, i => dirKey i
  | .inode, i => inodeKey i
  | .parent, i => parentKey i
  | .imap, i => imapKey i

def keys (f : StateFamily) : KeyFamily U128 := inodeFamily f.tag

@[simp] theorem keys_tag (f : StateFamily) : f.keys.tag = f.tag := rfl

theorem key_eq (f : StateFamily) (i : U128) : f.key i = f.keys.key i := by
  cases f <;> rfl

theorem tags_apart {f g : StateFamily} (other : g ≠ f) : ¬f.tag <+: g.tag ∧ ¬g.tag <+: f.tag := by
  cases f <;> cases g <;> first | exact absurd rfl other | decide

theorem not_tag_prefix_key {f g : StateFamily} (other : g ≠ f) (i : U128) : ¬f.tag <+: g.key i := by
  rw [key_eq]
  exact f.keys.not_tag_prefix_key g.keys (tags_apart other) i

end StateFamily

section Reads

/-- The loop of `inode_map` over the rows of its scan. -/
def readImap : List (Bytes × Bytes) → Except String (List (U128 × Hash))
  | [] => .ok []
  | (key, value) :: rows =>
      match parseImapKey key, (if value.length = 32 then some (Fin.ofNat (2 ^ 256) (ofBytes value)) else none) with
      | some inode, some hash => (readImap rows).map ((inode, hash) :: ·)
      | _, _ => .error ("inode map holds a malformed entry: key " ++
          key.foldl (fun text byte => text ++ hexPadded 2 byte.toNat) "" ++ " (" ++
          toString key.length ++ " bytes), value " ++ toString value.length ++ " bytes")

/-- `inode_map` over the byte store. -/
def storedInodeMap (kv : KvMap) : Except String (List (U128 × Hash)) :=
  readImap (kv.scanPrefix cfState imapPrefix)

variable (ops : Codec FsOp)

def decodeOp (value : Bytes) : Except Err FsOp :=
  match ops.read value with
  | some op => .ok op
  | none => .error .postcardDecode

/-- `all_ops` over the byte store. -/
def storedOps (kv : KvMap) : Except Err (List FsOp) :=
  (kv.scanPrefix cfOplog opPrefix).mapM fun row => decodeOp ops row.2

/-- The loop of `ops_missing_for` over the rows of its scan. -/
def collectRows (remote : ClockSummary) (limit : Nat) :
    List (Bytes × Bytes) → List FsOp → Except Err (List FsOp)
  | [], out => .ok out
  | (key, value) :: rows, out =>
      match parseOpKey key with
      | none => collectRows remote limit rows out
      | some (did, ctr) =>
          if holdsCounter remote ⟨did, ctr⟩ then collectRows remote limit rows out
          else
            match decodeOp ops value with
            | .error e => .error e
            | .ok op =>
                if limit ≤ (out ++ [op]).length then .ok (out ++ [op])
                else collectRows remote limit rows (out ++ [op])

/-- `ops_missing_for` over the byte store. -/
def storedOpsMissingFor (kv : KvMap) (remote : ClockSummary) (limit : Nat) : Except Err (List FsOp) :=
  collectRows ops remote limit (kv.scanPrefix cfOplog opPrefix) []

end Reads

section Writes

/-- The writes of the core to the log's column, to the state column and to the column beside them. -/
inductive Write where
  | appendOp (op : FsOp)
  | markOpApplied (id : OpId)
  | storePending (op : FsOp)
  | clearPending (id : OpId)
  | storeDir (inode : U128) (map : DirMap)
  | storeInode (inode : U128) (record : InodeRecord)
  | setParent (inode parent : U128)
  | putImap (inode : U128) (hash : Hash)
  | drop (family : StateFamily) (inode : U128)
  | beside (key : Bytes) (value : Option Bytes)

variable (ops : Codec FsOp) (encodeDir : DirMap → Bytes) (encodeInode : InodeRecord → Bytes)

def Write.kv (kv : KvMap) : Write → KvMap
  | .appendOp op => kv.putKv cfOplog (opKey op.id.device_id op.id.counter) (ops.encode op)
  | .markOpApplied id => kv.putKv cfOplog (appliedKey id.device_id id.counter) [1]
  | .storePending op => kv.putKv cfOplog (pendingKey op.id) (ops.encode op)
  | .clearPending id => kv.deleteKv cfOplog (pendingKey id)
  | .storeDir inode map => kv.putKv cfState (dirKey inode) (encodeDir map)
  | .storeInode inode record => kv.putKv cfState (inodeKey inode) (encodeInode record)
  | .setParent inode parent => kv.putKv cfState (parentKey inode) (be128 parent)
  | .putImap inode hash => kv.putKv cfState (imapKey inode) (be256 hash)
  | .drop family inode => kv.deleteKv cfState (family.key inode)
  | .beside key value => kv.setKv cfMeta key value

def Write.core (s : CoreState) : Write → CoreState
  | .appendOp op => s.appendOp op
  | .markOpApplied id => s.markOpApplied id
  | .storePending op => s.storePending op
  | .clearPending id => s.clearPending id
  | .storeDir inode map => s.storeDir inode map
  | .storeInode inode record => s.storeInode inode record
  | .setParent inode parent => s.setParent inode parent
  | .putImap inode hash => s.putImap inode hash
  | .drop .dir inode => { s with dirs := s.dirs.erase inode }
  | .drop .inode inode => { s with inodes := s.inodes.erase inode }
  | .drop .parent inode => { s with parents := s.parents.erase inode }
  | .drop .imap inode => s.dropImap inode
  | .beside _ _ => s

def OplogFamily.rows (s : CoreState) : OplogFamily → OpId → Option Bytes
  | .op, id => s.oplog[id]?.map ops.encode
  | .applied, id => if id ∈ s.applied then some [1] else none
  | .pending, id => s.pending[id]?.map ops.encode

def StateFamily.rows (s : CoreState) : StateFamily → U128 → Option Bytes
  | .dir, i => s.dirs[i]?.map encodeDir
  | .inode, i => s.inodes[i]?.map encodeInode
  | .parent, i => s.parents[i]?.map be128
  | .imap, i => s.imap[i]?.map be256

/-- The byte store has the rows of the record maps, and no other rows under their tags. -/
structure Stored (kv : KvMap) (s : CoreState) : Prop where
  oplog : ∀ f : OplogFamily, Holds kv cfOplog f.keys (f.rows ops s)
  state : ∀ f : StateFamily, Holds kv cfState f.keys (f.rows encodeDir encodeInode s)

variable {ops encodeDir encodeInode} {kv : KvMap} {s t : CoreState}

theorem Stored.setOplog (stored : Stored ops encodeDir encodeInode kv s) (g : OplogFamily) (id : OpId)
    (value : Option Bytes) (own : g.rows ops t id = value)
    (others : ∀ a, a ≠ id → g.rows ops t a = g.rows ops s a)
    (rest : ∀ f : OplogFamily, f ≠ g → f.rows ops t = f.rows ops s)
    (same : ∀ f : StateFamily, f.rows encodeDir encodeInode t = f.rows encodeDir encodeInode s) :
    Stored ops encodeDir encodeInode (kv.setKv cfOplog (g.key id) value) t := by
  constructor
  · intro f
    by_cases equal : f = g
    · subst equal
      rw [f.key_eq]
      exact (stored.oplog f).set own others
    · rw [rest f equal]
      exact (stored.oplog f).set_apart
        (.inr (OplogFamily.not_tag_prefix_key (Ne.symm equal) id)) value
  · intro f
    rw [same f]
    exact (stored.state f).set_apart (.inl (by decide)) value

theorem Stored.setState (stored : Stored ops encodeDir encodeInode kv s) (g : StateFamily) (i : U128)
    (value : Option Bytes) (own : g.rows encodeDir encodeInode t i = value)
    (others : ∀ a, a ≠ i → g.rows encodeDir encodeInode t a = g.rows encodeDir encodeInode s a)
    (rest : ∀ f : StateFamily, f ≠ g →
      f.rows encodeDir encodeInode t = f.rows encodeDir encodeInode s)
    (same : ∀ f : OplogFamily, f.rows ops t = f.rows ops s) :
    Stored ops encodeDir encodeInode (kv.setKv cfState (g.key i) value) t := by
  constructor
  · intro f
    rw [same f]
    exact (stored.oplog f).set_apart (.inl (by decide)) value
  · intro f
    by_cases equal : f = g
    · subst equal
      rw [f.key_eq]
      exact (stored.state f).set own others
    · rw [rest f equal]
      exact (stored.state f).set_apart (.inr (StateFamily.not_tag_prefix_key (Ne.symm equal) i)) value

private theorem map_get_insert {A V : Type} [LinearOrder A] (m : BTreeMap A V) (enc : V → Bytes)
    (a : A) (v : V) : (m.insert a v)[a]?.map enc = some (enc v) := by
  rw [BTreeMap.get_insert, if_pos rfl, Option.map_some]

private theorem map_get_insert_of_ne {A V : Type} [LinearOrder A] (m : BTreeMap A V) (enc : V → Bytes)
    {a b : A} (v : V) (other : b ≠ a) : (m.insert a v)[b]?.map enc = m[b]?.map enc := by
  rw [BTreeMap.get_insert, if_neg (Ne.symm other)]

private theorem map_get_erase {A V : Type} [LinearOrder A] (m : BTreeMap A V) (enc : V → Bytes)
    (a : A) : (m.erase a)[a]?.map enc = none := by
  rw [BTreeMap.get_erase, if_pos rfl, Option.map_none]

private theorem map_get_erase_of_ne {A V : Type} [LinearOrder A] (m : BTreeMap A V) (enc : V → Bytes)
    {a b : A} (other : b ≠ a) : (m.erase a)[b]?.map enc = m[b]?.map enc := by
  rw [BTreeMap.get_erase, if_neg (Ne.symm other)]

theorem Stored.write (stored : Stored ops encodeDir encodeInode kv s) (w : Write) :
    Stored ops encodeDir encodeInode (w.kv ops encodeDir encodeInode kv) (w.core s) := by
  cases w with
  | appendOp op =>
      refine stored.setOplog .op op.id (some (ops.encode op)) (map_get_insert _ _ _ _) (fun _ => map_get_insert_of_ne _ _ _) ?_ ?_
      · rintro (_ | _ | _) other <;> trivial
      · intro f
        cases f <;> rfl
  | markOpApplied id =>
      have marked : id ∈ s.applied.insert id := Std.ExtTreeSet.mem_insert_self
      refine stored.setOplog .applied id (some [1]) (if_pos marked) ?_ ?_ ?_
      · intro a other
        have same : a ∈ s.applied.insert id ↔ a ∈ s.applied := by
          rw [BTreeSet.mem_insert]
          exact or_iff_right (Ne.symm other)
        exact if_congr same rfl rfl
      · rintro (_ | _ | _) other <;> trivial
      · intro f
        cases f <;> rfl
  | storePending op =>
      refine stored.setOplog .pending op.id (some (ops.encode op)) (map_get_insert _ _ _ _) (fun _ => map_get_insert_of_ne _ _ _) ?_ ?_
      · rintro (_ | _ | _) other <;> trivial
      · intro f
        cases f <;> rfl
  | clearPending id =>
      refine stored.setOplog .pending id none (map_get_erase _ _ _) (fun _ => map_get_erase_of_ne _ _) ?_ ?_
      · rintro (_ | _ | _) other <;> trivial
      · intro f
        cases f <;> rfl
  | storeDir inode map =>
      refine stored.setState .dir inode (some (encodeDir map)) (map_get_insert _ _ _ _) (fun _ => map_get_insert_of_ne _ _ _) ?_ ?_
      · rintro (_ | _ | _ | _) other <;> trivial
      · intro f
        cases f <;> rfl
  | storeInode inode record =>
      refine stored.setState .inode inode (some (encodeInode record)) (map_get_insert _ _ _ _) (fun _ => map_get_insert_of_ne _ _ _) ?_ ?_
      · rintro (_ | _ | _ | _) other <;> trivial
      · intro f
        cases f <;> rfl
  | setParent inode parent =>
      refine stored.setState .parent inode (some (be128 parent)) (map_get_insert _ _ _ _) (fun _ => map_get_insert_of_ne _ _ _) ?_ ?_
      · rintro (_ | _ | _ | _) other <;> trivial
      · intro f
        cases f <;> rfl
  | putImap inode hash =>
      refine stored.setState .imap inode (some (be256 hash)) (map_get_insert _ _ _ _) (fun _ => map_get_insert_of_ne _ _ _) ?_ ?_
      · rintro (_ | _ | _ | _) other <;> trivial
      · intro f
        cases f <;> rfl
  | drop family inode =>
      cases family with
      | dir =>
          refine stored.setState .dir inode none (map_get_erase _ _ _) (fun _ => map_get_erase_of_ne _ _) ?_ ?_
          · rintro (_ | _ | _ | _) other <;> trivial
          · intro f
            cases f <;> rfl
      | inode =>
          refine stored.setState .inode inode none (map_get_erase _ _ _) (fun _ => map_get_erase_of_ne _ _) ?_ ?_
          · rintro (_ | _ | _ | _) other <;> trivial
          · intro f
            cases f <;> rfl
      | parent =>
          refine stored.setState .parent inode none (map_get_erase _ _ _) (fun _ => map_get_erase_of_ne _ _) ?_ ?_
          · rintro (_ | _ | _ | _) other <;> trivial
          · intro f
            cases f <;> rfl
      | imap =>
          refine stored.setState .imap inode none (map_get_erase _ _ _) (fun _ => map_get_erase_of_ne _ _) ?_ ?_
          · rintro (_ | _ | _ | _) other <;> trivial
          · intro f
            cases f <;> rfl
  | beside key value =>
      exact ⟨fun f => (stored.oplog f).set_apart (.inl (by decide)) value,
        fun f => (stored.state f).set_apart (.inl (by decide)) value⟩

variable (ops encodeDir encodeInode) in
def runKv (ws : List Write) : KvMap := ws.foldl (Write.kv ops encodeDir encodeInode) ∅

def runCore (device_id : DeviceId) (ws : List Write) : CoreState :=
  ws.foldl Write.core (CoreState.new device_id)

theorem stored_empty (device_id : DeviceId) :
    Stored ops encodeDir encodeInode ∅ (CoreState.new device_id) := by
  constructor
  · intro f
    have none_there : f.rows ops (CoreState.new device_id) = fun _ => none := by
      funext id
      cases f <;> simp [OplogFamily.rows, CoreState.new, Std.ExtTreeSet.not_mem_empty]
    rw [none_there]
    exact Holds.empty cfOplog f.keys
  · intro f
    have none_there : f.rows encodeDir encodeInode (CoreState.new device_id) = fun _ => none := by
      funext i
      cases f <;> simp [StateFamily.rows, CoreState.new]
    rw [none_there]
    exact Holds.empty cfState f.keys

theorem stored_run (device_id : DeviceId) (ws : List Write) :
    Stored ops encodeDir encodeInode (runKv ops encodeDir encodeInode ws) (runCore device_id ws) := by
  induction ws using List.reverseRecOn with
  | nil => exact stored_empty device_id
  | append_singleton ws w ih =>
      have last := ih.write w
      rw [runKv, runCore, List.foldl_append, List.foldl_append]
      exact last

theorem keyed_run (device_id : DeviceId) (ws : List Write) {id : OpId} {op : FsOp}
    (here : (runCore device_id ws).oplog[id]? = some op) : op.id = id := by
  induction ws using List.reverseRecOn with
  | nil =>
      have empty : (∅ : BTreeMap OpId FsOp)[id]? = some op := here
      rw [Std.ExtTreeMap.getElem?_empty] at empty
      cases empty
  | append_singleton ws w ih =>
      rw [runCore, List.foldl_append] at here
      cases w with
      | appendOp other =>
          have inserted : ((runCore device_id ws).oplog.insert other.id other)[id]? = some op := here
          rw [BTreeMap.get_insert] at inserted
          split at inserted
          · rename_i same
            rw [← Option.some.inj inserted]
            exact same
          · exact ih inserted
      | drop family inode => cases family <;> exact ih here
      | _ => exact ih here

def LastOf (touches : Write → Prop) (w : Write) (ws : List Write) : Prop :=
  ∃ before after, ws = before ++ w :: after ∧ ∀ v ∈ after, ¬touches v

def Write.Logs (id : OpId) : Write → Prop
  | .appendOp op => op.id = id
  | _ => False

def Write.Maps (inode : U128) : Write → Prop
  | .putImap i _ => i = inode
  | .drop .imap i => i = inode
  | _ => False

theorem not_lastOf_nil (touches : Write → Prop) (w : Write) : ¬LastOf touches w [] := by
  rintro ⟨before, after, split, -⟩
  exact List.append_ne_nil_of_right_ne_nil _ (List.cons_ne_nil _ _) split.symm

theorem lastOf_concat {touches : Write → Prop} {w v : Write} {ws : List Write} :
    LastOf touches w (ws ++ [v]) ↔ v = w ∨ LastOf touches w ws ∧ ¬touches v := by
  constructor
  · rintro ⟨before, after, split, quiet⟩
    rcases List.eq_nil_or_concat after with rfl | ⟨front, last, rfl⟩
    · exact .inl (List.singleton_inj.mp (List.append_inj' split rfl).2)
    · rw [List.concat_eq_append, ← List.cons_append, ← List.append_assoc] at split
      obtain ⟨rest, same⟩ := List.append_inj' split rfl
      obtain rfl := List.singleton_inj.mp same
      refine .inr ⟨⟨before, front, rest, fun x inside => quiet x ?_⟩, quiet v ?_⟩
      · rw [List.concat_eq_append]
        exact List.mem_append_left _ inside
      · rw [List.concat_eq_append]
        exact List.mem_append_right _ (List.mem_singleton_self v)
  · rintro (rfl | ⟨⟨before, after, rfl, quiet⟩, still⟩)
    · exact ⟨ws, [], rfl, fun x none => by cases none⟩
    · refine ⟨before, after ++ [v], by rw [List.append_assoc, List.cons_append], fun x inside => ?_⟩
      rcases List.mem_append.mp inside with earlier | last
      · exact quiet x earlier
      · rw [List.mem_singleton.mp last]
        exact still

private theorem iff_kept {row made touched : Prop} (other : ¬made) (quiet : ¬touched) :
    row ↔ made ∨ row ∧ ¬touched := by
  simp [other, quiet]

theorem oplog_run (device_id : DeviceId) (ws : List Write) (op : FsOp) :
    (runCore device_id ws).oplog[op.id]? = some op ↔ LastOf (Write.Logs op.id) (.appendOp op) ws := by
  induction ws using List.reverseRecOn with
  | nil =>
      refine iff_of_false (fun here => ?_) (not_lastOf_nil _ _)
      have empty : (∅ : BTreeMap OpId FsOp)[op.id]? = some op := here
      rw [Std.ExtTreeMap.getElem?_empty] at empty
      cases empty
  | append_singleton ws w ih =>
      rw [lastOf_concat, ← ih, runCore, List.foldl_append]
      cases w with
      | appendOp other =>
          show ((runCore device_id ws).oplog.insert other.id other)[op.id]? = some op ↔ _
          rw [BTreeMap.get_insert]
          split
          · rename_i same
            simp [Write.Logs, same]
          · rename_i apart
            have differs : other ≠ op := fun same => apart (same ▸ rfl)
            simp [Write.Logs, apart, differs]
      | drop family inode => cases family <;> exact iff_kept (by rintro ⟨⟩) id
      | _ => exact iff_kept (by rintro ⟨⟩) id

theorem imap_run (device_id : DeviceId) (ws : List Write) (inode : U128) (hash : Hash) :
    (runCore device_id ws).imap[inode]? = some hash ↔
      LastOf (Write.Maps inode) (.putImap inode hash) ws := by
  induction ws using List.reverseRecOn with
  | nil =>
      refine iff_of_false (fun here => ?_) (not_lastOf_nil _ _)
      have empty : (∅ : BTreeMap U128 Hash)[inode]? = some hash := here
      rw [Std.ExtTreeMap.getElem?_empty] at empty
      cases empty
  | append_singleton ws w ih =>
      rw [lastOf_concat, ← ih, runCore, List.foldl_append]
      cases w with
      | putImap other value =>
          show ((runCore device_id ws).imap.insert other value)[inode]? = some hash ↔ _
          rw [BTreeMap.get_insert]
          by_cases same : other = inode <;> simp [Write.Maps, same]
      | drop family other =>
          cases family with
          | imap =>
              show ((runCore device_id ws).imap.erase other)[inode]? = some hash ↔ _
              rw [BTreeMap.get_erase]
              by_cases same : other = inode <;> simp [Write.Maps, same]
          | _ => exact iff_kept (by rintro ⟨⟩) id
      | _ => exact iff_kept (by rintro ⟨⟩) id

end Writes

section Scans

variable {ops : Codec FsOp} {encodeDir : DirMap → Bytes} {encodeInode : InodeRecord → Bytes}
  {kv : KvMap} {s : CoreState}

private theorem readImap_rows (l : List (U128 × Hash)) :
    readImap (l.map fun row => (StateFamily.imap.keys.key row.1, be256 row.2)) = .ok l := by
  induction l with
  | nil => rfl
  | cons row l ih =>
      obtain ⟨inode, hash⟩ := row
      have parsed : parseImapKey (StateFamily.imap.keys.key inode) = some inode :=
        StateFamily.imap.keys.parse_key inode
      have width : (be256 hash).length = 32 := beBytes_length 32 hash.val
      have value : Fin.ofNat (2 ^ 256) (ofBytes (be256 hash)) = hash := by
        apply Fin.ext
        have fits : hash.val < 256 ^ 32 := by have := hash.isLt; omega
        rw [be256, ofBytes_beBytes, Nat.mod_eq_of_lt fits, Fin.val_ofNat]
        exact Nat.mod_eq_of_lt hash.isLt
      rw [List.map_cons, readImap, parsed, if_pos width, value, ih]
      rfl

theorem Stored.inodeMap (stored : Stored ops encodeDir encodeInode kv s) :
    storedInodeMap kv = .ok (Core.inodeMap s) := by
  have scanned := (stored.state .imap).scanPrefix
  unfold storedInodeMap
  rw [show imapPrefix = StateFamily.imap.keys.tag from rfl, scanned]
  exact readImap_rows s.imap.toList

@[simp] theorem decodeOp_encode (op : FsOp) : decodeOp ops (ops.encode op) = .ok op := by
  rw [decodeOp, ops.read_encode]

private theorem mapM_rows (l : List (OpId × FsOp)) :
    ((l.map fun row => (OplogFamily.op.keys.key row.1, ops.encode row.2)).mapM
      fun row => decodeOp ops row.2) = .ok (l.map Prod.snd) := by
  induction l with
  | nil => rfl
  | cons row l ih =>
      rw [List.map_cons, List.mapM_cons, decodeOp_encode, ih]
      rfl

theorem Stored.allOps (stored : Stored ops encodeDir encodeInode kv s) :
    storedOps ops kv = .ok (s.oplog.toList.map Prod.snd) := by
  have scanned := (stored.oplog .op).scanPrefix
  unfold storedOps
  rw [show opPrefix = OplogFamily.op.keys.tag from rfl, scanned]
  exact mapM_rows s.oplog.toList

private theorem collectRows_rows (remote : ClockSummary) (limit : Nat) (l : List (OpId × FsOp))
    (out : List FsOp) :
    collectRows ops remote limit
      (l.map fun row => (OplogFamily.op.keys.key row.1, ops.encode row.2)) out =
        .ok (collectMissing remote limit l out) := by
  induction l generalizing out with
  | nil => rfl
  | cons row l ih =>
      obtain ⟨id, op⟩ := row
      have parsed : parseOpKey (OplogFamily.op.keys.key id) = some (id.device_id, id.counter) := by
        rw [parseOpKey_eq]
        exact congrArg (Option.map fun id => (id.device_id, id.counter)) (OplogFamily.op.keys.parse_key id)
      rw [List.map_cons, collectRows, parsed, collectMissing]
      dsimp only
      rw [decodeOp_encode]
      split
      · exact ih out
      · dsimp only
        split
        · rfl
        · exact ih (out ++ [op])

theorem Stored.opsMissingFor (stored : Stored ops encodeDir encodeInode kv s) (remote : ClockSummary)
    (limit : Nat) : storedOpsMissingFor ops kv remote limit = .ok (Core.opsMissingFor s remote limit) := by
  have scanned := (stored.oplog .op).scanPrefix
  unfold storedOpsMissingFor
  rw [show opPrefix = OplogFamily.op.keys.tag from rfl, scanned]
  exact collectRows_rows remote limit s.oplog.toList []

private theorem readImap_keys {rows : List (Bytes × Bytes)} {out : List (U128 × Hash)}
    (read : readImap rows = .ok out) : rows.map Prod.fst = out.map fun e => imapKey e.1 := by
  induction rows generalizing out with
  | nil =>
      cases read
      rfl
  | cons row rows ih =>
      obtain ⟨key, value⟩ := row
      unfold readImap at read
      split at read
      · rename_i inode hash parsed _
        cases rest : readImap rows with
        | error e =>
            rw [rest] at read
            cases read
        | ok later =>
            rw [rest] at read
            cases read
            have named : key = imapKey inode := (inodeFamily imapPrefix).parse_eq_some.mp parsed
            rw [List.map_cons, List.map_cons, ih rest, named]
      · cases read

theorem storedInodeMap_sorted {out : List (U128 × Hash)} (read : storedInodeMap kv = .ok out) :
    out.Pairwise fun a b => a.1 < b.1 := by
  have sorted := kv.scanPrefix_sorted cfState imapPrefix
  have keys := readImap_keys read
  have by_key : (out.map fun e => imapKey e.1).Pairwise (· < ·) := by
    rw [← keys, List.pairwise_map]
    exact sorted
  exact (List.pairwise_map.mp by_key).imp fun less => (inodeFamily imapPrefix).key_lt_key.mp less

def Ascending (l : List FsOp) : Prop :=
  l.Pairwise fun a b => a.id.device_id = b.id.device_id → a.id.counter < b.id.counter

theorem mem_log (keyed : ∀ {id : OpId} {op : FsOp}, s.oplog[id]? = some op → op.id = id) {op : FsOp} :
    op ∈ s.oplog.toList.map Prod.snd ↔ s.oplog[op.id]? = some op := by
  constructor
  · intro member
    obtain ⟨⟨id, found⟩, row, rfl⟩ := List.mem_map.mp member
    have held := (s.oplog.mem_toList _ _).mp row
    rw [keyed held]
    exact held
  · exact fun held => List.mem_map.mpr ⟨(op.id, op), (s.oplog.mem_toList _ _).mpr held, rfl⟩

theorem uncovered_eq (keyed : ∀ {id : OpId} {op : FsOp}, s.oplog[id]? = some op → op.id = id)
    (remote : ClockSummary) : uncovered s remote =
      (s.oplog.toList.map Prod.snd).filter fun op => !holdsCounter remote op.id := by
  rw [uncovered, List.filter_map]
  refine congrArg (List.map Prod.snd) (List.filter_congr fun row inside => ?_)
  have held := (s.oplog.mem_toList _ _).mp inside
  rw [Function.comp_apply, keyed held]

theorem ascending_log (keyed : ∀ {id : OpId} {op : FsOp}, s.oplog[id]? = some op → op.id = id) :
    Ascending (s.oplog.toList.map Prod.snd) := by
  refine List.pairwise_map.mpr ((BTreeMap.sorted_toList s.oplog).imp_of_mem ?_)
  rintro ⟨id, op⟩ ⟨id', op'⟩ here there order same
  obtain rfl := keyed ((s.oplog.mem_toList _ _).mp here)
  obtain rfl := keyed ((s.oplog.mem_toList _ _).mp there)
  rcases Prod.Lex.lt_iff.mp order with less | ⟨-, less⟩
  · exact absurd same less.ne
  · exact less

private theorem collectMissing_sublist (remote : ClockSummary) (limit : Nat)
    (rows : List (OpId × FsOp)) (out : List FsOp) :
    ∃ l, collectMissing remote limit rows out = out ++ l ∧ l.Sublist (rows.map Prod.snd) := by
  induction rows generalizing out with
  | nil => exact ⟨[], (List.append_nil out).symm, List.Sublist.slnil⟩
  | cons row rows ih =>
      obtain ⟨id, op⟩ := row
      unfold collectMissing
      split
      · obtain ⟨l, is_it, inside⟩ := ih out
        exact ⟨l, is_it, inside.cons op⟩
      · split
        · exact ⟨[op], rfl, (List.nil_sublist _).cons_cons op⟩
        · obtain ⟨l, is_it, inside⟩ := ih (out ++ [op])
          exact ⟨op :: l, by rw [is_it, List.append_assoc, List.singleton_append], inside.cons_cons op⟩

theorem ascending_missing (keyed : ∀ {id : OpId} {op : FsOp}, s.oplog[id]? = some op → op.id = id)
    (remote : ClockSummary) (limit : Nat) : Ascending (Core.opsMissingFor s remote limit) := by
  obtain ⟨l, is_it, inside⟩ := collectMissing_sublist remote limit s.oplog.toList []
  rw [Core.opsMissingFor, is_it]
  exact (ascending_log keyed).sublist inside

end Scans

/-- Keys of the stored records name what they encode, keep its order and stay in their family; so the
inode map is read sorted, and the log device by device in counter order. -/
theorem keys_apart_and_in_order (ops : Codec FsOp) (encodeDir : DirMap → Bytes)
    (encodeInode : InodeRecord → Bytes) :
    (∀ f : OplogFamily, Function.Injective f.key ∧ (∀ id, f.keys.parse (f.key id) = some id) ∧
      (∀ id id', f.key id < f.key id' ↔ id.device_id < id'.device_id ∨
        id.device_id = id'.device_id ∧ id.counter < id'.counter) ∧
      ∀ g, g ≠ f → ∀ kv : KvMap, ∀ row ∈ kv.scanPrefix cfOplog f.tag, ∀ id, row.1 ≠ g.key id) ∧
    (∀ device_id counter, parseOpKey (opKey device_id counter) = some (device_id, counter)) ∧
    (∀ f : StateFamily, Function.Injective f.key ∧ (∀ i, inodeFromKey f.tag (f.key i) = some i) ∧
      (∀ i i', f.key i < f.key i' ↔ i < i') ∧
      ∀ g, g ≠ f → ∀ kv : KvMap, ∀ row ∈ kv.scanPrefix cfState f.tag, ∀ i, row.1 ≠ g.key i) ∧
    (∀ i, parseImapKey (imapKey i) = some i) ∧
    (∀ kv out, storedInodeMap kv = .ok out → out.Pairwise fun a b => a.1 < b.1) ∧
    ∀ ws : List Write,
      (∃ rows, storedInodeMap (runKv ops encodeDir encodeInode ws) = .ok rows ∧
        ∀ inode hash, (inode, hash) ∈ rows ↔ LastOf (Write.Maps inode) (.putImap inode hash) ws) ∧
      ∃ all, storedOps ops (runKv ops encodeDir encodeInode ws) = .ok all ∧ Ascending all ∧
        (∀ op, op ∈ all ↔ LastOf (Write.Logs op.id) (.appendOp op) ws) ∧
        ∀ remote limit, ∃ missing,
          storedOpsMissingFor ops (runKv ops encodeDir encodeInode ws) remote limit = .ok missing ∧
            Ascending missing ∧
            (0 < limit → missing = (all.filter fun op => !holdsCounter remote op.id).take limit) := by
  refine ⟨fun f => ⟨?_, ?_, ?_, ?_⟩, ?_, fun f => ⟨?_, ?_, ?_, ?_⟩, ?_, ?_, fun ws => ?_⟩
  · rw [funext f.key_eq]
    exact f.keys.key_injective
  · intro id
    rw [f.key_eq]
    exact f.keys.parse_key id
  · intro id id'
    rw [f.key_eq, f.key_eq, f.keys.key_lt_key]
    exact Prod.Lex.lt_iff (x := id.key) (y := id'.key)
  · intro g other kv row member id same
    have begins := ((kv.mem_scanPrefix cfOplog).mp (Prod.eta row ▸ member)).2
    exact OplogFamily.not_tag_prefix_key other id (same ▸ begins)
  · intro device_id counter
    rw [parseOpKey_eq, opKey_eq ⟨device_id, counter⟩, KeyFamily.parse_key]
    rfl
  · rw [funext f.key_eq]
    exact f.keys.key_injective
  · intro i
    rw [f.key_eq]
    exact f.keys.parse_key i
  · intro i i'
    rw [f.key_eq, f.key_eq]
    exact f.keys.key_lt_key
  · intro g other kv row member i same
    have begins := ((kv.mem_scanPrefix cfState).mp (Prod.eta row ▸ member)).2
    exact StateFamily.not_tag_prefix_key other i (same ▸ begins)
  · exact fun i => (inodeFamily imapPrefix).parse_key i
  · exact fun kv out read => storedInodeMap_sorted read
  · have stored := @stored_run ops encodeDir encodeInode 0 ws
    have keyed := @keyed_run 0 ws
    refine ⟨⟨_, stored.inodeMap, fun inode hash => ?_⟩, _, stored.allOps, ascending_log keyed,
      fun op => ?_, fun remote limit => ⟨_, stored.opsMissingFor remote limit,
        ascending_missing keyed remote limit, fun room => ?_⟩⟩
    · rw [Core.inodeMap, BTreeMap.mem_toList]
      exact imap_run 0 ws inode hash
    · rw [← oplog_run 0 ws op]
      exact mem_log keyed
    · rw [opsMissingFor_eq _ remote room, uncovered_eq keyed]

/-- Two operations of device 7 appended out of order, the first of them twice, and two rows of the inode
map, of which one is dropped again. -/
def sampleWrites : List Write :=
  [.appendOp (sampleOp 2 (.mkdir rootInode "b" 0)), .appendOp (sampleOp 1 (.mkdir rootInode "old" 0)),
    .putImap 5 1, .putImap 2 1, .appendOp (sampleOp 1 (.mkdir rootInode "a" 0)), .drop .imap 5]

theorem keys_apart_and_in_order_sample :
    (∃ rows, storedInodeMap (runKv Postcard.op (fun _ => []) (fun _ => []) sampleWrites) = .ok rows ∧
      (2, 1) ∈ rows ∧ (5, 1) ∉ rows) ∧
    ∃ all, storedOps Postcard.op (runKv Postcard.op (fun _ => []) (fun _ => []) sampleWrites) = .ok all ∧
      Ascending all ∧ sampleOp 1 (.mkdir rootInode "a" 0) ∈ all ∧
      sampleOp 2 (.mkdir rootInode "b" 0) ∈ all ∧ sampleOp 1 (.mkdir rootInode "old" 0) ∉ all := by
  obtain ⟨-, -, -, -, -, reads⟩ := keys_apart_and_in_order Postcard.op (fun _ => []) fun _ => []
  obtain ⟨⟨rows, mapped, row⟩, all, listed, ascending, logged, -⟩ := reads sampleWrites
  refine ⟨⟨rows, mapped, (row 2 1).mpr ?_, fun here => ?_⟩, all, listed, ascending,
    (logged _).mpr ?_, (logged _).mpr ?_, fun here => ?_⟩
  · exact (imap_run 0 sampleWrites 2 1).mp (by decide +kernel)
  · exact absurd ((imap_run 0 sampleWrites 5 1).mpr ((row 5 1).mp here)) (by decide +kernel)
  · exact (oplog_run 0 sampleWrites _).mp (by decide +kernel)
  · exact (oplog_run 0 sampleWrites _).mp (by decide +kernel)
  · exact absurd ((oplog_run 0 sampleWrites _).mpr ((logged _).mp here)) (by decide +kernel)

end NexusFS.Core.Rows
