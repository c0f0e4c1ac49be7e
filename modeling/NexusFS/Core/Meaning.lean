/- GID: NexusFS/Core/Meaning
   source: crates/core/src/apply.rs
   digest: What a set of applied operations means, read off the operations without an order. -/

import NexusFS.Core.Reachable
import Mathlib.Data.Finset.Max

/-!
`ops` is a finite batch of operations and `done` the ids of those that have been
applied. Links, removals and records are read off `ops` and `done` alone, and so
is what the applied operations enable. All of it grows with `done`.
-/

set_option autoImplicit false
set_option relaxedAutoImplicit false

namespace NexusFS.Core

open NexusFS.Lib NexusFS.Lib.Effect NexusFS.Proto NexusFS.Crdt CoreState

def batchIds (ops : Finset FsOp) : Set OpId := {id | ∃ op ∈ ops, op.id = id}

def makesDir (op : FsOp) : Bool :=
  match op.kind with
  | .mkdir _ _ _ => true
  | _ => false

def IsTop (observed : List OpId) (dot : Dot) : Prop := dot ∈ observed ∧ ∀ d ∈ observed, d ≤ dot

theorem IsTop.unique {observed : List OpId} {a b : Dot} (left : IsTop observed a)
    (right : IsTop observed b) : a = b :=
  le_antisymm (right.2 a left.1) (left.2 b right.1)

theorem exists_isTop {observed : List OpId} (some_seen : observed ≠ []) :
    ∃ dot, IsTop observed dot := by
  obtain ⟨dot, member⟩ := List.exists_mem_of_ne_nil observed some_seen
  obtain ⟨top, inside, above⟩ := Finset.exists_max_image observed.toFinset id
    ⟨dot, List.mem_toFinset.mpr member⟩
  exact ⟨top, List.mem_toFinset.mp inside, fun d here => above d (List.mem_toFinset.mpr here)⟩

section Meaning

variable (env : Env) (ops : Finset FsOp) (done : Set OpId)

/-- The record an inode starts from. -/
inductive Born : U128 → InodeRecord → Prop
  | root : Born rootInode genesisRecord
  | created {op : FsOp} {kind : EntryType} {parent : U128} {name : String} {mode : U32}
      (member : op ∈ ops) (applied : op.id ∈ done)
      (shape : op.kind = creation kind parent name mode) :
      Born (inodeForOp env op.id)
        (InodeRecord.new kind mode op.time_unix_ms op.id.device_id op.id.counter)

def MadeDir (inode : U128) : Prop := ∃ record, Born env ops done inode record ∧ record.kind = .dir

def Writes (inode : U128) (register : LwwReg ContentState) : Prop :=
  ∃ op ∈ ops, op.id ∈ done ∧ ∃ offset chunks new_size encryption,
    op.kind = .write inode offset chunks new_size encryption ∧
      register = contentOf op
        (objectHash env (fileObject chunks new_size op.time_unix_ms encryption)) new_size

def Sets (inode : U128) (register : LwwReg AttrState) : Prop :=
  ∃ op ∈ ops, op.id ∈ done ∧ ∃ mode uid gid,
    op.kind = .setAttr inode (some mode) (some uid) (some gid) ∧
      register = ⟨⟨mode, uid, gid⟩, op.time_unix_ms, op.id.device_id, op.id.counter⟩

/-- The links: a creation adds its inode, a rename adds what its highest observed dot added. -/
inductive Adds : U128 → String → Dot → DirEntryValue → Prop
  | created {op : FsOp} {kind : EntryType} {parent : U128} {name : String} {mode : U32}
      (member : op ∈ ops) (applied : op.id ∈ done)
      (shape : op.kind = creation kind parent name mode) :
      Adds parent name op.id (createdValue env op kind)
  | moved {op : FsOp} {old_parent new_parent : U128} {old_name new_name : String}
      {observed : List OpId} {top : Dot} {value : DirEntryValue}
      (member : op ∈ ops) (applied : op.id ∈ done)
      (shape : op.kind = .rename old_parent old_name new_parent new_name observed)
      (highest : IsTop observed top) (source : Adds old_parent old_name top value) :
      Adds new_parent new_name op.id (movedValue op value)

def RemovesDot (op : FsOp) (parent : U128) (name : String) (dot : Dot) : Prop :=
  ∃ observed, dot ∈ observed ∧ (op.kind = .unlink parent name observed ∨
    ∃ new_parent new_name, op.kind = .rename parent name new_parent new_name observed)

def Removes (parent : U128) (name : String) (dot : Dot) : Prop :=
  ∃ op ∈ ops, op.id ∈ done ∧ RemovesDot op parent name dot

def Enabled (op : FsOp) : Prop :=
  match op.kind with
  | .mkdir parent name _ | .createFile parent name _ =>
      validateName name = .ok () ∧ MadeDir env ops done parent
  | .write inode _ _ _ _ => ∃ record, Born env ops done inode record ∧ record.kind = .file
  | .setAttr inode _ _ _ => ∃ record, Born env ops done inode record
  | .unlink parent _ _ => MadeDir env ops done parent
  | .rename old_parent old_name new_parent new_name observed =>
      validateName new_name = .ok () ∧ MadeDir env ops done old_parent ∧
        MadeDir env ops done new_parent ∧
        ∀ top, IsTop observed top → ∃ value, Adds env ops done old_parent old_name top value

def ClosedUnder : Prop := ∀ op ∈ ops, Enabled env ops done op → op.id ∈ done

end Meaning

def Hopeless (op : FsOp) : Prop :=
  match op.kind with
  | .mkdir _ name _ | .createFile _ name _ => validateName name ≠ .ok ()
  | .rename _ _ _ new_name _ => validateName new_name ≠ .ok ()
  | .write inode _ _ _ _ => inode = rootInode
  | _ => False

/-- Writes cover their whole file and name no directory of the batch, and attribute changes set
all three attributes. -/
def Tame (env : Env) (ops : Finset FsOp) (op : FsOp) : Prop :=
  match op.kind with
  | .write inode offset chunks new_size _ =>
      offset = 0 ∧ chunksFormWholeFile chunks new_size = true ∧
        ∀ other ∈ ops, makesDir other = true → inodeForOp env other.id ≠ inode
  | .setAttr _ mode uid gid => mode.isSome ∧ uid.isSome ∧ gid.isSome
  | _ => True

/-- A finite set of validly signed, tame operations with different ids, which inode allocation
separates. -/
structure Batch (env : Env) (ops : Finset FsOp) : Prop where
  signed : ∀ op ∈ ops, verifyOp env op = .ok ()
  distinct : ∀ {a b}, a ∈ ops → b ∈ ops → a.id = b.id → a = b
  separate : Set.InjOn (inodeForOp env) (batchIds ops)
  tame : ∀ op ∈ ops, Tame env ops op

def FewDirs (ops : Finset FsOp) : Prop :=
  (ops.filter fun op => makesDir op = true).card < maxTreeNodes

instance (ops : Finset FsOp) : Decidable (FewDirs ops) :=
  inferInstanceAs (Decidable ((ops.filter fun op => makesDir op = true).card < maxTreeNodes))

section Facts

variable {env : Env} {ops : Finset FsOp} {done later : Set OpId}

theorem Batch.inodes_apart (batch : Batch env ops) {a b : FsOp} (left : a ∈ ops) (right : b ∈ ops)
    (same : inodeForOp env a.id = inodeForOp env b.id) : a = b :=
  batch.distinct left right (batch.separate ⟨a, left, rfl⟩ ⟨b, right, rfl⟩ same)

theorem Born.mono {inode : U128} {record : InodeRecord} (born : Born env ops done inode record)
    (grows : done ⊆ later) : Born env ops later inode record := by
  cases born with
  | root => exact .root
  | created member applied shape => exact .created member (grows applied) shape

theorem MadeDir.mono {inode : U128} (made : MadeDir env ops done inode) (grows : done ⊆ later) :
    MadeDir env ops later inode := by
  obtain ⟨record, born, kind⟩ := made
  exact ⟨record, born.mono grows, kind⟩

theorem Adds.mono {p : U128} {n : String} {d : Dot} {v : DirEntryValue}
    (adds : Adds env ops done p n d v) (grows : done ⊆ later) : Adds env ops later p n d v := by
  induction adds with
  | created member applied shape => exact .created member (grows applied) shape
  | moved member applied shape highest _ ih => exact .moved member (grows applied) shape highest ih

theorem Enabled.mono {op : FsOp} (enabled : Enabled env ops done op) (grows : done ⊆ later) :
    Enabled env ops later op := by
  unfold Enabled at enabled ⊢
  cases kind : op.kind with
  | mkdir parent name mode =>
      simp only [kind] at enabled
      exact ⟨enabled.1, enabled.2.mono grows⟩
  | createFile parent name mode =>
      simp only [kind] at enabled
      exact ⟨enabled.1, enabled.2.mono grows⟩
  | write inode offset chunks new_size encryption =>
      simp only [kind] at enabled
      obtain ⟨record, born, file⟩ := enabled
      exact ⟨record, born.mono grows, file⟩
  | setAttr inode mode uid gid =>
      simp only [kind] at enabled
      obtain ⟨record, born⟩ := enabled
      exact ⟨record, born.mono grows⟩
  | unlink parent name observed =>
      simp only [kind] at enabled
      exact enabled.mono grows
  | rename old_parent old_name new_parent new_name observed =>
      simp only [kind] at enabled
      obtain ⟨valid, source, target, seen⟩ := enabled
      refine ⟨valid, source.mono grows, target.mono grows, fun top highest => ?_⟩
      obtain ⟨value, adds⟩ := seen top highest
      exact ⟨value, adds.mono grows⟩

theorem Batch.born_unique (batch : Batch env ops) {i : U128} {x y : InodeRecord}
    (left : Born env ops done i x) (right : Born env ops done i y) : x = y := by
  generalize at_i : i = j at right
  cases left with
  | root =>
      cases right with
      | root => rfl
      | created => exact absurd at_i.symm (inodeForOp_ne_rootInode env _)
  | created member _ shape =>
      cases right with
      | root => exact absurd at_i (inodeForOp_ne_rootInode env _)
      | created member' _ shape' =>
          obtain rfl := batch.inodes_apart member member' at_i
          obtain ⟨rfl, -, -, rfl⟩ := creation_inj (shape.symm.trans shape')
          rfl

theorem Adds.madeDir {p : U128} {n : String} {d : Dot} {v : DirEntryValue}
    (adds : Adds env ops done p n d v) (dir : v.entry_type = .dir) :
    MadeDir env ops done v.inode_id := by
  induction adds with
  | @created op kind parent name mode member applied shape =>
      exact ⟨_, .created member applied shape, dir⟩
  | moved _ _ _ _ _ ih => exact ih dir

theorem madeDir_count {l : List U128} (nodup : l.Nodup)
    (made : ∀ i ∈ l, MadeDir env ops done i) :
    l.length ≤ (ops.filter fun op => makesDir op = true).card + 1 := by
  have inside : l ⊆ rootInode ::
      (ops.filter fun op => makesDir op = true).toList.map (fun op => inodeForOp env op.id) := by
    intro i member
    obtain ⟨record, born, dir⟩ := made i member
    cases born with
    | root => exact List.mem_cons_self
    | @created op kind parent name mode here _ shape =>
        obtain rfl : kind = .dir := dir
        have isMkdir : makesDir op = true := by
          unfold makesDir
          rw [shape]
          rfl
        refine List.mem_cons_of_mem _ (List.mem_map.mpr ⟨op, ?_, rfl⟩)
        exact Finset.mem_toList.mpr (Finset.mem_filter.mpr ⟨here, isMkdir⟩)
  have bound := (nodup.subperm inside).length_le
  rwa [List.length_cons, List.length_map, Finset.length_toList] at bound

theorem Enabled.not_hopeless {op : FsOp} (enabled : Enabled env ops done op) : ¬Hopeless op := by
  unfold Enabled at enabled
  unfold Hopeless
  cases kind : op.kind with
  | mkdir parent name mode =>
      simp only [kind] at enabled
      exact fun refused => refused enabled.1
  | createFile parent name mode =>
      simp only [kind] at enabled
      exact fun refused => refused enabled.1
  | write inode offset chunks new_size encryption =>
      simp only [kind] at enabled
      obtain ⟨record, born, file⟩ := enabled
      rintro rfl
      generalize at_root : rootInode = i at born
      cases born with
      | root => cases file
      | created => exact inodeForOp_ne_rootInode env _ at_root.symm
  | setAttr inode mode uid gid => exact id
  | unlink parent name observed => exact id
  | rename old_parent old_name new_parent new_name observed =>
      simp only [kind] at enabled
      exact fun refused => refused enabled.1

end Facts

end NexusFS.Core
