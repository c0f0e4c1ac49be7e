/- GID: NexusFS/Core/Harmless
   source: crates/core/src/apply.rs
   digest: Parked operations whose retries leave every file and every directory as they are. -/

import NexusFS.Core.Patched
import NexusFS.Core.Recipients

/-!
A call retries whatever is parked. A parked operation does no harm there when it would
lose the register, lacks a chunk that does not arrive, only changes attributes, or
waits for a directory or an entry.
-/

set_option autoImplicit false
set_option relaxedAutoImplicit false

namespace NexusFS.Core

open NexusFS.Lib NexusFS.Lib.Effect NexusFS.Proto NexusFS.Crdt CoreState

section Harmless

variable {env : Env} {absent : Hash → Prop} {s t u w : CoreState} {op : FsOp} {inode : U128}

/-- A parked operation that no retry lets change a file or a directory, unless an absent chunk
arrives. -/
inductive Harmless (env : Env) (absent : Hash → Prop) (s : CoreState) (op : FsOp) : Prop
  | loses {inode : U128} {offset : U64} {chunks : List ChunkRef} {new_size : U64}
      {encryption : Option FileEncryption}
      (shape : op.kind = .write inode offset chunks new_size encryption)
      (low : ∀ reg, contentAt s inode = some reg → ¬reg.orderKey < regKey op)
  | lacks {inode : U128} {offset : U64} {chunks : List ChunkRef} {new_size : U64}
      {encryption : Option FileEncryption} {chunk : ChunkRef}
      (shape : op.kind = .write inode offset chunks new_size encryption) (member : chunk ∈ chunks)
      (missing : absent chunk.hash)
  | attributes {inode : U128} {mode uid gid : Option U32}
      (shape : op.kind = .setAttr inode mode uid gid)
  | waits {reason : Unmet} (waits : Waits env op s reason)
      (tree : ∀ inode offset chunks new_size encryption,
        op.kind ≠ .write inode offset chunks new_size encryption)

/-- `t` has the directories of `s`, its inodes with their kinds, its content outside `changed`, its
blobs and its keys. Its registers are no lower, nothing is newly parked, and only what was parked
or is in `spent` was applied. -/
structure Kept (changed : Set U128) (spent : Set OpId) (s t : CoreState) : Prop where
  dirs : t.dirs = s.dirs
  kinds : ∀ i, (t.loadInode i).map InodeRecord.kind = (s.loadInode i).map InodeRecord.kind
  content : ∀ i ∉ changed, contentAt t i = contentAt s i
  raised : ∀ i reg, contentAt s i = some reg →
    ∃ later, contentAt t i = some later ∧ reg.orderKey ≤ later.orderKey
  blobs : ∀ hash, s.hasBlob hash → t.hasBlob hash
  keys : SameKeys s t
  queue : ∀ {id : OpId} {op}, t.pending[id]? = some op → s.pending[id]? = some op
  known : ∀ {id}, id ∈ s.applied → id ∈ t.applied
  applied : ∀ {id}, id ∈ t.applied → id ∈ s.applied ∨ (s.pending[id]?).isSome ∨ id ∈ spent

namespace Kept

variable {changed later : Set U128} {spent used : Set OpId}

theorem refl (s : CoreState) : Kept ∅ ∅ s s :=
  ⟨rfl, fun _ => rfl, fun _ _ => rfl, fun _ reg here => ⟨reg, here, le_rfl⟩, fun _ here => here,
    .refl s, fun here => here, fun here => here, .inl⟩

theorem trans (first : Kept changed spent s t) (second : Kept later used t u) :
    Kept (changed ∪ later) (spent ∪ used) s u where
  dirs := second.dirs.trans first.dirs
  kinds i := (second.kinds i).trans (first.kinds i)
  content i outside := (second.content i fun inside => outside (.inr inside)).trans
    (first.content i fun inside => outside (.inl inside))
  raised i reg here := by
    obtain ⟨mid, there, le⟩ := first.raised i reg here
    obtain ⟨last, at_end, le'⟩ := second.raised i mid there
    exact ⟨last, at_end, le.trans le'⟩
  blobs hash here := second.blobs hash (first.blobs hash here)
  keys := first.keys.trans second.keys
  queue here := first.queue (second.queue here)
  known here := second.known (first.known here)
  applied here := by
    rcases second.applied here with old | parked | new
    · exact (first.applied old).imp_right (Or.imp_right .inl)
    · obtain ⟨op, row⟩ := Option.isSome_iff_exists.mp parked
      refine .inr (.inl ?_)
      rw [first.queue row]
      rfl
    · exact .inr (.inr (.inr new))

theorem mono (kept : Kept changed spent s t) (wider : changed ⊆ later) (more : spent ⊆ used) :
    Kept later used s t :=
  { kept with
    content := fun i outside => kept.content i fun inside => outside (wider inside)
    applied := fun here => (kept.applied here).imp_right (Or.imp_right fun inside => more inside) }

theorem isDir (kept : Kept changed spent s t) (i : U128) : t.isDir i = s.isDir i := by
  have kinds := kept.kinds i
  unfold CoreState.isDir
  cases here : t.loadInode i with
  | none =>
      rw [here] at kinds
      rw [Option.map_eq_none_iff.mp kinds.symm]
  | some record =>
      rw [here] at kinds
      obtain ⟨before, there, same⟩ := Option.map_eq_some_iff.mp kinds.symm
      rw [there]
      dsimp only
      rw [same]

theorem dirAt (kept : Kept changed spent s t) (p : U128) : t.dirAt p = s.dirAt p :=
  s.dirAt_congr kept.dirs p

theorem same (dirs : t.dirs = s.dirs) (inodes : t.inodes = s.inodes)
    (blobs : ∀ hash, s.hasBlob hash → t.hasBlob hash) (keys : SameKeys s t)
    (queue : t.pending = s.pending) (applied : t.applied = s.applied) : Kept ∅ ∅ s t where
  dirs := dirs
  kinds i := by rw [CoreState.loadInode, inodes, CoreState.loadInode]
  content i _ := by rw [contentAt, CoreState.loadInode, inodes, contentAt, CoreState.loadInode]
  raised i reg here := by
    refine ⟨reg, ?_, le_rfl⟩
    rw [← here, contentAt, CoreState.loadInode, inodes, contentAt, CoreState.loadInode]
  blobs := blobs
  keys := keys
  queue here := queue ▸ here
  known here := by rw [applied]; exact here
  applied here := .inl (applied ▸ here)

theorem fileAt (kept : Kept changed spent s t) {reg : LwwReg ContentState} (outside : inode ∉ changed)
    (file : FileAt inode reg s) : FileAt inode reg t := by
  obtain ⟨record, found, kind, content⟩ := file
  have kinds := kept.kinds inode
  have same := kept.content inode outside
  unfold contentAt at same
  rw [found] at kinds same
  obtain ⟨after, there, kind'⟩ := Option.map_eq_some_iff.mp kinds
  rw [there] at same
  exact ⟨after, there, kind'.trans kind, (Option.some.inj same).trans content⟩

theorem file (kept : Kept changed spent s t) {reg : LwwReg ContentState} (file : FileAt inode reg s) :
    ∃ later, FileAt inode later t ∧ reg.orderKey ≤ later.orderKey := by
  have at_start := file.contentAt
  obtain ⟨record, found, kind, -⟩ := file
  obtain ⟨later, at_end, le⟩ := kept.raised inode reg at_start
  obtain ⟨after, there, content⟩ := Option.map_eq_some_iff.mp at_end
  have kinds := kept.kinds inode
  rw [found, there] at kinds
  exact ⟨later, ⟨after, there, (Option.some.inj kinds).trans kind, content⟩, le⟩

theorem harmless (kept : Kept changed spent s t) (none_so : Harmless env absent s op) :
    Harmless env absent t op := by
  cases none_so with
  | @loses target _ _ _ _ shape low =>
      refine .loses shape fun reg here high => ?_
      obtain ⟨record, found, rfl⟩ := Option.map_eq_some_iff.mp here
      have kinds := kept.kinds target
      rw [found] at kinds
      obtain ⟨before, there, -⟩ := Option.map_eq_some_iff.mp kinds.symm
      have at_start : contentAt s target = some before.content := by
        unfold contentAt
        rw [there]
        rfl
      obtain ⟨later, at_end, le⟩ := kept.raised target before.content at_start
      obtain rfl := Option.some.inj (here.symm.trans at_end)
      exact low _ at_start (le.trans_lt high)
  | lacks shape member missing => exact .lacks shape member missing
  | attributes shape => exact .attributes shape
  | waits waits tree =>
      have dirs := kept.isDir
      have maps := kept.dirAt
      cases waits with
      | parent shape missing => exact .waits (.parent shape (by rwa [dirs])) tree
      | unlinkParent shape missing => exact .waits (.unlinkParent shape (by rwa [dirs])) tree
      | writeInode shape missing => exact absurd shape (tree _ _ _ _ _)
      | attrInode shape missing => exact .attributes shape
      | chunk shape missing => exact absurd shape (tree _ _ _ _ _)
      | content shape partly => exact absurd shape (tree _ _ _ _ _)
      | sourceParent shape missing => exact .waits (.sourceParent shape (by rwa [dirs])) tree
      | destination shape missing => exact .waits (.destination shape (by rwa [dirs])) tree
      | source shape seen missing => exact .waits (.source shape seen (by rwa [maps])) tree

end Kept

theorem Waits.not_done {reason : Unmet} (waits : Waits env op u reason)
    (tree : ∀ inode offset chunks new_size encryption,
      op.kind ≠ .write inode offset chunks new_size encryption) :
    mutate env op u ≠ .ok .done w := by
  cases waits with
  | @parent kind _ name _ shape missing =>
      cases kind <;> cases valid : validateName name <;>
        simp [Core.mutate, shape, creation, mutateCreate_run, valid, missing]
  | unlinkParent shape missing => simp [Core.mutate, shape, mutateUnlink_run, missing]
  | writeInode shape missing => exact absurd shape (tree _ _ _ _ _)
  | attrInode shape missing => simp [Core.mutate, shape, mutateSetattr_run, missing]
  | chunk shape missing => exact absurd shape (tree _ _ _ _ _)
  | content shape partly => exact absurd shape (tree _ _ _ _ _)
  | @sourceParent _ _ _ name _ shape missing =>
      cases valid : validateName name <;> simp [Core.mutate, shape, mutateRename, valid, missing]
  | @destination old_parent _ _ name _ shape missing =>
      cases valid : validateName name <;> cases source : u.isDir old_parent <;>
        simp [Core.mutate, shape, mutateRename, valid, source, missing]
  | @source old_parent new_parent old_name name observed shape some_seen missing =>
      have seen : observed.isEmpty = false := by simpa using some_seen
      have gone : ((u.dirAt old_parent).getAll old_name).any (fun p => observed.contains p.1) = false := by
        rw [List.any_eq_false]
        intro p member
        simpa using renameSource_eq_none.mp missing p member
      cases valid : validateName name with
      | error e => simp [Core.mutate, shape, mutateRename, valid]
      | ok _ =>
          cases source : u.isDir old_parent <;> cases target : u.isDir new_parent <;>
            simp [Core.mutate, shape, mutateRename, valid, source, target, missing]
          rw [seen, gone]
          simp

/-- What a write that was applied did: nothing where it loses the register, and else only to the record of
its file. -/
theorem mutate_write_cases {offset new_size : U64} {chunks : List ChunkRef}
    {encryption : Option FileEncryption}
    (shape : op.kind = .write inode offset chunks new_size encryption)
    (run : mutate env op u = .ok .done w) :
    ∃ record, u.loadInode inode = some record ∧ record.kind = .file ∧
      ((¬record.content.orderKey < regKey op ∧ w = u) ∨
        (record.content.orderKey < regKey op ∧ ∃ node_hash stored, OnlyContent u stored ∧
          w = mergeContent op inode record node_hash new_size stored)) := by
  have spec := mutate_spec env op u
  rw [run] at spec
  have effect : Effect env op u w := spec
  cases effect with
  | @created _ _ _ kind other => cases kind <;> cases other.symm.trans shape
  | superseded other found file loses =>
      cases other.symm.trans shape
      exact ⟨_, found, file, .inl ⟨fun wins => loses (decide_eq_true wins), rfl⟩⟩
  | wrote other found file wins content =>
      cases other.symm.trans shape
      exact ⟨_, found, file, .inr ⟨of_decide_eq_true wins, _, _, content, rfl⟩⟩
  | movedNothing other => cases other.symm.trans shape
  | moved other => cases other.symm.trans shape
  | unlinked other => cases other.symm.trans shape
  | changedAttrs other => cases other.symm.trans shape

theorem file_of_mutate_write {offset new_size : U64} {chunks : List ChunkRef}
    {encryption : Option FileEncryption}
    (shape : op.kind = .write inode offset chunks new_size encryption)
    (run : mutate env op u = .ok .done w) : ∃ reg, FileAt inode reg u := by
  obtain ⟨record, found, file, -⟩ := mutate_write_cases shape run
  exact ⟨record.content, record, found, file, rfl⟩

theorem mutate_write_frame {offset new_size : U64} {chunks : List ChunkRef}
    {encryption : Option FileEncryption}
    (shape : op.kind = .write inode offset chunks new_size encryption)
    (run : mutate env op u = .ok .done w) : w.dirs = u.dirs ∧
      (∀ i, (w.loadInode i).map InodeRecord.kind = (u.loadInode i).map InodeRecord.kind) ∧
      ∀ i, i ≠ inode → contentAt w i = contentAt u i := by
  obtain ⟨record, found, -, ⟨-, rfl⟩ | ⟨-, node_hash, stored, content, rfl⟩⟩ := mutate_write_cases shape run
  · exact ⟨rfl, fun _ => rfl, fun _ _ => rfl⟩
  · obtain ⟨blobs, draws, -, rfl⟩ := content
    refine ⟨rfl, fun i => ?_, fun i apart => ?_⟩
    · refine (congrArg _ (loadInode_storeInode _ inode i _)).trans ?_
      split
      · rename_i same
        rw [← same, found]
        rfl
      · rfl
    · exact congrArg _ ((loadInode_storeInode _ inode i _).trans (if_neg (Ne.symm apart)))

theorem mutate_write_lost {offset new_size : U64} {chunks : List ChunkRef}
    {encryption : Option FileEncryption} {reg : LwwReg ContentState}
    (shape : op.kind = .write inode offset chunks new_size encryption) (file : FileAt inode reg u)
    (loses : ¬reg.orderKey < regKey op) (run : mutate env op u = .ok .done w) : w = u := by
  obtain ⟨record, found, -, ⟨-, same⟩ | ⟨wins, -⟩⟩ := mutate_write_cases shape run
  · exact same
  · obtain ⟨_, here, -, rfl⟩ := file
    obtain rfl := Option.some.inj (here.symm.trans found)
    exact absurd wins loses

theorem Harmless.mutate (none_so : Harmless env absent u op) (run : mutate env op u = .ok .done w) :
    (∃ hash, absent hash ∧ u.hasBlob hash) ∨ (w.dirs = u.dirs ∧
      (∀ i, (w.loadInode i).map InodeRecord.kind = (u.loadInode i).map InodeRecord.kind) ∧
      ∀ i, contentAt w i = contentAt u i) := by
  cases none_so with
  | loses shape low =>
      obtain ⟨reg, file⟩ := file_of_mutate_write shape run
      obtain rfl := mutate_write_lost shape file (low reg file.contentAt) run
      exact .inr ⟨rfl, fun _ => rfl, fun _ => rfl⟩
  | @lacks _ _ _ _ _ chunk shape member missing =>
      obtain ⟨reg, file⟩ := file_of_mutate_write shape run
      by_cases wins : reg.orderKey < regKey op
      · exact .inl ⟨chunk.hash, missing, (held_of_mutate shape file wins run).1 chunk member⟩
      · obtain rfl := mutate_write_lost shape file wins run
        exact .inr ⟨rfl, fun _ => rfl, fun _ => rfl⟩
  | @attributes inode mode uid gid shape =>
      have own : mutateSetattr op inode mode uid gid u = .ok .done w := by
        rw [← run, Core.mutate, shape]
      rw [mutateSetattr_run] at own
      cases found : u.loadInode inode with
      | none =>
          rw [found] at own
          cases own
      | some record =>
          rw [found] at own
          cases own
          refine .inr ⟨rfl, fun i => ?_, fun i => ?_⟩
          · rw [loadInode_storeInode]
            split
            · rename_i same
              rw [← same, found]
              rfl
            · rfl
          · unfold contentAt
            rw [loadInode_storeInode]
            split
            · rename_i same
              rw [← same, found]
              rfl
            · rfl
  | waits waits tree => exact absurd run (waits.not_done tree)

def Arrived (absent : Hash → Prop) (s : CoreState) : Prop := ∃ hash, absent hash ∧ s.hasBlob hash

theorem Arrived.mono (arrived : Arrived absent s) (grows : ∀ hash, s.hasBlob hash → t.hasBlob hash) :
    Arrived absent t := by
  obtain ⟨hash, missing, here⟩ := arrived
  exact ⟨hash, missing, grows hash here⟩

theorem kept_of_mutated {changed : Set U128} (run : mutate env op u = .ok .done w)
    (mapped : OnlyMap (w.noteApplied op) t) (dirs : w.dirs = u.dirs)
    (kinds : ∀ i, (w.loadInode i).map InodeRecord.kind = (u.loadInode i).map InodeRecord.kind)
    (content : ∀ i ∉ changed, contentAt w i = contentAt u i)
    (raised : ∀ i reg, contentAt u i = some reg →
      ∃ later, contentAt w i = some later ∧ reg.orderKey ≤ later.orderKey) :
    Kept changed {op.id} u t := by
  have effect := mutate_spec env op u
  rw [run] at effect
  have took : Took env op u t := ⟨w, effect, mapped⟩
  have applied := took.applied
  have pending := took.pending
  have keys := took.sameKeys
  have grows := took.keeps
  obtain ⟨blobs, imap, -, rfl⟩ := mapped
  refine ⟨dirs, kinds, content, raised, grows, keys, fun {id op} here => ?_, fun {id} here => ?_,
    fun {id} here => ?_⟩
  · rw [pending, BTreeMap.get_erase] at here
    split at here
    · cases here
    · exact here
  · rw [applied, BTreeSet.mem_insert]
    exact .inr here
  · rw [applied, BTreeSet.mem_insert] at here
    exact here.elim (fun own => .inr (.inr own.symm)) .inl

theorem mutate_write_reaches {offset new_size : U64} {chunks : List ChunkRef}
    {encryption : Option FileEncryption}
    (shape : op.kind = .write inode offset chunks new_size encryption)
    (run : mutate env op u = .ok .done w) :
    ∃ later, contentAt w inode = some later ∧ regKey op ≤ later.orderKey := by
  obtain ⟨record, found, file, ⟨loses, rfl⟩ | ⟨wins, node_hash, stored, content, rfl⟩⟩ :=
    mutate_write_cases shape run
  · have there : FileAt inode record.content w := ⟨record, found, file, rfl⟩
    exact ⟨record.content, there.contentAt, not_lt.mp loses⟩
  · exact ⟨_, (FileAt.merged file wins _).contentAt, le_rfl⟩

theorem mutate_write_raised (writes : WritesTo inode op) (run : mutate env op u = .ok .done w)
    (i : U128) (reg : LwwReg ContentState) (here : contentAt u i = some reg) :
    ∃ later, contentAt w i = some later ∧ reg.orderKey ≤ later.orderKey := by
  obtain ⟨offset, chunks, new_size, encryption, shape⟩ := writes
  by_cases own : i = inode
  · subst own
    obtain ⟨record, found, file, ⟨-, rfl⟩ | ⟨wins, node_hash, stored, content, rfl⟩⟩ :=
      mutate_write_cases shape run
    · exact ⟨reg, here, le_rfl⟩
    · have there : FileAt i record.content u := ⟨record, found, file, rfl⟩
      obtain rfl := Option.some.inj (there.contentAt.symm.trans here)
      exact ⟨_, (FileAt.merged file wins _).contentAt, wins.le⟩
  · exact ⟨reg, ((mutate_write_frame shape run).2.2 i own).trans here, le_rfl⟩

/-- A parked operation that no retry lets change a directory, or a file that is not in `changed`. -/
def Confined (env : Env) (absent : Hash → Prop) (changed : Set U128) (s : CoreState) (op : FsOp) : Prop :=
  Harmless env absent s op ∨ ∃ inode ∈ changed, WritesTo inode op

theorem Kept.confined {changed later : Set U128} {spent : Set OpId} (kept : Kept later spent s t)
    (confined : Confined env absent changed s op) : Confined env absent changed t op :=
  confined.imp_left kept.harmless

theorem Confined.kept {changed : Set U128} (confined : Confined env absent changed u op)
    (run : mutate env op u = .ok .done w) (mapped : OnlyMap (w.noteApplied op) t) :
    Arrived absent u ∨ Kept changed {op.id} u t := by
  rcases confined with none_so | ⟨inode, inside, writes⟩
  · rcases none_so.mutate run with arrived | ⟨dirs, kinds, content⟩
    · exact .inl arrived
    · exact .inr (kept_of_mutated run mapped dirs kinds (fun i _ => content i)
        fun i reg here => ⟨reg, (content i).trans here, le_rfl⟩)
  · obtain ⟨offset, chunks, new_size, encryption, shape⟩ := writes
    obtain ⟨dirs, kinds, others⟩ := mutate_write_frame shape run
    refine .inr (kept_of_mutated run mapped dirs kinds (fun i outside => others i ?_)
      (mutate_write_raised ⟨offset, chunks, new_size, encryption, shape⟩ run))
    rintro rfl
    exact outside inside

/-- Nothing new is parked, and all but the files in `changed` is kept unless an absent chunk arrived. -/
structure Sheltered (absent : Hash → Prop) (changed : Set U128) (s t : CoreState) : Prop where
  queue : ∀ {id : OpId} {op}, t.pending[id]? = some op → s.pending[id]? = some op
  kept : Arrived absent t ∨ Kept changed ∅ s t

theorem confinedRule (env : Env) (absent : Hash → Prop) (changed : Set U128) (s : CoreState)
    (filed : ∀ {id : OpId} {op}, s.pending[id]? = some op → op.id = id)
    (confined : ∀ {id : OpId} {op}, s.pending[id]? = some op → Confined env absent changed s op) :
    AttemptRule env (Sheltered absent changed s) (fun op => s.pending[op.id]? = some op)
      (fun _ _ => True) (fun _ => Sheltered absent changed s) where
  tried := by
    rintro u op ⟨queue, inv⟩ parked - new
    have ends : Sheltered absent changed s (finalState (attempt env op u)) := by
      cases run : mutate env op u with
      | error e t =>
          have spec := mutate_spec env op u
          rw [run] at spec
          obtain ⟨rfl, -⟩ := spec
          rw [attempt_run, run]
          exact ⟨queue, inv⟩
      | ok outcome t =>
          have spec := mutate_spec env op u
          rw [run] at spec
          cases outcome with
          | unmet reason =>
              obtain ⟨rfl, -⟩ := spec
              rw [attempt_run, run]
              exact ⟨queue, inv⟩
          | done =>
              obtain ⟨took, mapped⟩ := took_of_mutate run
              refine ⟨fun {id other} here => ?_, ?_⟩
              · rw [took.pending, BTreeMap.get_erase] at here
                split at here
                · cases here
                · exact queue here
              rcases inv with arrived | kept
              · exact .inl (arrived.mono took.keeps)
              rcases (kept.confined (confined parked)).kept run mapped with arrived | last
              · exact .inl (arrived.mono took.keeps)
              refine .inr { (kept.trans last).mono (by simp) (Set.Subset.refl _) with
                applied := fun {id} here => ?_ }
              rcases (kept.trans last).applied here with old | waited | none_of_it | rfl
              · exact .inl old
              · exact .inr (.inl waited)
              · exact none_of_it.elim
              · exact .inr (.inl (by rw [parked]; rfl))
    exact Ends.of_finalState ends
  cleared := by
    rintro u op ⟨queue, inv⟩ _ _
    have erased : ∀ {id : OpId} {other}, (u.pending.erase op.id)[id]? = some other →
        u.pending[id]? = some other := by
      intro id other here
      rw [BTreeMap.get_erase] at here
      split at here
      · cases here
      · exact here
    refine ⟨fun here => queue (erased here), inv.imp_right fun kept => ?_⟩
    exact ⟨kept.dirs, kept.kinds, kept.content, kept.raised, kept.blobs,
      kept.keys.trans ⟨⟨rfl, rfl, rfl⟩, rfl, rfl⟩, fun here => kept.queue (erased here), kept.known, kept.applied⟩
  parked := by
    rintro u op id ⟨queue, -⟩ here
    rw [filed (queue here)]
    exact queue here

end Harmless

end NexusFS.Core
