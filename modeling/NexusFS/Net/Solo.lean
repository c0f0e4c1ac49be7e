/- GID: NexusFS/Net/Solo
   source: crates/core/src/ops.rs, crates/core/src/apply.rs
   digest: A node that only it writes to: what one operation of its own changes, and what it keeps. -/

import NexusFS.Core.Tree
import NexusFS.Net.Creating
import NexusFS.Net.Remove

/-!
Such a node has nothing parked, no name with two survivors and no register above its clock, so
every operation of its own takes effect when it is made.
-/

set_option autoImplicit false
set_option relaxedAutoImplicit false

namespace NexusFS.Net

open NexusFS.Lib NexusFS.Lib.Effect NexusFS.Proto NexusFS.Core NexusFS.Crdt CoreState

section Keys

variable {clock now : U64} {device : DeviceId} {count count' : U64}

theorem orderKeyOf_mono (later : clock ≤ now) (more : count ≤ count') :
    orderKeyOf clock device count ≤ orderKeyOf now device count' := by
  rcases later.lt_or_eq with before | rfl
  · exact Prod.Lex.toLex_le_toLex.mpr (.inl before)
  · exact Prod.Lex.toLex_le_toLex.mpr (.inr ⟨rfl, Prod.Lex.toLex_le_toLex.mpr (.inr ⟨rfl, more⟩)⟩)

theorem orderKeyOf_lt (later : clock ≤ now) (more : count < count') :
    orderKeyOf clock device count < orderKeyOf now device count' := by
  refine lt_of_le_of_ne (orderKeyOf_mono later more.le) fun same => ?_
  exact more.ne (orderKeyOf_inj.mp same).2.2

end Keys

section Effects

variable {env : Env} {op : FsOp} {s t : CoreState} {i : U128} {reg : LwwReg ContentState}

theorem Effect.content (effect : Effect env op s t) (here : contentAt t i = some reg) :
    contentAt s i = some reg ∨ reg.orderKey = regKey op := by
  cases effect with
  | created shape =>
      unfold contentAt at here
      rw [loadInode_linkCreated] at here
      split at here
      · obtain rfl := Option.some.inj here
        exact .inr rfl
      · exact .inl here
  | superseded => exact .inl here
  | @wrote inode offset chunks new_size encryption record node_hash stored shape found file wins content =>
      obtain ⟨blobs, draws, -, rfl⟩ := content
      have records : (mergeContent op inode record node_hash new_size
          { s with blobs := blobs, draws := draws }).loadInode i = _ := loadInode_storeInode _ inode i _
      unfold contentAt at here ⊢
      rw [records] at here
      split at here
      · rename_i same
        subst same
        have merged : record.content.merge (contentOf op node_hash new_size) = reg := Option.some.inj here
        rcases LwwReg.merge_mem record.content (contentOf op node_hash new_size) with old | new
        · refine .inl ?_
          rw [found, ← merged, old]
          rfl
        · refine .inr ?_
          rw [← merged, new]
          rfl
      · exact .inl here
  | movedNothing => exact .inl here
  | moved =>
      unfold contentAt at here ⊢
      rw [loadInode_moveEntry] at here
      exact .inl here
  | unlinked => exact .inl here
  | @changedAttrs inode _ _ _ record shape found =>
      unfold contentAt at here ⊢
      rw [loadInode_storeInode] at here
      split at here
      · rename_i same
        subst same
        refine .inl ?_
        rw [found]
        exact here
      · exact .inl here

theorem Effect.fileAt (effect : Effect env op s t) (file : FileAt i reg t) :
    (FileAt i reg s ∧ (WritesTo i op → ¬reg.orderKey < regKey op)) ∨ (reg.value.node_hash = none ∧ reg.value.size = 0) ∨
      ∃ offset chunks size encryption, op.kind = .write i offset chunks size encryption ∧
        reg.value.size = size := by
  obtain ⟨record, found, isFile, rfl⟩ := file
  cases effect with
  | @created _ _ _ entry shape =>
      rw [loadInode_linkCreated] at found
      split at found
      · obtain rfl := Option.some.inj found
        exact .inr (.inl ⟨rfl, rfl⟩)
      · refine .inl ⟨⟨record, found, isFile, rfl⟩, ?_⟩
        rintro ⟨_, _, _, _, shape'⟩
        cases entry <;> cases shape.symm.trans shape'
  | superseded shape found' file loses =>
      refine .inl ⟨⟨record, found, isFile, rfl⟩, ?_⟩
      rintro ⟨_, _, _, _, shape'⟩ wins
      cases shape.symm.trans shape'
      obtain rfl := Option.some.inj (found'.symm.trans found)
      exact loses (decide_eq_true wins)
  | @wrote inode offset chunks new_size encryption before node_hash stored shape found' file wins content =>
      obtain ⟨blobs, draws, -, rfl⟩ := content
      have records : (mergeContent op inode before node_hash new_size
          { s with blobs := blobs, draws := draws }).loadInode i = _ := loadInode_storeInode _ inode i _
      rw [records] at found
      split at found
      · rename_i same
        subst same
        obtain rfl := Option.some.inj found
        have higher : before.content.orderKey < (contentOf op node_hash new_size).orderKey :=
          of_decide_eq_true wins
        have merged : before.content.merge (contentOf op node_hash new_size) =
            contentOf op node_hash new_size := if_pos higher
        refine .inr (.inr ⟨offset, chunks, new_size, encryption, shape, ?_⟩)
        exact congrArg (fun reg => reg.value.size) merged
      · rename_i other
        refine .inl ⟨⟨record, found, isFile, rfl⟩, ?_⟩
        rintro ⟨_, _, _, _, shape'⟩
        cases shape.symm.trans shape'
        exact absurd rfl other
  | movedNothing shape | unlinked shape =>
      refine .inl ⟨⟨record, found, isFile, rfl⟩, ?_⟩
      rintro ⟨_, _, _, _, shape'⟩
      cases shape.symm.trans shape'
  | moved shape =>
      rw [loadInode_moveEntry] at found
      refine .inl ⟨⟨record, found, isFile, rfl⟩, ?_⟩
      rintro ⟨_, _, _, _, shape'⟩
      cases shape.symm.trans shape'
  | @changedAttrs inode _ _ _ before shape found' =>
      have apart : WritesTo i op → ¬record.content.orderKey < regKey op := by
        rintro ⟨_, _, _, _, shape'⟩
        cases shape.symm.trans shape'
      rw [loadInode_storeInode] at found
      split at found
      · rename_i same
        subst same
        obtain rfl := Option.some.inj found
        exact .inl ⟨⟨before, found', isFile, rfl⟩, apart⟩
      · exact .inl ⟨⟨record, found, isFile, rfl⟩, apart⟩

end Effects

section Solo

variable {env : Env} {identity : Identity} {last : Nat} {clock now : U64} {kind : FsOpKind}
  {s t : CoreState} {op : FsOp}

def Taken (s : CoreState) (id : OpId) : Prop :=
  id.device_id = s.device_id ∧ id.counter ≤ s.next_counter

/-- A node all of whose operations are its own, none of them parked and none from after `clock`. -/
structure Solo (env : Env) (last : Nat) (clock : U64) (s : CoreState) : Prop where
  orderly : Orderly env (idsUpTo s.device_id last) s
  keyed : Keyed env s
  idle : ∀ id : OpId, s.pending[id]? = none
  sole : Sole s
  applied : ∀ {id}, id ∈ s.applied → Taken s id
  removed : ∀ {p n d}, s.Removed p n d → Taken s d
  clocked : ∀ {i reg}, contentAt s i = some reg →
    reg.orderKey ≤ orderKeyOf clock s.device_id s.next_counter

namespace Solo

theorem later (solo : Solo env last clock s) (after : clock ≤ now) : Solo env last now s :=
  { solo with clocked := fun here => (solo.clocked here).trans (orderKeyOf_mono after le_rfl) }

theorem next_counter_val (room : s.next_counter.val + 1 ≤ last) (bound : last < 2 ^ 64) :
    (s.next_counter + 1).val = s.next_counter.val + 1 := by
  have one : (1 : U64).val = 1 := rfl
  rw [Fin.val_add, one]
  omega

theorem next_member (room : s.next_counter.val + 1 ≤ last) (bound : last < 2 ^ 64) :
    nextId s ∈ idsUpTo s.device_id last :=
  ⟨rfl, (next_counter_val room bound).le.trans room⟩

theorem not_taken (room : s.next_counter.val + 1 ≤ last) (bound : last < 2 ^ 64) :
    ¬Taken s (nextId s) := by
  rintro ⟨-, low⟩
  have value := next_counter_val room bound
  have below : (s.next_counter + 1).val ≤ s.next_counter.val := low
  omega

theorem taken_mono {id : OpId} (device : t.device_id = s.device_id)
    (counter : t.next_counter = s.next_counter + 1) (room : s.next_counter.val + 1 ≤ last)
    (bound : last < 2 ^ 64) (taken : Taken s id) : Taken t id := by
  refine ⟨taken.1.trans device.symm, taken.2.trans ?_⟩
  rw [counter, Fin.le_def, next_counter_val room bound]
  exact Nat.le_succ _

theorem content (solo : Solo env last clock s) (only : OnlyContent s t) (keyed : Keyed env t) :
    Solo env last clock t := by
  obtain ⟨blobs, draws, keeps, rfl⟩ := only
  exact ⟨solo.orderly.quiet ⟨rfl, rfl, rfl, rfl, rfl, rfl, rfl, rfl, rfl, rfl, keeps⟩, keyed, solo.idle,
    solo.sole, solo.applied, solo.removed, solo.clocked⟩

end Solo

/-- What an operation of the node's own has done: its effect, with the call around it. -/
structure Stepped (env : Env) (identity : Identity) (kind : FsOpKind) (now : U64) (s w t : CoreState) :
    Prop where
  effect : Effect env (authoredOp env identity kind now s)
    ((counted s).appendOp (authoredOp env identity kind now s)) w
  dirs : t.dirs = w.dirs
  kinds : ∀ i, (t.loadInode i).map InodeRecord.kind = (w.loadInode i).map InodeRecord.kind
  content : ∀ i, contentAt t i = contentAt w i
  idle : ∀ id : OpId, t.pending[id]? = none
  applied : ∀ {id}, id ∈ t.applied → id = nextId s ∨ id ∈ s.applied
  device : t.device_id = s.device_id
  counter : t.next_counter = s.next_counter + 1

theorem Solo.idle_after {u : CoreState} (solo : Solo env last clock s)
    (took : Took env (authoredOp env identity kind now s)
      ((counted s).appendOp (authoredOp env identity kind now s)) u) (id : OpId) :
    u.pending[id]? = none := by
  rw [took.pending, BTreeMap.get_erase]
  split
  · rfl
  · exact solo.idle id

theorem Solo.rest {w u v : CoreState} (solo : Solo env last clock s)
    (performed : Performed env identity kind now s w u v t) : Core.Kept ∅ ∅ u t := by
  have spec := mutate_spec env (authoredOp env identity kind now s)
    ((counted s).appendOp (authoredOp env identity kind now s))
  rw [performed.mutated] at spec
  have none_there : ∀ {id : OpId} {op}, u.pending[id]? ≠ some op := by
    intro id op here
    rw [solo.idle_after ⟨w, spec, performed.mapped⟩] at here
    cases here
  have ends : Arrived (fun _ => False) t ∨ Core.Kept ∅ ∅ u t :=
    performed.rest (fun here => absurd here none_there) fun here => absurd here none_there
  refine ends.resolve_left ?_
  rintro ⟨_, nothing, -⟩
  exact nothing

theorem Solo.stepped (solo : Solo env last clock s) (room : s.next_counter.val + 1 ≤ last)
    (bound : last < 2 ^ 64) (run : applyLocal env identity kind now s = .ok op t) :
    op.id = nextId s ∧ ∃ w, Stepped env identity kind now s w t := by
  have numbers := numbers_applyLocal env identity kind now s
  rw [run] at numbers
  obtain ⟨id, repeated | ⟨w, u, v, performed⟩⟩ := applyLocal_ok run
  · exact absurd (solo.applied repeated.known) (Solo.not_taken room bound)
  · have spec := mutate_spec env (authoredOp env identity kind now s)
      ((counted s).appendOp (authoredOp env identity kind now s))
    rw [performed.mutated] at spec
    have effect : Effect env (authoredOp env identity kind now s)
      ((counted s).appendOp (authoredOp env identity kind now s)) w := spec
    have took : Took env (authoredOp env identity kind now s)
      ((counted s).appendOp (authoredOp env identity kind now s)) u := ⟨w, effect, performed.mapped⟩
    have empty := solo.idle_after took
    have rest := solo.rest performed
    have applied : u.applied = s.applied.insert (nextId s) := took.applied
    obtain ⟨_, _, -, rfl⟩ := performed.mapped
    refine ⟨id, w, effect, rest.dirs, rest.kinds, fun i => rest.content i (Set.notMem_empty i), ?_, ?_,
      numbers.1, numbers.2⟩
    · intro id
      cases here : t.pending[id]? with
      | none => rfl
      | some op => cases (empty id).symm.trans (rest.queue here)
    · intro id here
      rcases rest.applied here with old | parked | none_so
      · rw [applied, BTreeSet.mem_insert] at old
        exact old.imp_left Eq.symm
      · rw [empty] at parked
        cases parked
      · exact absurd none_so (Set.notMem_empty id)

theorem Stepped.fileAt_iff {w : CoreState} (stepped : Stepped env identity kind now s w t) {i : U128}
    {reg : LwwReg ContentState} : FileAt i reg t ↔ FileAt i reg w := by
  have carried : ∀ {u v : CoreState}, (u.loadInode i).map InodeRecord.kind =
      (v.loadInode i).map InodeRecord.kind → contentAt u i = contentAt v i → FileAt i reg v →
        FileAt i reg u := by
    intro u v kinds same file
    have content := same.trans file.contentAt
    obtain ⟨record, found, isFile, -⟩ := file
    rw [found] at kinds
    unfold contentAt at content
    obtain ⟨record', found', equal⟩ := Option.map_eq_some_iff.mp content
    rw [found'] at kinds
    exact ⟨record', found', (Option.some.inj kinds).trans isFile, equal⟩
  exact ⟨carried (stepped.kinds i).symm (stepped.content i).symm,
    carried (stepped.kinds i) (stepped.content i)⟩

theorem Solo.fileAt (solo : Solo env last clock s) (room : s.next_counter.val + 1 ≤ last)
    (bound : last < 2 ^ 64) (run : applyLocal env identity kind now s = .ok op t) {i : U128}
    {reg : LwwReg ContentState} (file : FileAt i reg t) :
    (FileAt i reg s ∧ (WritesTo i (authoredOp env identity kind now s) → ¬reg.orderKey < writeKey now s)) ∨
      (reg.value.node_hash = none ∧ reg.value.size = 0) ∨
      ∃ offset chunks size encryption, kind = .write i offset chunks size encryption ∧
        reg.value.size = size := by
  obtain ⟨-, w, stepped⟩ := solo.stepped room bound run
  have before := Effect.fileAt stepped.effect (stepped.fileAt_iff.mp file)
  exact before

theorem Stepped.solo {w : CoreState} (stepped : Stepped env identity kind now s w t)
    (solo : Solo env last clock s) (inj : Set.InjOn (inodeForOp env) (idsUpTo s.device_id last))
    (room : s.next_counter.val + 1 ≤ last) (bound : last < 2 ^ 64) (after : clock ≤ now)
    (run : applyLocal env identity kind now s = .ok op t) (sole : Sole t)
    (removed : ∀ p n d, w.Removed p n d → s.Removed p n d ∨ d ∈ s.applied) :
    Solo env last now t := by
  have mono : ∀ {id}, Taken s id → Taken t id :=
    Solo.taken_mono stepped.device stepped.counter room bound
  have own : Taken t (nextId s) := ⟨stepped.device.symm, by rw [stepped.counter]; exact le_rfl⟩
  refine ⟨?_, ?_, stepped.idle, sole, fun here => ?_, fun {p n d} here => ?_, fun {i reg} here => ?_⟩
  · have kept := @orderly_applyLocal env identity (idsUpTo s.device_id last) now s kind inj solo.orderly
      (Solo.next_member room bound)
    rw [run] at kept
    rw [stepped.device]
    exact kept
  · have kept := keeps_applyLocal env identity kind now s solo.keyed
    rwa [run] at kept
  · rcases stepped.applied here with rfl | old
    · exact own
    · exact mono (solo.applied old)
  · rcases removed p n d ((removed_congr stepped.dirs p n d).mp here) with old | known
    · exact mono (solo.removed old)
    · exact mono (solo.applied known)
  · rw [stepped.content] at here
    rw [stepped.device, stepped.counter]
    have more : s.next_counter ≤ s.next_counter + 1 := by
      rw [Fin.le_def, Solo.next_counter_val room bound]
      exact Nat.le_succ _
    rcases Effect.content stepped.effect here with old | new
    · exact (solo.clocked old).trans (orderKeyOf_mono after more)
    · rw [new]
      exact le_rfl

end Solo

end NexusFS.Net
