/- GID: NexusFS/Core/Delivery
   source: crates/core/src/apply.rs, crates/core/src/snapshot.rs
   digest: Delivering a batch in any order applies exactly what the batch enables. -/

import NexusFS.Core.Canon
import NexusFS.Core.Poison
import NexusFS.Core.Room

set_option autoImplicit false
set_option relaxedAutoImplicit false

namespace NexusFS.Core

open NexusFS.Lib NexusFS.Lib.Effect NexusFS.Proto NexusFS.Crdt CoreState Relation

section Limits

variable {env : Env} {ops : Finset FsOp} {s t : CoreState}

theorem Canon.roomy (canon : Canon env ops s) (batch : Batch env ops) (few : FewDirs ops) :
    Roomy s := by
  intro dirs nodup listed
  have made : ∀ i ∈ dirs, MadeDir env ops s.done i := by
    intro i member
    rcases listed i member with dir | ⟨p, n, d, v, live, rfl, dir⟩
    · exact (canon.inodes.isDir_iff batch i).mp dir
    · exact (canon.links.adds live.1).madeDir dir
  have count := madeDir_count nodup made
  unfold FewDirs at few
  omega

theorem Canon.onlyMap (canon : Canon env ops s) (only : OnlyMap s t) : Canon env ops t := by
  obtain ⟨blobs, imap, -, rfl⟩ := only
  exact canon.congr rfl rfl rfl rfl canon.parked

end Limits

section Attempts

variable {env : Env} {ops : Finset FsOp} {s t : CoreState} {op : FsOp}

def Stocked (ops : Finset FsOp) (s : CoreState) : Prop :=
  ∀ op ∈ ops, ∀ {inode offset chunks new_size encryption},
    op.kind = .write inode offset chunks new_size encryption →
    ∀ chunk ∈ chunks, s.hasBlob chunk.hash = true

theorem Stocked.mono (stocked : Stocked ops s)
    (keeps : ∀ hash, s.hasBlob hash = true → t.hasBlob hash = true) : Stocked ops t :=
  fun op member _ _ _ _ _ kindIs chunk inside => keeps _ (stocked op member kindIs chunk inside)

theorem Took.keeps (took : Took env op s t) (hash : Hash) (here : s.hasBlob hash = true) :
    t.hasBlob hash = true := by
  obtain ⟨u, effect, blobs, imap, kept, rfl⟩ := took
  obtain ⟨dirs, inodes, parents, stored, draws, keeps, rfl⟩ := effect.frame
  exact kept hash (keeps hash here)

theorem Hopeless.refused {ids : Set OpId} (hopeless : Hopeless op) (shape : Shape env ids s) :
    ∃ e, Refusal env op s e := by
  have invalid : ∀ {name}, validateName name ≠ .ok () → ∃ e, validateName name = .error e := by
    intro name other
    cases check : validateName name with
    | ok u => exact absurd check other
    | error e => exact ⟨e, rfl⟩
  unfold Hopeless at hopeless
  cases kindIs : op.kind with
  | mkdir parent name mode =>
      rw [kindIs] at hopeless
      obtain ⟨e, failed⟩ := invalid hopeless
      exact ⟨e, .badName (show op.kind = creation .dir parent name mode from kindIs) failed⟩
  | createFile parent name mode =>
      rw [kindIs] at hopeless
      obtain ⟨e, failed⟩ := invalid hopeless
      exact ⟨e, .badName (show op.kind = creation .file parent name mode from kindIs) failed⟩
  | rename old_parent old_name new_parent new_name observed =>
      rw [kindIs] at hopeless
      obtain ⟨e, failed⟩ := invalid hopeless
      exact ⟨e, .badNewName kindIs failed⟩
  | write inode offset chunks new_size encryption =>
      rw [kindIs] at hopeless
      obtain ⟨record, found, dir⟩ := (s.isDir_iff rootInode).mp shape.root
      rw [← show inode = rootInode from hopeless] at found
      exact ⟨_, .notAFile kindIs found (by simp [dir])⟩
  | unlink parent name observed =>
      rw [kindIs] at hopeless
      exact hopeless.elim
  | setAttr inode mode uid gid =>
      rw [kindIs] at hopeless
      exact hopeless.elim

theorem Canon.not_refused (canon : Canon env ops s) (batch : Batch env ops) (member : op ∈ ops)
    (hope : ¬Hopeless op) (safe : RenameSafe s op) : ¬∃ e, Refusal env op s e := by
  have tame := batch.tame op member
  unfold Tame at tame
  unfold Hopeless at hope
  rintro ⟨e, refusal⟩
  cases refusal with
  | @badName kind parent name mode _ kindIs invalid =>
      rw [kindIs] at hope
      refine hope ?_
      cases kind <;> exact fun valid => by rw [invalid] at valid; cases valid
  | badNewName kindIs invalid =>
      rw [kindIs] at hope
      exact hope fun valid => by rw [invalid] at valid; cases valid
  | @notAFile inode _ _ _ _ record kindIs found other =>
      rw [kindIs] at hope tame
      obtain ⟨first, born, record_canon⟩ := canon.inodes.records found
      have dir : first.kind ≠ .file := fun isFile => other (record_canon.kind.trans isFile)
      cases born with
      | root => exact hope rfl
      | @created maker kind parent name mode inside _ shape =>
          cases kind with
          | file => exact dir rfl
          | dir =>
              have makes : makesDir maker = true := by
                unfold makesDir
                rw [shape]
                rfl
              exact tame.2.2 maker inside makes rfl
  | badSplice kindIs _ _ _ _ partly =>
      rw [kindIs] at tame
      exact partly ⟨tame.1, tame.2.1⟩
  | intoOwnSubtree kindIs _ source target found dir inside =>
      have outside := (safe.source kindIs source target found).2.2 dir
      rw [inside] at outside
      cases outside
  | subtreeTooLarge kindIs _ source target found dir fails =>
      have outside := (safe.source kindIs source target found).2.2 dir
      rw [fails] at outside
      cases outside

def Held (s : CoreState) (id : OpId) : Prop := id ∈ s.applied ∨ ∃ op, s.pending[id]? = some op

/-- What the attempts at a batch keep: the joint invariant, the canonical state, the content, and
every operation of `past`. -/
structure Sound (env : Env) (ops : Finset FsOp) (past : Set OpId) (s : CoreState) : Prop where
  exact : Exact env (batchIds ops) s
  canon : Canon env ops s
  stocked : Stocked ops s
  proofs : s.proofs = .none
  held : ∀ {id}, id ∈ past → Held s id

variable {past : Set OpId}

theorem Held.took {id : OpId} (held : Held s id) (took : Took env op s t) : Held t id := by
  by_cases same : op.id = id
  · left
    rw [took.applied, BTreeSet.mem_insert]
    exact .inl same
  · rcases held with applied | ⟨parked, here⟩
    · left
      rw [took.applied, BTreeSet.mem_insert]
      exact .inr applied
    · right
      refine ⟨parked, ?_⟩
      rw [took.pending, BTreeMap.get_erase, if_neg same]
      exact here

theorem Sound.attempt (sound : Sound env ops past s) (batch : Batch env ops) (few : FewDirs ops)
    (member : op ∈ ops) (hope : ¬Hopeless op) (safe : RenameSafe s op) (new : op.id ∉ s.applied) :
    ∃ outcome t, attempt env op s = .ok outcome t ∧ Sound env ops past t := by
  have shape := sound.exact.shape
  have inIds : op.id ∈ batchIds ops := ⟨op, member, rfl⟩
  have unrefused := sound.canon.not_refused batch member hope safe
  have clean : ¬Poisoned env op s := fun poisoned =>
    poisoned.elim unrefused (not_mapLimit batch.separate shape inIds new fun u effect =>
      (sound.canon.effect batch shape member new safe effect).roomy batch few)
  obtain ⟨outcome, t, run⟩ := attempt_of_not_poisoned clean
  refine ⟨outcome, t, run, ?_⟩
  have exact := (exactRule batch.separate).tried sound.exact inIds trivial new
  have spec := attempt_spec env op s
  rw [run] at exact spec
  cases outcome with
  | unmet reason =>
      obtain ⟨rfl, -⟩ := spec
      exact sound
  | done =>
      have took : Took env op s t := spec
      refine ⟨exact, ?_, sound.stocked.mono took.keeps, took.proofs.trans sound.proofs,
        fun inside => (sound.held inside).took took⟩
      obtain ⟨u, effect, only⟩ := took
      exact (sound.canon.effect batch shape member new safe effect).onlyMap only

theorem Sound.appendOp (sound : Sound env ops past s) (op : FsOp) :
    Sound env ops past (s.appendOp op) where
  exact := ⟨sound.exact.shape.appendOp op, sound.exact.map.congr rfl rfl rfl⟩
  canon := sound.canon.congr rfl rfl rfl rfl sound.canon.parked
  stocked := sound.stocked.mono fun _ here => here
  proofs := sound.proofs
  held := sound.held

theorem Sound.aside (sound : Sound env ops past s) (aside : Aside s t) : Sound env ops past t := by
  have shape := sound.exact.shape.aside aside
  obtain ⟨blobs, head, root, kv, blob, keeps, rfl⟩ := aside
  exact ⟨⟨shape, sound.exact.map.congr rfl rfl rfl⟩,
    sound.canon.congr rfl rfl rfl rfl sound.canon.parked, sound.stocked.mono keeps, sound.proofs,
    sound.held⟩

theorem Sound.storePending (sound : Sound env ops past s) (member : op ∈ ops)
    (hope : ¬Hopeless op) : Sound env ops past (s.storePending op) := by
  have shape := sound.exact.shape.storePending ⟨op, member, rfl⟩
  refine ⟨⟨shape, sound.exact.map.congr rfl rfl rfl⟩, sound.canon.congr rfl rfl rfl rfl ?_,
    sound.stocked.mono fun _ here => here, sound.proofs, ?_⟩
  · intro id parked here
    have stored : (s.pending.insert op.id op)[id]? = some parked := here
    rw [BTreeMap.get_insert] at stored
    split at stored
    · exact Option.some.inj stored ▸ ⟨member, hope⟩
    · exact sound.canon.parked stored
  · intro id inside
    rcases sound.held inside with applied | ⟨parked, here⟩
    · exact .inl applied
    · right
      show ∃ other, (s.pending.insert op.id op)[id]? = some other
      rw [BTreeMap.get_insert]
      split
      · exact ⟨op, rfl⟩
      · exact ⟨parked, here⟩

theorem soundRule (batch : Batch env ops) (few : FewDirs ops) (past : Set OpId) :
    AttemptRule env (Sound env ops past) (fun op => op ∈ ops ∧ ¬Hopeless op)
      (fun s op => op ∈ ops → RenameSafe s op) (fun _ _ => False) where
  tried := by
    intro s op sound ready safe new
    obtain ⟨outcome, t, run, after⟩ := sound.attempt batch few ready.1 ready.2 (safe ready.1) new
    rw [run]
    exact after
  cleared := by
    intro s op sound _ applied
    have erased : ∀ {id : OpId} {parked}, (s.clearPending op.id).pending[id]? = some parked →
        s.pending[id]? = some parked := by
      intro id parked here
      have value : (s.pending.erase op.id)[id]? = some parked := here
      rw [BTreeMap.get_erase] at value
      split at value
      · cases value
      · exact value
    refine ⟨⟨sound.exact.shape.clearPending _, sound.exact.map.congr rfl rfl rfl⟩,
      sound.canon.congr rfl rfl rfl rfl fun here => sound.canon.parked (erased here),
      sound.stocked.mono fun _ here => here, sound.proofs, ?_⟩
    intro id inside
    rcases sound.held inside with here | ⟨parked, here⟩
    · exact .inl here
    · by_cases same : op.id = id
      · exact .inl (same ▸ applied)
      · right
        show ∃ other, (s.pending.erase op.id)[id]? = some other
        rw [BTreeMap.get_erase, if_neg same]
        exact ⟨parked, here⟩
  parked := fun sound here => sound.canon.parked here

theorem Canon.not_enabled_of_waits (canon : Canon env ops s) (batch : Batch env ops)
    (member : op ∈ ops) (stocked : Stocked ops s) (safe : RenameSafe s op) {reason : Unmet}
    (waits : Waits env op s reason) : ¬Enabled env ops s.done op := by
  have tame := batch.tame op member
  have isDir : ∀ {i}, MadeDir env ops s.done i → s.isDir i = true := fun made =>
    (canon.inodes.isDir_iff batch _).mpr made
  unfold Tame at tame
  unfold Enabled
  cases waits with
  | @parent kind _ _ _ kindIs missing =>
      rw [kindIs]
      cases kind <;> exact fun enabled => missing (isDir enabled.2)
  | unlinkParent kindIs missing =>
      rw [kindIs]
      exact fun enabled => missing (isDir enabled)
  | writeInode kindIs missing =>
      rw [kindIs]
      rintro ⟨first, born, -⟩
      obtain ⟨r, found⟩ := canon.inodes.born born
      rw [missing] at found
      cases found
  | attrInode kindIs missing =>
      rw [kindIs]
      rintro ⟨first, born⟩
      obtain ⟨r, found⟩ := canon.inodes.born born
      rw [missing] at found
      cases found
  | @chunk _ _ chunks _ _ hash kindIs missing =>
      unfold firstMissingChunk at missing
      rw [Option.map_eq_some_iff] at missing
      obtain ⟨chunk, found, -⟩ := missing
      have here := stocked op member kindIs chunk (List.mem_of_find?_eq_some found)
      have gone := List.find?_some found
      simp [here] at gone
  | content kindIs partly =>
      rw [kindIs] at tame
      exact absurd ⟨tame.1, tame.2.1⟩ partly
  | sourceParent kindIs missing =>
      rw [kindIs]
      exact fun enabled => missing (isDir enabled.2.1)
  | destination kindIs missing =>
      rw [kindIs]
      exact fun enabled => missing (isDir enabled.2.2.1)
  | @source old_parent new_parent old_name new_name observed kindIs some_seen missing =>
      rw [kindIs]
      rintro ⟨-, source, target, seen⟩
      obtain ⟨top, highest⟩ := exists_isTop some_seen
      obtain ⟨value, adds⟩ := seen top highest
      have added := canon.links.added_of_adds adds
      rcases safe kindIs (isDir source) (isDir target) top highest with ⟨w, live, -⟩ | ⟨kept, gone⟩
      · exact renameSource_eq_none.mp missing (top, w) ((OrMap.mem_getAll _ _ _ _).mpr live)
          highest.1
      · exact gone top highest.1 value ⟨added, kept⟩

theorem Sound.drain (sound : Sound env ops past s) (queue : Queue s) (batch : Batch env ops)
    (few : FewDirs ops) (safe : ∀ x ∈ drainRetries env s, x.2 ∈ ops → RenameSafe x.1 x.2) :
    ∃ n t, drainPending env s = .ok n t ∧ Sound env ops past t ∧ Queue t ∧
      (∀ {id : OpId} {op}, t.pending[id]? = some op → ¬Enabled env ops t.done op) ∧
      (n = 0 → t = s) := by
  have drained := (soundRule batch few past).drainPending sound safe
  have ends := drainPending_ends env queue
  cases run : drainPending env s with
  | error e t =>
      rw [run] at drained
      exact drained.elim
  | ok n t =>
      rw [run] at drained ends
      obtain ⟨order, stuck, idle, traced⟩ := ends
      refine ⟨n, t, rfl, drained, order, ?_, idle⟩
      intro id op here
      obtain ⟨reason, unmet⟩ := stuck here
      have spec := mutate_spec env op t
      rw [unmet] at spec
      have inside := (drained.canon.parked here).1
      exact drained.canon.not_enabled_of_waits batch inside drained.stocked
        (safe _ (traced here) inside) spec.2

end Attempts

section Delivery

variable {env : Env} {ops : Finset FsOp} {past : Set OpId} {s t : CoreState} {op : FsOp}

/-- The state after the operations have been fed to `apply_op` one after the other, whether the
calls returned or failed. -/
def deliver (env : Env) (s : CoreState) (sequence : List FsOp) : CoreState :=
  sequence.foldl (fun s op => finalState (applyOp env op s)) s

theorem deliver_append (env : Env) (s : CoreState) (first second : List FsOp) :
    deliver env s (first ++ second) = deliver env (deliver env s first) second :=
  List.foldl_append

theorem deliver_singleton (env : Env) (s : CoreState) (op : FsOp) :
    deliver env s [op] = finalState (applyOp env op s) := rfl

def deliverAttempts (env : Env) : CoreState → List FsOp → List (CoreState × FsOp)
  | _, [] => []
  | s, op :: rest =>
      applyAttempts env op true s ++ deliverAttempts env (finalState (applyOp env op s)) rest

/-- A state between two calls: sound, with a current root, and nothing enabled is parked. -/
structure Steady (env : Env) (ops : Finset FsOp) (past : Set OpId) (s : CoreState) : Prop where
  sound : Sound env ops past s
  current : Current env s
  queue : Queue s
  closed : ∀ {id : OpId} {op}, s.pending[id]? = some op → ¬Enabled env ops s.done op

theorem Sound.steady (sound : Sound env ops past s) (queue : Queue s)
    (closed : ∀ {id : OpId} {op}, s.pending[id]? = some op → ¬Enabled env ops s.done op)
    (aside : Aside s t) (current : Current env t) : Steady env ops past t := by
  have after := sound.aside aside
  obtain ⟨blobs, head, root, kv, blob, -, rfl⟩ := aside
  exact ⟨after, current, queue.congr rfl rfl, closed⟩

def withDelivered (past : Set OpId) (op : FsOp) : Set OpId :=
  {id | id ∈ past ∨ (id = op.id ∧ ¬Hopeless op)}

theorem Sound.delivered (sound : Sound env ops past s) (here : ¬Hopeless op → Held s op.id) :
    Sound env ops (withDelivered past op) s := by
  refine ⟨sound.exact, sound.canon, sound.stocked, sound.proofs, ?_⟩
  rintro id (old | ⟨rfl, hope⟩)
  · exact sound.held old
  · exact here hope

theorem Steady.applyOp (steady : Steady env ops past s) (batch : Batch env ops)
    (few : FewDirs ops) (member : op ∈ ops)
    (safe : ∀ x ∈ applyAttempts env op true s, x.2 ∈ ops → RenameSafe x.1 x.2) :
    Steady env ops (withDelivered past op) (finalState (applyOp env op s)) := by
  have admits : Admits env op true s :=
    ⟨batch.signed op member, fun _ => by simp [checkProof, steady.sound.proofs, pure, Except.pure]⟩
  by_cases known : op.id ∈ s.applied
  · have call : Core.applyOp env op s = .ok .alreadyApplied s := applyOpInner_known admits known
    rw [call]
    exact ⟨steady.sound.delivered fun _ => .inl known, steady.current, steady.queue, steady.closed⟩
  · have call : Core.applyOp env op s = _ := applyOpInner_new admits known
    have logged : Sound env ops past (s.appendOp op) := steady.sound.appendOp op
    by_cases hopeless : Hopeless op
    · obtain ⟨e, refusal⟩ := hopeless.refused logged.exact.shape
      have failed : attempt env op (s.appendOp op) = .error e (s.appendOp op) := by
        rw [attempt_run, refusal.mutate]
      rw [call, failed]
      exact ⟨logged.delivered fun hope => absurd hopeless hope,
        steady.current.congr rfl rfl rfl rfl rfl, steady.queue.congr rfl rfl, steady.closed⟩
    · rw [applyAttempts_new admits known, applyRetries_new admits known] at safe
      have first := safe _ List.mem_cons_self member
      have retries := fun x inside => safe x (List.mem_cons_of_mem _ inside)
      obtain ⟨outcome, t, run, after⟩ := logged.attempt batch few member hopeless first known
      have spec := attempt_spec env op (s.appendOp op)
      have logged_queue : Queue (s.appendOp op) := steady.queue.congr rfl rfl
      unfold afterFirst at retries
      rw [run] at call spec retries
      cases outcome with
      | done =>
          have took : Took env op (s.appendOp op) t := spec
          have holds : Held t op.id := by
            left
            rw [took.applied, BTreeSet.mem_insert]
            exact .inl rfl
          obtain ⟨n, u, drained, sound, queue, closed, -⟩ :=
            (after.delivered fun _ => holds).drain (logged_queue.took took) batch few retries
          dsimp only at call
          rw [call, drained]
          exact sound.steady queue closed (aside_closeCall env True u)
            (current_closeCall True (by simp))
      | unmet reason =>
          obtain ⟨rfl, -⟩ := spec
          have holds : Held ((s.appendOp op).storePending op) op.id := by
            right
            show ∃ other, (s.pending.insert op.id op)[op.id]? = some other
            rw [BTreeMap.get_insert, if_pos rfl]
            exact ⟨op, rfl⟩
          obtain ⟨n, u, drained, sound, queue, closed, idle⟩ :=
            ((after.storePending member hopeless).delivered fun _ => holds).drain
              (logged_queue.park known) batch few retries
          dsimp only at call
          rw [call, drained]
          have current : Current env (closeCall env (0 < n) u) := by
            refine current_closeCall _ fun none_applied => ?_
            obtain rfl := idle (by omega)
            exact steady.current.congr rfl rfl rfl rfl rfl
          exact sound.steady queue closed (aside_closeCall env (0 < n) u) current

theorem Steady.deliver (steady : Steady env ops past s) (batch : Batch env ops)
    (few : FewDirs ops) (sequence : List FsOp) (members : ∀ op ∈ sequence, op ∈ ops)
    (safe : ∀ x ∈ deliverAttempts env s sequence, x.2 ∈ ops → RenameSafe x.1 x.2) :
    ∃ later, Steady env ops later (deliver env s sequence) ∧ past ⊆ later ∧
      ∀ op ∈ sequence, ¬Hopeless op → op.id ∈ later := by
  induction sequence generalizing s past with
  | nil => exact ⟨past, steady, subset_rfl, by simp⟩
  | cons op rest ih =>
      have first := steady.applyOp batch few (members op List.mem_cons_self)
        fun x inside => safe x (List.mem_append_left _ inside)
      obtain ⟨later, after, grows, held⟩ := ih first
        (fun other inside => members other (List.mem_cons_of_mem op inside))
        fun x inside => safe x (List.mem_append_right _ inside)
      refine ⟨later, after, fun id old => grows (.inl old), ?_⟩
      intro other inside hope
      rcases List.mem_cons.mp inside with rfl | later_on
      · exact grows (.inr ⟨rfl, hope⟩)
      · exact held other later_on hope

end Delivery

end NexusFS.Core
