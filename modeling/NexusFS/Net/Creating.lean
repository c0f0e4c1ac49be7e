/- GID: NexusFS/Net/Creating
   source: crates/core/src/ops.rs, crates/core/src/apply.rs
   digest: What the local creations of a call make, and that whatever was found is found still. -/

import NexusFS.Core.Creation
import NexusFS.Net.Calls
import NexusFS.Net.Passes

/-!
`mkdir_p` and `write_file` make several operations of their own, and every one of them
retries what is parked. What is parked has to leave alone what the call makes.
-/

set_option autoImplicit false
set_option relaxedAutoImplicit false

namespace NexusFS.Net

open NexusFS.Lib NexusFS.Lib.Effect NexusFS.Proto NexusFS.Core NexusFS.Crdt CoreState

section Ready

variable {env : Env} {ids : Set OpId} {absent : Hash → Prop} {changed : Set U128} {s t u : CoreState}
  {op : FsOp} {n m : Nat}

/-- A parked operation that changes at most files in `changed`, and that names nothing that the next
`n` local operations make. -/
structure Aloof (env : Env) (absent : Hash → Prop) (changed : Set U128) (s : CoreState) (n : Nat)
    (op : FsOp) : Prop where
  confined : Confined env absent changed s op
  inodes : ∀ i < n, inodeForOp env (ownId s i) ∉ namedInodes op
  unseen : ∀ i < n, ownId s i ∉ observedIds op

/-- The next `n` local operations are new to the node, and what is parked is aloof of them. -/
structure Ready (env : Env) (ids : Set OpId) (absent : Hash → Prop) (changed : Set U128)
    (s : CoreState) (n : Nat) : Prop where
  own : ∀ i < n, ownId s i ∈ ids
  unapplied : ∀ i < n, ownId s i ∉ s.applied
  unparked : ∀ i < n, s.pending[ownId s i]? = none
  unremoved : ∀ i < n, ∀ p name, ¬s.Removed p name (ownId s i)
  parked : ∀ {id : OpId} {op}, s.pending[id]? = some op → Aloof env absent changed s n op
  counts : s.next_counter.val + n < 2 ^ 64

theorem Ready.mono {later : Set U128} (ready : Ready env ids absent changed s n) (fewer : m ≤ n)
    (wider : changed ⊆ later) : Ready env ids absent later s m where
  own i below := ready.own i (below.trans_le fewer)
  unapplied i below := ready.unapplied i (below.trans_le fewer)
  unparked i below := ready.unparked i (below.trans_le fewer)
  unremoved i below := ready.unremoved i (below.trans_le fewer)
  parked here :=
    ⟨(ready.parked here).confined.mono wider,
      fun i below => (ready.parked here).inodes i (below.trans_le fewer),
      fun i below => (ready.parked here).unseen i (below.trans_le fewer)⟩
  counts := (Nat.add_le_add_left fewer _).trans_lt ready.counts

theorem Ready.spares (ready : Ready env ids absent changed s (n + 1)) (gained : Gained env (nextId s) s u)
    {id : OpId} (here : s.pending[id]? = some op) :
    Confined env absent (changed \ {inodeForOp env (nextId s)}) u op := by
  have aloof := ready.parked here
  have first := Nat.succ_pos n
  have inodes : inodeForOp env (nextId s) ∉ namedInodes op := ownId_zero s ▸ aloof.inodes 0 first
  rcases aloof.confined with none_so | ⟨inode, inside, writes⟩
  · exact .inl (gained.harmless none_so inodes (ownId_zero s ▸ aloof.unseen 0 first))
  · refine .inr ⟨inode, ⟨inside, ?_⟩, writes⟩
    rintro rfl
    obtain ⟨offset, chunks, new_size, encryption, shape⟩ := writes
    exact inodes (by simp [namedInodes, shape])

/-- What one local operation did before the rest of its call: it took its id, and added no more than an
entry of that id. -/
structure Begun (env : Env) (s u : CoreState) : Prop where
  gained : Gained env (nextId s) s u
  queue : ∀ {id : OpId} {op}, u.pending[id]? = some op → s.pending[id]? = some op
  applied : ∀ {id}, id ∈ u.applied → id = nextId s ∨ id ∈ s.applied
  removed : ∀ {p name d}, u.Removed p name d → s.Removed p name d

theorem Ready.next (ready : Ready env ids absent changed s (n + 1)) (begun : Begun env s u)
    (kept : Core.Kept (changed \ {inodeForOp env (nextId s)}) ∅ u t) (device : t.device_id = s.device_id)
    (counter : t.next_counter = s.next_counter + 1) :
    Ready env ids absent (changed \ {inodeForOp env (nextId s)}) t n := by
  have ids_next := ownId_succ device counter
  have later : ∀ {i}, i < n → i + 1 < n + 1 := fun below => Nat.succ_lt_succ below
  have counts := ready.counts
  refine ⟨fun i below => ?_, fun i below known => ?_, fun i below => ?_, fun i below p name gone => ?_,
    fun {id op} here => ?_, ?_⟩
  · rw [ids_next]
    exact ready.own _ (later below)
  · rw [ids_next] at known
    rcases kept.applied known with here | waited | none_of_it
    · rcases begun.applied here with same | old
      · rw [← ownId_zero] at same
        have equal := ownId_inj (by omega) (by omega) same
        cases equal
      · exact ready.unapplied _ (later below) old
    · obtain ⟨op, row⟩ := Option.isSome_iff_exists.mp waited
      have missing := ready.unparked _ (later below)
      rw [begun.queue row] at missing
      cases missing
    · exact none_of_it
  · cases row : t.pending[ownId t i]? with
    | none => rfl
    | some op =>
        have missing := ready.unparked _ (later below)
        rw [← ids_next, begun.queue (kept.queue row)] at missing
        cases missing
  · rw [ids_next, removed_congr kept.dirs] at gone
    exact ready.unremoved _ (later below) p name (begun.removed gone)
  · have waited := begun.queue (kept.queue here)
    have aloof := ready.parked waited
    refine ⟨kept.confined (ready.spares begun.gained waited), fun i below => ?_, fun i below => ?_⟩
    · rw [ids_next]
      exact aloof.inodes _ (later below)
    · rw [ids_next]
      exact aloof.unseen _ (later below)
  · have one : (1 : U64).val = 1 := rfl
    rw [counter, Fin.val_add, one]
    omega

end Ready

section Creating

variable {env : Env} {identity : Identity} {ids : Set OpId} {absent : Hash → Prop}
  {changed : Set U128} {kind : EntryType} {parent : U128} {name : String} {mode : U32} {now : U64} {s t : CoreState} {op : FsOp} {n : Nat}

private theorem Performed.created {w u v : CoreState} (inj : Set.InjOn (inodeForOp env) ids)
    (shape : Shape env ids s) (ready : Ready env ids absent changed s (n + 1))
    (free : s.lookup parent name = none)
    (performed : Performed env identity (creation kind parent name mode) now s w u v t) :
    Begun env s u ∧ Creates env (nextId s) now parent name kind s u := by
  obtain ⟨made, isMade⟩ : ∃ made, authoredOp env identity (creation kind parent name mode) now s = made :=
    ⟨_, rfl⟩
  have kindIs : made.kind = creation kind parent name mode := isMade ▸ rfl
  have id : made.id = nextId s := isMade ▸ rfl
  have time : made.time_unix_ms = now := isMade ▸ rfl
  have mutated := performed.mutated
  have mapped := performed.mapped
  rw [isMade] at mutated mapped
  have spec := mutate_spec env made ((counted s).appendOp made)
  rw [mutated] at spec
  have effect : Effect env made ((counted s).appendOp made) w := spec
  have took : Took env made ((counted s).appendOp made) u := ⟨w, effect, mapped⟩
  have pending : u.pending = s.pending.erase made.id := took.pending
  have applied : u.applied = s.applied.insert made.id := took.applied
  obtain ⟨dir, linked⟩ := effect.creates kindIs
  have own : ownId s 0 = made.id := (ownId_zero s).trans id.symm
  have first := Nat.succ_pos n
  have vacant : Vacant env made parent name s := .of_fresh shape inj (own ▸ ready.own 0 first)
    (own ▸ ready.unapplied 0 first) dir (own ▸ ready.unremoved 0 first parent name) free
  have vacant' : Vacant env made parent name ((counted s).appendOp made) :=
    ⟨vacant.apart, vacant.fresh, vacant.unused, vacant.kept, vacant.free⟩
  have queue : ∀ {id : OpId} {op}, u.pending[id]? = some op → s.pending[id]? = some op := by
    intro id op here
    rw [pending, BTreeMap.get_erase] at here
    split at here
    · cases here
    · exact here
  have known : ∀ {other}, other ∈ u.applied → other = made.id ∨ other ∈ s.applied := by
    intro other here
    rw [applied, BTreeSet.mem_insert] at here
    exact here.imp_left Eq.symm
  have gained : Gained env made.id ((counted s).appendOp made) w := linked ▸ vacant'.gained
  have creates : Creates env made.id made.time_unix_ms parent name kind ((counted s).appendOp made) w :=
    linked ▸ vacant'.creates
  have removed : ∀ p part d, w.Removed p part d ↔ s.Removed p part d :=
    linked ▸ removed_linkCreated vacant'.apart vacant'.fresh
  obtain ⟨dirs, inodes⟩ : u.dirs = w.dirs ∧ u.inodes = w.inodes := by
    obtain ⟨blobs, imap, -, rfl⟩ := mapped
    exact ⟨rfl, rfl⟩
  rw [time] at creates
  rw [id] at gained creates known
  exact ⟨⟨gained.congr rfl rfl dirs inodes, queue, known,
    fun {p part d} gone => (removed p part d).mp ((removed_congr dirs p part d).mp gone)⟩,
    creates.congr rfl dirs inodes⟩

/-- A local operation with an id in `ids` leaves a node in order. -/
theorem orderly_applyLocal {kind : FsOpKind} (inj : Set.InjOn (inodeForOp env) ids)
    (orderly : Orderly env ids s) (member : nextId s ∈ ids) :
    Orderly env ids (finalState (applyLocal env identity kind now s)) := by
  have within : ∀ x ∈ (Act.author kind now).calls env identity s, x.2.Within ids := by
    intro x made
    obtain rfl := List.mem_singleton.mp made
    exact member
  exact (through_act (.author kind now)).carry (fun orderly still => orderly.quiet still)
    (fun orderly met => orderly.call inj met) orderly within

theorem applyLocal_creates (inj : Set.InjOn (inodeForOp env) ids) (orderly : Orderly env ids s)
    (ready : Ready env ids absent changed s (n + 1)) (free : s.lookup parent name = none)
    (run : applyLocal env identity (creation kind parent name mode) now s = .ok op t) :
    op.id = nextId s ∧ Orderly env ids t ∧ (Arrived absent t ∨
      (Ready env ids absent (changed \ {inodeForOp env (nextId s)}) t n ∧
        Creates env (nextId s) now parent name kind s t)) := by
  have shape := orderly.shape
  have own : nextId s ∈ ids := ownId_zero s ▸ ready.own 0 (Nat.succ_pos n)
  have orderly' : Orderly env ids t := by
    have kept := @orderly_applyLocal env identity ids now s (creation kind parent name mode) inj orderly own
    rwa [run] at kept
  obtain ⟨id, repeated | ⟨w, u, v, performed⟩⟩ := applyLocal_ok run
  · have new := ready.unapplied 0 (Nat.succ_pos n)
    rw [ownId_zero] at new
    exact absurd repeated.known new
  · refine ⟨id, orderly', ?_⟩
    obtain ⟨begun, creates⟩ := performed.created inj shape ready free
    have rest := performed.rest (fun here => (shape.parked (begun.queue here)).1)
      fun here => ready.spares begun.gained (begun.queue here)
    have numbers := numbers_applyLocal env identity (creation kind parent name mode) now s
    rw [run] at numbers
    refine rest.imp_right fun kept => ⟨ready.next begun kept numbers.1 numbers.2, ?_⟩
    have lookups := lookup_of_dirs kept.dirs
    exact ⟨(lookups _ _).trans creates.made, fun found => (lookups _ _).trans (creates.found found),
      fun part => (lookups _ _).trans (creates.bare part),
      fun isFile => kept.fileAt (fun inside => inside.2 rfl) (creates.file isFile)⟩

/-- Finding or making directories from `start` on: they lead from there to `last`, nothing that was found
is lost, and either nothing was made or `last` is a new directory. -/
structure Opened (s : CoreState) (start : U128) (parts : List String) (last : U128) (t : CoreState) :
    Prop where
  leads : Leads t (start, .dir) parts (last, .dir)
  found : ∀ {q part e}, s.lookup q part = some e → t.lookup q part = some e
  made : t = s ∨ (∀ b, ¬Leads s (start, .dir) parts b) ∧ ∀ part, t.lookup last part = none

theorem Opened.down {start last : U128} {part : String} {rest : List String} {e : DirEntry}
    (found : s.lookup start part = some e) (dir : e.entry_type = .dir)
    (opened : Opened s e.inode_id rest last t) : Opened s start (part :: rest) last t := by
  refine ⟨.down (opened.found found) (dir ▸ opened.leads), opened.found, ?_⟩
  refine opened.made.imp_right fun ⟨nowhere, bare⟩ => ⟨fun b leads => ?_, bare⟩
  obtain ⟨-, other, again, later⟩ := Leads.cons_iff.mp leads
  cases found.symm.trans again
  exact nowhere b (dir ▸ later)

theorem Opened.made_down {start last : U128} {part : String} {rest : List String} {id : OpId}
    {u : CoreState} (free : s.lookup start part = none)
    (creates : Creates env id now start part .dir s u)
    (opened : Opened u (inodeForOp env id) rest last t) : Opened s start (part :: rest) last t := by
  refine ⟨.down (opened.found creates.made) opened.leads,
    fun found => opened.found (creates.found found), .inr ⟨fun b leads => ?_, ?_⟩⟩
  · obtain ⟨-, e, found, -⟩ := Leads.cons_iff.mp leads
    cases free.symm.trans found
  · rcases opened.made with rfl | ⟨-, bare⟩
    · cases rest with
      | nil =>
          cases Leads.nil_iff.mp opened.leads
          exact creates.bare
      | cons next rest =>
          obtain ⟨-, e, found, -⟩ := Leads.cons_iff.mp opened.leads
          cases (creates.bare next).symm.trans found
    · exact bare

theorem keeps_arrived (env : Env) (identity : Identity) (absent : Hash → Prop) (kind : FsOpKind)
    (now : U64) : Keeps (Arrived absent) (applyLocal env identity kind now) :=
  fun s arrived => arrived.mono (lasts_applyLocal env identity kind now s).1

/-- The loop of `mkdir_p`. -/
theorem mkdirParts_opens (inj : Set.InjOn (inodeForOp env) ids) {parts : List String} {walked : String}
    {start last : U128} (orderly : Orderly env ids s)
    (ready : Ready env ids absent changed s (parts.length + n))
    (run : mkdirParts env identity now parts walked start s = .ok last t) :
    Arrived absent t ∨
      (Orderly env ids t ∧ Ready env ids absent changed t n ∧ Opened s start parts last t) := by
  induction parts generalizing walked start s with
  | nil =>
      cases run
      exact .inr ⟨orderly, ready.mono (Nat.le_add_left n 0) le_rfl, .here _, fun found => found, .inl rfl⟩
  | cons part rest ih =>
      have count : rest.length + n + 1 = (part :: rest).length + n := by
        rw [List.length_cons]
        omega
      unfold mkdirParts at run
      obtain ⟨_, _, read, run⟩ := bind_run_eq_ok.mp run
      cases read
      cases found : s.lookup start part with
      | some e =>
          rw [found] at run
          dsimp only at run
          split at run
          · rename_i dir
            exact (ih orderly (ready.mono (by omega) le_rfl) run).imp_right
              fun ⟨orderly, ready, opened⟩ => ⟨orderly, ready, opened.down found dir⟩
          · cases run
      | none =>
          rw [found] at run
          obtain ⟨op, u, first, run⟩ := bind_run_eq_ok.mp run
          rw [← count] at ready
          obtain ⟨id, orderly', arrived | ⟨ready', creates⟩⟩ := @applyLocal_creates env identity ids absent
            changed .dir start part 0o40755 now s u op (rest.length + n) inj orderly ready found first
          · have kept := keeps_mkdirParts (keeps_arrived env identity absent) now rest
              (walked ++ "/" ++ part) (inodeForOp env op.id) u arrived
            rw [run] at kept
            exact .inl kept
          · rw [id] at run
            exact (ih orderly' (ready'.mono le_rfl Set.sdiff_subset) run).imp_right
              fun ⟨orderly, ready, opened⟩ => ⟨orderly, ready, opened.made_down found creates⟩

theorem mkdirParts_found {parts : List String} {walked : String} {start last : U128}
    (leads : Leads s (start, .dir) parts (last, .dir)) :
    mkdirParts env identity now parts walked start s = .ok last s := by
  induction parts generalizing walked start with
  | nil =>
      cases Leads.nil_iff.mp leads
      rfl
  | cons part rest ih =>
      obtain ⟨-, e, found, later⟩ := Leads.cons_iff.mp leads
      have dir : e.entry_type = .dir := by
        cases rest with
        | nil => exact (congrArg Prod.snd (Leads.nil_iff.mp later)).symm
        | cons next rest => exact (Leads.cons_iff.mp later).1
      rw [dir] at later
      unfold mkdirParts
      rw [bind_run, get_run]
      dsimp only
      rw [found]
      dsimp only
      rw [if_pos dir]
      exact ih later

theorem prepareFile_found {path : String} {parts : List String} {inode found : U128}
    (split : splitPath path = .ok parts) (leads : Leads s (rootInode, .dir) parts (inode, .file))
    (run : prepareFile env identity path now s = .ok found t) : inode = found ∧ s = t := by
  unfold prepareFile at run
  obtain ⟨parts, _, components, run⟩ := bind_run_eq_ok.mp run
  rw [split] at components
  cases components
  rcases List.eq_nil_or_concat' parts with rfl | ⟨dirs, name, rfl⟩
  · cases run
  obtain ⟨p, e, before, here, same⟩ := Leads.snoc_iff.mp leads
  obtain ⟨rfl, isFile⟩ := Prod.mk.inj same
  rw [List.getLast?_concat, List.dropLast_concat] at run
  have joined := splitPath_intercalate dirs fun part inside =>
    valid_of_splitPath split part (by simp [inside])
  have opens : mkdirP env identity ("/".intercalate dirs) now s = .ok p s := by
    unfold mkdirP
    rw [joined]
    exact mkdirParts_found before
  dsimp only at run
  rw [bind_run, opens] at run
  dsimp only at run
  rw [bind_run, get_run] at run
  dsimp only at run
  rw [here] at run
  dsimp only at run
  split at run
  · cases run
    exact ⟨rfl, rfl⟩
  · rename_i other
    exact absurd isFile.symm other

theorem createdReg_lt (device : t.device_id = s.device_id) (counter : t.next_counter = s.next_counter + 1)
    (counts : t.next_counter.val + 1 < 2 ^ 64) :
    (createdReg (nextId s) now).orderKey < writeKey now t := by
  have one : (1 : U64).val = 1 := rfl
  have below : s.next_counter + 1 < t.next_counter + 1 := by
    rw [← counter, Fin.lt_def, Fin.val_add, one]
    omega
  show orderKeyOf now s.device_id (s.next_counter + 1) < orderKeyOf now t.device_id (t.next_counter + 1)
  rw [device]
  exact Prod.Lex.toLex_lt_toLex.mpr (.inr ⟨rfl, Prod.Lex.toLex_lt_toLex.mpr (.inr ⟨rfl, below⟩)⟩)

/-- What `write_file` has when it comes to write: the file that was there, or a new one. -/
inductive Prepared (env : Env) (ids : Set OpId) (absent : Hash → Prop) (changed : Set U128) (now : U64)
    (n : Nat) (parts : List String) (s : CoreState) (inode : U128) : CoreState → Prop
  | held (leads : Leads s (rootInode, .dir) parts (inode, .file)) :
      Prepared env ids absent changed now n parts s inode s
  | created {a : CoreState} {id : OpId} (nowhere : ∀ b, ¬Leads s (rootInode, .dir) parts b)
      (leads : Leads a (rootInode, .dir) parts (inode, .file)) (orderly : Orderly env ids a)
      (ready : Ready env ids absent (changed \ {inode}) a n) (file : FileAt inode (createdReg id now) a)
      (low : (createdReg id now).orderKey < writeKey now a) :
      Prepared env ids absent changed now n parts s inode a

theorem prepareFile_prepares (inj : Set.InjOn (inodeForOp env) ids) {path : String} {parts : List String}
    {inode : U128} (split : splitPath path = .ok parts) (orderly : Orderly env ids s)
    (ready : Ready env ids absent changed s (parts.length + (n + 1)))
    (run : prepareFile env identity path now s = .ok inode t) :
    Arrived absent t ∨ Prepared env ids absent changed now (n + 1) parts s inode t := by
  unfold prepareFile at run
  obtain ⟨parts, _, components, run⟩ := bind_run_eq_ok.mp run
  rw [split] at components
  cases components
  rcases List.eq_nil_or_concat' parts with rfl | ⟨dirs, name, rfl⟩
  · cases run
  rw [List.getLast?_concat, List.dropLast_concat] at run
  obtain ⟨parent, u, first, run⟩ := bind_run_eq_ok.mp run
  have valid := valid_of_splitPath split
  have joined := splitPath_intercalate dirs fun part inside => valid part (by simp [inside])
  have opens : mkdirP env identity ("/".intercalate dirs) now s =
      mkdirParts env identity now dirs "" rootInode s := by
    unfold mkdirP
    rw [joined]
    rfl
  rw [opens] at first
  have count : dirs.length + (n + 1 + 1) = (dirs ++ [name]).length + (n + 1) := by
    rw [List.length_append, List.length_singleton]
    omega
  have opened := @mkdirParts_opens env identity ids absent changed now s u (n + 1 + 1) inj dirs ""
    rootInode parent orderly (ready.mono count.le le_rfl) first
  obtain ⟨_, _, read, run⟩ := bind_run_eq_ok.mp run
  cases read
  cases found : u.lookup parent name with
  | some e =>
      rw [found] at run
      dsimp only at run
      split at run
      · rename_i isFile
        cases run
        refine opened.imp_right fun ⟨orderly', ready', opened⟩ => ?_
        rcases opened.made with rfl | ⟨-, bare⟩
        · exact .held (Leads.snoc_iff.mpr ⟨parent, e, opened.leads, found, isFile ▸ rfl⟩)
        · cases (bare name).symm.trans found
      · cases run
  | none =>
      rw [found] at run
      obtain ⟨op, v, second, run⟩ := bind_run_eq_ok.mp run
      cases run
      rcases opened with arrived | ⟨orderly', ready', opened⟩
      · have later := keeps_arrived env identity absent (.createFile parent name 0o100644) now u arrived
        rw [second] at later
        exact .inl later
      have numbers := numbers_applyLocal env identity (.createFile parent name 0o100644) now u
      rw [second] at numbers
      obtain ⟨id, orderly'', creates⟩ := @applyLocal_creates env identity ids absent changed .file parent
        name 0o100644 now u t op (n + 1) inj orderly' ready' found second
      rw [id]
      refine creates.imp_right fun ⟨ready'', creates⟩ => ?_
      refine .created (fun b leads => ?_) ?_ orderly'' ready'' (creates.file rfl)
        (createdReg_lt numbers.1 numbers.2 ?_)
      · obtain ⟨q, e, before, looked, -⟩ := Leads.snoc_iff.mp leads
        rcases opened.made with rfl | ⟨nowhere, -⟩
        · cases before.unique opened.leads
          cases found.symm.trans looked
        · exact nowhere _ before
      · exact Leads.snoc_iff.mpr ⟨parent, _,
          opened.leads.transfer fun q part e _ looked _ => creates.found looked, creates.made, rfl⟩
      · have counts := ready''.counts
        omega

end Creating

end NexusFS.Net
