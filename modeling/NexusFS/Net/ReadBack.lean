/- GID: NexusFS/Net/ReadBack
   source: crates/core/src/ops.rs, crates/core/src/apply.rs, crates/crdt/src/lww.rs
   digest: When a file that was just written reads back as what was written. -/

import NexusFS.Net.Creating
import NexusFS.Net.Rotation

/-!
`apply_local` returns once the operation has been applied, and a write that loses the register is
applied without taking it. A new file is younger than its own write; an old one may not be.
-/

set_option autoImplicit false
set_option relaxedAutoImplicit false

namespace NexusFS.Net

open NexusFS.Lib NexusFS.Lib.Effect NexusFS.Proto NexusFS.Core NexusFS.Crdt CoreState

section ReadBack

variable {env : Env} {identity : Identity} {ids : Set OpId} {changed : Set U128} {path : String}
  {parts : List String} {data : Bytes} {now : U64} {s a b t : CoreState} {inode : U128} {op : FsOp}
  {reg : LwwReg ContentState} {n : Nat}

def withContent (env : Env) (data : Bytes) (s : CoreState) : CoreState :=
  finalState (storeContent env data s)

def writtenBytes (env : Env) (data : Bytes) (now : U64) (a t : CoreState) : Set Bytes :=
  heldOr a t
    (encodeObject env (contentObject env a data now (contentInfo env a data)) :: contentPieces env a data)

/-- Storing content leaves all but the blobs, and every piece can be found. -/
structure Provided (env : Env) (data : Bytes) (now : U64) (a b t : CoreState) : Prop where
  only : OnlyContent a b
  keyed : Keyed env b
  grew : Extends a b
  held : ∀ piece ∈ contentPieces env a data, b.blobs[env.blake3 piece]? = some piece
  apart : Apart env b t [encodeObject env (contentObject env a data now (contentInfo env a data))]

theorem stocked (ideal : Ideal env) (keyed : Keyed env a)
    (apart : Set.InjOn env.blake3 (writtenBytes env data now a t)) :
    Provided env data now a (withContent env data a) t := by
  obtain ⟨d, stores⟩ := storeContent_eq ideal data a
  have same : withContent env data a = { putAll env (contentPieces env a data) a with draws := d } :=
    congrArg finalState stores
  obtain ⟨grew, held⟩ := @grew_putAll env _ a apart (contentPieces env a data)
    (fun piece inside => .inl (List.mem_cons_of_mem _ inside)) keyed.within_left
  have blobs : (withContent env data a).blobs = (putAll env (contentPieces env a data) a).blobs := by
    rw [same]
  refine ⟨⟨_, d, fun hash here => ?_, same.trans (by rw [putAll_eq])⟩, fun hash bytes here => ?_,
    fun hash bytes here => ?_, fun piece inside => ?_, apart.mono ?_⟩
  · rw [hasBlob_iff_get] at here
    obtain ⟨bytes, found⟩ := Option.isSome_iff_exists.mp here
    rw [Std.ExtTreeMap.contains_eq_isSome_getElem?, grew.kept hash bytes found]
    rfl
  · rw [blobs] at here
    exact (grew.within hash bytes here).2
  · rw [blobs]
    exact grew.kept hash bytes here
  · rw [blobs]
    exact held piece inside
  · rintro bytes (listed | ⟨hash, here⟩ | there)
    · exact .inl (List.mem_cons.mpr (.inl (List.mem_singleton.mp listed)))
    · rw [blobs] at here
      exact (grew.within hash bytes here).1
    · exact .inr (.inr there)

/-- A file whose write was applied before or lost the register and left it as it was, or took it. -/
inductive AfterWrite (env : Env) (data : Bytes) (now : U64) (a b : CoreState) (inode : U128)
    (t : CoreState) : Prop
  | lost (low : nextId a ∈ a.applied ∨ ∃ reg, FileAt inode reg a ∧ ¬reg.orderKey < writeKey now a)
      (same : ∀ reg, FileAt inode reg b ↔ FileAt inode reg t) (keys : SameKeys b t) (grew : Extends b t)
  | took (reg : LwwReg ContentState) (new : nextId a ∉ a.applied) (file : FileAt inode reg a)
      (wins : reg.orderKey < writeKey now a) (read : readFile env t inode = .ok data)

/-- A `write_file` that returned changed no directory with its write, if the rest of its call spared the
file. -/
theorem write_outcome (ideal : Ideal env)
    (decodes : ∀ object, env.decodeObject (env.encodeObject object) = some object)
    (stocked : Provided env data now a b t) (keyed : Keyed env t) (size : a.chunk_size ≤ 2 ^ 32 - 1 - 16)
    (length : data.length < 2 ^ 64) (spared : inode ∉ changed)
    (rest : ∀ {w u v}, Performed env identity (writeKind env a inode data) now b w u v t →
      Core.Kept changed ∅ u t)
    (run : applyLocal env identity (writeKind env a inode data) now b = .ok op t) :
    t.dirs = a.dirs ∧ AfterWrite env data now a b inode t := by
  have fits := fits_of_size size data.length
  obtain ⟨blobs, draws, keeps, only⟩ := stocked.only
  have dirs : b.dirs = a.dirs := only ▸ rfl
  have next : nextId b = nextId a := only ▸ rfl
  have applied : b.applied = a.applied := only ▸ rfl
  have inodes : b.inodes = a.inodes := only ▸ rfl
  have key : writeKey now b = writeKey now a := only ▸ rfl
  have kept : Core.Kept ∅ ∅ a b := by
    rw [only]
    exact .same rfl rfl keeps ⟨⟨rfl, rfl, rfl⟩, rfl, rfl⟩ rfl rfl
  have extends_t : (∀ hash, b.hasBlob hash → t.hasBlob hash) → Extends b t :=
    extends_of_keeps stocked.apart stocked.keyed.within_left keyed.within_right
  obtain ⟨-, repeated | ⟨w, u, v, performed⟩⟩ := applyLocal_ok run
  · have known := repeated.known
    rw [next, applied] at known
    have same := (kept_counted b).trans repeated.closes.kept
    obtain ⟨_, log, ⟨_, _, _, _, _, -, rfl⟩, rfl⟩ := repeated.closes
    exact ⟨dirs, .lost (.inl known) (fun reg => Iff.rfl) same.keys (extends_t same.blobs)⟩
  · have new := performed.new
    rw [next, applied] at new
    obtain ⟨reg, base⟩ := file_of_mutate_write rfl performed.mutated
    have file : FileAt inode reg b := base
    have file_a : FileAt inode reg a := by
      obtain ⟨record, found, kind, content⟩ := file
      refine ⟨record, ?_, kind, content⟩
      rwa [CoreState.loadInode, inodes] at found
    rcases performed.rewrites stocked.keyed keyed file (contentRefs_whole fits) stocked.apart
      (rest performed) spared with ⟨low, kept'⟩ | ⟨wins, kept', file', stored⟩
    · refine ⟨kept'.dirs.trans dirs, .lost (.inr ⟨reg, file_a, key ▸ low⟩)
        (fun other => ⟨kept'.fileAt spared, fun there => ?_⟩) kept'.keys (extends_t kept'.blobs)⟩
      obtain rfl : other = reg := Option.some.inj
        (there.contentAt.symm.trans (kept'.fileAt spared file).contentAt)
      exact file
    · refine ⟨kept'.dirs.trans dirs, .took reg new file_a (key ▸ wins) ?_⟩
      have grew := extends_t kept'.blobs
      have settings := kept.keys.settings.trans kept'.keys.settings
      rw [readFile_held file' rfl (getObject_found decodes stored)]
      exact materializeFile_ok_iff.mpr ⟨contentKey env a, chunkBytes data a.chunk_size,
        keyFor_content ideal (contentInfo_protects ideal data a) settings.sealing_secret settings.cipher,
        reads_contentRefs ideal fits length fun piece inside => grew _ _ (stocked.held piece inside),
        (flatten_chunkBytes _ _).symm, (Nat.mod_eq_of_lt length).symm⟩

theorem readFilePath_leads (split : splitPath path = .ok parts)
    (leads : Leads t (rootInode, .dir) parts (inode, .file)) :
    readFilePath env t path = readFile env t inode := by
  have resolved : resolvePath t path = .ok (some (inode, .file)) :=
    resolvePath_eq_some.mpr ⟨parts, split, leads⟩
  unfold readFilePath
  rw [resolved]
  rfl

/-- Nothing parked gets in the way of a `write_file`. If the path names a file, it can write that file
only under a key that is not above the one of the call, and no content that the file lacks comes to be
stored. Else the ids that the call takes are new, and what is parked can change no directory. -/
structure Unhindered (env : Env) (ids : Set OpId) (path : String) (data : Bytes) (now : U64)
    (world : Set Bytes) (s : CoreState) : Prop where
  rivals : ∀ inode, resolvePath s path = .ok (some (inode, .file)) → ∀ (id : OpId) op,
    s.pending[id]? = some op → Confined env (Beyond env {data} s world) {other | other ≠ inode} s op ∨
      (WritesTo inode op ∧ ¬writeKey now s < regKey op)
  lacks : ∀ inode reg node hash, resolvePath s path = .ok (some (inode, .file)) →
    contentAt s inode = some reg → reg.value.node_hash = some node →
      Names env (withContent env data s) (inode, node) hash →
        (withContent env data s).hasBlob hash ∨ Beyond env {data} s world hash
  ready : ∀ parts, splitPath path = .ok parts →
    (∀ inode, resolvePath s path ≠ .ok (some (inode, .file))) →
      Ready env ids (fun _ => False) Set.univ s (parts.length + 1)

/-- The path names no file, or one whose register the write can take, or one that has `data` already. -/
def Writable (env : Env) (path : String) (data : Bytes) (now : U64) (s : CoreState) : Prop :=
  ∀ inode, resolvePath s path = .ok (some (inode, .file)) →
    (nextId s ∉ s.applied ∧ ∃ reg, contentAt s inode = some reg ∧ reg.orderKey < writeKey now s) ∨
      readFilePath env (withContent env data s) path = .ok data

theorem stays_withContent (ideal : Ideal env) (data : Bytes) (s : CoreState) :
    Stays env {data} s (withContent env data s) :=
  Stays.storeContent ideal (fun _ keys _ inside => .own (Set.mem_singleton data) keys inside) s
    (.refl env _ s)

theorem whole_writeKind (size : a.chunk_size ≤ 2 ^ 32 - 1 - 16) {op : FsOp}
    (shape : op.kind = writeKind env a inode data) : ¬Partial op := by
  rintro ⟨_, _, _, _, _, other, partly⟩
  cases shape.symm.trans other
  exact partly ⟨rfl, contentRefs_whole (fits_of_size size data.length)⟩

theorem Performed.spares {world : Set Bytes} {w u v : CoreState}
    (filed : ∀ {id : OpId} {op}, s.pending[id]? = some op → op.id = id)
    (rivals : ∀ (id : OpId) op, s.pending[id]? = some op →
      Confined env (Beyond env {data} s world) {other | other ≠ inode} s op ∨
        (WritesTo inode op ∧ ¬writeKey now s < regKey op))
    (only : OnlyContent s b) (stays : Stays env {data} s t) (within : StoreIn env world t)
    (performed : Performed env identity (writeKind env s inode data) now b w u v t) :
    Core.Kept {other | other ≠ inode} ∅ u t := by
  obtain ⟨blobs, draws, keeps, same⟩ := only
  have kept : Core.Kept ∅ ∅ s b := by
    rw [same]
    exact .same rfl rfl keeps ⟨⟨rfl, rfl, rfl⟩, rfl, rfl⟩ rfl rfl
  have key : writeKey now b = writeKey now s := same ▸ rfl
  have waited : ∀ {id : OpId} {op}, u.pending[id]? = some op → s.pending[id]? = some op :=
    fun here => kept.queue (performed.started.1.queue here)
  have rest : Arrived (Beyond env {data} s world) t ∨ Core.Kept {other | other ≠ inode} ∅ u t := by
    refine performed.rest (fun here => filed (waited here)) fun {id op} parked => ?_
    refine performed.confines ((rivals id op (waited parked)).imp kept.confined ?_)
    rintro ⟨writes, low⟩
    exact ⟨writes, key.symm ▸ low⟩
  have away : ¬Arrived (Beyond env {data} s world) t := fun ⟨_, beyond, there⟩ =>
    beyond.not_held stays within there
  exact rest.resolve_left away

theorem AfterWrite.held_iff (split : splitPath path = .ok parts)
    (leads : Leads s (rootInode, .dir) parts (inode, .file)) (dirs : t.dirs = s.dirs)
    (only : OnlyContent s (withContent env data s))
    (lacks : ∀ reg node hash, contentAt s inode = some reg → reg.value.node_hash = some node →
      Names env (withContent env data s) (inode, node) hash → t.hasBlob hash →
        (withContent env data s).hasBlob hash)
    (outcome : AfterWrite env data now s (withContent env data s) inode t) :
    readFilePath env t path = .ok data ↔ Writable env path data now s := by
  have resolved : resolvePath s path = .ok (some (inode, .file)) :=
    resolvePath_eq_some.mpr ⟨parts, split, leads⟩
  have leads_t := leads.transfer fun q part e _ found _ => (lookup_of_dirs dirs q part).trans found
  rw [readFilePath_leads split leads_t]
  cases outcome with
  | took reg new file wins read =>
      refine iff_of_true read fun other resolved' => .inl ?_
      cases resolved.symm.trans resolved'
      exact ⟨new, reg, file.contentAt, wins⟩
  | lost low same_file keys grew =>
      obtain ⟨_, _, -, same⟩ := only
      have dirs_b : (withContent env data s).dirs = s.dirs := by rw [same]
      have contents : contentAt (withContent env data s) inode = contentAt s inode := by
        rw [same]
        rfl
      have leads_b := leads.transfer fun q part e _ found _ => (lookup_of_dirs dirs_b q part).trans found
      have reads : readFile env t inode = .ok data ↔
          readFilePath env (withContent env data s) path = .ok data := by
        rw [readFilePath_leads split leads_b]
        have still : ∀ {reg}, FileAt inode reg (withContent env data s) →
            readFile env t inode = readFile env (withContent env data s) inode := fun {reg} file =>
          readFile_sameRow file ((same_file reg).mp file) fun node inside =>
            ⟨keys, grew, fun hash => lacks reg node hash (contents ▸ file.contentAt) inside⟩
        constructor
        · intro read
          obtain ⟨reg, file⟩ := file_of_readFile read
          exact still ((same_file reg).mpr file) ▸ read
        · intro read
          obtain ⟨reg, file⟩ := file_of_readFile read
          exact (still file).trans read
      rw [reads]
      constructor
      · exact fun read _ _ => .inr read
      · refine fun writable => (writable inode resolved).resolve_left ?_
        rintro ⟨new, reg, here, wins⟩
        rcases low with known | ⟨other, file, high⟩
        · exact new known
        · obtain rfl := Option.some.inj (here.symm.trans file.contentAt)
          exact high wins

theorem AfterWrite.created_iff {id : OpId} (split : splitPath path = .ok parts)
    (nowhere : ∀ b, ¬Leads s (rootInode, .dir) parts b)
    (leads : Leads a (rootInode, .dir) parts (inode, .file)) (dirs : t.dirs = a.dirs)
    (new : nextId a ∉ a.applied) (file : FileAt inode (createdReg id now) a)
    (low : (createdReg id now).orderKey < writeKey now a)
    (outcome : AfterWrite env data now a b inode t) :
    readFilePath env t path = .ok data ↔ Writable env path data now s := by
  have leads_t := leads.transfer fun q part e _ found _ => (lookup_of_dirs dirs q part).trans found
  rw [readFilePath_leads split leads_t]
  cases outcome with
  | lost high =>
      rcases high with known | ⟨reg, there, high⟩
      · exact absurd known new
      · obtain rfl := Option.some.inj (there.contentAt.symm.trans file.contentAt)
        exact absurd low high
  | took _ _ _ _ read =>
      refine iff_of_true read fun other resolved => ?_
      obtain ⟨parts', split', leads'⟩ := resolvePath_eq_some.mp resolved
      cases split.symm.trans split'
      exact absurd leads' (nowhere _)

/-- After a `write_file` that returned the path reads as what was written if and only if it named no file
before, or one that the write could win or that had this content already. -/
theorem read_your_writes_iff (ideal : Ideal env) (inj : Set.InjOn (inodeForOp env) ids)
    (decodes : ∀ object, env.decodeObject (env.encodeObject object) = some object)
    (run : NodeRun env identity (EachCall env identity fun _ call => call.Within ids) s)
    (size : s.chunk_size ≤ 2 ^ 32 - 1 - 16) (length : data.length < 2 ^ 64) (world : Set Bytes)
    (apart : Set.InjOn env.blake3 world) (unhindered : Unhindered env ids path data now world s)
    (returned : writeFile env identity path data now s = .ok inode t)
    (within : ∀ a b op, Wrote env identity path data now s inode a b op t →
      writtenBytes env data now a t ⊆ world) :
    readFilePath env t path = .ok data ↔ Writable env path data now s := by
  have orderly := run.orderly inj fun _ _ within => within
  obtain ⟨a, b, op, wrote⟩ := (writeFile_ok_iff ideal).mp returned
  have authored : ∀ kind now, Keeps (Keyed env) (applyLocal env identity kind now) :=
    keeps_applyLocal env identity
  have keyed_a : Keyed env a := by
    have kept := keeps_prepareFile authored path now s run.keyed
    rwa [wrote.prepared] at kept
  have keyed_t : Keyed env t := by
    have kept := keeps_writeFile authored (keeps_storeContent env) path data now s run.keyed
    rwa [returned] at kept
  obtain rfl : withContent env data a = b := congrArg finalState wrote.stored
  have stocked := stocked ideal keyed_a (apart.mono (within _ _ _ wrote))
  have size_a : a.chunk_size ≤ 2 ^ 32 - 1 - 16 := wrote.sameKeys.settings.chunk_size ▸ size
  have nowhere : ∀ {u : CoreState}, ¬Arrived (fun _ => False) u := fun ⟨_, none_so, _⟩ => none_so
  cases split : splitPath path with
  | error e =>
      have prepared := wrote.prepared
      unfold prepareFile at prepared
      rw [split] at prepared
      cases prepared
  | ok parts =>
      by_cases there : ∃ inode, resolvePath s path = .ok (some (inode, .file))
      · obtain ⟨found, resolved⟩ := there
        obtain ⟨parts', split', leads⟩ := resolvePath_eq_some.mp resolved
        cases split.symm.trans split'
        obtain ⟨rfl, rfl⟩ : found = inode ∧ s = a := prepareFile_found split leads wrote.prepared
        have within_t : StoreIn env world t := fun hash bytes here =>
          ⟨within _ _ _ wrote (.inr (.inr ⟨hash, here⟩)), keyed_t hash bytes here⟩
        have stays : Stays env {data} s t := by
          have kept := @Stays.applyLocal env identity now (writeKind env s found data) {data} s ideal
            (fun op shape => whole_writeKind size shape) _ (stays_withContent ideal data s)
          rwa [wrote.performed] at kept
        have spared : found ∉ {other | other ≠ found} := fun other => other rfl
        obtain ⟨dirs, outcome⟩ := write_outcome ideal decodes stocked keyed_t size_a length spared
          (fun performed => performed.spares (fun here => (orderly.shape.parked here).1)
            (unhindered.rivals found resolved) stocked.only stays within_t) wrote.performed
        exact outcome.held_iff split leads dirs stocked.only fun reg node hash here inside named held =>
          (unhindered.lacks found reg node hash resolved here inside named).resolve_right
            fun beyond => beyond.not_held stays within_t held
      · have free : ∀ inode, resolvePath s path ≠ .ok (some (inode, .file)) :=
          fun inode resolved => there ⟨inode, resolved⟩
        have prepared := (prepareFile_prepares inj split orderly (unhindered.ready parts split free)
          wrote.prepared).resolve_left nowhere
        cases prepared with
        | held leads => exact absurd (resolvePath_eq_some.mpr ⟨parts, split, leads⟩) (free inode)
        | @created _ id empty leads orderly' ready' file low =>
            have new := ready'.unapplied 0 Nat.one_pos
            rw [ownId_zero] at new
            obtain ⟨blobs, draws, keeps, only⟩ := stocked.only
            have kept : Core.Kept ∅ ∅ a (withContent env data a) := by
              rw [only]
              exact .same rfl rfl keeps ⟨⟨rfl, rfl, rfl⟩, rfl, rfl⟩ rfl rfl
            have spared : inode ∉ (Set.univ \ {inode} : Set U128) := fun inside => inside.2 rfl
            have rest : ∀ {w u v}, Performed env identity (writeKind env a inode data) now
                (withContent env data a) w u v t → Core.Kept (Set.univ \ {inode}) ∅ u t := by
              intro w u v performed
              have started := performed.started.1
              have waited : ∀ {id : OpId} {op}, u.pending[id]? = some op → a.pending[id]? = some op :=
                fun here => kept.queue (started.queue here)
              exact (performed.rest (fun here => (orderly'.shape.parked (waited here)).1) fun here =>
                started.confined (kept.confined (ready'.parked (waited here)).confined)).resolve_left nowhere
            obtain ⟨dirs, outcome⟩ := write_outcome ideal decodes stocked keyed_t size_a length spared rest
              wrote.performed
            exact outcome.created_iff split empty leads dirs new file low

def awaitedWrite : FsOp :=
  { sampleOp 2 (.write chunkFile 0 [⟨Env.sealing.blake3 [9], 1, 1, 0⟩] 1 none) with time_unix_ms := 5 }

/-- A node that has heard of `/f` and of that write, and what it has once it has written `/f` itself. -/
def awaitingNode : CoreState :=
  (Act.receive awaitedWrite).run .sealing sampleIdentity
    ((Act.receive (sampleOp 1 (.createFile rootInode "f" 0))).run .sealing sampleIdentity
      (booted .sealing (CoreState.new 8)))

def writtenNode : CoreState := finalState (writeFile .sealing sampleIdentity "/f" [9] 10 awaitingNode)

private theorem awaitingNode_facts :
    returned (writeFile .sealing sampleIdentity "/f" [9] 10 awaitingNode) = true ∧
    awaitingNode.pending.toList = [(awaitedWrite.id, awaitedWrite)] ∧ writtenNode.pending.toList = [] ∧
    nextId awaitingNode ∉ awaitingNode.applied ∧ ¬writeKey 10 awaitingNode < regKey awaitedWrite ∧
    awaitingNode.chunk_size ≤ 2 ^ 32 - 1 - 16 ∧
    resolvePath awaitingNode "/f" = .ok (some (chunkFile, .file)) ∧
    (∃ record ∈ awaitingNode.loadInode chunkFile, record.content.value.node_hash = none ∧
      record.content.orderKey < writeKey 10 awaitingNode) ∧
    (∀ row ∈ awaitingNode.blobs.toList, writtenNode.blobs[row.1]? = some row.2) ∧
    ∀ bytes ∈ encodeObject .sealing
        (contentObject .sealing awaitingNode [9] 10 (contentInfo .sealing awaitingNode [9])) ::
          contentPieces .sealing awaitingNode [9],
      writtenNode.blobs[Env.sealing.blake3 bytes]? = some bytes := by
  decide +kernel

theorem read_your_writes_sample : ∃ inode t,
    writeFile .sealing sampleIdentity "/f" [9] 10 awaitingNode = .ok inode t ∧
      awaitingNode.pending.toList = [(awaitedWrite.id, awaitedWrite)] ∧ t.pending.toList = [] ∧
      readFilePath .sealing t "/f" = .ok [9] := by
  obtain ⟨called, queue, drained, new, low, size, resolved, ⟨record, found, bare, wins⟩, rows, listed⟩ :=
    awaitingNode_facts
  have run : NodeRun .sealing sampleIdentity
      (EachCall .sealing sampleIdentity fun _ call => call.Within sampleIds) awaitingNode := by
    refine .step (.step (.boot (blank_new 8) rfl rfl) fun x member => ?_) fun x member => ?_
    · obtain rfl := List.mem_singleton.mp member
      exact .inl rfl
    · obtain rfl := List.mem_singleton.mp member
      exact .inr rfl
  have authored : ∀ kind now, Keeps (Keyed .sealing) (applyLocal .sealing sampleIdentity kind now) :=
    keeps_applyLocal .sealing sampleIdentity
  have keyed_t : Keyed .sealing writtenNode :=
    keeps_writeFile authored (keeps_storeContent .sealing) "/f" [9] 10 _ run.keyed
  have apart : Apart .sealing awaitingNode writtenNode _ := apart_of_extends run.keyed keyed_t
    (fun hash bytes here => rows (hash, bytes) ((BTreeMap.mem_toList _ _ _).mpr here)) listed
  have content : contentAt awaitingNode chunkFile = some record.content := by
    unfold contentAt
    rw [found]
    rfl
  obtain ⟨parts, split, leads⟩ := resolvePath_eq_some.mp resolved
  cases result : writeFile .sealing sampleIdentity "/f" [9] 10 awaitingNode with
  | error e t =>
      rw [result] at called
      cases called
  | ok inode t =>
      obtain rfl : writtenNode = t := congrArg finalState result
      refine ⟨inode, writtenNode, rfl, queue, drained, (read_your_writes_iff sealing_ideal sampleIds_injOn
        Env.stored_decode run size (by decide) (writtenBytes .sealing [9] 10 awaitingNode writtenNode)
        apart ⟨?_, ?_, ?_⟩ result fun a b op wrote => ?_).mpr ?_⟩
      · intro found resolved' id op parked
        cases resolved.symm.trans resolved'
        have row := (BTreeMap.mem_toList _ _ _).mpr parked
        rw [queue] at row
        cases List.mem_singleton.mp row
        exact .inr ⟨⟨_, _, _, _, rfl⟩, low⟩
      · intro found reg node hash resolved' here named
        cases resolved.symm.trans resolved'
        obtain rfl := Option.some.inj (content.symm.trans here)
        cases bare.symm.trans named
      · intro _ _ free
        exact absurd resolved (free chunkFile)
      · obtain ⟨-, rfl⟩ := prepareFile_found split leads wrote.prepared
        exact le_rfl
      · intro found resolved'
        cases resolved.symm.trans resolved'
        exact .inl ⟨new, _, content, wins⟩

/-- With the clock of the file's author ahead, the call returns and the file keeps what it had. -/
theorem write_returns_and_loses :
    NodeRun .sealing sampleIdentity
      (EachCall .sealing sampleIdentity fun _ call => call.Within sampleIds) (sharedState none 100) ∧
    returned (writeFile .sealing sampleIdentity "/f" [9] 10 (sharedState none 100)) = true ∧
    readFilePath .sealing
      (finalState (writeFile .sealing sampleIdentity "/f" [9] 10 (sharedState none 100))) "/f" =
        .ok [1, 2, 3] := by
  refine ⟨sharedState_run subset_rfl none 100, ?_⟩
  decide +kernel

end ReadBack

end NexusFS.Net
