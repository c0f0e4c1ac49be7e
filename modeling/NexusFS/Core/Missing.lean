/- GID: NexusFS/Core/Missing
   source: crates/core/src/namespace.rs, crates/core/src/fetch.rs
   digest: What a read of a path needs and the node lacks, and the rounds that ask for it. -/

import NexusFS.Core.Fixpoint
import NexusFS.Core.Share

/-!
The answer looks at the parked writes to the file, at its object, and at the chunks that one
names. Whether a parked write has been tried since its content came in is no part of it.
-/

set_option autoImplicit false
set_option relaxedAutoImplicit false

namespace NexusFS.Core

open NexusFS.Lib NexusFS.Lib.Effect NexusFS.Proto NexusFS.Crdt CoreState

def CoreState.unheld (s : CoreState) (chunks : List ChunkRef) : List Hash :=
  (chunks.filter fun chunk => !s.hasBlob chunk.hash).map ChunkRef.hash

def pendingWanted (s : CoreState) (inode : U128) : List Hash :=
  s.pendingOps.flatMap fun op =>
    match op.kind with
    | .write target _ chunks _ _ => if target = inode then s.unheld chunks else []
    | _ => []

def objectWanted (env : Env) (s : CoreState) (node_hash : Hash) : Except Err (List Hash) := do
  match ← getObject env s node_hash with
  | some (.fileNode file) => pure (s.unheld file.chunks)
  | none => pure [node_hash]
  | some _ => pure []

def missingChunksForPath (env : Env) (s : CoreState) (path : String) : Except Err (List Hash) := do
  match ← resolvePath s path with
  | none => pure []
  | some (inode, kind) =>
      if kind ≠ .file then pure []
      else
        let wanted := pendingWanted s inode
        match s.loadInode inode with
        | none => pure wanted
        | some record =>
            match record.content.value.node_hash with
            | none => pure wanted
            | some node_hash => do
                let more ← objectWanted env s node_hash
                pure ((wanted ++ more).insertionSort (· ≤ ·)).dedup

/-- Somewhere content can be obtained from: how each request in turn is answered, and what it leaves
of the node. -/
structure ContentFetcher where
  fetch : Nat → List Hash → M Nat

section Ensure

variable (env : Env) (fetcher : ContentFetcher) (path : String)

/-- The rounds of `ensure_content`, with the number of requests made so far. -/
def ensureRounds : Nat → Nat → List Hash → M (List Hash)
  | 0, _, wanted => pure wanted
  | rounds + 1, asked, wanted =>
      if wanted.isEmpty then pure wanted
      else do
        let _ ← fetcher.fetch asked wanted
        let s ← get
        let next ← liftCheck (missingChunksForPath env s path)
        -- The same question would get the same answer.
        if next = wanted then pure wanted else ensureRounds rounds (asked + 1) next

def ensureMaxRounds : Nat := 4

def ensureContent : M (List Hash) := do
  let s ← get
  let wanted ← liftCheck (missingChunksForPath env s path)
  ensureRounds env fetcher path ensureMaxRounds 0 wanted

end Ensure

section Answer

variable {env : Env} {s t : CoreState} {path : String} {inode : U128}

theorem unheld_eq_nil {chunks : List ChunkRef} :
    s.unheld chunks = [] ↔ ∀ chunk ∈ chunks, s.hasBlob chunk.hash := by
  simp [CoreState.unheld, List.filter_eq_nil_iff]

def PendingHeld (s : CoreState) (inode : U128) : Prop :=
  ∀ (id : OpId) op offset chunks new_size encryption, s.pending[id]? = some op →
    op.kind = .write inode offset chunks new_size encryption →
      ∀ chunk ∈ chunks, s.hasBlob chunk.hash

theorem pendingWanted_eq_nil : pendingWanted s inode = [] ↔ PendingHeld s inode := by
  unfold pendingWanted PendingHeld
  rw [List.flatMap_eq_nil_iff]
  constructor
  · intro none_wanted id op offset chunks new_size encryption parked shape
    have here := none_wanted op (mem_pendingOps.mpr ⟨id, parked⟩)
    rw [shape] at here
    simp only [if_true] at here
    exact unheld_eq_nil.mp here
  · intro held op member
    obtain ⟨id, parked⟩ := mem_pendingOps.mp member
    cases shape : op.kind with
    | write target offset chunks new_size encryption =>
        dsimp only
        split
        · rename_i same
          subst same
          exact unheld_eq_nil.mpr (held id op offset chunks new_size encryption parked shape)
        · rfl
    | mkdir parent name mode => rfl
    | createFile parent name mode => rfl
    | rename old_parent old_name new_parent new_name observed => rfl
    | unlink parent name observed => rfl
    | setAttr target mode uid gid => rfl

def FileHeld (env : Env) (s : CoreState) (inode : U128) : Prop :=
  ∀ record node_hash, s.loadInode inode = some record →
    record.content.value.node_hash = some node_hash →
      ∃ object, getObject env s node_hash = .ok (some object) ∧
        ∀ file, object = .fileNode file → ∀ chunk ∈ file.chunks, s.hasBlob chunk.hash

private theorem objectWanted_eq_nil {node_hash : Hash} :
    objectWanted env s node_hash = .ok [] ↔
      ∃ object, getObject env s node_hash = .ok (some object) ∧
        ∀ file, object = .fileNode file → ∀ chunk ∈ file.chunks, s.hasBlob chunk.hash := by
  unfold objectWanted
  cases held : getObject env s node_hash with
  | error e =>
      refine iff_of_false (fun run => by cases run) ?_
      rintro ⟨object, found, -⟩
      cases found
  | ok found =>
      cases found with
      | none =>
          refine iff_of_false (fun run => by cases run) ?_
          rintro ⟨object, found, -⟩
          cases found
      | some object =>
          cases object with
          | fileNode file =>
              constructor
              · intro run
                refine ⟨_, rfl, fun other same => ?_⟩
                obtain rfl := Object.fileNode.inj same
                exact unheld_eq_nil.mp (Except.ok.inj run)
              · rintro ⟨_, ⟨⟩, chunks⟩
                exact congrArg Except.ok (unheld_eq_nil.mpr (chunks file rfl))
          | dirNode dir => exact iff_of_true rfl ⟨_, rfl, nofun⟩
          | snapshotRoot root => exact iff_of_true rfl ⟨_, rfl, nofun⟩

private theorem sorted_eq_nil {hashes : List Hash} :
    (hashes.insertionSort (· ≤ ·)).dedup = [] ↔ hashes = [] := by
  rw [List.dedup_eq_nil]
  constructor
  · intro sorted
    exact List.perm_nil.mp (sorted ▸ (hashes.perm_insertionSort (· ≤ ·)).symm)
  · rintro rfl
    rfl

theorem missingChunksForPath_eq_nil (names : resolvePath s path = .ok (some (inode, .file))) :
    missingChunksForPath env s path = .ok [] ↔ PendingHeld s inode ∧ FileHeld env s inode := by
  unfold missingChunksForPath
  rw [names, ← pendingWanted_eq_nil]
  show (match s.loadInode inode with | none => _ | some record => _) = _ ↔ _
  cases found : s.loadInode inode with
  | none =>
      have held : FileHeld env s inode := by
        intro record node_hash found'
        cases found.symm.trans found'
      exact ⟨fun run => ⟨Except.ok.inj run, held⟩, fun both => congrArg Except.ok both.1⟩
  | some record =>
      dsimp only
      cases named : record.content.value.node_hash with
      | none =>
          have held : FileHeld env s inode := by
            intro record' node_hash found' named'
            cases found.symm.trans found'
            cases named.symm.trans named'
          exact ⟨fun run => ⟨Except.ok.inj run, held⟩, fun both => congrArg Except.ok both.1⟩
      | some node_hash =>
          have held : FileHeld env s inode ↔ objectWanted env s node_hash = .ok [] := by
            rw [objectWanted_eq_nil]
            constructor
            · intro content
              exact content record node_hash found named
            · intro object record' node_hash' found' named'
              cases found.symm.trans found'
              cases named.symm.trans named'
              exact object
          rw [held]
          show (objectWanted env s node_hash >>= fun more =>
            pure ((pendingWanted s inode ++ more).insertionSort (· ≤ ·)).dedup) = .ok [] ↔ _
          cases wanted : objectWanted env s node_hash with
          | error e => exact iff_of_false (fun run => by cases run) (fun both => by cases both.2)
          | ok more =>
              show (Except.ok ((pendingWanted s inode ++ more).insertionSort (· ≤ ·)).dedup :
                Except Err (List Hash)) = .ok [] ↔ _
              rw [Except.ok.injEq, Except.ok.injEq, sorted_eq_nil, List.append_eq_nil_iff]

end Answer

section Honest

variable {env : Env} {s t : CoreState} {path : String} {inode : U128}

def Err.LacksContent : Err → Prop
  | .missingChunk _ _ | .missingFileObject _ _ => True
  | _ => False

private theorem openChunk_error {key : Hash} {index : Nat} {stored : Bytes} {e : Err}
    (run : openChunk env key index stored = .error e) : ¬e.LacksContent := by
  unfold openChunk at run
  split at run
  · cases run
  · cases run
    exact id

private theorem readChunks_complete {file_key : Option Hash} {index : Nat} {chunks : List ChunkRef}
    {out : Bytes} {e : Err} (held : ∀ chunk ∈ chunks, s.hasBlob chunk.hash)
    (run : readChunks env s file_key index chunks out = .error e) : ¬e.LacksContent := by
  induction chunks generalizing index out with
  | nil => cases run
  | cons chunk rest ih =>
      obtain ⟨stored, found⟩ :=
        Option.isSome_iff_exists.mp (hasBlob_iff_get.mp (held chunk List.mem_cons_self))
      have later := fun other member => held other (List.mem_cons_of_mem chunk member)
      unfold readChunks at run
      rw [found] at run
      dsimp only at run
      split at run
      · cases run
        exact id
      · split at run
        · cases run
          exact id
        · cases file_key with
          | none => exact ih later run
          | some key =>
              dsimp only at run
              cases opened : openChunk env key index stored with
              | error e' =>
                  rw [opened] at run
                  cases run
                  exact openChunk_error opened
              | ok plain =>
                  rw [opened] at run
                  exact ih later run

private theorem recoverFileKey_error {info : FileEncryption} {e : Err}
    (run : recoverFileKey env s info = .error e) : ¬e.LacksContent := by
  unfold recoverFileKey openFileKey at run
  repeat' split at run
  all_goals
    cases run
    try exact id

private theorem materializeFile_complete {file : FileNode} {e : Err}
    (held : ∀ chunk ∈ file.chunks, s.hasBlob chunk.hash)
    (run : materializeFile env s file = .error e) : ¬e.LacksContent := by
  have finish : ∀ file_key, (do
      let out ← readChunks env s file_key 0 file.chunks []
      if out.length ≠ file.size.val then throw (.fileSizeMismatch out.length file.size)
      else pure out : Except Err Bytes) = .error e → ¬e.LacksContent := by
    intro file_key run
    cases read : readChunks env s file_key 0 file.chunks [] with
    | error e' =>
        rw [read] at run
        cases run
        exact readChunks_complete held read
    | ok out =>
        rw [read] at run
        have checked : (if out.length ≠ file.size.val then
            throw (.fileSizeMismatch out.length file.size) else pure out : Except Err Bytes) =
            .error e := run
        split at checked
        · cases checked
          exact id
        · cases checked
  unfold materializeFile at run
  cases sealed : file.encryption with
  | none =>
      rw [sealed] at run
      exact finish none run
  | some info =>
      rw [sealed] at run
      cases key : recoverFileKey env s info with
      | error e' =>
          simp only [key, Functor.map, Except.map] at run
          cases run
          exact recoverFileKey_error key
      | ok file_key =>
          simp only [key, Functor.map, Except.map] at run
          exact finish (some file_key) run

theorem readFile_complete {e : Err} (held : FileHeld env s inode)
    (run : readFile env s inode = .error e) : ¬e.LacksContent := by
  unfold readFile at run
  cases found : s.loadInode inode with
  | none =>
      rw [found] at run
      cases run
      exact id
  | some record =>
      rw [found] at run
      dsimp only at run
      split at run
      · cases run
        exact id
      · cases named : record.content.value.node_hash with
        | none =>
            rw [named] at run
            cases run
        | some node_hash =>
            obtain ⟨object, here, chunks⟩ := held record node_hash found named
            rw [named] at run
            dsimp only at run
            rw [here] at run
            cases object with
            | fileNode file => exact materializeFile_complete (chunks file rfl) run
            | dirNode dir =>
                cases run
                exact id
            | snapshotRoot root =>
                cases run
                exact id

theorem fileHeld_of_readFile {bytes : Bytes} (run : readFile env s inode = .ok bytes) :
    FileHeld env s inode := by
  intro record node_hash found named
  unfold readFile at run
  rw [found] at run
  dsimp only at run
  split at run
  · cases run
  · rw [named] at run
    dsimp only at run
    cases here : getObject env s node_hash with
    | error e =>
        rw [here] at run
        cases run
    | ok object =>
        rw [here] at run
        cases object with
        | none => cases run
        | some object =>
            cases object with
            | fileNode file =>
                obtain ⟨_, _, _, reads, -⟩ := materializeFile_ok_iff.mp run
                refine ⟨_, rfl, fun other same => ?_⟩
                obtain rfl := Object.fileNode.inj same
                exact fun chunk member => reads.hasBlob member
            | dirNode dir => cases run
            | snapshotRoot root => cases run

/-- The path names a file, and the object of its content, where it is held, is a plain one. -/
def NamesPlainFile (env : Env) (s : CoreState) (path : String) (inode : U128) : Prop :=
  resolvePath s path = .ok (some (inode, .file)) ∧
    ∀ record node_hash object, s.loadInode inode = some record →
      record.content.value.node_hash = some node_hash →
        getObject env s node_hash = .ok (some object) →
          ∃ file, object = .fileNode file ∧ file.encryption = none

def CouldWin (s : CoreState) (op : FsOp) (inode : U128) : Prop :=
  ∃ record, s.loadInode inode = some record ∧ record.kind = .file ∧ writeCanWin record.content op

/-- An empty answer for the path means that its read does not lack content, and that no parked write
could still take its register. -/
def Honest (env : Env) (s : CoreState) (path : String) : Prop :=
  ∀ inode, NamesPlainFile env s path inode → missingChunksForPath env s path = .ok [] →
    (∀ e, readFilePath env s path = .error e → ¬e.LacksContent) ∧
      ∀ (id : OpId) op offset chunks new_size encryption, s.pending[id]? = some op →
        op.kind = .write inode offset chunks new_size encryption → ¬CouldWin s op inode

/-- Content is lacking for a write to a file: one of its chunks, or part of what the file holds. -/
def LacksFor (env : Env) (s : CoreState) (inode : U128) (chunks : List ChunkRef) : Prop :=
  (∃ chunk ∈ chunks, ¬s.hasBlob chunk.hash) ∨ tryReadFile env s inode = .ok none

def AllLack (env : Env) (s : CoreState) (inode : U128) : Prop :=
  ∀ (id : OpId) op offset chunks new_size encryption, s.pending[id]? = some op →
    op.kind = .write inode offset chunks new_size encryption → CouldWin s op inode →
      LacksFor env s inode chunks

/-- Content is lacking for a write, and none of that is what comes in under `stocks`. -/
def LacksBeside (env : Env) (s : CoreState) (stocks : Set Hash) (inode : U128) (chunks : List ChunkRef) :
    Prop :=
  (∃ chunk ∈ chunks, ¬s.hasBlob chunk.hash ∧ chunk.hash ∉ stocks) ∨
    ∃ record node_hash, s.loadInode inode = some record ∧
      record.content.value.node_hash = some node_hash ∧ node_hash ∉ stocks ∧ (¬s.hasBlob node_hash ∨
        ∃ object, getObject env s node_hash = .ok (some object) ∧ ∀ file, object = .fileNode file →
          ∃ chunk ∈ file.chunks, ¬s.hasBlob chunk.hash ∧ chunk.hash ∉ stocks)

theorem LacksFor.beside {op : FsOp} {chunks : List ChunkRef} (lacks : LacksFor env s inode chunks)
    (wins : CouldWin s op inode) : LacksBeside env s ∅ inode chunks := by
  obtain ⟨record, found, -, -⟩ := wins
  rcases lacks with ⟨chunk, member, absent⟩ | unread
  · exact .inl ⟨chunk, member, absent, id⟩
  · obtain ⟨node_hash, named, cause⟩ := (tryReadFile_none_iff found).mp unread
    refine .inr ⟨record, node_hash, found, named, id, cause.imp_right ?_⟩
    rintro ⟨object, here, lacking⟩
    refine ⟨object, here, fun file isFile => ?_⟩
    obtain ⟨chunk, member, absent⟩ := lacking file isFile
    exact ⟨chunk, member, absent, id⟩

/-- `t` has the queue of `s`, at most its files, and content that came in under `stocks` alone. -/
structure Idled (stocks : Set Hash) (s t : CoreState) : Prop where
  pending : t.pending = s.pending
  records : ∀ i record, t.loadInode i = some record → s.loadInode i = some record
  blobs : ∀ hash, hash ∉ stocks → t.blobs[hash]? = s.blobs[hash]? ∨ t.blobs[hash]? = none

variable {stocks : Set Hash}

theorem Idled.lacking (idled : Idled stocks s t) {hash : Hash} (other : hash ∉ stocks)
    (absent : ¬s.hasBlob hash) : ¬t.hasBlob hash := by
  rw [hasBlob_iff_get] at absent ⊢
  rcases idled.blobs hash other with same | gone
  · rwa [same]
  · rw [gone]
    exact Bool.false_ne_true

theorem LacksBeside.later {op : FsOp} {chunks : List ChunkRef}
    (lacks : LacksBeside env s stocks inode chunks) (idled : Idled stocks s t)
    (wins : CouldWin t op inode) : LacksFor env t inode chunks := by
  obtain ⟨record, found', -, -⟩ := wins
  rcases lacks with ⟨chunk, member, absent, other⟩ | ⟨record', node_hash, found, named, other, cause⟩
  · exact .inl ⟨chunk, member, idled.lacking other absent⟩
  · obtain rfl := Option.some.inj ((idled.records inode record found').symm.trans found)
    refine .inr ((tryReadFile_none_iff found').mpr ⟨node_hash, named, ?_⟩)
    rcases idled.blobs node_hash other with same | gone
    · rcases cause with absent | ⟨object, here, lacking⟩
      · exact .inl (idled.lacking other absent)
      · refine .inr ⟨object, ?_, fun file isFile => ?_⟩
        · unfold getObject at here ⊢
          rwa [same]
        · obtain ⟨chunk, member, absent, other⟩ := lacking file isFile
          exact ⟨chunk, member, idled.lacking other absent⟩
    · refine .inl fun here => ?_
      rw [hasBlob_iff_get, gone] at here
      exact Bool.false_ne_true here

/-- What comes in under `stocks` is not the last content that a parked write to the file lacks. -/
def CompletesNone (env : Env) (s : CoreState) (stocks : Set Hash) (inode : U128) : Prop :=
  ∀ (id : OpId) op offset chunks new_size encryption, s.pending[id]? = some op →
    op.kind = .write inode offset chunks new_size encryption → CouldWin s op inode →
      LacksFor env s inode chunks → LacksBeside env s stocks inode chunks

theorem completesNone_nothing : CompletesNone env s ∅ inode :=
  fun _ _ _ _ _ _ _ _ wins lacks => lacks.beside wins

theorem AllLack.later (lacking : AllLack env s inode) (idled : Idled stocks s t)
    (spares : CompletesNone env s stocks inode) : AllLack env t inode := by
  intro id op offset chunks new_size encryption parked shape wins
  rw [idled.pending] at parked
  have wins' : CouldWin s op inode := by
    obtain ⟨record, found, file, higher⟩ := wins
    exact ⟨record, idled.records inode record found, file, higher⟩
  exact (spares id op offset chunks new_size encryption parked shape wins'
    (lacking id op offset chunks new_size encryption parked shape wins')).later idled wins

private theorem tryReadFile_complete {record : InodeRecord} (plain : NamesPlainFile env s path inode)
    (found : s.loadInode inode = some record) (held : FileHeld env s inode) :
    tryReadFile env s inode ≠ .ok none := by
  rw [ne_eq, tryReadFile_none_iff found]
  rintro ⟨node_hash, named, absent | ⟨object, here, lacking⟩⟩
  · obtain ⟨object, here, -⟩ := held record node_hash found named
    exact absent (hasBlob_of_object here)
  · obtain ⟨object', here', chunks⟩ := held record node_hash found named
    obtain rfl : object' = object := by
      cases here'.symm.trans here
      rfl
    obtain ⟨file, rfl, -⟩ := plain.2 record node_hash object' found named here
    obtain ⟨chunk, member, absent⟩ := lacking file rfl
    exact absent (chunks file rfl chunk member)

theorem AllLack.honest (lacking : AllLack env s inode)
    (names : resolvePath s path = .ok (some (inode, .file))) : Honest env s path := by
  intro inode' plain empty
  cases names.symm.trans plain.1
  obtain ⟨pending, held⟩ := (missingChunksForPath_eq_nil plain.1).mp empty
  refine ⟨fun e run => ?_, ?_⟩
  · have reads : readFilePath env s path = readFile env s inode := by
      unfold readFilePath
      rw [plain.1]
      rfl
    exact readFile_complete held (reads ▸ run)
  · rintro id op offset chunks new_size encryption parked shape ⟨record, found, kind, wins⟩
    rcases lacking id op offset chunks new_size encryption parked shape
      ⟨record, found, kind, wins⟩ with ⟨chunk, member, absent⟩ | unread
    · exact absent (pending id op offset chunks new_size encryption parked shape chunk member)
    · exact tryReadFile_complete plain found held unread

def snapshotHashes (env : Env) (world : Set Bytes) : Set Hash :=
  {hash | ∃ root, encodeObject env (.snapshotRoot root) ∈ world ∧
    objectHash env (.snapshotRoot root) = hash}

def NoneNamesSnapshot (env : Env) (world : Set Bytes) : Prop :=
  ∀ bytes ∈ world, ∀ file, env.decodeObject bytes = some (.fileNode file) →
    ∀ chunk ∈ file.chunks, chunk.hash ∉ snapshotHashes env world

theorem DrainedAt.allLack {u : CoreState} {world : Set Bytes} (at_end : DrainedAt env s u t)
    (decodes : ∀ object, env.decodeObject (env.encodeObject object) = some object)
    (keyed : Keyed env t) (within : ∀ (hash : Hash) bytes, t.blobs[hash]? = some bytes → bytes ∈ world)
    (nodes : NoneNamesSnapshot env world)
    (writes : ∀ (id : OpId) op offset chunks new_size encryption, t.pending[id]? = some op →
      op.kind = .write inode offset chunks new_size encryption →
        ∀ chunk ∈ chunks, chunk.hash ∉ snapshotHashes env world) : AllLack env t inode := by
  intro id op offset chunks new_size encryption parked shape wins
  obtain ⟨record, found, -, -⟩ := wins
  have parked_u : u.pending[id]? = some op := by
    obtain ⟨_, _, _, _, _, rfl⟩ := at_end.ended.same
    exact parked
  rcases at_end.ended.unmet (deferred_iff.mp (at_end.stuck parked_u)) with waits | chance
  · cases (write_unmet_iff shape).mp (deferred_iff.mpr waits) with
    | file missing => cases missing.symm.trans found
    | chunk _ _ _ missing =>
        obtain ⟨chunk, first, -⟩ := Option.map_eq_some_iff.mp missing
        have absent : ¬t.hasBlob chunk.hash := by simpa using List.find?_some first
        exact .inl ⟨chunk, List.mem_of_find?_eq_some first, absent⟩
    | content _ _ _ _ _ missing => exact .inr missing
  · obtain ⟨hash, -, missing, inode', offset', chunks', new_size', encryption', shape', made⟩ := chance
    cases shape.symm.trans shape'
    rcases at_end.ended.blobs hash with same | ⟨-, -, root, stored⟩
    · have absent : ¬t.hasBlob hash := by
        rw [hasBlob_iff_get] at missing ⊢
        rwa [same]
      rcases made with listed | ⟨record', node_hash, found', named, rfl | ⟨file, here, listed⟩⟩
      · obtain ⟨chunk, member, rfl⟩ := List.mem_map.mp listed
        exact .inl ⟨chunk, member, absent⟩
      · exact .inr ((tryReadFile_none_iff found').mpr ⟨_, named, .inl absent⟩)
      · obtain ⟨chunk, member, rfl⟩ := List.mem_map.mp listed
        refine .inr ((tryReadFile_none_iff found').mpr ⟨_, named, .inr ⟨_, here, fun other isFile => ?_⟩⟩)
        obtain rfl := Object.fileNode.inj isFile
        exact ⟨chunk, member, absent⟩
    · have snapshot : hash ∈ snapshotHashes env world := ⟨root, within hash _ stored, keyed hash _ stored⟩
      rcases made with listed | ⟨record', node_hash, found', named, rfl | ⟨file, here, listed⟩⟩
      · obtain ⟨chunk, member, rfl⟩ := List.mem_map.mp listed
        exact absurd snapshot (writes id op offset chunks new_size encryption parked shape chunk member)
      · have object : getObject env t hash = .ok (some (.snapshotRoot root)) := by
          unfold getObject
          rw [stored]
          dsimp only
          rw [encodeObject, decodes]
          rfl
        exact .inr ((tryReadFile_none_iff found').mpr ⟨_, named, .inr ⟨_, object, fun _ => nofun⟩⟩)
      · obtain ⟨chunk, member, rfl⟩ := List.mem_map.mp listed
        obtain ⟨bytes, node, decoded⟩ := stored_of_object here
        exact absurd snapshot (nodes bytes (within node_hash bytes node) file decoded chunk member)

end Honest

section Ensure

variable {env : Env} {fetcher : ContentFetcher} {path : String} {s t : CoreState}

private theorem ensureRounds_ok {rounds asked : Nat} {wanted outstanding : List Hash}
    (before : missingChunksForPath env s path = .ok wanted)
    (run : ensureRounds env fetcher path rounds asked wanted s = .ok outstanding t) :
    missingChunksForPath env t path = .ok outstanding := by
  induction rounds generalizing s asked wanted with
  | zero =>
      cases run
      exact before
  | succ rounds ih =>
      unfold ensureRounds at run
      split at run
      · cases run
        exact before
      · cases fetched : fetcher.fetch asked wanted s with
        | error e u =>
            simp only [bind_run, fetched] at run
            cases run
        | ok count u =>
            simp only [bind_run, fetched, get_run] at run
            cases next : missingChunksForPath env u path with
            | error e =>
                rw [next] at run
                cases run
            | ok still =>
                rw [next, liftCheck_ok] at run
                dsimp only at run
                split at run
                · rename_i same
                  cases run
                  exact same ▸ next
                · exact ih next run

/-- What `ensure_content` returns is what is missing in the state it leaves, whatever the fetcher
did. -/
theorem ensureContent_ok {outstanding : List Hash}
    (run : ensureContent env fetcher path s = .ok outstanding t) :
    missingChunksForPath env t path = .ok outstanding := by
  unfold ensureContent at run
  simp only [bind_run, get_run] at run
  cases before : missingChunksForPath env s path with
  | error e =>
      rw [before] at run
      cases run
  | ok wanted =>
      rw [before] at run
      exact ensureRounds_ok before run

end Ensure

end NexusFS.Core
