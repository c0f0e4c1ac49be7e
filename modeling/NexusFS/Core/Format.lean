/- GID: NexusFS/Core/Format
   source: crates/core/src/format.rs
   digest: The format stamp, the migrations between formats, and what they restore. -/

import NexusFS.Core.Postcard
import NexusFS.Core.Present
import NexusFS.Core.Reading

set_option autoImplicit false
set_option relaxedAutoImplicit false

namespace NexusFS.Core

open NexusFS.Lib NexusFS.Lib.Effect NexusFS.Proto NexusFS.Crdt CoreState

def firstFormatVersion : Nat := 1

/-- What opening a repository found. -/
inductive FormatState where
  | current
  | needsMigration (found : Nat)
  | tooNew (found : Nat)
  deriving DecidableEq

/-- Why a migration failed. `endless` is the end of the model's fuel. -/
inductive MigrateError where
  | tooNew (found : Nat)
  | didNotAdvance (found : Nat)
  | notImplemented (found : Nat)
  | staleRecords (count : Nat)
  | core (reason : Err)
  | endless

abbrev Migration := EStateM MigrateError CoreState

def liftCore {α : Type} (x : M α) : Migration α := fun s =>
  match x s with
  | .ok a t => .ok a t
  | .error e t => .error (.core e) t

def setFormatVersion (version : Nat) (s : CoreState) : CoreState :=
  CoreState.flush { s with format_version := some version }

/-- Inspect the format, stamping a repository that has none: one with a head was written before
there were stamps. -/
def checkFormat : Migration FormatState := do
  let s ← get
  let found ← match s.format_version with
    | some version => pure version
    | none => do
        let version := if s.head.isSome then firstFormatVersion else currentFormatVersion
        modify (setFormatVersion version)
        pure version
  if found = currentFormatVersion then return .current
  else if found < currentFormatVersion then return .needsMigration found
  else return .tooNew found

section Migrate

variable (env : Env)

def undecodable (s : CoreState) (hash : Hash) : Bool :=
  match getObject env s hash with
  | .ok _ => false
  | .error _ => true

/-- The records that the v3 step refuses: live objects, and rows of the operation log, as the bytes
`rows`, that do not decode. -/
def staleRecords (decodeOp : Bytes → Option FsOp) (rows : List Bytes) (s : CoreState) : Nat :=
  ((inodeMap s).filter fun row => undecodable env s row.2).length +
    (rows.filter fun row => (decodeOp row).isNone).length

variable (decodeOp : Bytes → Option FsOp) (rows : List Bytes)

def migrateV2ToV3 : Migration Unit := do
  let s ← get
  let stale := staleRecords env decodeOp rows s
  if 0 < stale then throw (.staleRecords stale) else modify (setFormatVersion 3)

def migrateStep (found : Nat) : Migration Unit :=
  if found = 1 then do
    let _ ← liftCore (buildSnapshot env)
    modify (setFormatVersion 2)
  else if found = 2 then migrateV2ToV3 env decodeOp rows
  else throw (.notImplemented found)

/-- The loop of `migrate`. Every round raises the version, so it ends after the current one. -/
def migrateLoop : Nat → List Nat → Migration (List Nat)
  | 0, _ => throw .endless
  | fuel + 1, applied => do
      match ← checkFormat with
      | .current => return applied
      | .tooNew found => throw (.tooNew found)
      | .needsMigration found => do
          migrateStep env decodeOp rows found
          let s ← get
          let now := s.format_version.getD found
          if now ≤ found then throw (.didNotAdvance found)
          else migrateLoop fuel (applied ++ [now])

def migrate : Migration (List Nat) := migrateLoop env decodeOp rows (currentFormatVersion + 1) []

end Migrate

section Runs

variable {env : Env} {decodeOp : Bytes → Option FsOp} {rows : List Bytes} {s t : CoreState}

def snapshotted (env : Env) (s : CoreState) : CoreState := finalState (buildSnapshot env s)

private theorem checkFormat_stamped {version : Nat} (stamped : s.format_version = some version) :
    checkFormat s = .ok (if version = currentFormatVersion then .current
      else if version < currentFormatVersion then .needsMigration version
      else .tooNew version) s := by
  unfold checkFormat
  simp only [bind_run, get_run, stamped, pure_run]
  split
  · rfl
  · split <;> rfl

private theorem round_three (stamped : s.format_version = some 3) (fuel : Nat) (applied : List Nat) :
    migrateLoop env decodeOp rows (fuel + 1) applied s = .ok applied s := by
  unfold migrateLoop
  rw [bind_run, checkFormat_stamped stamped]
  rfl

private theorem round_two (stamped : s.format_version = some 2) (fuel : Nat) (applied : List Nat) :
    migrateLoop env decodeOp rows (fuel + 2) applied s =
      if 0 < staleRecords env decodeOp rows s then
        .error (.staleRecords (staleRecords env decodeOp rows s)) s
      else .ok (applied ++ [3]) (setFormatVersion 3 s) := by
  have step : migrateStep env decodeOp rows 2 s =
      if 0 < staleRecords env decodeOp rows s then
        .error (.staleRecords (staleRecords env decodeOp rows s)) s
      else .ok () (setFormatVersion 3 s) := by
    show migrateV2ToV3 env decodeOp rows s = _
    unfold migrateV2ToV3
    rw [bind_run, get_run]
    dsimp only
    split <;> rfl
  rw [migrateLoop, bind_run, checkFormat_stamped stamped]
  show (migrateStep env decodeOp rows 2 >>= fun _ => _) s = _
  rw [bind_run, step]
  by_cases stale : 0 < staleRecords env decodeOp rows s
  · rw [if_pos stale, if_pos stale]
  · rw [if_neg stale, if_neg stale]
    exact @round_three env decodeOp rows (setFormatVersion 3 s) rfl fuel (applied ++ [3])

private theorem round_one (stamped : s.format_version = some 1) (fuel : Nat) (applied : List Nat) :
    migrateLoop env decodeOp rows (fuel + 1) applied s =
      migrateLoop env decodeOp rows fuel (applied ++ [2])
        (setFormatVersion 2 (snapshotted env s)) := by
  obtain ⟨blobs, -, run⟩ := buildSnapshot_run env s
  have step : migrateStep env decodeOp rows 1 s =
      .ok () (setFormatVersion 2 (snapshotted env s)) := by
    show (liftCore (buildSnapshot env) >>= fun _ => modify (setFormatVersion 2)) s = _
    have lifted : liftCore (buildSnapshot env) s =
        .ok (objectHash env (newSnapshotRoot (computeStateRoot env s) s.device_id s.state_time))
          (snapshotted env s) := by
      unfold liftCore snapshotted
      rw [run]
      rfl
    rw [bind_run, lifted]
    rfl
  rw [migrateLoop, bind_run, checkFormat_stamped stamped]
  show (migrateStep env decodeOp rows 1 >>= fun _ => _) s = _
  rw [bind_run, step]
  rfl

private theorem round_adopted (unstamped : s.format_version = none) (written : s.head.isSome)
    (fuel : Nat) (applied : List Nat) :
    migrateLoop env decodeOp rows (fuel + 1) applied s =
      migrateLoop env decodeOp rows (fuel + 1) applied (setFormatVersion 1 s) := by
  have adopts : checkFormat s = checkFormat (setFormatVersion 1 s) := by
    rw [checkFormat_stamped (s := setFormatVersion 1 s) rfl]
    unfold checkFormat
    simp only [bind_run, get_run, unstamped, written, if_true, modify_run, pure_run]
    rfl
  show (checkFormat >>= fun _ => _) s = (checkFormat >>= fun _ => _) (setFormatVersion 1 s)
  rw [bind_run, bind_run, adopts]

private theorem migrate_two (stamped : s.format_version = some 2) :
    migrate env decodeOp rows s =
      if 0 < staleRecords env decodeOp rows s then
        .error (.staleRecords (staleRecords env decodeOp rows s)) s
      else .ok [3] (setFormatVersion 3 s) := round_two stamped 2 []

private theorem migrate_one (stamped : s.format_version = some 1) :
    migrate env decodeOp rows s =
      if 0 < staleRecords env decodeOp rows (snapshotted env s) then
        .error (.staleRecords (staleRecords env decodeOp rows (snapshotted env s)))
          (setFormatVersion 2 (snapshotted env s))
      else .ok [2, 3] (setFormatVersion 3 (setFormatVersion 2 (snapshotted env s))) := by
  have first := @round_one env decodeOp rows s stamped 3 []
  exact first.trans (round_two rfl 1 [2])

private theorem migrate_adopted (unstamped : s.format_version = none) (written : s.head.isSome) :
    migrate env decodeOp rows s = migrate env decodeOp rows (setFormatVersion 1 s) :=
  round_adopted unstamped written 3 []

end Runs

section Restored

variable {env : Env} {decodeOp : Bytes → Option FsOp} {rows : List Bytes} {s t : CoreState}

def HeadNames (env : Env) (s : CoreState) (root : Hash) : Prop :=
  ∃ author time, s.head = some (objectHash env (newSnapshotRoot root author time)) ∧
    s.hasBlob (objectHash env (newSnapshotRoot root author time))

/-- The read failed because content it needs is not in the store. -/
def LacksContent : Except Err Bytes → Prop
  | .error (.missingChunk _ _) => True
  | .error (.missingFileObject _ _) => True
  | _ => False

/-- What a successful migration of `s` promises: a map that is the full walk, a root and a head that
commit to it, and the listings and contents there were before. -/
structure Restored (env : Env) (s t : CoreState) : Prop where
  map : MapExact env t
  root : t.state_root = some (computeStateRoot env t)
  head : HeadNames env t (computeStateRoot env t)
  lists : ∀ path, readDirPath t path = readDirPath s path
  reads : ∀ path, readFilePath env t path = readFilePath env s path ∨
    LacksContent (readFilePath env s path)

/-- The stamp, the root and the head may differ, and the head's object may have been stored. -/
def OnlyStamped (s t : CoreState) : Prop :=
  Extends s t ∧ ∃ version root head blobs kv blob, t = { s with
    format_version := version, state_root := root, head := head, blobs := blobs,
    kv_flushes := kv, blob_flushes := blob }

/-- A migration that succeeds restores the store, and one that fails leaves it as it was. -/
def MigrationRestores (env : Env) (decodeOp : Bytes → Option FsOp) (rows : List Bytes)
    (s : CoreState) : Prop :=
  match migrate env decodeOp rows s with
  | .ok _ t => Restored env s t
  | .error _ t => OnlyStamped s t

private theorem readChunks_extends (extends_ : Extends s t) (file_key : Option Hash) (index : Nat)
    (chunks : List ChunkRef) (out : Bytes) :
    readChunks env t file_key index chunks out = readChunks env s file_key index chunks out ∨
      LacksContent (readChunks env s file_key index chunks out) := by
  induction chunks generalizing index out with
  | nil => exact .inl rfl
  | cons chunk rest ih =>
      unfold readChunks
      cases held : s.blobs[chunk.hash]? with
      | none => exact .inr trivial
      | some stored =>
          rw [extends_ _ _ held]
          dsimp only
          split
          · exact .inl rfl
          · split
            · exact .inl rfl
            · cases file_key with
              | none => exact ih _ _
              | some key =>
                  dsimp only
                  cases openChunk env key index stored with
                  | error e => exact .inl rfl
                  | ok plain => exact ih _ _

private theorem materializeFile_extends (extends_ : Extends s t)
    (secret : t.sealing_secret = s.sealing_secret) (cipher : t.cipher = s.cipher) (file : FileNode) :
    materializeFile env t file = materializeFile env s file ∨
      LacksContent (materializeFile env s file) := by
  have keys : ∀ info, recoverFileKey env t info = recoverFileKey env s info := by
    intro info
    unfold recoverFileKey
    rw [secret, cipher]
  have rest : ∀ file_key,
      (readChunks env t file_key 0 file.chunks [] >>= fun out =>
        if out.length ≠ file.size.val then throw (.fileSizeMismatch out.length file.size)
        else pure out) =
      (readChunks env s file_key 0 file.chunks [] >>= fun out =>
        if out.length ≠ file.size.val then throw (.fileSizeMismatch out.length file.size)
        else pure out) ∨
      LacksContent (readChunks env s file_key 0 file.chunks [] >>= fun out =>
        if out.length ≠ file.size.val then throw (.fileSizeMismatch out.length file.size)
        else pure out) := by
    intro file_key
    rcases readChunks_extends extends_ file_key 0 file.chunks [] with same | lacks
    · exact .inl (by rw [same])
    · right
      cases read : readChunks env s file_key 0 file.chunks [] with
      | error e =>
          rw [read] at lacks
          exact lacks
      | ok out =>
          rw [read] at lacks
          exact lacks.elim
  unfold materializeFile
  cases file.encryption with
  | none => exact rest none
  | some info =>
      simp only [keys]
      cases recoverFileKey env s info with
      | error e => exact .inl rfl
      | ok key => exact rest (some key)

private theorem readFile_extends (extends_ : Extends s t)
    (secret : t.sealing_secret = s.sealing_secret) (cipher : t.cipher = s.cipher) {inode : U128}
    (record : t.loadInode inode = s.loadInode inode) :
    readFile env t inode = readFile env s inode ∨ LacksContent (readFile env s inode) := by
  unfold readFile
  rw [record]
  cases s.loadInode inode with
  | none => exact .inl rfl
  | some r =>
      dsimp only
      split
      · exact .inl rfl
      · cases r.content.value.node_hash with
        | none => exact .inl rfl
        | some hash =>
            cases held : s.blobs[hash]? with
            | none =>
                right
                have missing : getObject env s hash = .ok none := by
                  unfold getObject
                  rw [held]
                  rfl
                simp only [missing]
                trivial
            | some bytes =>
                have same : getObject env t hash = getObject env s hash := by
                  unfold getObject
                  rw [held, extends_ _ _ held]
                simp only [same]
                cases getObject env s hash with
                | error e => exact .inl rfl
                | ok found =>
                    match found with
                    | none => exact .inl rfl
                    | some (.dirNode _) => exact .inl rfl
                    | some (.snapshotRoot _) => exact .inl rfl
                    | some (.fileNode file) => exact materializeFile_extends extends_ secret cipher file

private theorem readFilePath_extends (extends_ : Extends s t) (dirs : t.dirs = s.dirs)
    (inodes : t.inodes = s.inodes) (secret : t.sealing_secret = s.sealing_secret)
    (cipher : t.cipher = s.cipher) (path : String) :
    readFilePath env t path = readFilePath env s path ∨
      LacksContent (readFilePath env s path) := by
  have same : ∀ i, t.loadDir i = s.loadDir i := by
    intro i
    unfold loadDir
    rw [dirs]
  have records : ∀ i, t.loadInode i = s.loadInode i := by
    intro i
    unfold loadInode
    rw [inodes]
  unfold readFilePath
  rw [resolvePath_congr (fun i _ => same i) path]
  cases resolvePath s path with
  | error e => exact .inl rfl
  | ok place =>
      match place with
      | none => exact .inl rfl
      | some (inode, kind) =>
          by_cases file : kind = .file
          · subst file
            exact readFile_extends extends_ secret cipher (records inode)
          · left
            show (if kind ≠ .file then throw (.notAFilePath path) else readFile env t inode) =
              (if kind ≠ .file then throw (.notAFilePath path) else readFile env s inode)
            rw [if_pos file, if_pos file]

private theorem snapshotted_eq (env : Env) (s : CoreState) : ∃ blobs,
    snapshotted env s = { s with
      blobs := blobs
      state_root := some (computeStateRoot env s)
      head := some (objectHash env
        (newSnapshotRoot (computeStateRoot env s) s.device_id s.state_time)) } ∧
    (∀ hash : Hash, blobs[hash]? = s.blobs[hash]? ∨ (s.blobs[hash]? = none ∧ blobs[hash]? =
      some (encodeObject env (newSnapshotRoot (computeStateRoot env s) s.device_id s.state_time)))) ∧
    blobs.contains (objectHash env
      (newSnapshotRoot (computeStateRoot env s) s.device_id s.state_time)) := by
  generalize object : newSnapshotRoot (computeStateRoot env s) s.device_id s.state_time = snapshot
  by_cases here : s.hasBlob (objectHash env snapshot)
  · refine ⟨s.blobs, ?_, fun _ => .inl rfl, here⟩
    have held : env.blake3 (encodeObject env snapshot) ∈ s.blobs :=
      Std.ExtTreeMap.mem_iff_contains.mpr here
    simp [snapshotted, buildSnapshot, putObject, bind_run, object, CoreState.hasBlob, held, objectHash]
  · refine ⟨s.blobs.insert (objectHash env snapshot) (encodeObject env snapshot), ?_, ?_, ?_⟩
    · have missing : env.blake3 (encodeObject env snapshot) ∉ s.blobs :=
        fun held => here (Std.ExtTreeMap.mem_iff_contains.mp held)
      simp [snapshotted, buildSnapshot, putObject, bind_run, object, CoreState.hasBlob, missing,
        objectHash, CoreState.putBlob]
    · intro hash
      rw [BTreeMap.get_insert]
      split
      · rename_i same
        refine .inr ⟨?_, rfl⟩
        rw [CoreState.hasBlob, Std.ExtTreeMap.contains_eq_isSome_getElem?, same] at here
        exact Option.not_isSome_iff_eq_none.mp here
      · exact .inl rfl
    · exact Std.ExtTreeMap.contains_insert_self

private theorem extends_snapshotted (env : Env) (s : CoreState) : Extends s (snapshotted env s) := by
  obtain ⟨blobs, same, held, -⟩ := snapshotted_eq env s
  intro hash bytes here
  rw [same]
  rcases held hash with kept | ⟨missing, -⟩
  · exact kept.trans here
  · rw [here] at missing
    cases missing

/-- The object a snapshot stores decodes, so no record is stale because of it. -/
private theorem stale_snapshotted
    (decodes : ∀ object, env.decodeObject (env.encodeObject object) = some object) :
    staleRecords env decodeOp rows (snapshotted env s) = staleRecords env decodeOp rows s := by
  obtain ⟨blobs, same, held, -⟩ := snapshotted_eq env s
  have each : ∀ hash, undecodable env (snapshotted env s) hash = undecodable env s hash := by
    intro hash
    have stored : (snapshotted env s).blobs[hash]? = blobs[hash]? := by rw [same]
    unfold undecodable getObject
    rw [stored]
    rcases held hash with kept | ⟨missing, stores⟩
    · rw [kept]
    · rw [missing, stores]
      simp only [encodeObject, decodes]
      rfl
  have map : inodeMap (snapshotted env s) = inodeMap s := by
    rw [same]
    rfl
  unfold staleRecords
  rw [map]
  simp only [each]

def OldFormat (s : CoreState) : Prop :=
  s.format_version = some 1 ∨ s.format_version = some 2 ∨
    (s.format_version = none ∧ s.head.isSome)

/-- The maintained map is the full walk, and a store stamped v2 has a root and a head that commit
to it. -/
def Restorable (env : Env) (s : CoreState) : Prop :=
  MapExact env s ∧ (s.format_version = some 2 →
    s.state_root = some (computeStateRoot env s) ∧ HeadNames env s (computeStateRoot env s))

private theorem lists_stamped (version : Nat) (path : String) :
    readDirPath (setFormatVersion version s) path = readDirPath s path :=
  readDirPath_congr (s := s) (t := setFormatVersion version s) (fun _ _ => rfl) path

private theorem reads_stamped (version : Nat) (path : String) :
    readFilePath env (setFormatVersion version s) path = readFilePath env s path := by
  refine readFilePath_congr (s := s) (t := setFormatVersion version s) (fun _ _ => rfl)
    (fun p i _ _ => ?_) path
  exact readFile_congr (s := s) (t := setFormatVersion version s) rfl rfl rfl (fun _ _ _ _ => rfl)
    fun _ _ _ _ _ _ _ _ => rfl

private theorem restores_two
    (stamped : s.format_version = some 2) : MigrationRestores env decodeOp rows s ↔
      0 < staleRecords env decodeOp rows s ∨ Restorable env s := by
  unfold MigrationRestores
  rw [migrate_two stamped]
  by_cases stale : 0 < staleRecords env decodeOp rows s
  · rw [if_pos stale]
    exact ⟨fun _ => .inl stale, fun _ => ⟨.refl s, _, _, _, _, _, _, rfl⟩⟩
  · rw [if_neg stale]
    constructor
    · intro restored
      exact .inr ⟨restored.map, fun _ => ⟨restored.root, restored.head⟩⟩
    · rintro (refused | ⟨map, committed⟩)
      · exact absurd refused stale
      · obtain ⟨root, head⟩ := committed stamped
        exact ⟨map, root, head, lists_stamped 3, fun path => .inl (reads_stamped 3 path)⟩

private theorem restores_one
    (decodes : ∀ object, env.decodeObject (env.encodeObject object) = some object)
    (stamped : s.format_version = some 1) : MigrationRestores env decodeOp rows s ↔
      0 < staleRecords env decodeOp rows s ∨ Restorable env s := by
  have kept : Extends s (setFormatVersion 2 (snapshotted env s)) := extends_snapshotted env s
  obtain ⟨blobs, same, -, stored⟩ := snapshotted_eq env s
  unfold MigrationRestores
  rw [migrate_one stamped, stale_snapshotted decodes]
  by_cases stale : 0 < staleRecords env decodeOp rows s
  · rw [if_pos stale]
    refine ⟨fun _ => .inl stale, fun _ => ⟨kept, ?_⟩⟩
    rw [same]
    exact ⟨_, _, _, _, _, _, rfl⟩
  · rw [if_neg stale]
    constructor
    · intro restored
      have map := restored.map
      rw [same] at map
      exact .inr ⟨map, fun other => by rw [stamped] at other; cases other⟩
    · rintro (refused | ⟨map, -⟩)
      · exact absurd refused stale
      · have reads : ∀ path,
            readFilePath env (setFormatVersion 3 (setFormatVersion 2 (snapshotted env s))) path =
              readFilePath env s path ∨ LacksContent (readFilePath env s path) := by
          have longer : Extends s (setFormatVersion 3 (setFormatVersion 2 (snapshotted env s))) := kept
          intro path
          refine readFilePath_extends longer ?_ ?_ ?_ ?_ path <;> rw [same] <;> rfl
        rw [same] at reads ⊢
        exact ⟨map, rfl, ⟨_, _, rfl, stored⟩, readDirPath_congr fun _ _ => rfl, reads⟩

private theorem restored_adopted : Restored env s t ↔ Restored env (setFormatVersion 1 s) t := by
  constructor
  · rintro ⟨map, root, head, lists, reads⟩
    refine ⟨map, root, head, fun path => ?_, fun path => ?_⟩
    · rw [lists_stamped]
      exact lists path
    · rw [reads_stamped]
      exact reads path
  · rintro ⟨map, root, head, lists, reads⟩
    refine ⟨map, root, head, fun path => ?_, fun path => ?_⟩
    · rw [lists path, lists_stamped]
    · rw [← @reads_stamped env s 1]
      exact reads path

private theorem onlyStamped_adopted : OnlyStamped s t ↔ OnlyStamped (setFormatVersion 1 s) t := by
  constructor
  · rintro ⟨kept, version, root, head, blobs, kv, blob, rfl⟩
    exact ⟨kept, version, root, head, blobs, kv, blob, rfl⟩
  · rintro ⟨kept, version, root, head, blobs, kv, blob, rfl⟩
    exact ⟨kept, version, root, head, blobs, kv, blob, rfl⟩

/-- A migration of a v1 or v2 store restores the commitment exactly when it is refused or the
maintained map was the full walk before it (and, for a v2 store, the root and the head committed to
that map): the map is not rebuilt, and the v3 step does not look at the root. -/
theorem migration_restores_iff
    (decodes : ∀ object, env.decodeObject (env.encodeObject object) = some object)
    (old : OldFormat s) : MigrationRestores env decodeOp rows s ↔
      0 < staleRecords env decodeOp rows s ∨ Restorable env s := by
  rcases old with one | two | ⟨unstamped, written⟩
  · exact restores_one decodes one
  · exact restores_two two
  · have adopted : MigrationRestores env decodeOp rows s ↔
        MigrationRestores env decodeOp rows (setFormatVersion 1 s) := by
      unfold MigrationRestores
      rw [migrate_adopted unstamped written]
      cases migrate env decodeOp rows (setFormatVersion 1 s) with
      | error e t => exact onlyStamped_adopted
      | ok versions t => exact restored_adopted
    have restorable : Restorable env s ↔ Restorable env (setFormatVersion 1 s) := by
      constructor
      · rintro ⟨map, -⟩
        exact ⟨map, fun other => by cases other⟩
      · rintro ⟨map, -⟩
        exact ⟨map, fun other => by rw [unstamped] at other; cases other⟩
    rw [adopted, restorable]
    exact restores_one decodes rfl

end Restored

section Old

def unmapped (s : CoreState) : CoreState := { s with imap := ∅, format_version := some 1 }

def uncommitted (s : CoreState) : CoreState :=
  { s with state_root := none, head := none, format_version := some 1 }

private theorem oldFormat_unmapped (s : CoreState) : OldFormat (unmapped s) := .inl rfl

private theorem oldFormat_uncommitted (s : CoreState) : OldFormat (uncommitted s) := .inl rfl

private theorem restorable_uncommitted {env : Env} {s : CoreState} (exact : MapExact env s) :
    Restorable env (uncommitted s) :=
  ⟨exact, fun other => by cases other⟩

theorem migration_restores_sample :
    readFilePath .stored (uncommitted untidyState) "/f" = .ok [1, 2, 3] ∧
      ∃ versions t, migrate .stored (fun _ => none) [] (uncommitted untidyState) = .ok versions t ∧
        Restored .stored (uncommitted untidyState) t := by
  have reads : readFilePath .stored (uncommitted untidyState) "/f" = .ok [1, 2, 3] := by
    decide +kernel
  have ok : returned (migrate .stored (fun _ => none) [] (uncommitted untidyState)) = true := by
    decide +kernel
  have exact := untidyState_exact
  generalize untidyState = s at reads ok exact ⊢
  have restores : MigrationRestores .stored (fun _ => none) [] (uncommitted s) :=
    (migration_restores_iff Env.stored_decode (oldFormat_uncommitted s)).mpr
      (.inr (restorable_uncommitted exact))
  obtain ⟨versions, t, run⟩ := exists_of_returned ok
  unfold MigrationRestores at restores
  rw [run] at restores
  exact ⟨reads, versions, t, run, restores⟩

private theorem unmapped_fails (s : CoreState) :
    ¬MigrationRestores .stored (fun _ => none) [] (unmapped s) := by
  intro restores
  have empty : (unmapped s).imap = ∅ := rfl
  rcases (restores_one Env.stored_decode rfl).mp restores with stale | ⟨map, -⟩
  · have none_stale : staleRecords .stored (fun _ => none) [] (unmapped s) = 0 := by
      unfold staleRecords inodeMap
      rw [empty]
      rfl
    omega
  · have root : TreeEntry .stored (unmapped s) rootInode (dirHash .stored (unmapped s) rootInode) :=
      .inl ⟨.refl, rfl⟩
    have mapped := (map rootInode _).mpr root
    rw [empty, Std.ExtTreeMap.getElem?_empty] at mapped
    cases mapped

/-- The records of a reachable namespace, but no map: the migration succeeds and the store still has
no map. -/
theorem unmapped_store_not_restored :
    Run .stored (fun _ _ => True) (booted .stored (CoreState.new 7)) ∧
      OldFormat (unmapped (booted .stored (CoreState.new 7))) ∧
      ¬MigrationRestores .stored (fun _ => none) [] (unmapped (booted .stored (CoreState.new 7))) :=
  ⟨.boot (blank_new 7), oldFormat_unmapped _, unmapped_fails _⟩

end Old

end NexusFS.Core
