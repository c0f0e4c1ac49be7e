/- GID: NexusFS/Core/Mutation
   source: crates/core/src/apply.rs
   digest: What an attempt at an operation can do: nothing, or exactly one effect. -/

import NexusFS.Core.Apply

/-!
An attempt that is refused or unmet leaves the state as it was. An attempt that
takes effect has one of the shapes of `Effect`, which later modules take apart
instead of unfolding the mutation functions.
-/

set_option autoImplicit false
set_option relaxedAutoImplicit false

namespace NexusFS.Core

open NexusFS.Lib NexusFS.Lib.Effect NexusFS.Proto NexusFS.Crdt

/-- `s'` is `s` after storing content: only the blobs and the randomness drawn differ, and no
blob has gone. -/
def OnlyContent (s s' : CoreState) : Prop :=
  ∃ blobs draws, (∀ hash, s.hasBlob hash → blobs.contains hash) ∧
    s' = { s with blobs := blobs, draws := draws }

theorem OnlyContent.refl (s : CoreState) : OnlyContent s s :=
  ⟨s.blobs, s.draws, fun _ here => here, rfl⟩

theorem OnlyContent.trans {a b c : CoreState} (first : OnlyContent a b)
    (second : OnlyContent b c) : OnlyContent a c := by
  obtain ⟨blobs, draws, keeps, rfl⟩ := first
  obtain ⟨blobs', draws', keeps', rfl⟩ := second
  exact ⟨blobs', draws', fun hash here => keeps' hash (keeps hash here), rfl⟩

/-- A program that always succeeds and only stores content. -/
def StoresOnly {α : Type} (x : M α) : Prop := ∀ s, ∃ a s', x s = .ok a s' ∧ OnlyContent s s'

namespace StoresOnly

variable {α β : Type}

protected theorem pure (a : α) : StoresOnly (pure a : M α) :=
  fun s => ⟨a, s, rfl, .refl s⟩

protected theorem get : StoresOnly (get : M CoreState) := fun s => ⟨s, s, rfl, .refl s⟩

protected theorem bind {x : M α} {f : α → M β} (first : StoresOnly x)
    (rest : ∀ a, StoresOnly (f a)) : StoresOnly (x >>= f) := by
  intro s
  obtain ⟨a, s', run, stored⟩ := first s
  obtain ⟨b, s'', run', stored'⟩ := rest a s'
  refine ⟨b, s'', ?_, stored.trans stored'⟩
  rw [bind_run, run]
  exact run'

protected theorem mapM {γ : Type} (f : γ → M β) (each : ∀ c, StoresOnly (f c)) (l : List γ) :
    StoresOnly (l.mapM f) := by
  induction l with
  | nil => exact .pure []
  | cons c l ih =>
      rw [List.mapM_cons]
      exact (each c).bind fun _ => ih.bind fun _ => .pure _

end StoresOnly

private theorem hasBlob_insert {s : CoreState} {hash other : Hash} {bytes : Bytes}
    (here : s.hasBlob other) : (s.blobs.insert hash bytes).contains other := by
  rw [Std.ExtTreeMap.contains_insert]
  simp only [CoreState.hasBlob] at here
  simp [here]

theorem storesOnly_putBlob (hash : Hash) (bytes : Bytes) :
    StoresOnly (modify fun s => s.putBlob hash bytes) :=
  fun s => ⟨⟨⟩, _, rfl, _, s.draws, fun _ here => hasBlob_insert here, rfl⟩

theorem storesOnly_drawRandom (env : Env) (len : Nat) : StoresOnly (drawRandom env len) :=
  fun s => ⟨_, _, rfl, s.blobs, s.draws + 1, fun _ here => here, rfl⟩

section Content

variable (env : Env)

theorem putObject_blobs (object : Object) (s : CoreState) :
    ∃ blobs, (∀ hash, s.hasBlob hash → blobs.contains hash) ∧
      putObject env object s = .ok (objectHash env object) { s with blobs := blobs } := by
  by_cases here : s.hasBlob (objectHash env object)
  · refine ⟨s.blobs, fun _ held => held, ?_⟩
    simp only [objectHash] at here
    simp [putObject, here, objectHash]
  · refine ⟨s.blobs.insert (objectHash env object) (encodeObject env object),
      fun _ held => hasBlob_insert held, ?_⟩
    simp only [objectHash] at here
    simp [putObject, here, objectHash, CoreState.putBlob]

theorem putObject_run (object : Object) (s : CoreState) :
    ∃ s', putObject env object s = .ok (objectHash env object) s' ∧ OnlyContent s s' := by
  obtain ⟨blobs, keeps, run⟩ := putObject_blobs env object s
  exact ⟨_, run, blobs, s.draws, keeps, rfl⟩

theorem storesOnly_putObject (object : Object) : StoresOnly (putObject env object) := by
  intro s
  obtain ⟨s', run, stored⟩ := putObject_run env object s
  exact ⟨_, s', run, stored⟩

private theorem storesOnly_storePlain (pieces : List Bytes) (offset : U64) :
    StoresOnly (storePlain env pieces offset) := by
  induction pieces generalizing offset with
  | nil => exact .pure []
  | cons chunk rest ih =>
      exact (storesOnly_putBlob _ _).bind fun _ => (ih _).bind fun _ => .pure _

private theorem storesOnly_storeSealed (file_key : Hash) (index : Nat) (pieces : List Bytes)
    (offset : U64) : StoresOnly (storeSealed env file_key index pieces offset) := by
  induction pieces generalizing index offset with
  | nil => exact .pure []
  | cons plain rest ih =>
      exact (storesOnly_putBlob _ _).bind fun _ => (ih _ _).bind fun _ => .pure _

private theorem storesOnly_sealEnvelope (recipient file_key : Hash) :
    StoresOnly (sealEnvelope env recipient file_key) :=
  (storesOnly_drawRandom env 32).bind fun _ =>
    (storesOnly_drawRandom env 24).bind fun _ => .pure _

private theorem storesOnly_protectFileKey (file_key cipher : Hash) :
    StoresOnly (protectFileKey env file_key cipher) := by
  refine StoresOnly.get.bind fun s => ?_
  dsimp only
  split
  · exact ((storesOnly_drawRandom env 24).bind fun _ => .pure _).bind fun _ => .pure _
  · exact (StoresOnly.mapM _ (fun key => storesOnly_sealEnvelope env key file_key) _).bind
      fun _ => .pure _

theorem storesOnly_storeContent (data : Bytes) : StoresOnly (storeContent env data) := by
  refine StoresOnly.get.bind fun s => ?_
  split
  · exact (storesOnly_storePlain env _ _).bind fun _ => .pure _
  · exact ((storesOnly_drawRandom env 32).bind fun _ => .pure _).bind fun _ =>
      (storesOnly_storeSealed env _ _ _ _).bind fun _ =>
        (storesOnly_protectFileKey env _ _).bind fun _ => .pure _

theorem storesOnly_storeFilenodeFromBytes (data : Bytes) (now_ms : U64) :
    StoresOnly (storeFilenodeFromBytes env data now_ms) :=
  (storesOnly_storeContent env data).bind fun _ => storesOnly_putObject env _

end Content

/-- The fold of `max_by_key` keeps an element of the list of the highest key. -/
private theorem foldl_best (l : List (Dot × DirEntryValue)) (best : Option (Dot × DirEntryValue)) :
    (l.foldl higherDot best = none ↔ best = none ∧ l = []) ∧
      ∀ p, l.foldl higherDot best = some p → (p ∈ l ∨ best = some p) ∧
        (∀ q ∈ l, q.1 ≤ p.1) ∧ ∀ b, best = some b → b.1 ≤ p.1 := by
  induction l generalizing best with
  | nil =>
      refine ⟨by simp, fun p found => ⟨.inr found, by simp, ?_⟩⟩
      rintro b start
      exact (Option.some.inj (start.symm.trans found)) ▸ le_rfl
  | cons c l ih =>
      cases best with
      | none =>
          obtain ⟨empty, found⟩ := ih (some c)
          refine ⟨by simpa [higherDot] using empty, fun p result => ?_⟩
          obtain ⟨member, above, start⟩ := found p result
          refine ⟨.inl ?_, ?_, by simp⟩
          · rcases member with inside | same
            · exact List.mem_cons_of_mem c inside
            · exact (Option.some.inj same) ▸ List.mem_cons_self
          · exact List.forall_mem_cons.mpr ⟨start c rfl, above⟩
      | some b =>
          by_cases order : b.1 ≤ c.1
          · obtain ⟨empty, found⟩ := ih (some c)
            simp only [List.foldl_cons, higherDot, if_pos order]
            refine ⟨by simpa using empty, fun p result => ?_⟩
            obtain ⟨member, above, start⟩ := found p result
            refine ⟨.inl ?_, List.forall_mem_cons.mpr ⟨start c rfl, above⟩, ?_⟩
            · rcases member with inside | same
              · exact List.mem_cons_of_mem c inside
              · exact (Option.some.inj same) ▸ List.mem_cons_self
            · rintro _ ⟨⟩
              exact order.trans (start c rfl)
          · obtain ⟨empty, found⟩ := ih (some b)
            simp only [List.foldl_cons, higherDot, if_neg order]
            refine ⟨by simpa using empty, fun p result => ?_⟩
            obtain ⟨member, above, start⟩ := found p result
            refine ⟨member.imp_left (List.mem_cons_of_mem c), ?_, start⟩
            exact List.forall_mem_cons.mpr ⟨(not_le.mp order).le.trans (start b rfl), above⟩

theorem renameSource_eq_some {survivors : List (Dot × DirEntryValue)} {dots : List Dot}
    {p : Dot × DirEntryValue} (found : renameSource survivors dots = some p) :
    p ∈ survivors ∧ p.1 ∈ dots ∧ ∀ q ∈ survivors, q.1 ∈ dots → q.1 ≤ p.1 := by
  obtain ⟨member, above, -⟩ := (foldl_best _ none).2 p found
  have inside := member.resolve_right (by simp)
  rw [List.mem_filter, List.contains_iff_mem] at inside
  refine ⟨inside.1, inside.2, fun q here observed => above q ?_⟩
  rw [List.mem_filter, List.contains_iff_mem]
  exact ⟨here, observed⟩

theorem renameSource_eq_none {survivors : List (Dot × DirEntryValue)} {dots : List Dot} :
    renameSource survivors dots = none ↔ ∀ q ∈ survivors, q.1 ∉ dots := by
  unfold renameSource
  rw [(foldl_best _ none).1, List.filter_eq_nil_iff]
  simp

def creation (kind : EntryType) (parent : U128) (name : String) (mode : U32) : FsOpKind :=
  match kind with
  | .dir => .mkdir parent name mode
  | .file => .createFile parent name mode

theorem creation_inj {kind kind' : EntryType} {parent parent' : U128} {name name' : String}
    {mode mode' : U32} (same : creation kind parent name mode = creation kind' parent' name' mode') :
    kind = kind' ∧ parent = parent' ∧ name = name' ∧ mode = mode' := by
  cases kind <;> cases kind' <;> simp_all [creation]

/-- Everything an attempt that takes effect can have done. -/
inductive Effect (env : Env) (op : FsOp) (s : CoreState) : CoreState → Prop
  | created {parent : U128} {name : String} {mode : U32} {kind : EntryType}
      (shape : op.kind = creation kind parent name mode)
      (valid : validateName name = .ok ()) (dir : s.isDir parent) :
      Effect env op s (linkCreated env op parent name mode kind s)
  | superseded {inode : U128} {offset : U64} {chunks : List ChunkRef} {new_size : U64}
      {encryption : Option FileEncryption} {record : InodeRecord}
      (shape : op.kind = .write inode offset chunks new_size encryption)
      (found : s.loadInode inode = some record) (file : record.kind = .file)
      (loses : ¬writeCanWin record.content op) : Effect env op s s
  | wrote {inode : U128} {offset : U64} {chunks : List ChunkRef} {new_size : U64}
      {encryption : Option FileEncryption} {record : InodeRecord} {node_hash : Hash}
      {stored : CoreState}
      (shape : op.kind = .write inode offset chunks new_size encryption)
      (found : s.loadInode inode = some record) (file : record.kind = .file)
      (wins : writeCanWin record.content op) (content : OnlyContent s stored)
      (whole : offset = 0 ∧ chunksFormWholeFile chunks new_size →
        node_hash = objectHash env (fileObject chunks new_size op.time_unix_ms encryption)) :
      Effect env op s (mergeContent op inode record node_hash new_size stored)
  | movedNothing {old_parent new_parent : U128} {old_name new_name : String}
      (shape : op.kind = .rename old_parent old_name new_parent new_name [])
      (valid : validateName new_name = .ok ())
      (source : s.isDir old_parent) (target : s.isDir new_parent) : Effect env op s s
  | moved {old_parent new_parent : U128} {old_name new_name : String} {observed : List OpId}
      {dot : Dot} {entry : DirEntryValue}
      (shape : op.kind = .rename old_parent old_name new_parent new_name observed)
      (valid : validateName new_name = .ok ())
      (source : s.isDir old_parent) (target : s.isDir new_parent)
      (found : renameSource ((s.dirAt old_parent).getAll old_name) observed = some (dot, entry))
      (outside : entry.entry_type = .dir →
        subtreeContains s entry.inode_id new_parent = .ok false) :
      Effect env op s
        (moveEntry op entry old_parent old_name new_parent new_name observed s)
  | unlinked {parent : U128} {name : String} {observed : List OpId}
      (shape : op.kind = .unlink parent name observed) (dir : s.isDir parent) :
      Effect env op s (s.storeDir parent ((s.dirAt parent).removeDots name observed))
  | changedAttrs {inode : U128} {mode uid gid : Option U32} {record : InodeRecord}
      (shape : op.kind = .setAttr inode mode uid gid) (found : s.loadInode inode = some record) :
      Effect env op s (s.storeInode inode { record with
        attrs := record.attrs.merge
          ⟨⟨mode.getD record.attrs.value.mode, uid.getD record.attrs.value.uid,
            gid.getD record.attrs.value.gid⟩, op.time_unix_ms, op.id.device_id, op.id.counter⟩ })

/-- Everything an operation can be refused for once its signature and proof are accepted. -/
inductive Refusal (env : Env) (op : FsOp) (s : CoreState) : Err → Prop
  | badName {kind : EntryType} {parent : U128} {name : String} {mode : U32} {e : Err}
      (shape : op.kind = creation kind parent name mode) (invalid : validateName name = .error e) :
      Refusal env op s e
  | badNewName {old_parent new_parent : U128} {old_name new_name : String}
      {observed : List OpId} {e : Err}
      (shape : op.kind = .rename old_parent old_name new_parent new_name observed)
      (invalid : validateName new_name = .error e) : Refusal env op s e
  | notAFile {inode : U128} {offset : U64} {chunks : List ChunkRef} {new_size : U64}
      {encryption : Option FileEncryption} {record : InodeRecord}
      (shape : op.kind = .write inode offset chunks new_size encryption)
      (found : s.loadInode inode = some record) (other : record.kind ≠ .file) :
      Refusal env op s (.notAFile inode)
  | badSplice {inode : U128} {offset : U64} {chunks : List ChunkRef} {new_size : U64}
      {encryption : Option FileEncryption} {record : InodeRecord} {e : Err}
      (shape : op.kind = .write inode offset chunks new_size encryption)
      (found : s.loadInode inode = some record) (file : record.kind = .file)
      (wins : writeCanWin record.content op) (complete : firstMissingChunk s chunks = none)
      (partly : ¬(offset = 0 ∧ chunksFormWholeFile chunks new_size))
      (fails : spliceWrite env s inode offset chunks new_size = .error e) : Refusal env op s e
  | intoOwnSubtree {old_parent new_parent : U128} {old_name new_name : String}
      {observed : List OpId} {dot : Dot} {entry : DirEntryValue}
      (shape : op.kind = .rename old_parent old_name new_parent new_name observed)
      (valid : validateName new_name = .ok ())
      (source : s.isDir old_parent) (target : s.isDir new_parent)
      (found : renameSource ((s.dirAt old_parent).getAll old_name) observed = some (dot, entry))
      (dir : entry.entry_type = .dir)
      (inside : subtreeContains s entry.inode_id new_parent = .ok true) :
      Refusal env op s .intoOwnSubtree
  | subtreeTooLarge {old_parent new_parent : U128} {old_name new_name : String}
      {observed : List OpId} {dot : Dot} {entry : DirEntryValue} {e : Err}
      (shape : op.kind = .rename old_parent old_name new_parent new_name observed)
      (valid : validateName new_name = .ok ())
      (source : s.isDir old_parent) (target : s.isDir new_parent)
      (found : renameSource ((s.dirAt old_parent).getAll old_name) observed = some (dot, entry))
      (dir : entry.entry_type = .dir)
      (fails : subtreeContains s entry.inode_id new_parent = .error e) : Refusal env op s e

/-- Everything an operation can be waiting for. -/
inductive Waits (env : Env) (op : FsOp) (s : CoreState) : Unmet → Prop
  | parent {kind : EntryType} {parent : U128} {name : String} {mode : U32}
      (shape : op.kind = creation kind parent name mode) (missing : ¬s.isDir parent) :
      Waits env op s (.parentMissing parent)
  | unlinkParent {parent : U128} {name : String} {observed : List OpId}
      (shape : op.kind = .unlink parent name observed) (missing : ¬s.isDir parent) :
      Waits env op s (.parentMissing parent)
  | writeInode {inode : U128} {offset : U64} {chunks : List ChunkRef} {new_size : U64}
      {encryption : Option FileEncryption}
      (shape : op.kind = .write inode offset chunks new_size encryption)
      (missing : s.loadInode inode = none) : Waits env op s (.inodeMissing inode)
  | attrInode {inode : U128} {mode uid gid : Option U32}
      (shape : op.kind = .setAttr inode mode uid gid) (missing : s.loadInode inode = none) :
      Waits env op s (.inodeMissing inode)
  | chunk {inode : U128} {offset : U64} {chunks : List ChunkRef} {new_size : U64}
      {encryption : Option FileEncryption} {hash : Hash}
      (shape : op.kind = .write inode offset chunks new_size encryption)
      (missing : firstMissingChunk s chunks = some hash) : Waits env op s (.chunkMissing hash)
  | content {inode : U128} {offset : U64} {chunks : List ChunkRef} {new_size : U64}
      {encryption : Option FileEncryption}
      (shape : op.kind = .write inode offset chunks new_size encryption)
      (partly : ¬(offset = 0 ∧ chunksFormWholeFile chunks new_size)) :
      Waits env op s (.contentUnavailable inode)
  | sourceParent {old_parent new_parent : U128} {old_name new_name : String}
      {observed : List OpId}
      (shape : op.kind = .rename old_parent old_name new_parent new_name observed)
      (missing : ¬s.isDir old_parent) : Waits env op s (.sourceParentMissing old_parent)
  | destination {old_parent new_parent : U128} {old_name new_name : String}
      {observed : List OpId}
      (shape : op.kind = .rename old_parent old_name new_parent new_name observed)
      (missing : ¬s.isDir new_parent) : Waits env op s (.destinationParentMissing new_parent)
  | source {old_parent new_parent : U128} {old_name new_name : String} {observed : List OpId}
      (shape : op.kind = .rename old_parent old_name new_parent new_name observed)
      (some_seen : observed ≠ [])
      (missing : renameSource ((s.dirAt old_parent).getAll old_name) observed = none) :
      Waits env op s (.renameSourceMissing old_name)

def AttemptSpec (env : Env) (op : FsOp) (s : CoreState) :
    EStateM.Result Err CoreState Mutation → Prop
  | .ok .done s' => Effect env op s s'
  | .ok (.unmet reason) s' => s' = s ∧ Waits env op s reason
  | .error e s' => s' = s ∧ Refusal env op s e

section Attempts

variable {env : Env} {op : FsOp}

theorem mutateCreate_run (parent : U128) (name : String) (mode : U32) (kind : EntryType)
    (s : CoreState) :
    mutateCreate env op parent name mode kind s =
      match validateName name with
      | .error e => .error e s
      | .ok _ =>
          if s.isDir parent then .ok .done (linkCreated env op parent name mode kind s)
          else .ok (.unmet (.parentMissing parent)) s := by
  unfold mutateCreate
  cases validateName name with
  | error e => simp
  | ok u =>
      by_cases dir : s.isDir parent <;> simp [dir]

private theorem mutateCreate_spec {parent : U128} {name : String} {mode : U32} {kind : EntryType}
    (shape : op.kind = creation kind parent name mode) (s : CoreState) :
    AttemptSpec env op s (mutateCreate env op parent name mode kind s) := by
  rw [mutateCreate_run]
  cases valid : validateName name with
  | error e => exact ⟨rfl, .badName shape valid⟩
  | ok u =>
      by_cases dir : s.isDir parent
      · simp only [dir, if_true]
        exact .created shape valid dir
      · simp only [dir]
        exact ⟨rfl, .parent shape dir⟩

theorem mutateUnlink_run (parent : U128) (name : String) (observed : List OpId) (s : CoreState) :
    mutateUnlink parent name observed s =
      if s.isDir parent then
        .ok .done (s.storeDir parent ((s.dirAt parent).removeDots name observed))
      else .ok (.unmet (.parentMissing parent)) s := by
  unfold mutateUnlink
  by_cases dir : s.isDir parent <;> simp [dir]

theorem mutateSetattr_run (inode : U128) (mode uid gid : Option U32) (s : CoreState) :
    mutateSetattr op inode mode uid gid s =
      match s.loadInode inode with
      | none => .ok (.unmet (.inodeMissing inode)) s
      | some record => .ok .done (s.storeInode inode { record with
          attrs := record.attrs.merge
            ⟨⟨mode.getD record.attrs.value.mode, uid.getD record.attrs.value.uid,
              gid.getD record.attrs.value.gid⟩, op.time_unix_ms, op.id.device_id,
              op.id.counter⟩ }) := by
  unfold mutateSetattr
  cases found : s.loadInode inode <;> simp [found]

private theorem mutateWrite_spec {inode : U128} {offset : U64} {chunks : List ChunkRef}
    {new_size : U64} {encryption : Option FileEncryption}
    (shape : op.kind = .write inode offset chunks new_size encryption) (s : CoreState) :
    AttemptSpec env op s (mutateWrite env op inode offset chunks new_size encryption s) := by
  unfold mutateWrite
  simp only [bind_run, get_run]
  cases found : s.loadInode inode with
  | none => exact ⟨rfl, .writeInode shape found⟩
  | some record =>
      by_cases file : record.kind = .file
      · simp only [file, ne_eq, not_true_eq_false, if_false]
        by_cases wins : writeCanWin record.content op
        · simp only [wins, Bool.not_true, Bool.false_eq_true, if_false]
          cases complete : firstMissingChunk s chunks with
          | some missing => exact ⟨rfl, .chunk shape complete⟩
          | none =>
              by_cases whole : offset = 0 ∧ chunksFormWholeFile chunks new_size
              · simp only [whole, and_self, if_true, makeFilenode]
                obtain ⟨stored, run, content⟩ := putObject_run env
                  (fileObject chunks new_size op.time_unix_ms encryption) s
                simp only [bind_run, run, modify_run, pure_run]
                exact .wrote shape found file wins content fun _ => rfl
              · simp only [if_neg whole, bind_run]
                cases splice : spliceWrite env s inode offset chunks new_size with
                | error e =>
                    exact ⟨rfl, .badSplice shape found file wins complete whole splice⟩
                | ok buffer =>
                    cases buffer with
                    | none => exact ⟨rfl, .content shape whole⟩
                    | some bytes =>
                        obtain ⟨node_hash, stored, run, content⟩ :=
                          storesOnly_storeFilenodeFromBytes env bytes op.time_unix_ms s
                        simp only [liftCheck_ok, bind_run, run, modify_run, pure_run]
                        exact .wrote shape found file wins content fun h => absurd h whole
        · simp only [wins, Bool.not_false, if_true]
          exact .superseded shape found file wins
      · simp only [ne_eq, file, not_false_eq_true, if_true]
        exact ⟨rfl, .notAFile shape found file⟩

private theorem mutateRename_spec {old_parent new_parent : U128} {old_name new_name : String}
    {observed : List OpId}
    (shape : op.kind = .rename old_parent old_name new_parent new_name observed)
    (s : CoreState) :
    AttemptSpec env op s
      (mutateRename op old_parent old_name new_parent new_name observed s) := by
  unfold mutateRename
  cases valid : validateName new_name with
  | error e => exact ⟨rfl, .badNewName shape valid⟩
  | ok u =>
      simp only [bind_run, liftCheck_ok, get_run]
      by_cases source : s.isDir old_parent
      · by_cases target : s.isDir new_parent
        · simp only [source, target, Bool.not_true, Bool.false_eq_true, if_false]
          cases found : renameSource ((s.dirAt old_parent).getAll old_name) observed with
          | none =>
              by_cases idle : observed = []
              · subst idle
                exact .movedNothing shape valid source target
              · have gone := renameSource_eq_none.mp found
                have none_left : ((s.dirAt old_parent).getAll old_name).any
                    (fun p => observed.contains p.1) = false := by
                  rw [List.any_eq_false]
                  intro p member
                  simpa using gone p member
                have some_seen : observed.isEmpty = false := by simpa using idle
                simp only [some_seen, none_left]
                exact ⟨rfl, .source shape idle found⟩
          | some p =>
              obtain ⟨dot, entry⟩ := p
              simp only
              cases kind : entry.entry_type with
              | file =>
                  exact .moved shape valid source target found (by simp [kind])
              | dir =>
                  cases inside : subtreeContains s entry.inode_id new_parent with
                  | error e =>
                      exact ⟨rfl, .subtreeTooLarge shape valid source target found kind inside⟩
                  | ok yes =>
                      cases yes with
                      | true =>
                          exact ⟨rfl, .intoOwnSubtree shape valid source target found kind inside⟩
                      | false => exact .moved shape valid source target found fun _ => inside
        · simp only [source, target, Bool.not_true, Bool.not_false, Bool.false_eq_true, if_false,
            if_true]
          exact ⟨rfl, .destination shape target⟩
      · simp only [source, Bool.not_false, if_true]
        exact ⟨rfl, .sourceParent shape source⟩

theorem mutate_spec (env : Env) (op : FsOp) (s : CoreState) :
    AttemptSpec env op s (mutate env op s) := by
  unfold mutate
  cases shape : op.kind with
  | mkdir parent name mode =>
      exact mutateCreate_spec (show op.kind = creation .dir parent name mode from shape) s
  | createFile parent name mode =>
      exact mutateCreate_spec (show op.kind = creation .file parent name mode from shape) s
  | write inode offset chunks new_size encryption => exact mutateWrite_spec shape s
  | rename old_parent old_name new_parent new_name observed => exact mutateRename_spec shape s
  | unlink parent name observed =>
      simp only [mutateUnlink_run]
      by_cases dir : s.isDir parent
      · rw [if_pos dir]
        exact .unlinked shape dir
      · rw [if_neg dir]
        exact ⟨rfl, .unlinkParent shape dir⟩
  | setAttr inode mode uid gid =>
      simp only [mutateSetattr_run]
      cases found : s.loadInode inode with
      | none => exact ⟨rfl, .attrInode shape found⟩
      | some record => exact .changedAttrs shape found

theorem Refusal.mutate {s : CoreState} {e : Err} (refusal : Refusal env op s e) :
    mutate env op s = .error e s := by
  cases refusal with
  | @badName kind parent name mode _ shape invalid =>
      cases kind <;> simp [Core.mutate, shape, creation, mutateCreate_run, invalid]
  | badNewName shape invalid => simp [Core.mutate, shape, mutateRename, invalid]
  | notAFile shape found other => simp [Core.mutate, shape, mutateWrite, found, other]
  | badSplice shape found file wins complete partly fails =>
      simp [Core.mutate, shape, mutateWrite, found, file, wins, complete, partly, fails]
  | intoOwnSubtree shape valid source target found dir inside =>
      simp [Core.mutate, shape, mutateRename, valid, source, target, found, dir, inside]
  | subtreeTooLarge shape valid source target found dir fails =>
      simp [Core.mutate, shape, mutateRename, valid, source, target, found, dir, fails]

theorem Effect.frame {s s' : CoreState} (effect : Effect env op s s') :
    ∃ dirs inodes parents blobs draws, (∀ hash, s.hasBlob hash → blobs.contains hash) ∧
      s' = { s with
        dirs := dirs, inodes := inodes, parents := parents, blobs := blobs, draws := draws } := by
  refine ⟨s'.dirs, s'.inodes, s'.parents, s'.blobs, s'.draws, ?_⟩
  have kept : ∀ hash, s.hasBlob hash → s.blobs.contains hash := fun _ here => here
  cases effect with
  | @created parent name mode kind => cases kind <;> exact ⟨kept, rfl⟩
  | superseded => exact ⟨kept, rfl⟩
  | wrote _ _ _ _ content _ =>
      obtain ⟨blobs, draws, keeps, rfl⟩ := content
      exact ⟨keeps, rfl⟩
  | movedNothing => exact ⟨kept, rfl⟩
  | @moved old_parent new_parent =>
      unfold moveEntry
      dsimp only
      split <;> exact ⟨kept, rfl⟩
  | unlinked => exact ⟨kept, rfl⟩
  | changedAttrs => exact ⟨kept, rfl⟩

end Attempts

end NexusFS.Core
