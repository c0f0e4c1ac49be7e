/- GID: NexusFS/Net/Consistency
   source: crates/core/src/apply.rs, crates/core/src/ops.rs, crates/net/src/session.rs
   digest: Nodes that came to hold the same operations and their content show the same tree. -/

import NexusFS.Core.Eventual
import NexusFS.Net.Calls
import NexusFS.Net.Gossip

/-!
Each node writes, receives, stores content and retries in an order of its own, and an operation may
reach it long before the operations and the content it needs.
-/

set_option autoImplicit false
set_option relaxedAutoImplicit false

namespace NexusFS.Net

open NexusFS.Lib NexusFS.Lib.Effect NexusFS.Proto NexusFS.Core

section Agreement

variable {s t : CoreState}

private theorem resolveParts_congr (dirs : s.dirs = t.dirs) (walked parts : List String) (inode : U128)
    (kind : EntryType) : resolveParts s walked parts inode kind = resolveParts t walked parts inode kind := by
  have lookup : ∀ i n, s.lookup i n = t.lookup i n := fun i n => by
    simp only [CoreState.lookup, CoreState.materializeDir, CoreState.loadDir, dirs]
  induction parts generalizing walked inode kind with
  | nil => rfl
  | cons part rest ih =>
      simp only [resolveParts, lookup, ih]

/-- Two nodes show the same tree: the same directories, records and queue, and one commitment. -/
structure SameTree (s t : CoreState) : Prop where
  dirs : s.dirs = t.dirs
  inodes : s.inodes = t.inodes
  applied : s.applied = t.applied
  pending : s.pending = t.pending
  map : inodeMap s = inodeMap t
  root : s.state_root = t.state_root

theorem SameTree.resolvePath (same : SameTree s t) (path : String) :
    resolvePath s path = resolvePath t path := by
  unfold Core.resolvePath
  simp only [resolveParts_congr same.dirs]

end Agreement

section Reading

variable {env : Env} {s t : CoreState}

/-- Two nodes with the same keys, whose stores keep no two blobs under one hash. -/
structure SameStore (s t : CoreState) : Prop where
  blobs : ∀ {hash : Hash} {x y}, s.blobs[hash]? = some x → t.blobs[hash]? = some y → x = y
  cipher : s.cipher = t.cipher
  sealing_secret : s.sealing_secret = t.sealing_secret

private theorem ok_of_bind {α β : Type} {x : Except Err α} {f : α → Except Err β} {b : β}
    (run : (x >>= f) = .ok b) : ∃ a, x = .ok a ∧ f a = .ok b := by
  cases x with
  | error e => cases run
  | ok a => exact ⟨a, rfl, run⟩

theorem SameStore.readChunks (store : SameStore s t) {file_key : Option Hash} {chunks : List ChunkRef}
    {index : Nat} {out a b : Bytes} (left : readChunks env s file_key index chunks out = .ok a)
    (right : readChunks env t file_key index chunks out = .ok b) : a = b := by
  induction chunks generalizing index out with
  | nil => exact Except.ok.inj (left.symm.trans right)
  | cons chunk rest ih =>
      unfold Core.readChunks at left right
      cases here : s.blobs[chunk.hash]? with
      | none =>
          rw [here] at left
          cases left
      | some x =>
          cases there : t.blobs[chunk.hash]? with
          | none =>
              rw [there] at right
              cases right
          | some y =>
              obtain rfl := store.blobs here there
              rw [here] at left
              rw [there] at right
              dsimp only at left right
              split at left
              · cases left
              · rename_i length
                rw [if_neg length] at right
                split at left
                · cases left
                · rename_i offset
                  rw [if_neg offset] at right
                  cases file_key with
                  | none => exact ih left right
                  | some key =>
                      obtain ⟨plain, opened, left⟩ := ok_of_bind left
                      obtain ⟨plain', opened', right⟩ := ok_of_bind right
                      obtain rfl := Except.ok.inj (opened.symm.trans opened')
                      exact ih left right

theorem SameStore.materializeFile (store : SameStore s t) {file : FileNode} {a b : Bytes}
    (left : materializeFile env s file = .ok a) (right : materializeFile env t file = .ok b) : a = b := by
  have keys : ∀ info, recoverFileKey env s info = recoverFileKey env t info := fun info => by
    simp only [recoverFileKey, store.cipher, store.sealing_secret]
  have assembled : ∀ {file_key} {f : Bytes → Except Err Bytes},
      (Core.readChunks env s file_key 0 file.chunks [] >>= f) = .ok a →
        (Core.readChunks env t file_key 0 file.chunks [] >>= f) = .ok b → a = b := by
    intro file_key f left right
    obtain ⟨x, readX, left⟩ := ok_of_bind left
    obtain ⟨y, readY, right⟩ := ok_of_bind right
    obtain rfl := store.readChunks readX readY
    exact Except.ok.inj (left.symm.trans right)
  unfold Core.materializeFile at left right
  cases sealed : file.encryption with
  | none =>
      rw [sealed] at left right
      exact assembled left right
  | some info =>
      rw [sealed] at left right
      obtain ⟨key, found, left⟩ := ok_of_bind left
      obtain ⟨key', found', right⟩ := ok_of_bind right
      rw [keys] at found
      obtain rfl := Except.ok.inj (found.symm.trans found')
      exact assembled left right

theorem SameTree.readFilePath (same : SameTree s t) (store : SameStore s t) {path : String} {a b : Bytes}
    (left : readFilePath env s path = .ok a) (right : readFilePath env t path = .ok b) : a = b := by
  unfold Core.readFilePath at left right
  rw [same.resolvePath] at left
  obtain ⟨found, resolved, left⟩ := ok_of_bind left
  obtain ⟨found', resolved', right⟩ := ok_of_bind right
  obtain rfl := Except.ok.inj (resolved.symm.trans resolved')
  cases found with
  | none => cases left
  | some entry =>
      obtain ⟨inode, kind⟩ := entry
      dsimp only at left right
      split at left
      · cases left
      · rename_i file
        rw [if_neg file] at right
        have records : s.loadInode inode = t.loadInode inode := by
          simp only [CoreState.loadInode, same.inodes]
        unfold Core.readFile at left right
        rw [records] at left
        cases record : t.loadInode inode with
        | none =>
            rw [record] at left
            cases left
        | some row =>
            rw [record] at left right
            dsimp only at left right
            split at left
            · cases left
            · rename_i isFile
              rw [if_neg isFile] at right
              cases node : row.content.value.node_hash with
              | none =>
                  rw [node] at left right
                  exact Except.ok.inj (left.symm.trans right)
              | some hash =>
                  rw [node] at left right
                  obtain ⟨object, got, left⟩ := ok_of_bind left
                  obtain ⟨object', got', right⟩ := ok_of_bind right
                  have one : object ≠ none → object' ≠ none → object = object' := by
                    unfold getObject at got got'
                    intro held held'
                    cases here : s.blobs[hash]? with
                    | none =>
                        rw [here] at got
                        exact absurd (Except.ok.inj got).symm held
                    | some x =>
                        cases there : t.blobs[hash]? with
                        | none =>
                            rw [there] at got'
                            exact absurd (Except.ok.inj got').symm held'
                        | some y =>
                            obtain rfl := store.blobs here there
                            rw [here] at got
                            rw [there] at got'
                            exact Except.ok.inj (got.symm.trans got')
                  cases object with
                  | none => cases left
                  | some x =>
                      cases object' with
                      | none => cases right
                      | some y =>
                          obtain rfl := Option.some.inj (one (Option.some_ne_none _) (Option.some_ne_none _))
                          cases x with
                          | fileNode file => exact store.materializeFile left right
                          | _ => cases left

end Reading

section Runs

variable {env : Env} {identity identity' : Identity} {ops : Finset FsOp} {past : Set OpId}
  {s t : CoreState} {a : Act}

/-- A step that logs operations of the batch only, sweeps nothing, and tries renames only where they
are safe. -/
structure Clean (env : Env) (identity : Identity) (ops : Finset FsOp) (s : CoreState) (a : Act) : Prop where
  files : ∀ (id : OpId) op, (a.run env identity s).oplog[id]? = some op → op ∈ ops
  keeps : a ≠ .collect false
  safe : ∀ x ∈ a.attempts env identity s, x.2 ∈ ops → RenameSafe x.1 x.2

def filed (ops : Finset FsOp) (s : CoreState) : Set OpId := {id | id ∈ s.oplog ∧ id ∈ hopefulIds ops}

private theorem regular_file (regular : Regular env ops (filed ops s) s) (logged : Logged s)
    (batch : Batch env ops) (few : FewDirs ops) {op : FsOp} {check_policy : Bool}
    (files : ∀ (id : OpId) other,
      (finalState (applyOpInner env op check_policy s)).oplog[id]? = some other → other ∈ ops)
    (safe : ∀ x ∈ applyAttempts env op check_policy s, x.2 ∈ ops → RenameSafe x.1 x.2) :
    Regular env ops (filed ops (finalState (applyOpInner env op check_policy s)))
      (finalState (applyOpInner env op check_policy s)) := by
  obtain ⟨-, same⟩ := logged.applyOpInner env op check_policy
  have member : Admits env op check_policy s → op.id ∉ s.applied → op ∈ ops := by
    intro admits new
    rw [if_pos ⟨admits, new⟩] at same
    refine files op.id op ?_
    rw [show (finalState (applyOpInner env op check_policy s)).oplog = _ from same.oplog]
    exact Std.ExtTreeMap.getElem?_insert_self
  obtain ⟨after, holds⟩ := regular.applyOpInner batch few member safe
  refine after.widen ?_
  rintro id ⟨here, other, inside, rfl, hope⟩
  split at same
  · rename_i accepted
    rw [show (finalState (applyOpInner env op check_policy s)).oplog = s.oplog.insert op.id op from
      same.oplog, Std.ExtTreeMap.mem_insert, compare_eq_iff_eq] at here
    rcases here with own | old
    · obtain rfl := batch.distinct (member accepted.1 accepted.2) inside own
      exact holds accepted.1 hope
    · exact after.unstocked.held ⟨old, other, inside, rfl, hope⟩
  · rw [show (finalState (applyOpInner env op check_policy s)).oplog = s.oplog from same.oplog] at here
    exact after.unstocked.held ⟨here, other, inside, rfl, hope⟩

theorem regular_act (regular : Regular env ops (filed ops s) s) (logged : Logged s)
    (policy : s.proofs = .none) (batch : Batch env ops) (few : FewDirs ops)
    (clean : Clean env identity ops s a) :
    Regular env ops (filed ops (a.run env identity s)) (a.run env identity s) := by
  by_cases other : a.Other
  · have same : (a.run env identity s).oplog = s.oplog := (other_sameLog env logged identity other).2.oplog
    have sparing : ∀ x ∈ a.calls env identity s, x.2.Sparing env ops x.1 := by
      have safe := clean.safe
      have keeps := clean.keeps
      cases a with
      | receive op => cases other
      | author kind now => cases other
      | retry =>
          intro x member
          obtain rfl := List.mem_singleton.mp member
          exact safe
      | snapshot =>
          intro x member
          obtain rfl := List.mem_singleton.mp member
          exact trivial
      | collect dry_run =>
          intro x member
          obtain rfl := List.mem_singleton.mp member
          cases dry_run with
          | true => rfl
          | false => exact absurd rfl keeps
      | content limits reply outcome =>
          intro x member
          simp only [Act.calls] at member
          simp only [Act.attempts] at safe
          cases got : contentStored env limits reply ⟨s, outcome⟩ with
          | none =>
              rw [got] at member
              cases member
          | some stored =>
              rw [got] at member safe
              obtain rfl := List.mem_singleton.mp member
              exact safe
      | _ => exact fun x member => absurd member List.not_mem_nil
    have kept : Regular env ops (filed ops s) (a.run env identity s) :=
      (through_act a).carry (fun held quiet => held.quiet quiet)
        (fun held ok => held.call batch few ok) regular sparing
    refine kept.widen ?_
    rintro id ⟨here, hope⟩
    rw [same] at here
    exact kept.unstocked.held ⟨here, hope⟩
  · cases a with
    | receive op => exact regular_file regular logged batch few clean.files clean.safe
    | author kind now =>
        have plain : s.proofs.generates = false := by
          rw [policy]
          rfl
        have run : (Act.author kind now).run env identity s =
            finalState (applyOpInner env (authoredOp env identity kind now s) true (counted s)) :=
          applyLocal_unproven env identity kind now plain
        have files := clean.files
        have safe := clean.safe
        simp only [Act.attempts, plain, Bool.not_false] at safe
        rw [run] at files ⊢
        have counts : Regular env ops (filed ops (counted s)) (counted s) :=
          regular.quiet ⟨rfl, rfl, rfl, rfl, rfl, rfl, rfl, rfl, rfl, rfl, fun _ here => here⟩
        exact regular_file counts (logged.congr rfl rfl rfl) batch few files safe
    | _ => exact absurd trivial other

theorem NodeRun.regular (run : NodeRun env identity (Clean env identity ops) s) (batch : Batch env ops)
    (few : FewDirs ops) (policy : s.proofs = .none) : Regular env ops (filed ops s) s := by
  induction run with
  | @boot fresh blank _ _ =>
      refine (regular_booted env ops blank).widen ?_
      rintro id ⟨here, -⟩
      obtain ⟨blobs, imap, head, root, version, kv, blob, -, same⟩ := (booted_spec env blank).records
      rw [same] at here
      have logged : id ∈ fresh.oplog := here
      rw [blank.oplog] at logged
      exact absurd logged Std.ExtTreeMap.not_mem_empty
  | @step u a before clean ih =>
      have grown : LogGrew u (a.run env identity u) := grown_act before.logged a
      have lenient : u.proofs = .none := grown.proofs.symm.trans policy
      exact regular_act (ih lenient) before.logged lenient batch few clean

theorem NodeRun.complete (run : NodeRun env identity (Clean env identity ops) s) (batch : Batch env ops)
    (few : FewDirs ops) (policy : s.proofs = .none) (all : ∀ op ∈ ops, op.id ∈ s.oplog)
    (stocked : Stocked ops s) (safe : ∀ x ∈ drainRetries env s, x.2 ∈ ops → RenameSafe x.1 x.2) :
    Complete env ops (Act.retry.run env identity s) := by
  have regular := run.regular batch few policy
  have same : filed ops s = hopefulIds ops := by
    ext id
    refine ⟨fun here => here.2, fun hope => ⟨?_, hope⟩⟩
    obtain ⟨op, inside, rfl, -⟩ := hope
    exact all op inside
  have lenient : (Act.retry.run env identity s).proofs = .none :=
    (grown_act run.logged .retry).proofs.trans policy
  unfold Complete
  rw [← same]
  exact regular.catches_up batch few safe stocked lenient

theorem sameTree_of_complete (one : Complete env ops s) (two : Complete env ops t)
    (batch : Batch env ops) : SameTree s t :=
  ⟨one.dirs_eq two batch, one.inodes_eq two batch, one.applied_eq two batch, one.pending_eq two batch,
    by rw [inodeMap, inodeMap, one.imap_eq two batch], one.state_root_eq two batch⟩

/-- Two nodes came to log the same operations, each in the course of a run of its own in which it
wrote, received, stored content, pulled and retried in any order. Once both have the content, a retry
leaves both with the same tree, queue and commitment, and what both can read with the same keys, they
read alike. -/
theorem runs_agree (batch : Batch env ops) (few : FewDirs ops)
    (left : NodeRun env identity (Clean env identity ops) s)
    (right : NodeRun env identity' (Clean env identity' ops) t)
    (policyLeft : s.proofs = .none) (policyRight : t.proofs = .none)
    (allLeft : ∀ op ∈ ops, op.id ∈ s.oplog) (allRight : ∀ op ∈ ops, op.id ∈ t.oplog)
    (stockedLeft : Stocked ops s) (stockedRight : Stocked ops t)
    (safeLeft : ∀ x ∈ drainRetries env s, x.2 ∈ ops → RenameSafe x.1 x.2)
    (safeRight : ∀ x ∈ drainRetries env t, x.2 ∈ ops → RenameSafe x.1 x.2) :
    SameTree (Act.retry.run env identity s) (Act.retry.run env identity' t) ∧
      (SameStore (Act.retry.run env identity s) (Act.retry.run env identity' t) → ∀ path x y,
        readFilePath env (Act.retry.run env identity s) path = .ok x →
          readFilePath env (Act.retry.run env identity' t) path = .ok y → x = y) := by
  have one := left.complete batch few policyLeft allLeft stockedLeft safeLeft
  have two := right.complete batch few policyRight allRight stockedRight safeRight
  have same := sameTree_of_complete one two batch
  exact ⟨same, fun store path x y => same.readFilePath store⟩

end Runs

section Sample

/-- Steps that only log operations of the sample batch, checked row by row. -/
def filesChecked (s : CoreState) : Bool := s.oplog.toList.all fun row => decide (row.2 ∈ sampleBatch)

private theorem sample_safe {u : CoreState} {op : FsOp} (inside : op ∈ sampleBatch) : RenameSafe u op := by
  have still : ∀ op ∈ sampleBatch, isRename op = false := by decide +kernel
  intro old_parent old_name new_parent new_name observed kindIs
  have plain := still op inside
  simp [isRename, kindIs] at plain

private theorem clean_sample {identity : Identity} {s : CoreState} {a : Act}
    (checked : filesChecked (a.run .plain identity s) = true) (keeps : a ≠ .collect false) :
    Clean .plain identity sampleBatch s a := by
  refine ⟨fun id op here => ?_, keeps, fun x _ inside => sample_safe inside⟩
  exact of_decide_eq_true (List.all_eq_true.mp checked (id, op) ((BTreeMap.mem_toList _ _ _).mpr here))

def stepsChecked : CoreState → List Act → Bool
  | _, [] => true
  | s, a :: rest =>
      let t := a.run .plain sampleIdentity s
      filesChecked t && !(a matches .collect false) && stepsChecked t rest

def afterSteps (s : CoreState) (acts : List Act) : CoreState :=
  acts.foldl (fun s a => a.run .plain sampleIdentity s) s

private theorem nodeRun_of_checked {s : CoreState} {acts : List Act}
    (run : NodeRun .plain sampleIdentity (Clean .plain sampleIdentity sampleBatch) s)
    (checked : stepsChecked s acts = true) :
    NodeRun .plain sampleIdentity (Clean .plain sampleIdentity sampleBatch) (afterSteps s acts) := by
  induction acts generalizing s with
  | nil => exact run
  | cons a rest ih =>
      simp only [stepsChecked, Bool.and_eq_true] at checked
      obtain ⟨⟨files, keeps⟩, later⟩ := checked
      refine ih (.step run (clean_sample files ?_)) later
      rintro rfl
      cases keeps

def orderedSteps : List Act :=
  [.store [42], .receive sampleMkdir, .receive batchCreate, .receive batchWrite,
    .receive sampleChmod, .receive sampleUnlink]

/-- The operations backwards, two of them before what they need, and the content last. -/
def scatteredSteps : List Act :=
  [.receive sampleChmod, .receive batchWrite, .receive batchCreate, .receive sampleMkdir,
    .snapshot, .receive sampleUnlink, .store [42]]

private theorem consistency_facts :
    stepsChecked (booted .plain (CoreState.new 8)) orderedSteps = true ∧
      stepsChecked (booted .plain (CoreState.new 9)) scatteredSteps = true ∧
      (∀ op ∈ sampleBatch, ((afterSteps (booted .plain (CoreState.new 8)) orderedSteps).oplog.contains op.id &&
        (afterSteps (booted .plain (CoreState.new 9)) scatteredSteps).oplog.contains op.id) = true) ∧
      (afterSteps (booted .plain (CoreState.new 8)) orderedSteps).hasBlob batchChunk.hash = true ∧
      (afterSteps (booted .plain (CoreState.new 9)) scatteredSteps).hasBlob batchChunk.hash = true ∧
      (afterSteps (booted .plain (CoreState.new 9)) scatteredSteps).pending.size = 1 ∧
      (afterSteps (booted .plain (CoreState.new 8)) orderedSteps).proofs = .none ∧
      (afterSteps (booted .plain (CoreState.new 9)) scatteredSteps).proofs = .none := by
  decide +kernel

private theorem sample_stocked {s : CoreState} (here : s.hasBlob batchChunk.hash = true) :
    Stocked sampleBatch s := by
  intro op member inode offset chunks new_size encryption kindIs chunk inside
  rcases mem_sampleBatch member with rfl | rfl | rfl | rfl | rfl
  · cases kindIs
  · cases kindIs
  · cases kindIs
    rw [List.mem_singleton.mp inside]
    exact here
  · cases kindIs
  · cases kindIs

theorem runs_agree_sample :
    (afterSteps (booted .plain (CoreState.new 9)) scatteredSteps).pending.size = 1 ∧
      SameTree
        (Act.retry.run .plain sampleIdentity (afterSteps (booted .plain (CoreState.new 8)) orderedSteps))
        (Act.retry.run .plain sampleIdentity
          (afterSteps (booted .plain (CoreState.new 9)) scatteredSteps)) := by
  obtain ⟨first, second, logged, held, held', parked, policy, policy'⟩ := consistency_facts
  refine ⟨parked, (runs_agree sampleBatch_batch (by decide +kernel)
    (nodeRun_of_checked (.boot (blank_new 8) rfl rfl) first)
    (nodeRun_of_checked (.boot (blank_new 9) rfl rfl) second) policy policy' ?_ ?_ (sample_stocked held)
    (sample_stocked held') (fun _ _ => sample_safe) fun _ _ => sample_safe).1⟩
  · intro op inside
    exact Std.ExtTreeMap.mem_iff_contains.mpr (Bool.and_eq_true_iff.mp (logged op inside)).1
  · intro op inside
    exact Std.ExtTreeMap.mem_iff_contains.mpr (Bool.and_eq_true_iff.mp (logged op inside)).2

end Sample

end NexusFS.Net
