/- GID: NexusFS/Net/Converge
   source: crates/net/src/session.rs, crates/core/src/apply.rs
   digest: Nodes that gossip in any interleaving end with one tree. -/

import NexusFS.Net.Consistency

set_option autoImplicit false
set_option relaxedAutoImplicit false

namespace NexusFS.Net

open NexusFS.Lib NexusFS.Lib.Effect NexusFS.Proto NexusFS.Core

section Steps

variable {ι κ : Type} [DecidableEq ι] [DecidableEq κ]

/-- The states of a swarm of new nodes without proof policies, in which every step of a node is
clean: its own work, and the operations that a pull delivers. -/
inductive CleanRun (env : Env) (identity : ι → Identity) (ops : Finset FsOp) : Swarm ι κ → Prop
  | boot {core : ι → CoreState} (blank : ∀ i, Blank (core i)) (empty : ∀ i, (core i).blobs = ∅)
      (strangers : ∀ i, (core i).peer_keys = ∅) (lenient : ∀ i, (core i).proofs = .none) :
      CleanRun env identity ops ⟨fun i => booted env (core i), fun _ => none⟩
  | work {w : Swarm ι κ} (before : CleanRun env identity ops w) (i : ι) (a : Act)
      (clean : Clean env (identity i) ops (w.core i) a) : CleanRun env identity ops
        { w with core := Function.update w.core i (a.run env (identity i) (w.core i)) }
  | start {w : Swarm ι κ} (before : CleanRun env identity ops w) (k : κ) (puller responder : ι)
      (unused : w.pulls k = none) : CleanRun env identity ops
        { w with pulls := Function.update w.pulls k (some ⟨puller, responder, 0, .asking⟩) }
  | advance {w : Swarm ι κ} (before : CleanRun env identity ops w) (k : κ) (pull : PullOf ι)
      (running : w.pulls k = some pull)
      (clean : ∀ summary op rest more, pull.phase = .taking summary (op :: rest) more →
        Clean env (identity pull.puller) ops (w.core pull.puller) (.receive op)) :
      CleanRun env identity ops (w.advance env k pull)
  | lose {w : Swarm ι κ} (before : CleanRun env identity ops w) (k : κ) (pull : PullOf ι)
      (running : w.pulls k = some pull) : CleanRun env identity ops (w.setPhase k pull .lost)

end Steps

section Nodes

variable {ι κ : Type} [DecidableEq ι] [DecidableEq κ] {env : Env} {identity : ι → Identity}
  {ops : Finset FsOp} {w u v : Swarm ι κ} {i j : ι} {id : OpId}

theorem CleanRun.swarm (run : CleanRun env identity ops w) :
    SwarmRun env identity (fun _ => True) w := by
  induction run with
  | boot blank _ _ _ => exact .boot blank
  | work _ i a _ ih => exact .step ih trivial (.work i a)
  | start _ k puller responder unused ih => exact .step ih trivial (.start k puller responder unused)
  | advance _ k pull running _ ih => exact .step ih trivial (.advance k pull running)
  | lose _ k pull running ih => exact .step ih trivial (.lose k pull running)

omit [DecidableEq κ] in
private theorem node_updated {a : Act}
    (before : ∀ i, NodeRun env (identity i) (Clean env (identity i) ops) (w.core i))
    (clean : Clean env (identity j) ops (w.core j) a) (i : ι) :
    NodeRun env (identity i) (Clean env (identity i) ops)
      (Function.update w.core j (a.run env (identity j) (w.core j)) i) := by
  by_cases same : i = j
  · subst same
    rw [Function.update_self]
    exact (before i).step clean
  · rw [Function.update_of_ne same]
    exact before i

theorem CleanRun.node (run : CleanRun env identity ops w) (i : ι) :
    NodeRun env (identity i) (Clean env (identity i) ops) (w.core i) := by
  induction run generalizing i with
  | boot blank empty strangers _ => exact .boot (blank i) (empty i) (strangers i)
  | work _ j a clean ih => exact node_updated ih clean i
  | start _ k puller responder unused ih => exact ih i
  | lose _ k pull running ih => exact ih i
  | advance _ k pull running clean ih =>
      unfold Swarm.advance
      split
      · exact ih i
      · exact ih i
      · split
        · exact ih i
        · dsimp only
          split <;> exact ih i
      · rename_i summary op rest more taking
        exact node_updated ih (clean summary op rest more taking) i
      · split
        · exact ih i
        · split <;> exact ih i
      · exact ih i

theorem CleanRun.lenient (run : CleanRun env identity ops w) (i : ι) : (w.core i).proofs = .none := by
  have kept : ∀ {u v : Swarm ι κ}, CleanRun env identity ops u → SwarmStep env identity u v →
      (∀ i, (u.core i).proofs = .none) → ∀ i, (v.core i).proofs = .none := by
    intro u v before step lenient i
    have logged := fun i => (before.swarm.verified lenient i).1
    exact (step.grown logged i).proofs.trans (lenient i)
  induction run generalizing i with
  | @boot core blank _ _ lenient =>
      obtain ⟨_, _, _, _, _, _, _, -, same⟩ := (booted_spec env (blank i)).records
      show (booted env (core i)).proofs = .none
      rw [same]
      exact lenient i
  | work before j a _ ih => exact kept before (.work j a) ih i
  | start before k puller responder unused ih => exact kept before (.start k puller responder unused) ih i
  | advance before k pull running _ ih => exact kept before (.advance k pull running) ih i
  | lose before k pull running ih => exact kept before (.lose k pull running) ih i

theorem CleanRun.strict (run : CleanRun env identity ops w) :
    SwarmRun env identity (Accepted env id) w := by
  have met : ∀ {u : Swarm ι κ}, CleanRun env identity ops u → Accepted env id u :=
    fun before => before.swarm.accepted before.lenient
  induction run with
  | boot blank _ _ _ => exact .boot blank
  | work before i a _ ih => exact .step ih (met before) (.work i a)
  | start before k puller responder unused ih =>
      exact .step ih (met before) (.start k puller responder unused)
  | advance before k pull running _ ih => exact .step ih (met before) (.advance k pull running)
  | lose before k pull running ih => exact .step ih (met before) (.lose k pull running)

/-- Every operation of the batch was logged somewhere, and a relay of pulls led from there to the node. -/
def Spread (env : Env) (identity : ι → Identity) (ops : Finset FsOp) (u : Swarm ι κ) (j : ι) : Prop :=
  ∀ op ∈ ops, op.id.counter ≠ 0 ∧ ∃ (w : Swarm ι κ) (i : ι), CleanRun env identity ops w ∧
    op.id ∈ (w.core i).oplog ∧ Relayed env identity (fun _ => True) w i u j

theorem Spread.logged (spread : Spread env identity ops u j) : ∀ op ∈ ops, op.id ∈ (u.core j).oplog := by
  intro op inside
  obtain ⟨positive, w, i, run, held, relayed⟩ := spread op inside
  exact ((relayed.accepted run.swarm run.lenient).2.2.sound run.strict positive held).2

/-- Two nodes of one swarm or of two, at any two moments: if every operation of the batch was logged
somewhere and pulls relayed it to both, however all of that interleaved, then once both have the content
a retry leaves both with the same tree, queue and commitment, and what both can read with the same keys
they read alike. -/
theorem gossip_agrees (batch : Batch env ops) (few : FewDirs ops)
    (left : CleanRun env identity ops u) (right : CleanRun env identity ops v)
    (spreadLeft : Spread env identity ops u i) (spreadRight : Spread env identity ops v j)
    (stockedLeft : Stocked ops (u.core i)) (stockedRight : Stocked ops (v.core j))
    (safeLeft : ∀ x ∈ drainRetries env (u.core i), x.2 ∈ ops → RenameSafe x.1 x.2)
    (safeRight : ∀ x ∈ drainRetries env (v.core j), x.2 ∈ ops → RenameSafe x.1 x.2) :
    SameTree (Act.retry.run env (identity i) (u.core i)) (Act.retry.run env (identity j) (v.core j)) ∧
      (SameStore (Act.retry.run env (identity i) (u.core i))
          (Act.retry.run env (identity j) (v.core j)) → ∀ path x y,
        readFilePath env (Act.retry.run env (identity i) (u.core i)) path = .ok x →
          readFilePath env (Act.retry.run env (identity j) (v.core j)) path = .ok y → x = y) := by
  have one := (left.node i).complete batch few (left.lenient i) spreadLeft.logged stockedLeft safeLeft
  have two := (right.node j).complete batch few (right.lenient j) spreadRight.logged stockedRight safeRight
  have same := sameTree_of_complete one two batch
  exact ⟨same, fun store path x y => same.readFilePath store⟩

end Nodes

section Sample

def madeDir : FsOp :=
  authoredOp .plain sampleIdentity (.mkdir rootInode "a" 0) 0 (booted .plain (CoreState.new 7))

def madeFile : FsOp :=
  authoredOp .plain sampleIdentity (.createFile sampleParent "f" 0) 0
    ((Act.author (.mkdir rootInode "a" 0) 0).run .plain sampleIdentity (booted .plain (CoreState.new 7)))

def madeBatch : Finset FsOp := {madeDir, madeFile}

private theorem made_cases {op : FsOp} : op ∈ madeBatch ↔ op = madeDir ∨ op = madeFile := by
  simp [madeBatch]

private theorem madeBatch_batch : Batch .plain madeBatch where
  signed := by decide +kernel
  distinct := by
    have apart : ∀ a ∈ [madeDir, madeFile], ∀ b ∈ [madeDir, madeFile], a.id = b.id → a = b := by
      decide +kernel
    intro a b left right
    exact apart a (by simpa using made_cases.mp left) b (by simpa using made_cases.mp right)
  separate := by
    rintro _ ⟨a, left, rfl⟩ _ ⟨b, right, rfl⟩
    have apart : ∀ a ∈ [madeDir, madeFile], ∀ b ∈ [madeDir, madeFile],
        inodeForOp .plain a.id = inodeForOp .plain b.id → a.id = b.id := by decide +kernel
    exact apart a (by simpa using made_cases.mp left) b (by simpa using made_cases.mp right)
  tame := by
    intro op inside
    rcases made_cases.mp inside with rfl | rfl <;> trivial

def logsMade (s : CoreState) : Bool :=
  s.oplog.toList.all fun row => decide (row.2 = madeDir ∨ row.2 = madeFile)

private theorem made_safe {s : CoreState} {op : FsOp} (inside : op ∈ madeBatch) : RenameSafe s op := by
  intro old_parent old_name new_parent new_name observed kindIs
  rcases made_cases.mp inside with rfl | rfl <;> cases kindIs

private theorem clean_made {s : CoreState} {a : Act}
    (checked : logsMade (a.run .plain sampleIdentity s) = true) (keeps : a ≠ .collect false) :
    Clean .plain sampleIdentity madeBatch s a := by
  refine ⟨fun id op here => ?_, keeps, fun x _ inside => made_safe inside⟩
  exact made_cases.mpr (of_decide_eq_true
    (List.all_eq_true.mp checked (id, op) ((BTreeMap.mem_toList _ _ _).mpr here)))

def pullChecked (k : Fin 2) : Nat → Swarm (Fin 3) (Fin 2) → Bool
  | 0, _ => true
  | n + 1, w =>
      match w.pulls k with
      | some pull => logsMade ((w.advance .plain k pull).core pull.puller) &&
          pullChecked k n (w.advance .plain k pull)
      | none => true

private theorem cleanRun_steps {k : Fin 2} (n : Nat) {w : Swarm (Fin 3) (Fin 2)}
    (run : CleanRun .plain (fun _ => sampleIdentity) madeBatch w) (checked : pullChecked k n w = true) :
    CleanRun .plain (fun _ => sampleIdentity) madeBatch (Swarm.steps .plain k n w) := by
  induction n generalizing w with
  | zero => exact run
  | succ n ih =>
      unfold Swarm.steps
      unfold pullChecked at checked
      cases running : w.pulls k with
      | none => exact run
      | some pull =>
          rw [running] at checked
          obtain ⟨logs, later⟩ := Bool.and_eq_true_iff.mp checked
          refine ih (.advance run k pull running fun summary op rest more taking => ?_) later
          refine clean_made ?_ (by rintro ⟨⟩)
          unfold Swarm.advance at logs
          rw [taking] at logs
          dsimp only at logs
          rwa [Function.update_self] at logs

private theorem converge_facts :
    logsMade ((Act.author (.mkdir rootInode "a" 0) 0).run .plain sampleIdentity (newSwarm.core 0)) = true ∧
      logsMade ((Act.author (.createFile sampleParent "f" 0) 0).run .plain sampleIdentity
        (startedSwarm.core 0)) = true ∧
      pullChecked 0 6 waitingSwarm = true ∧ pullChecked 1 6 halfSwarm = true ∧
      (∀ op ∈ [madeDir, madeFile], op.id.counter ≠ 0 ∧
        (waitingSwarm.core 0).oplog.contains op.id = true) := by
  decide +kernel

theorem gossip_agrees_sample :
    SameTree (Act.retry.run .plain sampleIdentity (relayedSwarm.core 2))
      (Act.retry.run .plain sampleIdentity (waitingSwarm.core 0)) := by
  obtain ⟨first, second, half, rest, logged⟩ := converge_facts
  have new : CleanRun .plain (fun _ => sampleIdentity) madeBatch newSwarm :=
    .boot (fun _ => blank_new _) (fun _ => rfl) (fun _ => rfl) fun _ => rfl
  have started : CleanRun .plain (fun _ => sampleIdentity) madeBatch startedSwarm :=
    new.work 0 _ (clean_made first (by rintro ⟨⟩))
  have waiting : CleanRun .plain (fun _ => sampleIdentity) madeBatch waitingSwarm :=
    .start (.start (started.work 0 _ (clean_made second (by rintro ⟨⟩))) 0 1 0 rfl) 1 2 1 rfl
  have relayed : CleanRun .plain (fun _ => sampleIdentity) madeBatch relayedSwarm :=
    cleanRun_steps 6 (cleanRun_steps 6 waiting half) rest
  have spread : ∀ {u : Swarm (Fin 3) (Fin 2)} {j : Fin 3},
      Relayed .plain (fun _ => sampleIdentity) (fun _ => True) waitingSwarm 0 u j →
        Spread .plain (fun _ => sampleIdentity) madeBatch u j := by
    intro u j reached op inside
    obtain ⟨positive, held⟩ := logged op (by simpa using made_cases.mp inside)
    exact ⟨positive, waitingSwarm, 0, waiting, Std.ExtTreeMap.mem_iff_contains.mpr held, reached⟩
  have stocked : ∀ s, Stocked madeBatch s := by
    intro s op inside inode offset chunks new_size encryption kindIs
    rcases made_cases.mp inside with rfl | rfl <;> cases kindIs
  exact (gossip_agrees madeBatch_batch (by decide +kernel) relayed waiting (spread relayed_swarm)
    (spread (.wait .now)) (stocked _) (stocked _) (fun _ _ => made_safe) fun _ _ => made_safe).1

end Sample

end NexusFS.Net
