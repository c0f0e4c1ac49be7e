/- GID: NexusFS/Net/Evidence
   source: crates/core/src/ops.rs, crates/core/src/proof.rs
   digest: The evidence a node attaches to its own operations is accepted by everyone. -/

import NexusFS.Core.Postcard
import NexusFS.Net.Failing
import NexusFS.Zk.MerkleSound

set_option autoImplicit false
set_option relaxedAutoImplicit false

namespace NexusFS.Net

open NexusFS.Lib NexusFS.Lib.Effect NexusFS.Proto NexusFS.Core CoreState

section Libraries

variable {env : Env} {identity : Identity} {kind : FsOpKind} {now : U64} {s t v : CoreState}
  {op : FsOp}

/-- What local evidence relies on: a signature has its length and verifies under the public key of
the signer, and both kinds of evidence read back. -/
structure Evidential (env : Env) : Prop where
  key : ∀ secret, env.verifyingKeyValid (env.ed25519Public secret) = true
  length : ∀ secret bytes, (env.ed25519Sign secret bytes).length = 64
  verifies : ∀ secret bytes,
    env.ed25519Verify (env.ed25519Public secret) bytes (env.ed25519Sign secret bytes) = true
  proof : ∀ proof, env.decodeProof (env.encodeProof proof) = some proof
  commit : ∀ proof, env.decodeCommit (env.encodeCommit proof) = some proof

theorem verifyOp_own (libs : Evidential env) (own : OwnOp env identity s op) :
    verifyOp env op = .ok () := by
  have length : op.sig.length = 64 := by rw [own.sig, libs.length]
  have nonempty : op.sig.isEmpty = false := by
    cases sig : op.sig with
    | nil =>
        rw [sig] at length
        cases length
    | cons _ _ => rfl
  have key : env.verifyingKeyValid op.author_pubkey = true := by
    rw [own.author]
    exact libs.key _
  have verified : env.ed25519Verify op.author_pubkey (env.encodeOpToSign op.toSign) op.sig = true := by
    rw [own.author, own.sig]
    exact libs.verifies _ _
  unfold verifyOp
  simp [nonempty, length, key, verified, pure, Except.pure]

/-- The operation that carries the evidence, made in the state `v` after the provisional one. -/
def provenOp (env : Env) (identity : Identity) (kind : FsOpKind) (now : U64) (s v : CoreState) :
    FsOp :=
  let provisional := authoredOp env identity kind now s
  let bundle :=
    if s.proofs.commits then
      finishCommitProof env v s.state_root (subjectInode env provisional.id kind) (changedHashes kind)
    else finishProof env v s.state_root (changedHashes kind)
  let proven := { provisional with proof := some bundle }
  { proven with sig := env.ed25519Sign identity.signing_key (env.encodeOpToSign proven.toSign) }

theorem applyLocal_proven (generates : s.proofs.generates = true)
    (run : applyLocal env identity kind now s = .ok op t) :
    ∃ outcome v, applyOpInner env (authoredOp env identity kind now s) false (counted s) =
        .ok outcome v ∧ (outcome = .applied ∨ outcome = .alreadyApplied) ∧
      op = provenOp env identity kind now s v ∧ t = v.appendOp op := by
  unfold applyLocal at run
  simp only [bind_run, get_run, generates, Bool.not_true, Bool.false_eq_true, if_false, makeOp_run,
    applyOpUnproven] at run
  cases inner : applyOpInner env (authoredOp env identity kind now s) false (counted s) with
  | error e v =>
      rw [inner] at run
      cases run
  | ok outcome v =>
      rw [inner] at run
      cases outcome with
      | pending reason => cases run
      | applied =>
          cases run
          exact ⟨_, v, rfl, .inl rfl, rfl, rfl⟩
      | alreadyApplied =>
          cases run
          exact ⟨_, v, rfl, .inr rfl, rfl, rfl⟩

theorem ownOp_provenOp : OwnOp env identity s (provenOp env identity kind now s v) :=
  ⟨rfl, rfl, rfl⟩

end Libraries

section Numbers

variable {env : Env} {identity : Identity} {s : CoreState} {id : OpId}

/-- No operation arrives under an id that the node has yet to give out, and its counter does not
overflow. -/
def OwnIds (s : CoreState) : Act → Prop
  | .receive op => op.id.device_id = s.device_id → op.id.counter ≤ s.next_counter
  | .author _ _ => s.next_counter.val + 1 < 2 ^ 64
  | _ => True

/-- Whatever is logged under the device of the node has a counter that was given out. -/
structure Numbered (s : CoreState) : Prop where
  logged : Logged s
  given : ∀ id ∈ s.oplog, id.device_id = s.device_id → id.counter ≤ s.next_counter

private theorem next_val (room : s.next_counter.val + 1 < 2 ^ 64) :
    (s.next_counter + 1).val = s.next_counter.val + 1 := by
  rw [Fin.val_add]
  exact Nat.mod_eq_of_lt room

theorem Numbered.fresh (numbered : Numbered s) (room : s.next_counter.val + 1 < 2 ^ 64) :
    nextId s ∉ s.applied := by
  intro known
  have given : s.next_counter + 1 ≤ s.next_counter :=
    numbered.given (nextId s) (numbered.logged.applied known) rfl
  have next := next_val room
  have le : (s.next_counter + 1).val ≤ s.next_counter.val := given
  omega

private theorem Numbered.act (numbered : Numbered s) {a : Act} (met : OwnIds s a) :
    Numbered (a.run env identity s) := by
  refine ⟨logged_act numbered.logged a, fun id here own => ?_⟩
  by_cases other : a.Other
  · have same := (other_sameLog env numbered.logged identity other).2
    rw [same.oplog] at here
    rw [same.device_id] at own
    rw [same.next_counter]
    exact numbered.given id here own
  · cases a with
    | receive op =>
        have same := (numbered.logged.applyOpInner env op true).2
        have kept : ((Act.receive op).run env identity s).device_id = s.device_id ∧
            ((Act.receive op).run env identity s).next_counter = s.next_counter := by
          refine ⟨same.device_id.trans ?_, same.next_counter.trans ?_⟩ <;> split <;> rfl
        rw [kept.1] at own
        rw [kept.2]
        rcases (numbered.logged.mem_applyOp env op id).mp here with old | ⟨rfl, -⟩
        · exact numbered.given id old own
        · exact met own
    | author kind now =>
        obtain ⟨device, counter⟩ := numbers_applyLocal env identity kind now s
        have room : s.next_counter.val + 1 < 2 ^ 64 := met
        have next := next_val room
        have device' : ((Act.author kind now).run env identity s).device_id = s.device_id := device
        have counter' : ((Act.author kind now).run env identity s).next_counter =
          s.next_counter + 1 := counter
        rw [device'] at own
        rw [counter']
        rcases (logged_author numbered.logged).2 id here with rfl | old
        · exact le_refl _
        · have le : id.counter.val ≤ s.next_counter.val := numbered.given id old own
          show id.counter.val ≤ (s.next_counter + 1).val
          omega
    | _ => exact absurd trivial other

theorem NodeRun.numbered (run : NodeRun env identity OwnIds s) : Numbered s := by
  induction run with
  | @boot s blank _ _ =>
      refine ⟨logged_booted env blank, fun id here => ?_⟩
      obtain ⟨_, _, _, _, _, _, _, -, same⟩ := (booted_spec env blank).records
      rw [same] at here
      have empty : id ∈ s.oplog := here
      rw [blank.oplog] at empty
      exact absurd empty Std.ExtTreeMap.not_mem_empty
  | step _ met ih => exact ih.act met

end Numbers

section Accepted

variable {env : Env} {identity : Identity} {kind : FsOpKind} {now : U64} {s t v : CoreState}
  {op : FsOp}

/-- The inode an operation is about: the one it creates, writes or re-attributes, the directory it
unlinks from, or the one it renames into. -/
inductive Concerns (env : Env) (id : OpId) : FsOpKind → U128 → Prop
  | createFile (parent : U128) (name : String) (mode : U32) :
      Concerns env id (.createFile parent name mode) (inodeForOp env id)
  | mkdir (parent : U128) (name : String) (mode : U32) :
      Concerns env id (.mkdir parent name mode) (inodeForOp env id)
  | write (inode : U128) (offset : U64) (chunks : List ChunkRef) (new_size : U64)
      (encryption : Option FileEncryption) :
      Concerns env id (.write inode offset chunks new_size encryption) inode
  | setAttr (inode : U128) (mode uid gid : Option U32) : Concerns env id (.setAttr inode mode uid gid) inode
  | unlink (parent : U128) (name : String) (observed : List OpId) :
      Concerns env id (.unlink parent name observed) parent
  | rename (old_parent : U128) (old_name : String) (new_parent : U128) (new_name : String)
      (observed : List OpId) :
      Concerns env id (.rename old_parent old_name new_parent new_name observed) new_parent

theorem concerns_iff {id : OpId} {inode : U128} :
    Concerns env id kind inode ↔ inode = subjectInode env id kind := by
  constructor
  · intro concerns
    cases concerns <;> rfl
  · rintro rfl
    cases kind <;> constructor

/-- A bundle that records the commitment of the map of `t`, and as a commitment bundle the inclusion
proof in it of the inode that the operation is about. -/
inductive EvidenceOf (env : Env) (t : CoreState) (id : OpId) (kind : FsOpKind) : ProofBundle → Prop
  | transparent (old_root : Option Hash) (changed : List Hash) : EvidenceOf env t id kind
      ⟨.transparent, env.encodeProof ⟨old_root, some (computeStateRoot env t), changed⟩⟩
  | commit (old_root : Option Hash) {entry : Zk.Merkle.InclusionProof}
      (subject : Concerns env id kind entry.inode)
      (proved : inclusionProof env t entry.inode = some entry) : EvidenceOf env t id kind
      ⟨.zkCommit, env.encodeCommit ⟨old_root, computeStateRoot env t, entry⟩⟩

theorem check_inclusionProof (bounded : (inodeMap t).length < 2 ^ 64) {inode : U128}
    {entry : Zk.Merkle.InclusionProof} (proved : inclusionProof env t inode = some entry) :
    entry.inode = inode ∧ (inode, entry.value) ∈ inodeMap t ∧
      Zk.Merkle.check env.blake3 entry (computeStateRoot env t) = .ok () := by
  have sorted : (inodeMap t).Pairwise fun a b => a.1 < b.1 := t.imap.sorted_toList
  have member : ∃ e ∈ inodeMap t, e.1 = inode := by
    unfold inclusionProof Zk.Merkle.prove at proved
    cases found : (inodeMap t).findIdx? fun e => e.1 == inode with
    | none =>
        rw [found] at proved
        cases proved
    | some index =>
        obtain ⟨inside, isIt, -⟩ := List.findIdx?_eq_some_iff_getElem.mp found
        exact ⟨_, List.getElem_mem inside, by simpa using isIt⟩
  obtain ⟨e, here, rfl⟩ := member
  obtain ⟨p, same, inode, value, accepted⟩ := Zk.Merkle.prove_complete sorted bounded here
  obtain rfl : p = entry := Option.some.inj (same.symm.trans proved)
  exact ⟨inode, value ▸ here, accepted⟩

theorem EvidenceOf.accepted (libs : Evidential env) (bounded : (inodeMap t).length < 2 ^ 64)
    {id : OpId} {bundle : ProofBundle} (evidence : EvidenceOf env t id kind bundle)
    (carried : op.proof = some bundle) (policy : ProofPolicy) : checkProof env op policy = .ok () := by
  unfold checkProof
  rw [carried]
  split
  · rfl
  · cases evidence with
    | transparent old_root changed =>
        dsimp only
        rw [libs.proof]
        rfl
    | commit old_root subject proved =>
        dsimp only
        rw [libs.commit]
        dsimp only
        rw [(check_inclusionProof bounded proved).2.2]
        rfl

private theorem evidence_provenOp (root : v.state_root = some (computeStateRoot env v))
    (bounded : (inodeMap v).length < 2 ^ 64) :
    ∃ bundle, (provenOp env identity kind now s v).proof = some bundle ∧
      EvidenceOf env v (provenOp env identity kind now s v).id kind bundle ∧
      (s.proofs = .commit → (∃ inode hash, Concerns env (provenOp env identity kind now s v).id kind inode ∧
        (inode, hash) ∈ inodeMap v) → bundle.mode = .zkCommit) := by
  refine ⟨_, rfl, ?_⟩
  have plain : EvidenceOf env v (provenOp env identity kind now s v).id kind
      (finishProof env v s.state_root (changedHashes kind)) := by
    unfold finishProof
    rw [root]
    exact .transparent _ _
  split
  · unfold finishCommitProof
    rw [root]
    dsimp only
    split
    · rename_i absent
      refine ⟨plain, fun _ present => ?_⟩
      obtain ⟨inode, hash, concerns, here⟩ := present
      obtain rfl := concerns_iff.mp concerns
      obtain ⟨entry, proved, -⟩ := Zk.Merkle.prove_complete v.imap.sorted_toList bounded here
      cases absent.symm.trans proved
    · rename_i proved
      obtain ⟨same, -⟩ := check_inclusionProof bounded proved
      exact ⟨.commit _ (concerns_iff.mpr same) (same ▸ proved), fun _ _ => rfl⟩
  · rename_i other
    refine ⟨plain, fun commits => absurd ?_ other⟩
    rw [commits]
    rfl

/-- The operation that a node returns under a policy that generates evidence verifies, passes the
check of every policy, and carries the commitment of the map that the call left. A bundle with a path
proves the inode that the operation is about, and a committing node makes one whenever the map has it. -/
theorem local_evidence (libs : Evidential env) (run : NodeRun env identity OwnIds s)
    (room : s.next_counter.val + 1 < 2 ^ 64) (generates : s.proofs.generates = true)
    (returned : applyLocal env identity kind now s = .ok op t)
    (bounded : (inodeMap t).length < 2 ^ 64) :
    verifyOp env op = .ok () ∧ (∀ policy, checkProof env op policy = .ok ()) ∧
      op.kind = kind ∧ ∃ bundle, op.proof = some bundle ∧ EvidenceOf env t op.id kind bundle ∧
        (s.proofs = .commit → (∃ inode hash, Concerns env op.id kind inode ∧
          (inode, hash) ∈ inodeMap t) → bundle.mode = .zkCommit) := by
  obtain ⟨outcome, v, inner, done, rfl, rfl⟩ := applyLocal_proven generates returned
  have fresh : (authoredOp env identity kind now s).id ∉ (counted s).applied :=
    run.numbered.fresh room
  have root : v.state_root = some (computeStateRoot env v) := by
    by_cases admits : Admits env (authoredOp env identity kind now s) false (counted s)
    · rcases done with rfl | rfl
      · exact root_of_applied admits fresh inner
      · exact absurd (known_of_already admits inner) fresh
    · obtain ⟨e, refused⟩ := applyOpInner_refused admits
      cases refused.symm.trans inner
  obtain ⟨bundle, carried, evidence, commits⟩ :=
    @evidence_provenOp env identity kind now s v root bounded
  have evidence' : EvidenceOf env (v.appendOp (provenOp env identity kind now s v))
      (provenOp env identity kind now s v).id kind bundle := by
    cases evidence with
    | transparent old_root changed => exact .transparent old_root changed
    | commit old_root subject proved => exact .commit old_root subject proved
  exact ⟨verifyOp_own libs ownOp_provenOp, evidence'.accepted libs bounded carried, rfl, bundle,
    carried, evidence', commits⟩

private theorem committing_evidential : Evidential .committing where
  key _ := rfl
  length _ _ := rfl
  verifies _ _ := rfl
  proof := Postcard.transparentProof.read_encode
  commit := Postcard.commitProof.read_encode

def committingNode : CoreState :=
  booted .committing { CoreState.new 7 with proofs := .commit }

theorem local_evidence_sample :
    ∃ op t, applyLocal .committing sampleIdentity (.mkdir rootInode "a" 0) 5 committingNode =
        .ok op t ∧ op.proof.map ProofBundle.mode = some .zkCommit ∧
      verifyOp .committing op = .ok () ∧ (∀ policy, checkProof .committing op policy = .ok ()) ∧
      ∃ bundle, op.proof = some bundle ∧
        EvidenceOf .committing t op.id (.mkdir rootInode "a" 0) bundle := by
  have run : NodeRun .committing sampleIdentity OwnIds committingNode :=
    .boot ⟨rfl, rfl, rfl, rfl, rfl, rfl, rfl, rfl, rfl, rfl⟩ rfl rfl
  have facts : (committingNode.next_counter.val + 1 < 2 ^ 64 ∧
      committingNode.proofs.generates = true ∧
      (inodeMap (finalState (applyLocal .committing sampleIdentity (.mkdir rootInode "a" 0) 5
        committingNode))).length < 2 ^ 64) ∧
      (answer (applyLocal .committing sampleIdentity (.mkdir rootInode "a" 0) 5
        committingNode)).map (fun op => op.proof.map ProofBundle.mode) = some (some .zkCommit) := by
    decide +kernel
  obtain ⟨⟨room, generates, bounded⟩, mode⟩ := facts
  cases returned : applyLocal .committing sampleIdentity (.mkdir rootInode "a" 0) 5
      committingNode with
  | error e t =>
      rw [returned] at mode
      cases mode
  | ok op t =>
      rw [returned] at mode bounded
      obtain ⟨verified, checked, -, bundle, carried, evidence, -⟩ :=
        local_evidence committing_evidential run room generates returned bounded
      exact ⟨op, t, rfl, Option.some.inj mode, verified, checked, bundle, carried, evidence⟩

end Accepted

end NexusFS.Net
