/- GID: NexusFS/Net/Attribution
   source: crates/core/src/apply.rs, crates/core/src/ops.rs, crates/core/src/peers.rs,
     crates/net/src/session.rs
   digest: Whose operations a node stores and applies under the device ids it has pinned. -/

import NexusFS.Net.Node

set_option autoImplicit false
set_option relaxedAutoImplicit false

namespace NexusFS.Net

open NexusFS.Lib NexusFS.Lib.Effect NexusFS.Proto NexusFS.Core

section Call

variable {env : Env} {R : FsOp → Prop} {s : CoreState}

/-- `t` trusts the same keys, logs what `s` logs, and parks only operations with `R`. -/
structure Holding (R : FsOp → Prop) (peers : BTreeMap DeviceId Hash) (device : DeviceId)
    (log : BTreeMap OpId FsOp) (t : CoreState) : Prop where
  peers : t.peer_keys = peers
  device : t.device_id = device
  log : t.oplog = log
  parked : ∀ (id : OpId) op, t.pending[id]? = some op → R op

private theorem Holding.took {peers : BTreeMap DeviceId Hash} {device : DeviceId}
    {log : BTreeMap OpId FsOp} {op : FsOp} {t : CoreState} (holding : Holding R peers device log s)
    (took : Took env op s t) : Holding R peers device log t := by
  refine ⟨?_, ?_, took.oplog.trans holding.log, ?_⟩
  · obtain ⟨u, effect, blobs, imap, -, rfl⟩ := took
    obtain ⟨dirs, inodes, parents, stored, draws, -, rfl⟩ := effect.frame
    exact holding.peers
  · obtain ⟨u, effect, blobs, imap, -, rfl⟩ := took
    obtain ⟨dirs, inodes, parents, stored, draws, -, rfl⟩ := effect.frame
    exact holding.device
  · intro id other here
    rw [took.pending, BTreeMap.get_erase] at here
    split at here
    · cases here
    · exact holding.parked id other here

theorem holdingRule (env : Env) (R : FsOp → Prop) (peers : BTreeMap DeviceId Hash)
    (device : DeviceId) (log : BTreeMap OpId FsOp) :
    AttemptRule env (Holding R peers device log) R (fun _ _ => True)
      (fun _ => Holding R peers device log) where
  tried := by
    intro s op holding _ _ _
    have spec := attempt_spec env op s
    cases run : attempt env op s with
    | error e t =>
        rw [run] at spec
        rcases spec with ⟨rfl, -⟩ | ⟨took, -⟩
        · exact holding
        · exact holding.took took
    | ok outcome t =>
        rw [run] at spec
        cases outcome with
        | unmet reason =>
            obtain ⟨rfl, -⟩ := spec
            exact holding
        | done => exact holding.took spec
  cleared := by
    intro s op holding _ _
    refine ⟨holding.peers, holding.device, holding.log, fun id other here => ?_⟩
    have erased : (s.pending.erase op.id)[id]? = some other := here
    rw [BTreeMap.get_erase] at erased
    split at erased
    · cases erased
    · exact holding.parked id other erased
  parked := fun holding here => holding.parked _ _ here

private theorem holding_aside {peers : BTreeMap DeviceId Hash} {device : DeviceId}
    {log : BTreeMap OpId FsOp} {t : CoreState} (holding : Holding R peers device log s)
    (aside : Aside s t) : Holding R peers device log t := by
  obtain ⟨_, _, _, _, _, -, rfl⟩ := aside
  exact ⟨holding.peers, holding.device, holding.log, holding.parked⟩

/-- What a step stores and tries, given what was parked before it. -/
structure Vouched (R : FsOp → Prop) (s t : CoreState) (tried : List (CoreState × FsOp)) :
    Prop where
  peers : t.peer_keys = s.peer_keys
  device : t.device_id = s.device_id
  logged : ∀ (id : OpId) op, t.oplog[id]? = some op → s.oplog[id]? = some op ∨ R op
  parked : ∀ (id : OpId) op, t.pending[id]? = some op → R op
  tried : ∀ x ∈ tried, R x.2

private theorem vouched_idle (parked : ∀ (id : OpId) op, s.pending[id]? = some op → R op) :
    Vouched R s s [] :=
  ⟨rfl, rfl, fun _ _ here => .inl here, parked, by simp⟩

theorem vouched_applyOpInner {op : FsOp} {check_policy : Bool}
    (parked : ∀ (id : OpId) op, s.pending[id]? = some op → R op)
    (ready : Admits env op check_policy s → op.id ∉ s.applied → R op) :
    Vouched R s (finalState (applyOpInner env op check_policy s))
      (applyAttempts env op check_policy s) := by
  by_cases admits : Admits env op check_policy s
  · by_cases known : op.id ∈ s.applied
    · rw [applyOpInner_known admits known, applyAttempts_known known]
      exact vouched_idle parked
    · have own := ready admits known
      have rule := holdingRule env R s.peer_keys s.device_id (s.appendOp op).oplog
      have start : Holding R s.peer_keys s.device_id (s.appendOp op).oplog (s.appendOp op) :=
        ⟨rfl, rfl, rfl, parked⟩
      have park : ∀ {t : CoreState},
          Holding R s.peer_keys s.device_id (s.appendOp op).oplog t → op.id ∉ t.applied →
            Holding R s.peer_keys s.device_id (s.appendOp op).oplog (t.storePending op) := by
        intro t holding _
        refine ⟨holding.peers, holding.device, holding.log, fun id other here => ?_⟩
        have inserted : (t.pending.insert op.id op)[id]? = some other := here
        rw [BTreeMap.get_insert] at inserted
        split at inserted
        · exact Option.some.inj inserted ▸ own
        · exact holding.parked id other inserted
      have ends := rule.applyOpInner admits known start own park (fun _ _ => trivial)
      have traced := rule.applyAttempts_traced admits known start own park (fun _ _ => trivial)
      have final : Holding R s.peer_keys s.device_id (s.appendOp op).oplog
          (finalState (applyOpInner env op check_policy s)) := by
        refine Ends.finalState (ends.imp
          (q := Holding R s.peer_keys s.device_id (s.appendOp op).oplog) ?_ fun _ _ held => held)
        rintro t ⟨u, holding, aside⟩
        exact holding_aside holding aside
      refine ⟨final.peers, final.device, fun id other here => ?_, final.parked,
        fun x member => (traced x member).2⟩
      rw [final.log] at here
      have inserted : (s.oplog.insert op.id op)[id]? = some other := here
      rw [BTreeMap.get_insert] at inserted
      split at inserted
      · exact .inr (Option.some.inj inserted ▸ own)
      · exact .inl inserted
  · obtain ⟨e, run⟩ := applyOpInner_refused admits
    rw [run, applyAttempts_refused admits]
    exact vouched_idle parked

theorem vouched_retryPending (parked : ∀ (id : OpId) op, s.pending[id]? = some op → R op) :
    Vouched R s (finalState (retryPending env s)) (drainRetries env s) := by
  have rule := holdingRule env R s.peer_keys s.device_id s.oplog
  have start : Holding R s.peer_keys s.device_id s.oplog s := ⟨rfl, rfl, rfl, parked⟩
  have ends := rule.drainPending start (fun _ _ => trivial)
  have traced := rule.drainRetries_traced start (fun _ _ => trivial)
  have final : Holding R s.peer_keys s.device_id s.oplog (finalState (retryPending env s)) := by
    rw [retryPending_run]
    cases run : drainPending env s with
    | error e t =>
        rw [run] at ends
        exact ends
    | ok n t =>
        rw [run] at ends
        dsimp only [finalState_ok]
        split
        · exact holding_aside ends (aside_buildSnapshot env t)
        · exact ends
  exact ⟨final.peers, final.device, fun id op here => .inl (final.log ▸ here), final.parked,
    fun x member => (traced x member).2⟩

end Call

section Local

variable {env : Env} {identity : Identity} {s : CoreState}

def ownKey (env : Env) (identity : Identity) : Hash := env.ed25519Public identity.signing_key

/-- An operation the node signed under its own device id. -/
structure OwnOp (env : Env) (identity : Identity) (s : CoreState) (op : FsOp) : Prop where
  device : op.id.device_id = s.device_id
  author : op.author_pubkey = ownKey env identity
  sig : op.sig = env.ed25519Sign identity.signing_key (env.encodeOpToSign op.toSign)

/-- The operation `make_op` signs. -/
def authoredOp (env : Env) (identity : Identity) (kind : FsOpKind) (now : U64) (s : CoreState) :
    FsOp :=
  let unsigned_op : FsOp :=
    { id := ⟨s.device_id, s.next_counter + 1⟩
      time_unix_ms := now
      ctx := ⟨[]⟩
      kind := kind
      author_pubkey := ownKey env identity
      sig := []
      proof := none }
  { unsigned_op with
    sig := env.ed25519Sign identity.signing_key (env.encodeOpToSign unsigned_op.toSign) }

/-- The state after `make_op` took a counter. -/
def counted (s : CoreState) : CoreState := { s with next_counter := s.next_counter + 1 }

theorem makeOp_run (kind : FsOpKind) (now : U64) (s : CoreState) :
    makeOp env identity kind now s = .ok (authoredOp env identity kind now s) (counted s) := rfl

/-- Without a proof policy a local operation counts up, makes one own operation and calls `apply_op`
with it. -/
theorem applyLocal_unproven (env : Env) (identity : Identity) (kind : FsOpKind) (now : U64)
    (generates : s.proofs.generates = false) :
    finalState (applyLocal env identity kind now s) =
      finalState (applyOp env (authoredOp env identity kind now s) (counted s)) := by
  unfold applyLocal
  simp only [bind_run, get_run, generates, Bool.not_false, if_true, makeOp_run, applyOp]
  cases applyOpInner env (authoredOp env identity kind now s) true (counted s) with
  | error e t => rfl
  | ok outcome t => cases outcome <;> rfl

/-- A local operation counts up, makes one own operation and calls `apply_op` with it; with a proof
policy it then files a second own operation, which carries the evidence. -/
theorem applyLocal_final (env : Env) (identity : Identity) (kind : FsOpKind) (now : U64)
    (s : CoreState) :
    finalState (applyLocal env identity kind now s) =
        finalState (applyOpInner env (authoredOp env identity kind now s) (!s.proofs.generates)
          (counted s)) ∨
      ∃ proven, OwnOp env identity s proven ∧
        finalState (applyLocal env identity kind now s) =
          (finalState (applyOpInner env (authoredOp env identity kind now s)
            (!s.proofs.generates) (counted s))).appendOp proven := by
  cases generates : s.proofs.generates with
  | false => exact .inl (applyLocal_unproven env identity kind now generates)
  | true =>
      unfold applyLocal
      simp only [bind_run, get_run, generates, Bool.not_true, Bool.false_eq_true, if_false,
        makeOp_run, applyOpUnproven]
      cases applyOpInner env (authoredOp env identity kind now s) false (counted s) with
      | error e t => exact .inl rfl
      | ok outcome t =>
          cases outcome with
          | pending reason => exact .inl rfl
          | applied => exact .inr ⟨_, ⟨rfl, rfl, rfl⟩, rfl⟩
          | alreadyApplied => exact .inr ⟨_, ⟨rfl, rfl, rfl⟩, rfl⟩

end Local

section Attribution

variable {env : Env} {identity : Identity} {Signed : Hash → Bytes → Bytes → Prop}
  {s : CoreState}

/-- The operation carries the key pinned for its device, and the node's own key under its own
device id. -/
def Attributed (own : Hash) (s : CoreState) (op : FsOp) : Prop :=
  (∀ key, s.peer_keys[op.id.device_id]? = some key → op.author_pubkey = key) ∧
    (op.id.device_id = s.device_id → op.author_pubkey = own)

def Genuine (env : Env) (Signed : Hash → Bytes → Bytes → Prop) (op : FsOp) : Prop :=
  Signed op.author_pubkey (env.encodeOpToSign op.toSign) op.sig

def Act.attempts (env : Env) (identity : Identity) (s : CoreState) :
    Act → List (CoreState × FsOp)
  | .receive op => applyAttempts env op true s
  | .author kind now =>
      applyAttempts env (authoredOp env identity kind now s) (!s.proofs.generates) (counted s)
  | .retry => drainRetries env s
  | .content limits reply outcome =>
      match contentStored env limits reply ⟨s, outcome⟩ with
      | none => []
      | some stored => drainRetries env stored.core
  | _ => []

/-- The node expects `pubkey` of `device` from now on: its own device keeps its own key, and no
operation parked under the device has another one. -/
def PinsCleanly (own : Hash) (s : CoreState) (device : DeviceId) (pubkey : Hash) : Prop :=
  s.peer_keys[device]? ≠ some pubkey →
    (device = s.device_id → pubkey = own) ∧
      ∀ (id : OpId) op, s.pending[id]? = some op → op.id.device_id = device →
        op.author_pubkey = pubkey

/-- Received operations that pass the checks carry the key pinned for their device, and a key is
pinned only when nothing parked under its device contradicts it. -/
def NamesPinned (env : Env) (identity : Identity) (s : CoreState) : Act → Prop
  | .receive op => Admits env op true s → op.id ∉ s.applied →
      Attributed (ownKey env identity) s op
  | .hello _ device pubkey => PinsCleanly (ownKey env identity) s device pubkey
  | .enrol device pubkey _ _ => PinsCleanly (ownKey env identity) s device pubkey
  | _ => True

/-- What a step stores and applies is attributed: by the keys pinned before it, and by the holders
of those keys. -/
structure AttributedStep (env : Env) (identity : Identity)
    (Signed : Hash → Bytes → Bytes → Prop) (s : CoreState) (a : Act) : Prop where
  stored : ∀ (id : OpId) op, (a.run env identity s).oplog[id]? = some op →
    s.oplog[id]? = some op ∨ (Attributed (ownKey env identity) s op ∧ Genuine env Signed op)
  applied : ∀ x ∈ a.attempts env identity s,
    Attributed (ownKey env identity) s x.2 ∧ Genuine env Signed x.2

/-- The node is not pinned under a foreign key, and what it parks is attributed. -/
structure Trusting (env : Env) (identity : Identity) (Signed : Hash → Bytes → Bytes → Prop)
    (s : CoreState) : Prop where
  own : ∀ key, s.peer_keys[s.device_id]? = some key → key = ownKey env identity
  parked : ∀ (id : OpId) op, s.pending[id]? = some op →
    Attributed (ownKey env identity) s op ∧ Genuine env Signed op

private theorem attributed_congr {own : Hash} {t : CoreState} {op : FsOp}
    (peers : t.peer_keys = s.peer_keys) (device : t.device_id = s.device_id) :
    Attributed own t op ↔ Attributed own s op := by
  unfold Attributed
  rw [peers, device]

private theorem Trusting.vouched {t : CoreState} {tried : List (CoreState × FsOp)}
    (trusting : Trusting env identity Signed s)
    (vouched : Vouched (fun op => Attributed (ownKey env identity) s op ∧ Genuine env Signed op)
      s t tried) : Trusting env identity Signed t := by
  constructor
  · rw [vouched.peers, vouched.device]
    exact trusting.own
  · intro id op here
    rw [attributed_congr vouched.peers vouched.device]
    exact vouched.parked id op here

private theorem Trusting.congr {t : CoreState} (trusting : Trusting env identity Signed s)
    (peers : t.peer_keys = s.peer_keys) (device : t.device_id = s.device_id)
    (pending : t.pending = s.pending) : Trusting env identity Signed t := by
  constructor
  · rw [peers, device]
    exact trusting.own
  · intro id op here
    rw [pending] at here
    rw [attributed_congr peers device]
    exact trusting.parked id op here

private theorem Trusting.ownOp (trusting : Trusting env identity Signed s)
    (signs : ∀ secret bytes, Signed (env.ed25519Public secret) bytes (env.ed25519Sign secret bytes))
    {op : FsOp} (own : OwnOp env identity s op) :
    Attributed (ownKey env identity) s op ∧ Genuine env Signed op := by
  refine ⟨⟨fun key pinned => ?_, fun _ => own.author⟩, ?_⟩
  · rw [own.device] at pinned
    rw [own.author, trusting.own key pinned]
  · unfold Genuine
    rw [own.author, own.sig]
    exact signs _ _

private theorem genuine_of_admits
    (ideal : ∀ key bytes sig, env.ed25519Verify key bytes sig → Signed key bytes sig)
    {op : FsOp} {check_policy : Bool} (admits : Admits env op check_policy s) :
    Genuine env Signed op := by
  have verified := admits.1
  unfold verifyOp at verified
  split at verified
  · cases verified
  · split at verified
    · cases verified
    · split at verified
      · cases verified
      · split at verified
        · cases verified
        · rename_i accepted
          exact ideal _ _ _ (by simpa using accepted)

private theorem Trusting.quiet {a : Act} (trusting : Trusting env identity Signed s)
    (peers : (a.run env identity s).peer_keys = s.peer_keys)
    (device : (a.run env identity s).device_id = s.device_id)
    (oplog : (a.run env identity s).oplog = s.oplog)
    (pending : (a.run env identity s).pending = s.pending)
    (idle : a.attempts env identity s = []) :
    AttributedStep env identity Signed s a ∧ Trusting env identity Signed (a.run env identity s) := by
  refine ⟨⟨fun id op here => .inl (oplog ▸ here), ?_⟩, trusting.congr peers device pending⟩
  rw [idle]
  simp

private theorem Trusting.called {a : Act} (trusting : Trusting env identity Signed s)
    (vouched : Vouched (fun op => Attributed (ownKey env identity) s op ∧ Genuine env Signed op)
      s (a.run env identity s) (a.attempts env identity s)) :
    AttributedStep env identity Signed s a ∧ Trusting env identity Signed (a.run env identity s) :=
  ⟨⟨vouched.logged, vouched.tried⟩, trusting.vouched vouched⟩

private theorem Trusting.author (trusting : Trusting env identity Signed s)
    (signs : ∀ secret bytes, Signed (env.ed25519Public secret) bytes (env.ed25519Sign secret bytes))
    (kind : FsOpKind) (now : U64) :
    AttributedStep env identity Signed s (.author kind now) ∧
      Trusting env identity Signed ((Act.author kind now).run env identity s) := by
  have own : OwnOp env identity s (authoredOp env identity kind now s) := ⟨rfl, rfl, rfl⟩
  obtain ⟨peers, device, logged, parked, tried⟩ :=
    @vouched_applyOpInner env
      (fun op => Attributed (ownKey env identity) s op ∧ Genuine env Signed op) (counted s)
      (authoredOp env identity kind now s) (!s.proofs.generates) trusting.parked
      (fun _ _ => trusting.ownOp signs own)
  refine trusting.called ?_
  rcases applyLocal_final env identity kind now s with same | ⟨proven, signed, same⟩
  · have run : (Act.author kind now).run env identity s = _ := same
    rw [run]
    exact ⟨peers, device, logged, parked, tried⟩
  · have run : (Act.author kind now).run env identity s = _ := same
    rw [run]
    refine ⟨peers, device, fun id op here => ?_, parked, tried⟩
    have inserted : ((finalState (applyOpInner env (authoredOp env identity kind now s)
      (!s.proofs.generates) (counted s))).oplog.insert proven.id proven)[id]? = some op := here
    rw [BTreeMap.get_insert] at inserted
    split at inserted
    · exact .inr (Option.some.inj inserted ▸ trusting.ownOp signs signed)
    · exact logged id op inserted

private theorem Trusting.content (trusting : Trusting env identity Signed s) (limits : SyncLimits)
    (reply : Msg) (outcome : SyncOutcome) :
    AttributedStep env identity Signed s (.content limits reply outcome) ∧
      Trusting env identity Signed ((Act.content limits reply outcome).run env identity s) := by
  have run : (Act.content limits reply outcome).run env identity s = _ :=
    contentRound_core limits reply ⟨s, outcome⟩
  have attempts : (Act.content limits reply outcome).attempts env identity s =
      match contentStored env limits reply ⟨s, outcome⟩ with
      | none => []
      | some stored => drainRetries env stored.core := rfl
  refine trusting.called ?_
  rw [run, attempts]
  cases got : contentStored env limits reply ⟨s, outcome⟩ with
  | none => exact vouched_idle trusting.parked
  | some stored =>
      obtain ⟨kept, frame⟩ := (contentStored_fromWire got).frame
      have core : stored.core = { s with blobs := kept } := frame
      dsimp only
      rw [core]
      obtain ⟨peers, device, logged, parked, tried⟩ :=
        @vouched_retryPending env
          (fun op => Attributed (ownKey env identity) s op ∧ Genuine env Signed op)
          { s with blobs := kept } trusting.parked
      exact ⟨peers, device, logged, parked, tried⟩

private theorem Trusting.pinned {device : DeviceId} {pubkey : Hash} {t : CoreState}
    (trusting : Trusting env identity Signed s)
    (clean : PinsCleanly (ownKey env identity) s device pubkey) (pinned : Pinned device pubkey s t) :
    Trusting env identity Signed t := by
  have keys : ∀ other key, t.peer_keys[other]? = some key → s.peer_keys[other]? = some key ∨
      (other = device ∧ key = pubkey ∧ s.peer_keys[device]? ≠ some pubkey) := by
    intro other key here
    rcases pinned.keys other key here with old | ⟨rfl, rfl⟩
    · exact .inl old
    · by_cases already : s.peer_keys[other]? = some key
      · exact .inl already
      · exact .inr ⟨rfl, rfl, already⟩
  obtain ⟨peers, seals, kv, blob, rfl⟩ := pinned.frame
  constructor
  · intro key here
    rcases keys _ key here with old | ⟨same, rfl, new⟩
    · exact trusting.own key old
    · exact (clean new).1 same.symm
  · intro id op here
    obtain ⟨⟨named, own⟩, genuine⟩ := trusting.parked id op here
    refine ⟨⟨fun key there => ?_, own⟩, genuine⟩
    rcases keys _ key there with old | ⟨same, rfl, new⟩
    · exact named key old
    · exact (clean new).2 id op here same

theorem Trusting.act (trusting : Trusting env identity Signed s)
    (ideal : ∀ key bytes sig, env.ed25519Verify key bytes sig → Signed key bytes sig)
    (signs : ∀ secret bytes, Signed (env.ed25519Public secret) bytes (env.ed25519Sign secret bytes))
    (a : Act) (met : NamesPinned env identity s a) :
    AttributedStep env identity Signed s a ∧
      Trusting env identity Signed (a.run env identity s) := by
  cases a with
  | receive op =>
      refine trusting.called (vouched_applyOpInner trusting.parked ?_)
      exact fun admits new => ⟨met admits new, genuine_of_admits ideal admits⟩
  | author kind now => exact trusting.author signs kind now
  | store data =>
      obtain ⟨_, t, run, blobs, draws, -, rfl⟩ := storesOnly_storeContent env data s
      have same : (Act.store data).run env identity s = { s with blobs := blobs, draws := draws } :=
        congrArg finalState run
      refine trusting.quiet ?_ ?_ ?_ ?_ rfl <;> rw [same]
  | retry => exact trusting.called (vouched_retryPending trusting.parked)
  | snapshot =>
      obtain ⟨_, _, _, _, _, -, same⟩ := aside_buildSnapshot env s
      have run : Act.snapshot.run env identity s = _ := same
      refine trusting.quiet ?_ ?_ ?_ ?_ rfl <;> rw [run]
  | collect dry_run =>
      rcases collectGarbage_run env s dry_run with same | ⟨marked, keep, -, -, same⟩
      · have run : (Act.collect dry_run).run env identity s = s := same
        refine trusting.quiet ?_ ?_ ?_ ?_ rfl <;> rw [run]
      · have run : (Act.collect dry_run).run env identity s = (sweep s marked keep).flush := same
        refine trusting.quiet ?_ ?_ ?_ ?_ rfl <;> rw [run] <;> rfl
  | flush => exact trusting.quiet rfl rfl rfl rfl rfl
  | content limits reply outcome => exact trusting.content limits reply outcome
  | fetch reply stored outstanding =>
      obtain ⟨kept, same⟩ := (@fetchRound_fromWire env reply ⟨s, stored, outstanding⟩).frame
      have run : (Act.fetch reply stored outstanding).run env identity s = { s with blobs := kept } :=
        same
      refine trusting.quiet ?_ ?_ ?_ ?_ rfl <;> rw [run]
  | hello policy device pubkey =>
      have pinned := pinned_authorize policy device pubkey s
      obtain ⟨_, _, _, _, same⟩ := pinned.frame
      have run : (Act.hello policy device pubkey).run env identity s = _ := same
      refine ⟨⟨fun id op here => .inl ?_, by simp [Act.attempts]⟩, trusting.pinned met pinned⟩
      rw [run] at here
      exact here
  | enrol device pubkey seal_key allow_rotation =>
      have pinned := pinned_enrolPeer device pubkey seal_key allow_rotation s
      obtain ⟨_, _, _, _, same⟩ := pinned.frame
      have run : (Act.enrol device pubkey seal_key allow_rotation).run env identity s = _ := same
      refine ⟨⟨fun id op here => .inl ?_, by simp [Act.attempts]⟩, trusting.pinned met pinned⟩
      rw [run] at here
      exact here
  | revoke device =>
      obtain ⟨peers, seals, kv, blob, same, fewer⟩ := revokePeer_forgets device s
      have run : (Act.revoke device).run env identity s = _ := same
      refine ⟨⟨fun id op here => .inl ?_, by simp [Act.attempts]⟩, ?_, ?_⟩
      · rw [run] at here
        exact here
      · rw [run]
        exact fun key here => trusting.own key (fewer _ key here)
      · rw [run]
        intro id op here
        obtain ⟨⟨named, own⟩, genuine⟩ := trusting.parked id op here
        exact ⟨⟨fun key there => named key (fewer _ key there), own⟩, genuine⟩

private theorem trusting_booted (blank : Blank s) (strangers : s.peer_keys = ∅) :
    Trusting env identity Signed (booted env s) := by
  obtain ⟨_, _, _, _, _, _, _, -, same⟩ := (booted_spec env blank).records
  constructor
  · intro key here
    rw [same] at here
    have empty : s.peer_keys[s.device_id]? = some key := here
    rw [strangers, Std.ExtTreeMap.getElem?_empty] at empty
    cases empty
  · intro id op here
    rw [same] at here
    have empty : s.pending[id]? = some op := here
    rw [blank.pending, Std.ExtTreeMap.getElem?_empty] at empty
    cases empty

/-- Under ideal signatures, in every run whose received operations carry the keys pinned for their
devices: every operation that a step stores or applies carries the key pinned for its device at
that moment (the node's own key under its own device id) and was signed by that key's holder. -/
theorem operations_attributed
    (ideal : ∀ key bytes sig, env.ed25519Verify key bytes sig → Signed key bytes sig)
    (signs : ∀ secret bytes, Signed (env.ed25519Public secret) bytes (env.ed25519Sign secret bytes))
    (run : NodeRun env identity (NamesPinned env identity) s) {a : Act}
    (met : NamesPinned env identity s a) : AttributedStep env identity Signed s a := by
  have trusting : Trusting env identity Signed s := by
    clear met
    induction run with
    | boot blank _ strangers => exact trusting_booted blank strangers
    | step _ met ih => exact (ih.act ideal signs _ met).2
  exact (trusting.act ideal signs a met).1

end Attribution

section Forged

/-- A signature that only the holder of a key can make: it shows the key and a digest. -/
def signatureOf (key : Hash) (bytes : Bytes) : Bytes := be256 key ++ be256 (Lib.blake3 bytes)

/-- A world in which a signature verifies exactly when the holder of the key made it. -/
def signEnv : Env :=
  { Env.plain with
    ed25519Verify := fun key bytes sig => sig = signatureOf key bytes
    ed25519Sign := signatureOf
    ed25519Public := fun secret => secret
    encodeOpToSign := fun op =>
      be128 op.id.device_id ++ be64 op.id.counter ++ be256 op.author_pubkey }

def signedOp (key : Hash) : FsOp :=
  let unsigned_op : FsOp :=
    { sampleOp 1 (.mkdir rootInode "a" 0) with id := ⟨5, 1⟩, author_pubkey := key }
  { unsigned_op with sig := signatureOf key (signEnv.encodeOpToSign unsigned_op.toSign) }

def pinnedState : CoreState :=
  (Act.enrol 5 11 none false).run signEnv sampleIdentity (booted signEnv (CoreState.new 7))

private theorem namesPinned_enrol :
    NamesPinned signEnv sampleIdentity (booted signEnv (CoreState.new 7))
      (.enrol 5 11 none false) := by
  intro _
  have device : (booted signEnv (CoreState.new 7)).device_id = 7 := by decide +kernel
  have idle : (booted signEnv (CoreState.new 7)).pendingOps = [] := by decide +kernel
  refine ⟨fun same => ?_, fun id op here _ => ?_⟩
  · rw [device] at same
    exact absurd same (by decide)
  · have member := mem_pendingOps.mpr ⟨id, here⟩
    rw [idle] at member
    cases member

theorem operations_attributed_sample :
    AttributedStep signEnv sampleIdentity (fun key bytes sig => sig = signatureOf key bytes)
        pinnedState (.receive (signedOp 11)) ∧
      ((Act.receive (signedOp 11)).run signEnv sampleIdentity pinnedState).oplog[
        (⟨5, 1⟩ : OpId)]? = some (signedOp 11) := by
  have start : NodeRun signEnv sampleIdentity (NamesPinned signEnv sampleIdentity)
      (booted signEnv (CoreState.new 7)) := .boot (blank_new 7) rfl rfl
  have run : NodeRun signEnv sampleIdentity (NamesPinned signEnv sampleIdentity) pinnedState :=
    start.step namesPinned_enrol
  refine ⟨operations_attributed ?_ (fun _ _ => rfl) run ?_, by decide +kernel⟩
  · intro key bytes sig accepted
    simpa [signEnv] using accepted
  · intro _ _
    have pin : pinnedState.peer_keys[(5 : DeviceId)]? = some 11 := by decide +kernel
    have device : pinnedState.device_id = 7 := by decide +kernel
    refine ⟨fun key pinned => ?_, fun same => ?_⟩
    · exact Option.some.inj (pin.symm.trans pinned)
    · rw [device] at same
      exact absurd same (by decide)

/-- An operation under a pinned device id, signed with another key, is stored and applied: only its
own author key is checked. -/
theorem foreign_key_accepted_in_pinned_name :
    AnyRun signEnv sampleIdentity pinnedState ∧
      pinnedState.peer_keys[(5 : DeviceId)]? = some 11 ∧
      (⟨5, 1⟩ : OpId) ∉ pinnedState.oplog ∧
      ((Act.receive (signedOp 12)).run signEnv sampleIdentity pinnedState).oplog[
        (⟨5, 1⟩ : OpId)]? = some (signedOp 12) ∧
      (⟨5, 1⟩ : OpId) ∈ ((Act.receive (signedOp 12)).run signEnv sampleIdentity
        pinnedState).applied ∧
      (signedOp 12).id.device_id = 5 ∧ (signedOp 12).author_pubkey ≠ 11 := by
  refine ⟨.step (.boot (blank_new 7) rfl rfl) trivial, by decide +kernel, by decide +kernel,
    by decide +kernel, by decide +kernel, rfl, by decide⟩

end Forged

end NexusFS.Net
