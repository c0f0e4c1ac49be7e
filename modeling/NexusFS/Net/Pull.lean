/- GID: NexusFS/Net/Pull
   source: crates/net/src/session.rs, crates/proto/src/msg.rs
   digest: The loops of a pull and of an on-demand fetch, one round at a time. -/

import NexusFS.Core.Stock
import NexusFS.Lib.Rounds
import NexusFS.Net.Session

/-!
A round is what happens between two requests: the node asks, one message comes
back, and the node acts on it. The peer is any stream of messages. The handshake
that precedes the loops is in `NexusFS.Net.Trust`.
-/

set_option autoImplicit false
set_option relaxedAutoImplicit false

namespace NexusFS.Net

open NexusFS.Lib NexusFS.Lib.Effect NexusFS.Proto NexusFS.Core

/-- The messages a request can be answered with. Every other kind ends the session. -/
inductive Msg where
  | opsBatch (ops : List FsOp) (more : Bool)
  | blobsBatch (blobs : List (Hash × Bytes)) (more : Bool)
  | error (code : Nat) (message : String) (retry_after_ms : Option U64)
  | other

/-- Why a session failed. -/
inductive SessionError where
  | peerError (code : Nat) (message : String)
  | expectedOpsBatch
  | expectedBlobsBatch
  | tooManyOperations
  | core (reason : Err)

/-- How much a pass is allowed to transfer. -/
structure SyncLimits where
  content : Bool
  max_content_bytes : Nat

def SyncLimits.unlimited : SyncLimits := ⟨true, 2 ^ 64 - 1⟩

def SyncLimits.metadataOnly : SyncLimits := ⟨false, 0⟩

/-- What one pull achieved so far. -/
structure SyncOutcome where
  ops_received : Nat
  ops_applied : Nat
  blobs_received : Nat
  content_bytes : Nat
  content_deferred : Bool

/-- The node and the account of the running pull. -/
structure Session where
  core : CoreState
  outcome : SyncOutcome

def Session.start (s : CoreState) : Session := ⟨s, ⟨0, 0, 0, 0, false⟩⟩

abbrev SessionEnd := Except SessionError Unit × Session

section Operations

variable (env : Env)

def applyReceived (x : Session) (op : FsOp) : Session :=
  match applyOp env op x.core with
  | .ok .applied s => ⟨s, { x.outcome with ops_applied := x.outcome.ops_applied + 1 }⟩
  | .ok _ s => { x with core := s }
  | .error _ s => { x with core := s }

def opsRound (reply : Msg) (x : Session) : Round Session SessionEnd :=
  match reply with
  | .opsBatch ops more =>
      if ops.isEmpty && !more then .stop (.ok (), x)
      else
        let counted : Session :=
          { x with outcome :=
              { x.outcome with ops_received := x.outcome.ops_received + ops.length } }
        if maxOpsPerSession < counted.outcome.ops_received then
          .stop (.error .tooManyOperations, counted)
        else
          let applied := ops.foldl (applyReceived env) counted
          if !more then .stop (.ok (), applied)
          else if clockSummary applied.core = clockSummary x.core then .stop (.ok (), applied)
          else .again applied
  | .error code message _ => .stop (.error (.peerError code message), x)
  | _ => .stop (.error .expectedOpsBatch, x)

end Operations

section Content

variable (env : Env)

/-- Store one received blob, if it was asked for and its bytes have the hash it came under. -/
def storeReceived (wanted : BTreeSet Hash) (x : Session) (blob : Hash × Bytes) : Session :=
  if !wanted.contains blob.1 then x
  else if env.blake3 blob.2 ≠ blob.1 then x
  else
    { core := x.core.putBlob blob.1 blob.2
      outcome :=
        { x.outcome with
          content_bytes := x.outcome.content_bytes + blob.2.length
          blobs_received := x.outcome.blobs_received + 1 } }

def contentRound (limits : SyncLimits) (reply : Msg) (x : Session) : Round Session SessionEnd :=
  let wanted := missingChunkHashes x.core
  let deferred : Session := { x with outcome := { x.outcome with content_deferred := true } }
  if wanted.isEmpty then .stop (.ok (), x)
  else if !limits.content then .stop (.ok (), deferred)
  else if limits.max_content_bytes ≤ x.outcome.content_bytes then .stop (.ok (), deferred)
  else
    match reply with
    | .blobsBatch blobs more =>
        if blobs.isEmpty then .stop (.ok (), x)
        else
          let stored := blobs.foldl (storeReceived env wanted) x
          match retryPending env stored.core with
          | .error e s => .stop (.error (.core e), { stored with core := s })
          | .ok n s =>
              let retried : Session :=
                ⟨s, { stored.outcome with ops_applied := stored.outcome.ops_applied + n }⟩
              if !more then .stop (.ok (), retried)
              else if stored.outcome.blobs_received = x.outcome.blobs_received then
                .stop (.ok (), retried)
              else .again retried
    | .error code message _ => .stop (.error (.peerError code message), x)
    | _ => .stop (.error .expectedBlobsBatch, x)

/-- A running on-demand fetch. -/
structure Fetch where
  core : CoreState
  stored : Nat
  outstanding : List Hash

def storeFetched (x : Fetch) (blob : Hash × Bytes) : Fetch :=
  if !x.outstanding.contains blob.1 then x
  else if env.blake3 blob.2 ≠ blob.1 then x
  else
    { core := x.core.putBlob blob.1 blob.2
      stored := x.stored + 1
      outstanding := x.outstanding.filter fun hash => hash ≠ blob.1 }

/-- One round of `fetch_chunks`. -/
def fetchRound (reply : Msg) (x : Fetch) : Round Fetch (Except SessionError Unit × Fetch) :=
  if x.outstanding.isEmpty then .stop (.ok (), x)
  else
    match reply with
    | .blobsBatch blobs more =>
        let fetched := blobs.foldl (storeFetched env) x
        if fetched.stored = x.stored then .stop (.ok (), fetched)
        else if !more then .stop (.ok (), fetched)
        else .again fetched
    | .error code message _ => .stop (.error (.peerError code message), x)
    | _ => .stop (.error .expectedBlobsBatch, x)

end Content

section Operations

variable {env : Env}

private theorem applyReceived_received (x : Session) (op : FsOp) :
    (applyReceived env x op).outcome.ops_received = x.outcome.ops_received := by
  unfold applyReceived
  split <;> rfl

private theorem foldl_applyReceived_received (ops : List FsOp) (x : Session) :
    (ops.foldl (applyReceived env) x).outcome.ops_received = x.outcome.ops_received := by
  induction ops generalizing x with
  | nil => rfl
  | cons op ops ih => rw [List.foldl_cons, ih, applyReceived_received]

private theorem applyReceived_core (x : Session) (op : FsOp) :
    (applyReceived env x op).core = finalState (applyOp env op x.core) := by
  unfold applyReceived
  split <;> rename_i run <;> rw [run] <;> rfl

theorem foldl_applyReceived_core (ops : List FsOp) (x : Session) :
    (ops.foldl (applyReceived env) x).core = applyBatch env x.core ops := by
  induction ops generalizing x with
  | nil => rfl
  | cons op ops ih => rw [List.foldl_cons, ih, applyReceived_core]; rfl

def opsBudget (x : Session) : Nat := maxOpsPerSession - x.outcome.ops_received

theorem opsRound_shrinks (env : Env) : Shrinks (opsRound env) opsBudget := by
  intro reply x next run
  unfold opsRound at run
  cases reply with
  | opsBatch ops more =>
      dsimp only at run
      split at run
      · cases run
      · split at run
        · cases run
        · rename_i within
          split at run
          · cases run
          · split at run
            · cases run
            · rename_i moved
              obtain rfl := Round.again.inj run
              have filled : ops ≠ [] := by
                rintro rfl
                exact moved rfl
              have positive := List.length_pos_iff.mpr filled
              unfold opsBudget
              rw [foldl_applyReceived_received]
              dsimp only at within ⊢
              omega
  | blobsBatch blobs more => cases run
  | error code message retry => cases run
  | other => cases run

def roundCore : Round Session SessionEnd → CoreState
  | .again x => x.core
  | .stop ended => ended.2.core

/-- A round of the operation phase does nothing but deliver operations of the reply. -/
theorem opsRound_core (reply : Msg) (x : Session) :
    ∃ ops, roundCore (opsRound env reply x) = applyBatch env x.core ops := by
  unfold opsRound
  cases reply with
  | blobsBatch blobs more => exact ⟨[], rfl⟩
  | error code message retry => exact ⟨[], rfl⟩
  | other => exact ⟨[], rfl⟩
  | opsBatch ops more =>
      dsimp only
      split
      · exact ⟨[], rfl⟩
      · split
        · exact ⟨[], rfl⟩
        · refine ⟨ops, ?_⟩
          split
          · exact foldl_applyReceived_core ops _
          · split
            · exact foldl_applyReceived_core ops _
            · exact foldl_applyReceived_core ops _

end Operations

section Wire

variable {env : Env} {asked : Hash → Prop} {s t u : CoreState}

/-- `t` is `s` with content that came over the wire: no blob is gone, and every new one was asked
for and has the hash it is kept under. -/
structure FromWire (env : Env) (asked : Hash → Prop) (s t : CoreState) : Prop where
  frame : ∃ kept, t = { s with blobs := kept }
  grows : ∀ hash, s.hasBlob hash → t.hasBlob hash
  new : ∀ (hash : Hash) bytes, t.blobs[hash]? = some bytes →
    s.blobs[hash]? = some bytes ∨ (asked hash ∧ env.blake3 bytes = hash)

theorem FromWire.refl (s : CoreState) : FromWire env asked s s :=
  ⟨⟨s.blobs, rfl⟩, fun _ here => here, fun _ _ here => .inl here⟩

theorem FromWire.trans (first : FromWire env asked s t) (second : FromWire env asked t u) :
    FromWire env asked s u := by
  obtain ⟨kept, rfl⟩ := first.frame
  obtain ⟨kept', rfl⟩ := second.frame
  refine ⟨⟨kept', rfl⟩, fun hash here => second.grows hash (first.grows hash here), ?_⟩
  intro hash bytes here
  rcases second.new hash bytes here with old | new
  · exact first.new hash bytes old
  · exact .inr new

theorem FromWire.imp {wider : Hash → Prop} (wire : FromWire env asked s t)
    (more : ∀ hash, asked hash → wider hash) : FromWire env wider s t :=
  ⟨wire.frame, wire.grows,
    fun hash bytes here => (wire.new hash bytes here).imp_right fun new => ⟨more hash new.1, new.2⟩⟩

theorem hasBlob_putBlob (s : CoreState) (hash other : Hash) (bytes : Bytes) :
    (s.putBlob hash bytes).hasBlob other ↔ hash = other ∨ s.hasBlob other := by
  show (s.blobs.insert hash bytes).contains other ↔ _
  rw [Std.ExtTreeMap.contains_insert]
  simp [CoreState.hasBlob]

theorem fromWire_putBlob {hash : Hash} {bytes : Bytes} (wanted : asked hash)
    (sound : env.blake3 bytes = hash) : FromWire env asked s (s.putBlob hash bytes) := by
  refine ⟨⟨_, rfl⟩, fun other here => (hasBlob_putBlob s hash other bytes).mpr (.inr here), ?_⟩
  intro other found here
  have inserted : (s.blobs.insert hash bytes)[other]? = some found := here
  rw [BTreeMap.get_insert] at inserted
  split at inserted
  · rename_i same
    obtain rfl := Option.some.inj inserted
    subst same
    exact .inr ⟨wanted, sound⟩
  · exact .inl inserted

end Wire

section Content

variable {env : Env} {wanted : BTreeSet Hash}

/-- A received blob is dropped, or stored because it was asked for and has its hash. -/
private theorem storeReceived_cases (wanted : BTreeSet Hash) (x : Session) (blob : Hash × Bytes) :
    storeReceived env wanted x blob = x ∨
      (blob.1 ∈ wanted ∧ env.blake3 blob.2 = blob.1 ∧
        (storeReceived env wanted x blob).core = x.core.putBlob blob.1 blob.2 ∧
        (storeReceived env wanted x blob).outcome.blobs_received =
          x.outcome.blobs_received + 1) := by
  unfold storeReceived
  split
  · exact .inl rfl
  · rename_i asked
    split
    · exact .inl rfl
    · rename_i sound
      exact .inr ⟨by simpa using asked, by simpa using sound, rfl, rfl⟩

theorem foldl_storeReceived (blobs : List (Hash × Bytes)) (x : Session) :
    FromWire env (· ∈ wanted) x.core (blobs.foldl (storeReceived env wanted) x).core ∧
      x.outcome.blobs_received ≤
        (blobs.foldl (storeReceived env wanted) x).outcome.blobs_received ∧
      ((blobs.foldl (storeReceived env wanted) x).outcome.blobs_received ≠
        x.outcome.blobs_received →
          ∃ hash ∈ wanted, (blobs.foldl (storeReceived env wanted) x).core.hasBlob hash) := by
  induction blobs generalizing x with
  | nil => exact ⟨.refl _, le_rfl, fun changed => absurd rfl changed⟩
  | cons blob blobs ih =>
      rw [List.foldl_cons]
      obtain ⟨wire, count, progress⟩ := ih (storeReceived env wanted x blob)
      rcases storeReceived_cases wanted x blob with same | ⟨asked, sound, core, one⟩
      · rw [same] at wire count progress ⊢
        exact ⟨wire, count, progress⟩
      · rw [core] at wire
        refine ⟨(fromWire_putBlob asked sound).trans wire, by omega, fun _ => ?_⟩
        exact ⟨blob.1, asked, wire.grows _ ((hasBlob_putBlob _ _ _ _).mpr (.inl rfl))⟩

/-- The session once a round of the content phase has stored what it received, when the round gets
that far. -/
def contentStored (env : Env) (limits : SyncLimits) (reply : Msg) (x : Session) : Option Session :=
  let wanted := missingChunkHashes x.core
  if wanted.isEmpty then none
  else if !limits.content then none
  else if limits.max_content_bytes ≤ x.outcome.content_bytes then none
  else
    match reply with
    | .blobsBatch blobs _ =>
        if blobs.isEmpty then none else some (blobs.foldl (storeReceived env wanted) x)
    | _ => none

theorem contentRound_core (limits : SyncLimits) (reply : Msg) (x : Session) :
    roundCore (contentRound env limits reply x) =
      match contentStored env limits reply x with
      | none => x.core
      | some stored => finalState (retryPending env stored.core) := by
  unfold contentRound contentStored
  dsimp only
  split
  · rfl
  · split
    · rfl
    · split
      · rfl
      · cases reply with
        | opsBatch ops more => rfl
        | error code message retry => rfl
        | other => rfl
        | blobsBatch blobs more =>
            dsimp only
            split
            · rfl
            · cases run : retryPending env
                (blobs.foldl (storeReceived env (missingChunkHashes x.core)) x).core with
              | error e s =>
                  dsimp only
                  rw [run]
                  rfl
              | ok n s =>
                  dsimp only
                  rw [run]
                  split
                  · rfl
                  · split <;> rfl

theorem contentStored_fromWire {limits : SyncLimits} {reply : Msg} {x stored : Session}
    (got : contentStored env limits reply x = some stored) :
    FromWire env (· ∈ missingChunkHashes x.core) x.core stored.core := by
  unfold contentStored at got
  dsimp only at got
  split at got
  · cases got
  · split at got
    · cases got
    · split at got
      · cases got
      · cases reply with
        | opsBatch ops more => cases got
        | error code message retry => cases got
        | other => cases got
        | blobsBatch blobs more =>
            dsimp only at got
            split at got
            · cases got
            · obtain rfl := Option.some.inj got
              exact (foldl_storeReceived blobs x).1

def missingContent (x : Session) : Nat := (missingChunkHashes x.core).size

theorem contentRound_shrinks (env : Env) (limits : SyncLimits) :
    Shrinks (contentRound env limits) missingContent := by
  intro reply x next run
  unfold contentRound at run
  dsimp only at run
  split at run
  · cases run
  · split at run
    · cases run
    · split at run
      · cases run
      · cases reply with
        | opsBatch ops more => cases run
        | error code message retry => cases run
        | other => cases run
        | blobsBatch blobs more =>
            dsimp only at run
            split at run
            · cases run
            · obtain ⟨wire, -, progress⟩ :=
                @foldl_storeReceived env (missingChunkHashes x.core) blobs x
              have settles := settles_retryPending env
                (blobs.foldl (storeReceived env (missingChunkHashes x.core)) x).core
              split at run
              · cases run
              · rename_i n s retried
                rw [retried] at settles
                split at run
                · cases run
                · split at run
                  · cases run
                  · rename_i counted
                    obtain rfl := Round.again.inj run
                    obtain ⟨hash, lacked, held⟩ := progress counted
                    have first : Core.Settles x.core
                        (blobs.foldl (storeReceived env (missingChunkHashes x.core)) x).core := by
                      obtain ⟨kept, frame⟩ := wire.frame
                      exact ⟨fun here => by rw [frame] at here; exact here, wire.grows⟩
                    refine BTreeSet.size_lt_of_subset
                      (fun other here => (first.trans settles).missing here) lacked ?_
                    intro still
                    exact (mem_missingChunkHashes.mp still).2 (settles.2 hash held)

theorem storeFetched_cases (x : Fetch) (blob : Hash × Bytes) :
    storeFetched env x blob = x ∨
      (blob.1 ∈ x.outstanding ∧ env.blake3 blob.2 = blob.1 ∧
        (storeFetched env x blob).core = x.core.putBlob blob.1 blob.2 ∧
        (storeFetched env x blob).outstanding = x.outstanding.filter (fun hash => hash ≠ blob.1) ∧
        (storeFetched env x blob).stored = x.stored + 1) := by
  unfold storeFetched
  split
  · exact .inl rfl
  · rename_i asked
    split
    · exact .inl rfl
    · rename_i sound
      exact .inr ⟨by simpa using asked, by simpa using sound, rfl, rfl, rfl⟩

theorem foldl_storeFetched (blobs : List (Hash × Bytes)) (x : Fetch) :
    FromWire env (· ∈ x.outstanding) x.core (blobs.foldl (storeFetched env) x).core ∧
      (blobs.foldl (storeFetched env) x).outstanding.Sublist x.outstanding ∧
      x.stored ≤ (blobs.foldl (storeFetched env) x).stored ∧
      ((blobs.foldl (storeFetched env) x).stored ≠ x.stored →
        (blobs.foldl (storeFetched env) x).outstanding.length < x.outstanding.length) := by
  induction blobs generalizing x with
  | nil => exact ⟨.refl _, .refl _, le_rfl, fun changed => absurd rfl changed⟩
  | cons blob blobs ih =>
      rw [List.foldl_cons]
      obtain ⟨wire, shorter, count, progress⟩ := ih (storeFetched env x blob)
      rcases storeFetched_cases x blob with same | ⟨asked, sound, core, list, one⟩
      · rw [same] at wire shorter count progress ⊢
        exact ⟨wire, shorter, count, progress⟩
      · rw [core, list] at wire
        rw [list] at shorter
        have struck : (x.outstanding.filter fun hash => hash ≠ blob.1).length <
            x.outstanding.length :=
          List.length_filter_lt_length_iff_exists.mpr ⟨blob.1, asked, by simp⟩
        refine ⟨(fromWire_putBlob asked sound).trans
          (wire.imp fun hash listed => (List.mem_filter.mp listed).1),
          shorter.trans List.filter_sublist, by omega, fun _ => ?_⟩
        exact lt_of_le_of_lt shorter.length_le struck

def fetchCore : Round Fetch (Except SessionError Unit × Fetch) → CoreState
  | .again x => x.core
  | .stop ended => ended.2.core

theorem fetchRound_fromWire (reply : Msg) (x : Fetch) :
    FromWire env (· ∈ x.outstanding) x.core (fetchCore (fetchRound env reply x)) := by
  unfold fetchRound
  split
  · exact .refl _
  · cases reply with
    | opsBatch ops more => exact .refl _
    | error code message retry => exact .refl _
    | other => exact .refl _
    | blobsBatch blobs more =>
        have stored := (@foldl_storeFetched env blobs x).1
        dsimp only
        split
        · exact stored
        · split
          · exact stored
          · exact stored

theorem fetchRound_shrinks (env : Env) :
    Shrinks (fetchRound env) fun x => x.outstanding.length := by
  intro reply x next run
  unfold fetchRound at run
  split at run
  · cases run
  · cases reply with
    | opsBatch ops more => cases run
    | error code message retry => cases run
    | other => cases run
    | blobsBatch blobs more =>
        dsimp only at run
        obtain ⟨-, -, -, progress⟩ := @foldl_storeFetched env blobs x
        split at run
        · cases run
        · rename_i counted
          split at run
          · cases run
          · obtain rfl := Round.again.inj run
            exact progress counted

end Content

/-- Against any stream of replies, each loop of a session has a measure that every round but the
last decreases, and so ends: the operation phase within the session's operation limit, the content
phase within the number of missing chunks, a fetch within the number of chunks asked for. -/
theorem sessions_end (env : Env) (limits : SyncLimits) :
    (Shrinks (opsRound env) opsBudget ∧ ∀ replies x, ∃ ended : SessionEnd,
      rounds (opsRound env) (maxOpsPerSession + 1) replies x = some ended) ∧
    (Shrinks (contentRound env limits) missingContent ∧ ∀ replies x, ∃ ended : SessionEnd,
      rounds (contentRound env limits) (missingContent x + 1) replies x = some ended) ∧
    (Shrinks (fetchRound env) (fun x => x.outstanding.length) ∧ ∀ replies x, ∃ ended,
      rounds (fetchRound env) (x.outstanding.length + 1) replies x = some ended) := by
  refine ⟨⟨opsRound_shrinks env, fun replies x => ?_⟩,
    ⟨contentRound_shrinks env limits, fun replies x => ?_⟩,
    ⟨fetchRound_shrinks env, fun replies x => ?_⟩⟩
  · exact (opsRound_shrinks env).rounds_end replies x
      (Nat.lt_succ_of_le (Nat.sub_le maxOpsPerSession x.outcome.ops_received))
  · exact (contentRound_shrinks env limits).rounds_end replies x (Nat.lt_succ_self _)
  · exact (fetchRound_shrinks env).rounds_end replies x (Nat.lt_succ_self _)

end NexusFS.Net
