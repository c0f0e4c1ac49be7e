/- GID: NexusFS/Net/OnDemand
   source: crates/net/src/peers.rs, crates/net/src/session.rs, crates/core/src/apply.rs
   digest: A fetch from the configured peers brings in what one of them holds, whatever the others do. -/

import NexusFS.Core.Recipients
import NexusFS.Net.Fetching
import NexusFS.Net.Frames

/-!
The peers are asked in turn. One of them may be no address, out of reach, refused, dishonest or too
slow; a session that is cut off keeps the content of the rounds before.
-/

set_option autoImplicit false
set_option relaxedAutoImplicit false

namespace NexusFS.Net

open NexusFS.Lib NexusFS.Lib.Effect NexusFS.Proto NexusFS.Core CoreState

/-- `missing_chunk_subset`. -/
def missingChunkSubset (s : CoreState) (hashes : List Hash) : List Hash :=
  hashes.filter fun hash => !s.hasBlob hash

def Msg.ofWire : WireMsg → Msg
  | .opsBatch ops more => .opsBatch ops more
  | .blobsBatch blobs more => .blobsBatch blobs more
  | .error code message retry_after_ms => .error code.val message retry_after_ms
  | _ => .other

/-- How one configured peer meets an on-demand fetch: its text is no address; it cannot be reached;
or it replies to the Hello and answers the requests, to the end of the exchange or until the timeout
cuts it off after a number of rounds. -/
inductive Visit where
  | unparseable
  | unreachable
  | session (nonce : Hash) (ack : WireMsg) (answer : Nat → List Hash → Msg) (cut : Option Nat)

section Visits

variable (env : Env) (ctx : SessionCtx)

def fetchReplies (answer : Nat → List Hash → Msg) (x : Fetch) : Nat → Msg :=
  answered (fetchRound env) (fun n y => answer n y.outstanding) x

/-- The exchange of `fetch_chunks` after its handshake: what it counted, unless it failed or was cut
off, and the state it leaves. -/
def fetchSession (answer : Nat → List Hash → Msg) (cut : Option Nat) (outstanding : List Hash)
    (s : CoreState) : Option Nat × CoreState :=
  let x : Fetch := ⟨s, 0, outstanding⟩
  let whole := fetchChunks env outstanding (fetchReplies env answer x) s
  match cut with
  | none => (whole.1.toOption, whole.2)
  | some n =>
      let reached := stateAt (fetchRound env) (fun i y => answer i y.outstanding) n x
      -- Once the loop has ended, only the farewell is left to be cut off.
      if (rounds (fetchRound env) n (fetchReplies env answer x) x).isSome ||
          reached.outstanding.isEmpty then (none, whole.2)
      else (none, reached.core)

/-- One attempt of `fetch_from_peers`. -/
def visit (outstanding : List Hash) (s : CoreState) : Visit → Option Nat × CoreState
  | .unparseable => (none, s)
  | .unreachable => (none, s)
  | .session nonce ack answer cut =>
      let greeted := concludeHandshake env ctx nonce ack s
      match greeted.result with
      | .error _ => (none, greeted.core)
      | .ok _ => fetchSession env answer cut outstanding greeted.core

/-- `fetch_from_peers`, from what it counted so far. -/
def fetchFromPeers (wanted : List Hash) : List Visit → Nat → CoreState → Nat × CoreState
  | [], stored, s => (stored, s)
  | .unparseable :: rest, stored, s => fetchFromPeers wanted rest stored s
  | peer :: rest, stored, s =>
      let outstanding := missingChunkSubset s wanted
      if outstanding.isEmpty then (stored, s)
      else
        let tried := visit env ctx outstanding s peer
        fetchFromPeers wanted rest (stored + tried.1.getD 0) tried.2

def peerContentFetcher (visits : Nat → List Visit) : ContentFetcher where
  fetch asked hashes := fun s =>
    let fetched := fetchFromPeers env ctx hashes (visits asked) 0 s
    .ok fetched.1 fetched.2

end Visits

section Struck

variable {env : Env} {x y z : Fetch}

/-- What a fetch struck off its list it stored, and it counted no more than it struck off. -/
structure Struck (x y : Fetch) : Prop where
  list : ∃ struck : List Hash,
    y.outstanding = x.outstanding.filter (fun hash => !struck.contains hash) ∧
      ∀ hash ∈ struck, y.core.hasBlob hash
  grows : ∀ hash, x.core.hasBlob hash → y.core.hasBlob hash
  count : y.stored + y.outstanding.length ≤ x.stored + x.outstanding.length
  keys : y.core.peer_keys = x.core.peer_keys

theorem Struck.refl (x : Fetch) : Struck x x :=
  ⟨⟨[], by simp, fun _ inside => absurd inside List.not_mem_nil⟩, fun _ here => here, le_rfl, rfl⟩

theorem Struck.trans (first : Struck x y) (second : Struck y z) : Struck x z := by
  obtain ⟨early, list, held⟩ := first.list
  obtain ⟨late, list', held'⟩ := second.list
  refine ⟨⟨early ++ late, ?_, ?_⟩, fun hash here => second.grows hash (first.grows hash here),
    second.count.trans first.count, second.keys.trans first.keys⟩
  · rw [list', list, List.filter_filter]
    refine List.filter_congr fun hash _ => ?_
    simp [Bool.and_comm]
  · intro hash inside
    rcases List.mem_append.mp inside with before | after
    · exact second.grows hash (held hash before)
    · exact held' hash after

theorem Struck.held (struck : Struck x y) {hash : Hash} (asked : hash ∈ x.outstanding) :
    hash ∈ y.outstanding ∨ y.core.hasBlob hash := by
  obtain ⟨off, list, held⟩ := struck.list
  by_cases inside : hash ∈ off
  · exact .inr (held hash inside)
  · exact .inl (list ▸ List.mem_filter.mpr ⟨asked, by simpa using inside⟩)

theorem Struck.missing (struck : Struck x y) {t : CoreState}
    (grows : ∀ hash, y.core.hasBlob hash → t.hasBlob hash) :
    y.stored + (missingChunkSubset t x.outstanding).length ≤ x.stored + x.outstanding.length := by
  obtain ⟨off, list, held⟩ := struck.list
  have fewer : (missingChunkSubset t x.outstanding).length ≤ y.outstanding.length := by
    rw [list]
    refine (List.monotone_filter_right x.outstanding fun hash lacking => ?_).length_le
    have absent : ¬t.hasBlob hash := by simpa using lacking
    have kept : hash ∉ off := fun inside => absent (grows hash (held hash inside))
    simpa using kept
  exact (Nat.add_le_add_left fewer _).trans struck.count

theorem struck_storeFetched (x : Fetch) (blob : Hash × Bytes) :
    Struck x (storeFetched env x blob) := by
  rcases @storeFetched_cases env x blob with same | ⟨asked, -, core, list, one⟩
  · rw [same]
    exact .refl x
  · refine ⟨⟨[blob.1], ?_, ?_⟩, ?_, ?_, ?_⟩
    · rw [list]
      refine List.filter_congr fun hash _ => ?_
      simp
    · intro hash inside
      rw [core, hasBlob_putBlob]
      exact .inl (List.mem_singleton.mp inside).symm
    · intro hash here
      rw [core, hasBlob_putBlob]
      exact .inr here
    · have shorter : (x.outstanding.filter fun hash => hash ≠ blob.1).length <
          x.outstanding.length :=
        List.length_filter_lt_length_iff_exists.mpr ⟨blob.1, asked, by simp⟩
      rw [list, one]
      omega
    · rw [core]
      rfl

theorem struck_foldl (blobs : List (Hash × Bytes)) (x : Fetch) :
    Struck x (blobs.foldl (storeFetched env) x) := by
  induction blobs generalizing x with
  | nil => exact .refl x
  | cons blob blobs ih => exact (struck_storeFetched x blob).trans (ih _)

theorem fetchRound_cases (reply : Msg) (x : Fetch) :
    (∃ result, fetchRound env reply x = .stop (result, x)) ∨
      ∃ blobs : List (Hash × Bytes),
        fetchRound env reply x = .stop (.ok (), blobs.foldl (storeFetched env) x) ∨
        fetchRound env reply x = .again (blobs.foldl (storeFetched env) x) := by
  unfold fetchRound
  split
  · exact .inl ⟨_, rfl⟩
  · cases reply with
    | blobsBatch blobs more =>
        refine .inr ⟨blobs, ?_⟩
        dsimp only
        split
        · exact .inl rfl
        · split
          · exact .inl rfl
          · exact .inr rfl
    | _ => exact .inl ⟨_, rfl⟩

theorem struck_again {reply : Msg} {next : Fetch} (run : fetchRound env reply x = .again next) :
    Struck x next := by
  rcases @fetchRound_cases env reply x with ⟨result, same⟩ | ⟨blobs, same | same⟩
  · cases same.symm.trans run
  · cases same.symm.trans run
  · obtain rfl := Round.again.inj (same.symm.trans run)
    exact struck_foldl blobs x

theorem struck_stop {reply : Msg} {ended : Except SessionError Unit × Fetch}
    (run : fetchRound env reply x = .stop ended) : Struck x ended.2 := by
  rcases @fetchRound_cases env reply x with ⟨result, same⟩ | ⟨blobs, same | same⟩
  · obtain rfl := Round.stop.inj (same.symm.trans run)
    exact .refl x
  · obtain rfl := Round.stop.inj (same.symm.trans run)
    exact struck_foldl blobs x
  · cases same.symm.trans run

theorem struck_rounds {n : Nat} {replies : Nat → Msg} {ended : Except SessionError Unit × Fetch}
    (run : rounds (fetchRound env) n replies x = some ended) : Struck x ended.2 :=
  @rounds_induction _ _ _ (fetchRound env) (Struck x) (fun last => Struck x last.2) n replies x ended
    (.refl x) (fun _ _ _ before again => before.trans (struck_again again))
    (fun _ _ _ before stop => before.trans (struck_stop stop)) run

theorem struck_stateAt (answer : Nat → Fetch → Msg) (n : Nat) (x : Fetch) :
    Struck x (stateAt (fetchRound env) answer n x) :=
  @stateAt_induction _ _ _ (fetchRound env) answer (Struck x) n x (.refl x)
    fun _ _ _ before again => before.trans (struck_again again)

end Struck

section Onward

variable {env : Env} {s t u : CoreState}

/-- What every visit to a peer leaves of a node: the content it held, the keys it pinned, and a state
that its steps reach. -/
structure Onward (env : Env) (s t : CoreState) : Prop where
  grows : ∀ hash, s.hasBlob hash → t.hasBlob hash
  pins : ∀ (device : DeviceId) key, s.peer_keys[device]? = some key → t.peer_keys[device]? = some key
  runs : ∀ identity, AnyRun env identity s → AnyRun env identity t

theorem Onward.refl (s : CoreState) : Onward env s s :=
  ⟨fun _ here => here, fun _ _ here => here, fun _ run => run⟩

theorem Onward.trans (first : Onward env s t) (second : Onward env t u) : Onward env s u :=
  ⟨fun hash here => second.grows hash (first.grows hash here),
    fun device key here => second.pins device key (first.pins device key here),
    fun identity run => second.runs identity (first.runs identity run)⟩

theorem onward_greeted (ctx : SessionCtx) (nonce : Hash) (reply : WireMsg) (s : CoreState) :
    Onward env s (concludeHandshake env ctx nonce reply s).core := by
  have admitted : ∀ device pubkey, Onward env s (finalState (authorize ctx.trust device pubkey s)) := by
    intro device pubkey
    refine ⟨fun hash here => ?_, fun _ _ pinned => authorize_keeps ctx.trust device pubkey pinned,
      fun _ run => run.step (a := .hello ctx.trust device pubkey) trivial⟩
    obtain ⟨_, _, _, _, same⟩ := (pinned_authorize ctx.trust device pubkey s).frame
    rw [same]
    exact here
  unfold concludeHandshake
  split
  · exact .refl s
  · cases verifyHelloAck env reply nonce with
    | error e => exact .refl s
    | ok peer =>
        have after := admitted peer.device_id peer.pubkey
        dsimp only
        cases auth : authorize ctx.trust peer.device_id peer.pubkey s with
        | error e t =>
            rw [auth] at after
            exact after
        | ok u t =>
            rw [auth] at after
            exact after

theorem onward_retryPending (s : CoreState) : Onward env s (finalState (retryPending env s)) := by
  refine ⟨(settles_retryPending env s).2, fun device key pinned => ?_,
    fun _ run => run.step (a := .retry) trivial⟩
  have same : SameKeys s (finalState (retryPending env s)) :=
    @CallRule.run env s (SameKeys s) (fun _ => True) (sameKeysRule env s) (.refl s) .retry
      (fun _ _ _ => trivial) fun _ collects => nomatch collects
  rw [same.peer_keys]
  exact pinned

theorem Struck.onward {y : Fetch} {stored : Nat} {outstanding : List Hash}
    (struck : Struck ⟨s, stored, outstanding⟩ y)
    (runs : ∀ identity, AnyRun env identity s → AnyRun env identity y.core) :
    Onward env s y.core :=
  ⟨struck.grows, fun device key pinned => by rw [struck.keys]; exact pinned, runs⟩

/-- What an attempt for a list of chunks leaves, and what it counted: no more than it brought in. -/
structure Attempt (env : Env) (outstanding : List Hash) (s : CoreState) (stored : Nat) (t : CoreState) :
    Prop where
  onward : Onward env s t
  count : stored + (missingChunkSubset t outstanding).length ≤ outstanding.length

theorem Attempt.idle {outstanding : List Hash} (onward : Onward env s t) :
    Attempt env outstanding s 0 t := by
  refine ⟨onward, ?_⟩
  rw [Nat.zero_add]
  exact List.length_filter_le _ _

theorem attempt_fetchChunks (wanted : List Hash) (replies : Nat → Msg) (s : CoreState) :
    Attempt env wanted s ((fetchChunks env wanted replies s).1.toOption.getD 0)
      (fetchChunks env wanted replies s).2 := by
  unfold fetchChunks
  cases last : rounds (fetchRound env) (wanted.length + 1) replies ⟨s, 0, wanted⟩ with
  | none => exact .idle (.refl s)
  | some ended =>
      obtain ⟨result, y⟩ := ended
      have struck : Struck ⟨s, 0, wanted⟩ y := struck_rounds last
      have before : Onward env s y.core := struck.onward fun _ run => run_of_rounds run last
      have counted : ∀ t, Onward env y.core t → Attempt env wanted s y.stored t :=
        fun t after => ⟨before.trans after, by simpa using struck.missing after.grows⟩
      cases result with
      | error e => exact .idle before
      | ok done =>
          have after := @onward_retryPending env y.core
          dsimp only
          cases retried : retryPending env y.core with
          | error e t =>
              rw [retried] at after
              exact .idle (before.trans after)
          | ok n t =>
              rw [retried] at after
              have flushed : Onward env t t.flush :=
                ⟨fun _ here => here, fun _ _ here => here, fun _ run => run.step (a := .flush) trivial⟩
              exact counted t.flush (Onward.trans after flushed)

theorem run_of_stateAt {identity : Identity} (answer : Nat → Fetch → Msg) (n : Nat) {x : Fetch}
    (run : AnyRun env identity x.core) :
    AnyRun env identity (stateAt (fetchRound env) answer n x).core := by
  refine @stateAt_induction _ _ _ (fetchRound env) answer (fun y => AnyRun env identity y.core) n x run ?_
  intro reply y next before again
  have step : AnyRun env identity (fetchCore (fetchRound env reply y)) :=
    before.step (a := .fetch reply y.stored y.outstanding) trivial
  rw [again] at step
  exact step

theorem attempt_fetchSession (answer : Nat → List Hash → Msg) (cut : Option Nat)
    (outstanding : List Hash) (s : CoreState) :
    Attempt env outstanding s ((fetchSession env answer cut outstanding s).1.getD 0)
      (fetchSession env answer cut outstanding s).2 := by
  have whole := @attempt_fetchChunks env outstanding
    (fetchReplies env answer ⟨s, 0, outstanding⟩) s
  cases cut with
  | none => exact whole
  | some n =>
      unfold fetchSession
      dsimp only
      split
      · exact .idle whole.onward
      · exact .idle ((struck_stateAt _ n ⟨s, 0, outstanding⟩).onward fun _ run =>
          run_of_stateAt _ n run)

theorem attempt_visit (ctx : SessionCtx) (outstanding : List Hash) (s : CoreState) (peer : Visit) :
    Attempt env outstanding s ((visit env ctx outstanding s peer).1.getD 0)
      (visit env ctx outstanding s peer).2 := by
  cases peer with
  | unparseable => exact .idle (.refl s)
  | unreachable => exact .idle (.refl s)
  | session nonce ack answer cut =>
      have greeted := @onward_greeted env ctx nonce ack s
      unfold visit
      dsimp only
      cases (concludeHandshake env ctx nonce ack s).result with
      | error e => exact .idle greeted
      | ok peer =>
          have tried := @attempt_fetchSession env answer cut outstanding
            (concludeHandshake env ctx nonce ack s).core
          exact ⟨greeted.trans tried.onward, tried.count⟩

/-- One turn of the loop: a text that is no address is passed over, nothing missing ends the loop, and
otherwise the peer is tried. -/
theorem fetchFromPeers_turn (ctx : SessionCtx) (wanted : List Hash) (peer : Visit) (rest : List Visit)
    (stored : Nat) (s : CoreState) :
    (peer = .unparseable ∧ fetchFromPeers env ctx wanted (peer :: rest) stored s =
        fetchFromPeers env ctx wanted rest stored s) ∨
      (missingChunkSubset s wanted = [] ∧
        fetchFromPeers env ctx wanted (peer :: rest) stored s = (stored, s)) ∨
      fetchFromPeers env ctx wanted (peer :: rest) stored s =
        fetchFromPeers env ctx wanted rest
          (stored + (visit env ctx (missingChunkSubset s wanted) s peer).1.getD 0)
          (visit env ctx (missingChunkSubset s wanted) s peer).2 := by
  cases peer with
  | unparseable => exact .inl ⟨rfl, rfl⟩
  | _ =>
      by_cases complete : missingChunkSubset s wanted = []
      · exact .inr (.inl ⟨complete, by simp [fetchFromPeers, complete]⟩)
      · exact .inr (.inr (by simp [fetchFromPeers, complete]))

private theorem missing_again {wanted : List Hash} (grows : ∀ hash, s.hasBlob hash → t.hasBlob hash) :
    missingChunkSubset t (missingChunkSubset s wanted) = missingChunkSubset t wanted := by
  unfold missingChunkSubset
  rw [List.filter_filter]
  refine List.filter_congr fun hash _ => ?_
  cases held : s.hasBlob hash
  · simp
  · simp [grows hash held]

theorem fetchFromPeers_counts (ctx : SessionCtx) (wanted : List Hash) (visits : List Visit) (stored : Nat)
    (s : CoreState) :
    Onward env s (fetchFromPeers env ctx wanted visits stored s).2 ∧
      (fetchFromPeers env ctx wanted visits stored s).1 +
          (missingChunkSubset (fetchFromPeers env ctx wanted visits stored s).2 wanted).length ≤
        stored + (missingChunkSubset s wanted).length := by
  induction visits generalizing stored s with
  | nil => exact ⟨.refl s, le_rfl⟩
  | cons peer rest ih =>
      rcases @fetchFromPeers_turn env ctx wanted peer rest stored s with ⟨-, same⟩ | ⟨-, same⟩ | same
      · rw [same]
        exact ih stored s
      · rw [same]
        exact ⟨.refl s, le_rfl⟩
      · rw [same]
        have tried := @attempt_visit env ctx (missingChunkSubset s wanted) s peer
        obtain ⟨onward, count⟩ := ih
          (stored + (visit env ctx (missingChunkSubset s wanted) s peer).1.getD 0)
          (visit env ctx (missingChunkSubset s wanted) s peer).2
        refine ⟨tried.onward.trans onward, count.trans ?_⟩
        have less := tried.count
        rw [missing_again tried.onward.grows] at less
        omega

end Onward

section Serving

variable {env : Env} {kept : Hash → Prop} {s : CoreState} {x : Fetch} {blobs : List (Hash × Bytes)}

theorem mem_heldBlobs {hashes : List Hash} {blob : Hash × Bytes} :
    blob ∈ heldBlobs s hashes ↔ blob.1 ∈ hashes ∧ s.blobs[blob.1]? = some blob.2 := by
  unfold heldBlobs
  rw [List.mem_filterMap]
  constructor
  · rintro ⟨hash, listed, here⟩
    obtain ⟨bytes, found, rfl⟩ := Option.map_eq_some_iff.mp here
    exact ⟨listed, found⟩
  · rintro ⟨listed, found⟩
    exact ⟨blob.1, listed, by rw [found]; rfl⟩

/-- A batch is what a node holds of the first of the hashes: of all of them, unless it reached its
limit. -/
theorem collectBlobs_spec (s : CoreState) (limit : Nat) (hashes : List Hash) (bytes : Nat)
    (blobs : List (Hash × Bytes)) :
    ∃ picked rest, hashes = picked ++ rest ∧
      (collectBlobs s limit hashes bytes blobs).1 = blobs ++ heldBlobs s picked ∧
      ((collectBlobs s limit hashes bytes blobs).2 = false → rest = []) ∧
      ((collectBlobs s limit hashes bytes blobs).2 = true →
        limit ≤ bytes + ((heldBlobs s picked).map fun blob => blob.2.length).sum) := by
  induction hashes generalizing bytes blobs with
  | nil => exact ⟨[], [], rfl, (List.append_nil blobs).symm, fun _ => rfl, fun more => by cases more⟩
  | cons hash rest ih =>
      unfold collectBlobs
      split
      · rename_i spent
        exact ⟨[], hash :: rest, rfl, (List.append_nil blobs).symm, fun last => (by cases last),
          fun _ => spent⟩
      · cases here : s.blobs[hash]? with
        | none =>
            have skipped : ∀ picked, heldBlobs s (hash :: picked) = heldBlobs s picked :=
              fun picked => List.filterMap_cons_none (by rw [here]; rfl)
            obtain ⟨picked, left, parts, sent, all, full⟩ := ih bytes blobs
            refine ⟨hash :: picked, left, by rw [parts]; rfl, ?_, all, ?_⟩
            · rw [skipped]
              exact sent
            · rw [skipped]
              exact full
        | some data =>
            have taken : ∀ picked, heldBlobs s (hash :: picked) = (hash, data) :: heldBlobs s picked :=
              fun picked => List.filterMap_cons_some (by rw [here]; rfl)
            obtain ⟨picked, left, parts, sent, all, full⟩ :=
              ih (bytes + data.length) (blobs ++ [(hash, data)])
            refine ⟨hash :: picked, left, by rw [parts]; rfl, ?_, all, fun more => ?_⟩
            · rw [taken]
              simpa using sent
            · have reached := full more
              rw [taken, List.map_cons, List.sum_cons, ← Nat.add_assoc]
              exact reached

/-- What a peer whose store is keyed and holds the `kept` content replies to a request. -/
def ServesKept (env : Env) (kept : Hash → Prop) (hashes : List Hash) (reply : Msg) : Prop :=
  ∃ (store : CoreState) (debug : WireMsg → String) (wire : WireMsg), Keyed env store ∧
    (∀ hash, kept hash → store.hasBlob hash) ∧
    serveRequest debug store (.wantBlobs hashes blobBatchBytes) = some wire ∧ reply = .ofWire wire

theorem ServesKept.batch {hashes : List Hash} {reply : Msg} (serves : ServesKept env kept hashes reply) :
    ∃ blobs more, reply = .blobsBatch blobs more ∧
      (∀ blob ∈ blobs, blob.1 ∈ hashes ∧ env.blake3 blob.2 = blob.1) ∧
      (more = true → blobs ≠ []) ∧
      (more = false → ∀ hash ∈ hashes, kept hash → ∃ bytes, (hash, bytes) ∈ blobs) := by
  obtain ⟨store, debug, wire, keyed, holds, served, rfl⟩ := serves
  obtain rfl := Option.some.inj served
  have room : 0 < (min blobBatchBytes blobBatchBytes).val := by
    rw [min_self]
    decide
  obtain ⟨picked, rest, parts, sent, all, full⟩ :=
    collectBlobs_spec store (min blobBatchBytes blobBatchBytes).val hashes 0 []
  rw [List.nil_append] at sent
  refine ⟨_, _, rfl, fun blob inside => ?_, fun more empty => ?_, fun last hash asked keeps => ?_⟩
  · rw [sent] at inside
    obtain ⟨listed, here⟩ := mem_heldBlobs.mp inside
    rw [parts]
    exact ⟨List.mem_append_left _ listed, keyed _ _ here⟩
  · have reached := full more
    rw [← sent, empty, List.map_nil, List.sum_nil] at reached
    omega
  · rw [all last, List.append_nil] at parts
    have here := holds hash keeps
    obtain ⟨bytes, found⟩ := Option.isSome_iff_exists.mp (hasBlob_iff_get.mp here)
    rw [sent]
    exact ⟨bytes, mem_heldBlobs.mpr ⟨parts ▸ asked, found⟩⟩

theorem storeFetched_asked {blob : Hash × Bytes} (asked : blob.1 ∈ x.outstanding)
    (sound : env.blake3 blob.2 = blob.1) : storeFetched env x blob =
      ⟨x.core.putBlob blob.1 blob.2, x.stored + 1, x.outstanding.filter fun hash => hash ≠ blob.1⟩ := by
  unfold storeFetched
  rw [if_neg (by simpa using asked), if_neg (by simpa using sound)]

theorem foldl_stores (sound : ∀ blob ∈ blobs, env.blake3 blob.2 = blob.1) {blob : Hash × Bytes}
    (inside : blob ∈ blobs) (asked : blob.1 ∈ x.outstanding) :
    (blobs.foldl (storeFetched env) x).core.hasBlob blob.1 := by
  induction blobs generalizing x with
  | nil => cases inside
  | cons head blobs ih =>
      rw [List.foldl_cons]
      have later := @struck_foldl env blobs (storeFetched env x head)
      rcases (@struck_storeFetched env x head).held asked with still | held
      · rcases List.mem_cons.mp inside with rfl | tail
        · refine later.grows _ ?_
          rw [storeFetched_asked asked (sound blob List.mem_cons_self), hasBlob_putBlob]
          exact .inl rfl
        · exact ih (fun other there => sound other (List.mem_cons_of_mem _ there)) tail still
      · exact later.grows _ held

theorem foldl_counts (sent : ∀ blob ∈ blobs, blob.1 ∈ x.outstanding ∧ env.blake3 blob.2 = blob.1)
    (some_sent : blobs ≠ []) : x.stored < (blobs.foldl (storeFetched env) x).stored := by
  cases blobs with
  | nil => exact absurd rfl some_sent
  | cons head blobs =>
      obtain ⟨asked, sound⟩ := sent head List.mem_cons_self
      have more := (@foldl_storeFetched env blobs (storeFetched env x head)).2.2.1
      rw [List.foldl_cons]
      rw [storeFetched_asked asked sound] at more ⊢
      exact more

theorem served_stop {reply : Msg} {ended : Except SessionError Unit × Fetch}
    (serves : ServesKept env kept x.outstanding reply) (run : fetchRound env reply x = .stop ended) :
    ended.1 = .ok () ∧ ∀ hash ∈ x.outstanding, kept hash → ended.2.core.hasBlob hash := by
  obtain ⟨blobs, more, rfl, sent, progress, complete⟩ := serves.batch
  have supplied : more = false → ∀ hash ∈ x.outstanding, kept hash →
      (blobs.foldl (storeFetched env) x).core.hasBlob hash := by
    intro last hash asked keeps
    obtain ⟨bytes, inside⟩ := complete last hash asked keeps
    exact foldl_stores (fun blob there => (sent blob there).2) inside asked
  unfold fetchRound at run
  split at run
  · rename_i empty
    obtain rfl := Round.stop.inj run
    refine ⟨rfl, fun hash asked _ => ?_⟩
    rw [List.isEmpty_iff.mp empty] at asked
    cases asked
  · dsimp only at run
    split at run
    · rename_i idle
      obtain rfl := Round.stop.inj run
      have none_sent : blobs = [] := by
        by_contra some_sent
        exact absurd idle (foldl_counts sent some_sent).ne'
      refine ⟨rfl, supplied ?_⟩
      cases more with
      | false => rfl
      | true => exact absurd none_sent (progress rfl)
    · split at run
      · rename_i last
        obtain rfl := Round.stop.inj run
        exact ⟨rfl, supplied (by simpa using last)⟩
      · cases run

theorem served_rounds {answer : Nat → List Hash → Msg}
    (serves : ∀ n hashes, ServesKept env kept hashes (answer n hashes)) {n : Nat}
    {ended : Except SessionError Unit × Fetch}
    (run : rounds (fetchRound env) n (fetchReplies env answer x) x = some ended) :
    ended.1 = .ok () ∧ ∀ hash ∈ x.outstanding, kept hash → ended.2.core.hasBlob hash := by
  induction n generalizing answer x with
  | zero => cases run
  | succ n ih =>
      have first : fetchReplies env answer x 0 = answer 0 x.outstanding := rfl
      unfold rounds at run
      rw [first] at run
      cases step : fetchRound env (answer 0 x.outstanding) x with
      | stop last =>
          rw [step] at run
          obtain rfl := Option.some.inj run
          exact served_stop (serves 0 x.outstanding) step
      | again next =>
          rw [step] at run
          dsimp only at run
          have shifted : (fun i => fetchReplies env answer x (i + 1)) =
              fetchReplies env (fun i => answer (i + 1)) next := answered_again step
          rw [shifted] at run
          obtain ⟨done, supplied⟩ := ih (fun i => serves (i + 1)) run
          refine ⟨done, fun hash asked keeps => ?_⟩
          rcases (struck_again step).held asked with still | held
          · exact supplied hash still keeps
          · exact (struck_rounds run).grows hash held

end Serving

section Supplied

variable {env : Env} {ctx : SessionCtx} {identity : Identity} {kept : Hash → Prop} {s t : CoreState}
  {wanted : List Hash} {visits : List Visit}

/-- A visit to an enrolled peer that serves the `kept` content to the end. -/
inductive Supplies (env : Env) (s : CoreState) (kept : Hash → Prop) : Visit → Prop
  | session {nonce : Hash} {ack : WireMsg} {answer : Nat → List Hash → Msg} {peer : PeerHello}
      (acked : verifyHelloAck env ack nonce = .ok peer)
      (pinned : s.peer_keys[peer.device_id]? = some peer.pubkey)
      (serves : ∀ n hashes, ServesKept env kept hashes (answer n hashes)) :
      Supplies env s kept (.session nonce ack answer none)

theorem Supplies.later {peer : Visit} (supplies : Supplies env s kept peer) (onward : Onward env s t) :
    Supplies env t kept peer := by
  cases supplies with
  | session acked pinned serves => exact .session acked (onward.pins _ _ pinned) serves

theorem concludeHandshake_pinned {nonce : Hash} {reply : WireMsg} {peer : PeerHello}
    (acked : verifyHelloAck env reply nonce = .ok peer)
    (pinned : s.peer_keys[peer.device_id]? = some peer.pubkey) :
    concludeHandshake env ctx nonce reply s = ⟨s, none, .ok peer⟩ := by
  obtain ⟨a, rfl, -⟩ := verifyHelloAck_ok.mp acked
  have admitted : authorize ctx.trust peer.device_id peer.pubkey s = .ok () s := by
    simp [authorize, pinned]
  unfold concludeHandshake
  dsimp only
  rw [acked]
  dsimp only
  rw [admitted]

theorem visit_supplied {peer : Visit} (supplies : Supplies env s kept peer) (outstanding : List Hash)
    {hash : Hash} (asked : hash ∈ outstanding) (keeps : kept hash) :
    (visit env ctx outstanding s peer).2.hasBlob hash := by
  cases supplies with
  | @session nonce ack answer peer acked pinned serves =>
      unfold visit
      dsimp only
      rw [concludeHandshake_pinned acked pinned]
      show (fetchChunks env outstanding (fetchReplies env answer ⟨s, 0, outstanding⟩) s).2.hasBlob hash
      obtain ⟨⟨result, y⟩, ends⟩ := (fetchRound_shrinks env).rounds_end
        (fetchReplies env answer ⟨s, 0, outstanding⟩) ⟨s, 0, outstanding⟩
        (Nat.lt_succ_self outstanding.length)
      obtain ⟨done, supplied⟩ := served_rounds serves ends
      obtain rfl : result = .ok () := done
      have after := (settles_retryPending env y.core).2 hash (supplied hash asked keeps)
      unfold fetchChunks
      rw [ends]
      dsimp only
      cases retried : retryPending env y.core with
      | error e t =>
          rw [retried] at after
          exact after
      | ok n t =>
          rw [retried] at after
          exact after

theorem fetchFromPeers_supplied {peer : Visit} (listed : peer ∈ visits)
    (supplies : Supplies env s kept peer) (stored : Nat) {hash : Hash} (asked : hash ∈ wanted)
    (keeps : kept hash) : (fetchFromPeers env ctx wanted visits stored s).2.hasBlob hash := by
  have missing : ∀ {u : CoreState}, ¬u.hasBlob hash → hash ∈ missingChunkSubset u wanted :=
    fun absent => List.mem_filter.mpr ⟨asked, by simpa using absent⟩
  induction visits generalizing stored s with
  | nil => cases listed
  | cons other rest ih =>
      rcases @fetchFromPeers_turn env ctx wanted other rest stored s with
        ⟨rfl, same⟩ | ⟨complete, same⟩ | same
      · rw [same]
        rcases List.mem_cons.mp listed with rfl | later
        · cases supplies
        · exact ih later supplies stored
      · rw [same]
        by_contra absent
        have inside := missing absent
        rw [complete] at inside
        cases inside
      · rw [same]
        have tried := @attempt_visit env ctx (missingChunkSubset s wanted) s other
        rcases List.mem_cons.mp listed with rfl | later
        · refine (fetchFromPeers_counts ctx wanted rest _ _).1.grows hash ?_
          by_cases held : s.hasBlob hash
          · exact tried.onward.grows hash held
          · exact visit_supplied supplies _ (missing held) keeps
        · exact ih later (supplies.later tried.onward) _

/-- An on-demand fetch from any list of peers, whatever each of them does: it takes steps of the node
and loses no content; it counts no more than it brought in; and what an enrolled peer among them
keeps and serves is there afterwards. -/
theorem fetch_supplied (run : AnyRun env identity s) (wanted : List Hash) (visits : List Visit) :
    AnyRun env identity (fetchFromPeers env ctx wanted visits 0 s).2 ∧
      (∀ hash, s.hasBlob hash → (fetchFromPeers env ctx wanted visits 0 s).2.hasBlob hash) ∧
      (fetchFromPeers env ctx wanted visits 0 s).1 +
          (missingChunkSubset (fetchFromPeers env ctx wanted visits 0 s).2 wanted).length ≤
        (missingChunkSubset s wanted).length ∧
      ∀ kept peer, peer ∈ visits → Supplies env s kept peer → ∀ hash ∈ wanted, kept hash →
        (fetchFromPeers env ctx wanted visits 0 s).2.hasBlob hash := by
  obtain ⟨onward, count⟩ := @fetchFromPeers_counts env ctx wanted visits 0 s
  rw [Nat.zero_add] at count
  exact ⟨onward.runs identity run, onward.grows, count, fun kept peer listed supplies hash asked keeps =>
    fetchFromPeers_supplied listed supplies 0 asked keeps⟩

def answersFrom (store : CoreState) : Nat → List Hash → Msg := fun _ hashes =>
  ((serveRequest (fun _ => "") store (.wantBlobs hashes blobBatchBytes)).map Msg.ofWire).getD .other

def askingState : CoreState := (Act.enrol 5 11 none false).run .sealing sampleIdentity parkedState

def enrolledAck : HelloAck := makeHelloAck .sealing ⟨11⟩ 5 true none ["ops", "blobs"] 3

def chunkHolder : CoreState :=
  (Act.fetch (.blobsBatch [(secondChunkHash, [4])] false) 0 [secondChunkHash]).run .sealing
    sampleIdentity (booted .sealing (CoreState.new 9))

/-- A text that is no address, a peer out of reach, an acceptance of another handshake, a peer that is
cut off before its first answer, and the holder. -/
def sampleVisits : List Visit :=
  [.unparseable, .unreachable, .session 4 (.helloAck enrolledAck) (fun _ _ => .other) none,
    .session 3 (.helloAck enrolledAck) (fun _ _ => .other) (some 0),
    .session 3 (.helloAck enrolledAck) (answersFrom chunkHolder) none]

theorem askingState_run : AnyRun .sealing sampleIdentity askingState :=
  parkedState_run.step (a := .enrol 5 11 none false) trivial

private theorem holder_supplies : Supplies .sealing askingState (fun hash => hash = secondChunkHash)
    (.session 3 (.helloAck enrolledAck) (answersFrom chunkHolder) none) := by
  have signed : verifySig .sealing 11 enrolledAck.signingBytes enrolledAck.sig = .ok () :=
    verifySig_eq_ok.mpr ⟨List.length_replicate, rfl, rfl⟩
  have acked : verifyHelloAck .sealing (.helloAck enrolledAck) 3 = .ok ⟨5, 11, ["ops", "blobs"]⟩ :=
    verifyHelloAck_ok.mpr ⟨enrolledAck, rfl, rfl, signed, rfl, rfl⟩
  have pinned : askingState.peer_keys[(5 : DeviceId)]? = some 11 := by decide +kernel
  refine .session acked pinned fun n hashes => ?_
  have keyed : Keyed .sealing chunkHolder := by
    have start : AnyRun .sealing sampleIdentity (booted .sealing (CoreState.new 9)) :=
      .boot (blank_new 9) rfl rfl
    exact keyed_act start.keyed (.fetch _ _ _)
  have holds : chunkHolder.hasBlob secondChunkHash := by decide +kernel
  have held : ∀ hash, hash = secondChunkHash → chunkHolder.hasBlob hash := by
    rintro hash rfl
    exact holds
  generalize chunkHolder = store at keyed held ⊢
  exact ⟨store, fun _ => "", _, keyed, held, rfl, rfl⟩

private theorem sampleVisits_listed :
    .session 3 (.helloAck enrolledAck) (answersFrom chunkHolder) none ∈ sampleVisits := by
  simp [sampleVisits]

theorem fetch_supplied_sample : askingState.hasBlob secondChunkHash = false ∧
    (fetchFromPeers .sealing framesCtx [firstChunkHash, secondChunkHash] sampleVisits 0
      askingState).2.hasBlob secondChunkHash := by
  refine ⟨by decide +kernel, ?_⟩
  exact (fetch_supplied askingState_run [firstChunkHash, secondChunkHash] sampleVisits).2.2.2 _ _
    sampleVisits_listed holder_supplies secondChunkHash (by simp) rfl

end Supplied

section Ensured

variable {env : Env} {ctx : SessionCtx} {identity : Identity} {kept : Hash → Prop} {s t : CoreState}
  {visits : Nat → List Visit} {path : String} {wanted outstanding : List Hash} {hash : Hash}

private theorem unheld_absent {chunks : List ChunkRef} (listed : hash ∈ s.unheld chunks) :
    ¬s.hasBlob hash := by
  obtain ⟨chunk, inside, rfl⟩ := List.mem_map.mp listed
  simpa using (List.mem_filter.mp inside).2

private theorem pendingWanted_absent {inode : U128} (listed : hash ∈ pendingWanted s inode) :
    ¬s.hasBlob hash := by
  obtain ⟨op, -, here⟩ := List.mem_flatMap.mp listed
  cases shape : op.kind with
  | write target offset chunks new_size encryption =>
      rw [shape] at here
      dsimp only at here
      split at here
      · exact unheld_absent here
      · cases here
  | _ =>
      rw [shape] at here
      cases here

private theorem objectWanted_absent {node_hash : Hash} {more : List Hash}
    (run : objectWanted env s node_hash = .ok more) (listed : hash ∈ more) : ¬s.hasBlob hash := by
  unfold objectWanted getObject at run
  rw [hasBlob_iff_get]
  cases found : s.blobs[node_hash]? with
  | none =>
      rw [found] at run
      obtain rfl := Except.ok.inj run
      rw [List.mem_singleton.mp listed, found]
      exact Bool.false_ne_true
  | some bytes =>
      rw [found] at run
      dsimp only at run
      cases decoded : env.decodeObject bytes with
      | none =>
          rw [decoded] at run
          cases run
      | some object =>
          rw [decoded] at run
          cases object with
          | fileNode file =>
              obtain rfl := Except.ok.inj run
              rw [← hasBlob_iff_get]
              exact unheld_absent listed
          | _ =>
              obtain rfl := Except.ok.inj run
              cases listed

theorem missing_absent (run : missingChunksForPath env s path = .ok outstanding)
    (listed : hash ∈ outstanding) : ¬s.hasBlob hash := by
  unfold missingChunksForPath at run
  cases named : resolvePath s path with
  | error e =>
      rw [named] at run
      cases run
  | ok found =>
      rw [named] at run
      cases found with
      | none =>
          obtain rfl := Except.ok.inj run
          cases listed
      | some target =>
          obtain ⟨inode, kind⟩ := target
          change (if kind ≠ .file then pure [] else _ : Except Err (List Hash)) = .ok outstanding at run
          split at run
          · obtain rfl := Except.ok.inj run
            cases listed
          · cases found : s.loadInode inode with
            | none =>
                rw [found] at run
                obtain rfl := Except.ok.inj run
                exact pendingWanted_absent listed
            | some record =>
                rw [found] at run
                dsimp only at run
                cases content : record.content.value.node_hash with
                | none =>
                    rw [content] at run
                    obtain rfl := Except.ok.inj run
                    exact pendingWanted_absent listed
                | some node_hash =>
                    rw [content] at run
                    dsimp only at run
                    cases more : objectWanted env s node_hash with
                    | error e =>
                        rw [more] at run
                        cases run
                    | ok lacking =>
                        rw [more] at run
                        obtain rfl := Except.ok.inj run
                        rw [List.mem_dedup, List.mem_insertionSort, List.mem_append] at listed
                        rcases listed with parked | object
                        · exact pendingWanted_absent parked
                        · exact objectWanted_absent more object

/-- What a read leaves once it has made so many requests, each for all that is missing then. -/
def afterRequests (env : Env) (ctx : SessionCtx) (visits : Nat → List Visit) (path : String)
    (s : CoreState) : Nat → CoreState
  | 0 => s
  | asked + 1 =>
      let u := afterRequests env ctx visits path s asked
      match missingChunksForPath env u path with
      | .ok wanted => (fetchFromPeers env ctx wanted (visits asked) 0 u).2
      | .error _ => u

/-- A read made all the requests that it may, and the last of them did not ask for the hash: nothing
said that it was missing before. -/
def Unasked (env : Env) (ctx : SessionCtx) (visits : Nat → List Visit) (path : String) (s t : CoreState)
    (hash : Hash) : Prop :=
  t = afterRequests env ctx visits path s ensureMaxRounds ∧
    ∃ wanted, hash ∉ wanted ∧ missingChunksForPath env
      (afterRequests env ctx visits path s (ensureMaxRounds - 1)) path = .ok wanted

theorem afterRequests_succ {asked : Nat} {u : CoreState}
    (reached : u = afterRequests env ctx visits path s asked)
    (before : missingChunksForPath env u path = .ok wanted) :
    afterRequests env ctx visits path s (asked + 1) =
      (fetchFromPeers env ctx wanted (visits asked) 0 u).2 := by
  change (match missingChunksForPath env (afterRequests env ctx visits path s asked) path with
    | .ok wanted => (fetchFromPeers env ctx wanted (visits asked) 0
        (afterRequests env ctx visits path s asked)).2
    | .error _ => afterRequests env ctx visits path s asked) = _
  rw [← reached, before]

def Supplied (env : Env) (visits : Nat → List Visit) (s : CoreState) (kept : Hash → Prop) : Prop :=
  ∀ asked, ∃ peer ∈ visits asked, Supplies env s kept peer

/-- What of the `kept` content is missing after a request, the request did not ask for. -/
theorem unasked_of_request (supplied : Supplied env visits s kept) {asked : Nat} (onward : Onward env s t)
    (absent : ¬(fetchFromPeers env ctx wanted (visits asked) 0 t).2.hasBlob hash) (keeps : kept hash) :
    hash ∉ wanted := by
  intro listed
  obtain ⟨peer, visited, supplies⟩ := supplied asked
  exact absent (fetchFromPeers_supplied visited (supplies.later onward) 0 listed keeps)

private theorem ensureRounds_supplied {rounds asked : Nat} (count : asked + rounds = ensureMaxRounds)
    {u : CoreState} (reached : u = afterRequests env ctx visits path s asked) (onward : Onward env s u)
    (before : missingChunksForPath env u path = .ok wanted)
    (fresh : rounds = 0 → ∀ kept, Supplied env visits s kept → ∀ hash ∈ wanted, kept hash →
      Unasked env ctx visits path s u hash)
    (run : ensureRounds env (peerContentFetcher env ctx visits) path rounds asked wanted u =
      .ok outstanding t) :
    Onward env s t ∧ ∀ kept, Supplied env visits s kept → ∀ hash ∈ outstanding, kept hash →
      Unasked env ctx visits path s t hash := by
  induction rounds generalizing asked wanted u with
  | zero =>
      cases run
      exact ⟨onward, fresh rfl⟩
  | succ rounds ih =>
      unfold ensureRounds at run
      split at run
      · rename_i complete
        cases run
        rw [List.isEmpty_iff.mp complete]
        exact ⟨onward, fun _ _ hash listed => by cases listed⟩
      · have reached' := (afterRequests_succ reached before).symm
        generalize after : (fetchFromPeers env ctx wanted (visits asked) 0 u).2 = v at run reached'
        have later : Onward env s v :=
          after ▸ onward.trans (fetchFromPeers_counts ctx wanted (visits asked) 0 u).1
        have fetched : (peerContentFetcher env ctx visits).fetch asked wanted u =
            .ok (fetchFromPeers env ctx wanted (visits asked) 0 u).1 v := by
          rw [← after]
          rfl
        simp only [bind_run, fetched, get_run] at run
        cases next : missingChunksForPath env v path with
        | error e =>
            rw [next] at run
            cases run
        | ok still =>
            have unasked : ∀ kept, Supplied env visits s kept → ∀ hash ∈ still, kept hash →
                hash ∉ wanted := fun kept supplied hash listed keeps =>
              unasked_of_request supplied onward (after ▸ missing_absent next listed) keeps
            rw [next, liftCheck_ok] at run
            dsimp only at run
            split at run
            · -- The request was for just what is still missing, and none of that is kept.
              rename_i same
              cases run
              exact ⟨later, fun kept supplied hash listed keeps =>
                absurd listed (unasked kept supplied hash (same ▸ listed) keeps)⟩
            · refine ih (by omega) reached' later next (fun last kept supplied hash listed keeps => ?_)
                run
              have index : asked = ensureMaxRounds - 1 := by omega
              subst index
              exact ⟨reached', wanted, unasked kept supplied hash listed keeps, reached ▸ before⟩

/-- A read through the peers takes steps of the node and loses no content. Where each request reaches
an enrolled peer that serves the `kept` content, none of that is missing afterwards, unless all the
requests were made and the last of them did not ask for it. -/
theorem ensure_supplied (run : AnyRun env identity s)
    (ensured : ensureContent env (peerContentFetcher env ctx visits) path s = .ok outstanding t) :
    AnyRun env identity t ∧ (∀ hash, s.hasBlob hash → t.hasBlob hash) ∧
      ∀ kept, Supplied env visits s kept → ∀ hash ∈ outstanding, kept hash →
        Unasked env ctx visits path s t hash := by
  unfold ensureContent at ensured
  simp only [bind_run, get_run] at ensured
  cases before : missingChunksForPath env s path with
  | error e =>
      rw [before] at ensured
      cases ensured
  | ok wanted =>
      rw [before, liftCheck_ok] at ensured
      obtain ⟨onward, unasked⟩ := ensureRounds_supplied (Nat.zero_add _) rfl (.refl s) before
        (fun last => by cases last) ensured
      exact ⟨onward.runs identity run, onward.grows, unasked⟩

def sampleFetcher : ContentFetcher := peerContentFetcher .sealing framesCtx fun _ => sampleVisits

theorem ensure_supplied_sample :
    answer (ensureContent .sealing sampleFetcher "/g" askingState) = some [firstChunkHash] ∧
      (finalState (ensureContent .sealing sampleFetcher "/g" askingState)).hasBlob secondChunkHash ∧
      ∀ kept, Supplied .sealing (fun _ => sampleVisits) askingState kept → ¬kept firstChunkHash := by
  have facts : answer (ensureContent .sealing sampleFetcher "/g" askingState) = some [firstChunkHash] ∧
      (finalState (ensureContent .sealing sampleFetcher "/g" askingState)).hasBlob secondChunkHash := by
    decide +kernel
  refine ⟨facts.1, facts.2, fun kept supplied keeps => ?_⟩
  obtain ⟨-, wanted, outside, asked⟩ := (ensure_supplied askingState_run (ran_of_answer facts.1)).2.2
    kept supplied firstChunkHash (List.mem_singleton.mpr rfl) keeps
  have last : (missingChunksForPath .sealing (afterRequests .sealing framesCtx (fun _ => sampleVisits)
      "/g" askingState (ensureMaxRounds - 1)) "/g").toOption = some [firstChunkHash] := by
    decide +kernel
  rw [asked] at last
  obtain rfl := Option.some.inj last
  exact outside (List.mem_singleton.mpr rfl)

end Ensured

end NexusFS.Net
