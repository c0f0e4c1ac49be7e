/- GID: NexusFS/Net/Budget
   source: crates/net/src/session.rs
   digest: What a whole pull stores, against the content budget it was given. -/

import NexusFS.Net.Node
import Mathlib.Data.List.Dedup
import Mathlib.Algebra.Order.BigOperators.Group.List

set_option autoImplicit false
set_option relaxedAutoImplicit false

namespace NexusFS.Net

open NexusFS.Lib NexusFS.Lib.Effect NexusFS.Proto NexusFS.Core

section Pull

variable (env : Env) (limits : SyncLimits)

/-- `pull_from_peer` after its handshake: the operation phase, and then the content phase, each
against the replies of the peer. -/
def pullFromPeer (ops_replies blob_replies : Nat → Msg) (s : CoreState) : Option SessionEnd :=
  match rounds (opsRound env) (maxOpsPerSession + 1) ops_replies (Session.start s) with
  | some (.ok _, x) => rounds (contentRound env limits) (missingContent x + 1) blob_replies x
  | ended => ended

/-- Whether a received blob is stored: it was asked for, and its bytes have the hash it came
under. -/
def usable (wanted : BTreeSet Hash) (blob : Hash × Bytes) : Bool :=
  wanted.contains blob.1 && decide (env.blake3 blob.2 = blob.1)

def asksContent (x : Session) : Bool :=
  !(missingChunkHashes x.core).isEmpty && limits.content &&
    decide (x.outcome.content_bytes < limits.max_content_bytes)

def storedBlobs (reply : Msg) (x : Session) : List (Hash × Bytes) :=
  match reply with
  | .blobsBatch blobs _ =>
      if asksContent limits x then blobs.filter (usable env (missingChunkHashes x.core)) else []
  | _ => []

def batchOf (reply : Msg) (s : CoreState) : List (Hash × Bytes) :=
  match reply with
  | .blobsBatch blobs _ => blobs.filter (usable env (missingChunkHashes s))
  | _ => []

/-- The node after it stored the usable blobs of a reply and retried what is parked, when the peer has
more to send. -/
def afterBatch (reply : Msg) (s : CoreState) : Option CoreState :=
  match reply with
  | .blobsBatch _ more =>
      let batch := batchOf env reply s
      if batch.isEmpty || !more then none
      else
        match retryPending env (batch.foldl (fun s blob => s.putBlob blob.1 blob.2) s) with
        | .ok _ t => some t
        | .error _ _ => none
  | _ => none

def batchSizes (replies : Nat → Msg) (s : CoreState) : List Nat :=
  offers (fun reply s => blobBytes (batchOf env reply s)) (afterBatch env)
    ((missingChunkHashes s).size + 1) replies s

def afterOps (replies : Nat → Msg) (s : CoreState) : CoreState :=
  match rounds (opsRound env) (maxOpsPerSession + 1) replies (Session.start s) with
  | some ended => ended.2.core
  | none => s

def contentVisits (ops_replies blob_replies : Nat → Msg) (s : CoreState) : List (Msg × Session) :=
  match rounds (opsRound env) (maxOpsPerSession + 1) ops_replies (Session.start s) with
  | some (.ok _, x) => visits (contentRound env limits) (missingContent x + 1) blob_replies x
  | _ => []

def pulledBlobs (ops_replies blob_replies : Nat → Msg) (s : CoreState) : List (Hash × Bytes) :=
  (contentVisits env limits ops_replies blob_replies s).flatMap fun v =>
    storedBlobs env limits v.1 v.2

end Pull

section Rounds

variable {env : Env} {limits : SyncLimits}

def roundSession : Round Session SessionEnd → Session
  | .again x => x
  | .stop ended => ended.2

def putReceived (x : Session) (blob : Hash × Bytes) : Session where
  core := x.core.putBlob blob.1 blob.2
  outcome :=
    { x.outcome with
      content_bytes := x.outcome.content_bytes + blob.2.length
      blobs_received := x.outcome.blobs_received + 1 }

private theorem storeReceived_eq (wanted : BTreeSet Hash) (x : Session) (blob : Hash × Bytes) :
    storeReceived env wanted x blob = if usable env wanted blob then putReceived x blob else x := by
  unfold storeReceived usable
  by_cases asked : wanted.contains blob.1
  · by_cases sound : env.blake3 blob.2 = blob.1
    · simp [asked, sound, putReceived]
    · simp [asked, sound]
  · simp [asked]

private theorem foldl_storeReceived_eq (wanted : BTreeSet Hash) (blobs : List (Hash × Bytes))
    (x : Session) : blobs.foldl (storeReceived env wanted) x =
      (blobs.filter (usable env wanted)).foldl putReceived x := by
  induction blobs generalizing x with
  | nil => rfl
  | cons blob blobs ih =>
      rw [List.foldl_cons, ih, storeReceived_eq, List.filter_cons]
      split <;> rfl

private theorem foldl_putReceived_bytes (blobs : List (Hash × Bytes)) (x : Session) :
    (blobs.foldl putReceived x).outcome.content_bytes =
      x.outcome.content_bytes + blobBytes blobs := by
  induction blobs generalizing x with
  | nil => rfl
  | cons blob blobs ih =>
      rw [List.foldl_cons, ih]
      simp only [putReceived, blobBytes, List.map_cons, List.sum_cons]
      omega

private theorem foldl_putReceived_core (blobs : List (Hash × Bytes)) (x : Session) :
    (blobs.foldl putReceived x).core =
      blobs.foldl (fun s blob => s.putBlob blob.1 blob.2) x.core := by
  induction blobs generalizing x with
  | nil => rfl
  | cons blob blobs ih => rw [List.foldl_cons, ih]; rfl

theorem contentRound_stores (limits : SyncLimits) (reply : Msg) (x : Session) :
    (roundSession (contentRound env limits reply x)).outcome.content_bytes =
        x.outcome.content_bytes + blobBytes (storedBlobs env limits reply x) ∧
      ((roundSession (contentRound env limits reply x)).core = x.core ∧
          storedBlobs env limits reply x = [] ∨
        (roundSession (contentRound env limits reply x)).core = finalState (retryPending env
          ((storedBlobs env limits reply x).foldl (fun s blob => s.putBlob blob.1 blob.2)
            x.core))) := by
  have idle : ∀ {y : Session}, y.core = x.core →
      y.outcome.content_bytes = x.outcome.content_bytes → storedBlobs env limits reply x = [] →
      y.outcome.content_bytes = x.outcome.content_bytes + blobBytes (storedBlobs env limits reply x) ∧
        (y.core = x.core ∧ storedBlobs env limits reply x = [] ∨
          y.core = finalState (retryPending env ((storedBlobs env limits reply x).foldl
            (fun s blob => s.putBlob blob.1 blob.2) x.core))) := by
    intro y core bytes none_stored
    rw [none_stored]
    exact ⟨bytes, .inl ⟨core, rfl⟩⟩
  have silent : asksContent limits x = false → storedBlobs env limits reply x = [] := by
    intro off
    cases reply <;> simp [storedBlobs, off]
  unfold contentRound
  dsimp only
  split
  · rename_i complete
    exact idle rfl rfl (silent (by simp [asksContent, complete]))
  · rename_i lacking
    split
    · rename_i off
      exact idle rfl rfl (silent (by simpa [asksContent, lacking] using fun on => absurd on (by simpa using off)))
    · rename_i on
      split
      · rename_i spent
        exact idle rfl rfl (silent (by simp [asksContent, lacking, Nat.not_lt.mpr spent]))
      · rename_i left
        have asks : asksContent limits x = true := by
          simp only [asksContent, lacking, Bool.not_false, Bool.true_and, Bool.and_eq_true,
            decide_eq_true_eq]
          exact ⟨by simpa using on, Nat.lt_of_not_le left⟩
        cases reply with
        | opsBatch ops more => exact idle rfl rfl rfl
        | error code message retry => exact idle rfl rfl rfl
        | other => exact idle rfl rfl rfl
        | blobsBatch blobs more =>
            have stored : storedBlobs env limits (.blobsBatch blobs more) x =
                blobs.filter (usable env (missingChunkHashes x.core)) := by
              simp [storedBlobs, asks]
            dsimp only
            split
            · rename_i empty
              refine idle rfl rfl ?_
              rw [stored, List.isEmpty_iff.mp empty]
              rfl
            · rw [stored, foldl_storeReceived_eq]
              obtain ⟨kept, isKept⟩ : ∃ kept, kept =
                (blobs.filter (usable env (missingChunkHashes x.core))).foldl putReceived x := ⟨_, rfl⟩
              have bytes := foldl_putReceived_bytes
                (blobs.filter (usable env (missingChunkHashes x.core))) x
              have core := foldl_putReceived_core
                (blobs.filter (usable env (missingChunkHashes x.core))) x
              rw [← isKept] at bytes core ⊢
              rw [← core]
              cases retried : retryPending env kept.core with
              | error e s => exact ⟨bytes, .inr rfl⟩
              | ok n s =>
                  dsimp only
                  split
                  · exact ⟨bytes, .inr rfl⟩
                  · split
                    · exact ⟨bytes, .inr rfl⟩
                    · exact ⟨bytes, .inr rfl⟩

private theorem foldl_putReceived_received (blobs : List (Hash × Bytes)) (x : Session) :
    (blobs.foldl putReceived x).outcome.blobs_received = x.outcome.blobs_received + blobs.length := by
  induction blobs generalizing x with
  | nil => rfl
  | cons blob blobs ih =>
      rw [List.foldl_cons, ih, List.length_cons]
      simp only [putReceived]
      omega

theorem batchOf_complete {s : CoreState} (complete : (missingChunkHashes s).isEmpty = true) (reply : Msg) :
    batchOf env reply s = [] := by
  cases reply with
  | blobsBatch blobs more =>
      refine List.filter_eq_nil_iff.mpr fun blob _ => ?_
      rw [usable, Std.ExtTreeSet.isEmpty_iff.mp complete]
      simp
  | opsBatch | error | other => rfl

theorem storedBlobs_eq (on : limits.content = true) {x : Session}
    (below : x.outcome.content_bytes < limits.max_content_bytes) (reply : Msg) :
    storedBlobs env limits reply x = batchOf env reply x.core := by
  cases reply with
  | blobsBatch blobs more =>
      unfold storedBlobs
      dsimp only
      split
      · rfl
      · rename_i silent
        exact (batchOf_complete (by simpa [asksContent, on, below] using silent) _).symm
  | opsBatch | error | other => rfl

theorem contentRound_follows (on : limits.content = true) {x : Session}
    (below : x.outcome.content_bytes < limits.max_content_bytes) (reply : Msg) :
    (∀ next, contentRound env limits reply x = .again next →
        afterBatch env reply x.core = some next.core) ∧
      ∀ ended, contentRound env limits reply x = .stop ended → afterBatch env reply x.core = none := by
  have last_round : ∀ {blobs more}, batchOf env (.blobsBatch blobs more) x.core = [] →
      afterBatch env (.blobsBatch blobs more) x.core = none := by
    intro blobs more empty
    simp [afterBatch, empty]
  unfold contentRound
  dsimp only
  split
  · rename_i complete
    refine ⟨fun next step => (by cases step), fun _ _ => ?_⟩
    cases reply with
    | blobsBatch blobs more => exact last_round (batchOf_complete complete _)
    | opsBatch | error | other => rfl
  · rw [if_neg (by simp [on]), if_neg (Nat.not_le_of_lt below)]
    cases reply with
    | opsBatch | error | other => exact ⟨fun next step => (by cases step), fun _ _ => rfl⟩
    | blobsBatch blobs more =>
        dsimp only
        split
        · rename_i empty
          refine ⟨fun next step => (by cases step), fun _ _ => last_round ?_⟩
          rw [batchOf, List.isEmpty_iff.mp empty]
          rfl
        · obtain ⟨batch, isBatch⟩ : ∃ batch, batch = batchOf env (.blobsBatch blobs more) x.core :=
            ⟨_, rfl⟩
          have stored : blobs.foldl (storeReceived env (missingChunkHashes x.core)) x =
              batch.foldl putReceived x := by
            rw [foldl_storeReceived_eq, isBatch]
            rfl
          rw [stored, foldl_putReceived_core, foldl_putReceived_received]
          unfold afterBatch
          dsimp only
          rw [← isBatch]
          cases retried : retryPending env (batch.foldl (fun s blob => s.putBlob blob.1 blob.2) x.core) with
          | error e t => exact ⟨fun next step => (by cases step), fun _ _ => ite_self _⟩
          | ok n t =>
              dsimp only
              cases more with
              | false => exact ⟨fun next step => (by cases step), fun _ _ => by simp⟩
              | true =>
                  rw [if_neg (by decide)]
                  cases batch with
                  | nil =>
                      rw [if_pos (by simp)]
                      exact ⟨fun next step => (by cases step), fun _ _ => rfl⟩
                  | cons blob batch =>
                      rw [if_neg (by simp)]
                      refine ⟨fun next step => ?_, fun ended step => by cases step⟩
                      obtain rfl := Round.again.inj step
                      rfl

private theorem opsRound_bytes (reply : Msg) (x : Session) :
    (roundSession (opsRound env reply x)).outcome.content_bytes = x.outcome.content_bytes := by
  have applied : ∀ (ops : List FsOp) (y : Session),
      (ops.foldl (applyReceived env) y).outcome.content_bytes = y.outcome.content_bytes := by
    intro ops
    induction ops with
    | nil => exact fun _ => rfl
    | cons op ops ih =>
        intro y
        rw [List.foldl_cons, ih]
        unfold applyReceived
        split <;> rfl
  unfold opsRound
  cases reply with
  | blobsBatch blobs more => rfl
  | error code message retry => rfl
  | other => rfl
  | opsBatch ops more =>
      dsimp only
      split
      · rfl
      · split
        · rfl
        · split
          · exact applied ops _
          · split
            · exact applied ops _
            · exact applied ops _

private theorem ops_phase_bytes {n : Nat} {replies : Nat → Msg} {s : CoreState} {ended : SessionEnd}
    (run : rounds (opsRound env) n replies (Session.start s) = some ended) :
    ended.2.outcome.content_bytes = 0 := by
  have account := rounds_account (fun _ _ => 0) (fun x : Session => x.outcome.content_bytes)
    (fun ended : SessionEnd => ended.2.outcome.content_bytes) ?_ ?_ run
  · rw [account]
    simp [Session.start]
  · intro reply x next step
    have bytes := @opsRound_bytes env reply x
    rw [step] at bytes
    exact bytes
  · intro reply x result step
    have bytes := @opsRound_bytes env reply x
    rw [step] at bytes
    exact bytes

end Rounds

section Budget

variable {env : Env} {limits : SyncLimits} {ops_replies blob_replies : Nat → Msg} {s : CoreState}
  {x : Session}

/-- The budget is a ceiling: on the account of the pull, on the bytes of the different blobs it
stored, and on whether it stores any. -/
structure WithinBudget (env : Env) (limits : SyncLimits) (ops_replies blob_replies : Nat → Msg)
    (s : CoreState) (x : Session) : Prop where
  counted : x.outcome.content_bytes ≤ limits.max_content_bytes
  stored : blobBytes (pulledBlobs env limits ops_replies blob_replies s).dedup ≤
    limits.max_content_bytes
  switched : limits.content = false → pulledBlobs env limits ops_replies blob_replies s = []

private theorem blobBytes_dedup_le (blobs : List (Hash × Bytes)) :
    blobBytes blobs.dedup ≤ blobBytes blobs := by
  have shorter := (List.dedup_sublist blobs).map fun row : Hash × Bytes => row.2.length
  exact shorter.sum_le_sum fun _ _ => Nat.zero_le _

private theorem blobBytes_flatMap {A : Type} (l : List A) (f : A → List (Hash × Bytes)) :
    blobBytes (l.flatMap f) = (l.map fun a => blobBytes (f a)).sum := by
  induction l with
  | nil => rfl
  | cons a l ih =>
      rw [List.flatMap_cons, List.map_cons, List.sum_cons, ← ih]
      simp only [blobBytes, List.map_append, List.sum_append]

private theorem storedBlobs_off (off : limits.content = false) (reply : Msg) (x : Session) :
    storedBlobs env limits reply x = [] := by
  cases reply <;> simp [storedBlobs, asksContent, off]

private theorem contentPhase_within {y : Session} {ended : SessionEnd} (on : limits.content = true)
    (start : y.outcome.content_bytes = 0)
    (run : rounds (contentRound env limits) (missingContent y + 1) blob_replies y = some ended) :
    ended.2.outcome.content_bytes ≤ limits.max_content_bytes ↔
      StaysWithin limits.max_content_bytes (batchSizes env blob_replies y.core) := by
  have spends : ∀ reply (x : Session), x.outcome.content_bytes < limits.max_content_bytes →
      (roundSession (contentRound env limits reply x)).outcome.content_bytes =
        x.outcome.content_bytes + blobBytes (batchOf env reply x.core) := by
    intro reply x below
    rw [(contentRound_stores limits reply x).1, storedBlobs_eq on below]
  have spent : ∀ reply (x : Session), limits.max_content_bytes ≤ x.outcome.content_bytes →
      ∃ last, contentRound env limits reply x = .stop last ∧
        last.2.outcome.content_bytes = x.outcome.content_bytes := by
    intro reply x full
    unfold contentRound
    dsimp only
    split
    · exact ⟨_, rfl, rfl⟩
    · split <;> exact ⟨_, rfl, rfl⟩
  have within := rounds_within_iff (fun reply s => blobBytes (batchOf env reply s)) (afterBatch env)
    Session.core (fun x => x.outcome.content_bytes)
    (fun ended : SessionEnd => ended.2.outcome.content_bytes) limits.max_content_bytes ?_ ?_
    (start ▸ Nat.zero_le _) run
  · rw [start, Nat.sub_zero] at within
    exact within
  · intro reply x next step
    rcases lt_or_ge x.outcome.content_bytes limits.max_content_bytes with below | full
    · have bytes := spends reply x below
      rw [step] at bytes
      exact ⟨below, bytes, (contentRound_follows on below reply).1 next step⟩
    · obtain ⟨last, stopped, -⟩ := spent reply x full
      cases stopped.symm.trans step
  · intro reply x ended step
    rcases lt_or_ge x.outcome.content_bytes limits.max_content_bytes with below | full
    · have bytes := spends reply x below
      rw [step] at bytes
      exact .inr ⟨below, bytes, (contentRound_follows on below reply).2 ended step⟩
    · obtain ⟨last, stopped, same⟩ := spent reply x full
      cases stopped.symm.trans step
      exact .inl ⟨full, same⟩

private theorem contentRounds_account {y : Session} {ended : SessionEnd}
    (run : rounds (contentRound env limits) (missingContent y + 1) blob_replies y = some ended) :
    ended.2.outcome.content_bytes = y.outcome.content_bytes +
      ((visits (contentRound env limits) (missingContent y + 1) blob_replies y).map fun v =>
        blobBytes (storedBlobs env limits v.1 v.2)).sum := by
  refine rounds_account (fun reply x => blobBytes (storedBlobs env limits reply x))
    (fun x => x.outcome.content_bytes) (fun ended : SessionEnd => ended.2.outcome.content_bytes) ?_ ?_ run
  · intro reply x next step
    have bytes := (@contentRound_stores env limits reply x).1
    rw [step] at bytes
    exact bytes
  · intro reply x ended step
    have bytes := (@contentRound_stores env limits reply x).1
    rw [step] at bytes
    exact bytes

/-- A finished pull stays within its budget exactly when content is switched off, or no batch of usable
blobs that the peer has for the node begins below the budget and ends above it. -/
theorem budget_kept_iff
    (finished : pullFromPeer env limits ops_replies blob_replies s = some (.ok (), x)) :
    WithinBudget env limits ops_replies blob_replies s x ↔ limits.content = false ∨
      StaysWithin limits.max_content_bytes (batchSizes env blob_replies (afterOps env ops_replies s)) := by
  unfold pullFromPeer at finished
  cases phase : rounds (opsRound env) (maxOpsPerSession + 1) ops_replies (Session.start s) with
  | none =>
      rw [phase] at finished
      cases finished
  | some ended =>
      obtain ⟨outcome, y⟩ := ended
      have empty : y.outcome.content_bytes = 0 := ops_phase_bytes phase
      rw [phase] at finished
      cases outcome with
      | error e => cases finished
      | ok u =>
          dsimp only at finished
          have left : afterOps env ops_replies s = y.core := by
            unfold afterOps
            rw [phase]
          have total : blobBytes (pulledBlobs env limits ops_replies blob_replies s) =
              x.outcome.content_bytes := by
            rw [contentRounds_account finished, empty, Nat.zero_add, pulledBlobs, contentVisits, phase,
              blobBytes_flatMap]
          have counted : WithinBudget env limits ops_replies blob_replies s x ↔
              x.outcome.content_bytes ≤ limits.max_content_bytes := by
            refine ⟨fun kept => kept.counted, fun kept => ⟨kept, ?_, fun off => ?_⟩⟩
            · exact (blobBytes_dedup_le _).trans (total ▸ kept)
            · exact List.flatMap_eq_nil_iff.mpr fun v _ => storedBlobs_off off v.1 v.2
          rw [counted, left]
          cases on : limits.content with
          | true => simpa using contentPhase_within on empty finished
          | false =>
              refine iff_of_true ?_ (.inl rfl)
              have none_stored : pulledBlobs env limits ops_replies blob_replies s = [] :=
                List.flatMap_eq_nil_iff.mpr fun v _ => storedBlobs_off on v.1 v.2
              rw [← total, none_stored]
              exact Nat.zero_le _

def noOps : Nat → Msg := fun _ => .opsBatch [] false

def oneChunk : Nat → Msg := fun _ => .blobsBatch [(sampleChunkHash, sampleChunk)] false

def samplePull (budget : Nat) : Option SessionEnd :=
  pullFromPeer .plain ⟨true, budget⟩ noOps oneChunk waitingState

def pulledSession (budget : Nat) : Session :=
  match samplePull budget with
  | some (_, x) => x
  | none => Session.start waitingState

private def pullReturned : Option SessionEnd → Bool
  | some (.ok _, _) => true
  | _ => false

private theorem samplePull_finished {budget : Nat} (ok : pullReturned (samplePull budget) = true) :
    samplePull budget = some (.ok (), pulledSession budget) := by
  unfold pulledSession
  cases run : samplePull budget with
  | none =>
      rw [run] at ok
      cases ok
  | some ended =>
      obtain ⟨outcome, x⟩ := ended
      rw [run] at ok
      cases outcome with
      | error e => cases ok
      | ok u => rfl

theorem budget_kept_sample :
    samplePull 3 = some (.ok (), pulledSession 3) ∧
      WithinBudget .plain ⟨true, 3⟩ noOps oneChunk waitingState (pulledSession 3) := by
  have finished := @samplePull_finished 3 (by decide +kernel)
  exact ⟨finished, (budget_kept_iff finished).mpr (by decide +kernel)⟩

/-- The last blob may take a pull past its budget: three bytes are stored under a budget of one. -/
theorem budget_overrun :
    AnyRun .plain sampleIdentity waitingState ∧ samplePull 1 = some (.ok (), pulledSession 1) ∧
      ¬WithinBudget .plain ⟨true, 1⟩ noOps oneChunk waitingState (pulledSession 1) := by
  refine ⟨.step (.step (.boot (blank_new 7) rfl rfl) trivial) trivial,
    samplePull_finished (by decide +kernel), fun within => ?_⟩
  have three : (pulledSession 1).outcome.content_bytes = 3 := by decide +kernel
  have counted := within.counted
  rw [three] at counted
  exact absurd counted (by decide)

end Budget

end NexusFS.Net
