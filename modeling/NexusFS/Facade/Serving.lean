/- GID: NexusFS/Facade/Serving
   source: crates/s3/src/routes.rs, crates/admin/src/routes.rs
   digest: How the two facades serve a file whose content may be deferred. -/

import NexusFS.Core.Sealed
import NexusFS.Net.Fetching

/-!
Both handlers ask what a read lacks, fetch it, and read. The S3 one asks again after the
fetch and refuses while anything is outstanding; the console goes on to the read. The text
of an error and of a time are parameters, and so is the fetcher.
-/

set_option autoImplicit false
set_option relaxedAutoImplicit false

namespace NexusFS.Facade

open NexusFS.Lib NexusFS.Lib.Effect NexusFS.Proto NexusFS.Core NexusFS.Crdt CoreState

/-- A handler: it may change the core, and answers a value or an error of its facade. -/
abbrev Handler (ε α : Type) := EStateM ε CoreState α

section Plumbing

variable {ε α : Type}

/-- `map_err` on a pure check. -/
def Handler.check (f : Err → ε) : Except Err α → Handler ε α
  | .ok a => pure a
  | .error e => throw (f e)

/-- `map_err` on a call of the core. -/
def Handler.call (f : Err → ε) (x : M α) : Handler ε α := fun s =>
  match x s with
  | .ok a t => .ok a t
  | .error e t => .error (f e) t

def Handler.ofExcept : Except ε α → Handler ε α
  | .ok a => pure a
  | .error e => throw e

end Plumbing

def utf8Bytes (text : String) : Bytes := text.toByteArray.data.toList

def constantTimeEq (a b : Bytes) : Bool :=
  if a.length ≠ b.length then false
  else (a.zip b).foldl (fun diff p => diff ||| (p.1 ^^^ p.2)) 0 == 0

def isNotARecipient : Err → Bool
  | .notARecipient _ => true
  | _ => false

/-- `hex::encode` of a hash. -/
def hexHash (hash : Hash) : String := hexPadded 64 hash.val

def hexBytes (bytes : Bytes) : String :=
  bytes.foldl (fun text byte => text ++ hexPadded 2 byte.toNat) ""

section Handlers

variable (env : Env) (describe : Err → String) (iso8601 : U64 → String)

/-- An S3 error: the status, the code, the message and the resource. -/
structure S3Error where
  status : Nat
  code : String
  message : String
  resource : String
  deriving DecidableEq

def noSuchKey (resource : String) : S3Error :=
  ⟨404, "NoSuchKey", "The specified key does not exist.", resource⟩

def internal (err : Err) (resource : String) : S3Error :=
  ⟨500, "InternalError", describe err, resource⟩

def invalid (message resource : String) : S3Error := ⟨400, "InvalidRequest", message, resource⟩

structure S3State where
  token : String
  content : Option ContentFetcher

/-- Optional shared-secret check; `header` is what `x-nexusfs-token` holds, if it is text. -/
def checkAuth (header : Option String) (st : S3State) (resource : String) : Except S3Error Unit :=
  if st.token.isEmpty then pure ()
  else
    let ok := (header.map fun t => constantTimeEq (utf8Bytes t) (utf8Bytes st.token)).getD false
    if ok then pure () else throw ⟨403, "AccessDenied", "Access denied.", resource⟩

def checkBucket (bucket resource : String) : Except S3Error Unit :=
  if bucket.isEmpty || bucket.toList.contains '/' || bucket = "." || bucket = ".." then
    throw (invalid "invalid bucket name" resource)
  else pure ()

def objectPath (bucket key : String) : Except S3Error String := do
  let resource := "/" ++ bucket ++ "/" ++ key
  checkBucket bucket resource
  if key.isEmpty then throw (invalid "empty object key" resource)
  else if ((splitChars '/' key.toList).map String.ofList).any
      (fun part => part.isEmpty || part = "." || part = "..") then
    throw (invalid "object key must not contain empty or relative path segments" resource)
  else pure resource

def etagFor (s : CoreState) (path : String) : Option String := do
  let row ← (statFile s path).toOption
  let (inode, _, _) ← row
  let record ← s.loadInode inode
  record.content.value.node_hash.map hexHash

structure S3Response where
  content_type : String
  etag : String
  last_modified : String
  body : Bytes

def contentUnavailable (outstanding : Nat) (path : String) : S3Error :=
  ⟨503, "ContentUnavailable",
    "The object exists but " ++ toString outstanding ++ " chunk(s) of its content are not held by " ++
      "this node and could not be fetched.", path⟩

/-- What the S3 facade finds missing: after the rounds of its fetcher, or right away without one. -/
def outstandingFor (content : Option ContentFetcher) (path : String) :
    Handler S3Error (List Hash) :=
  match content with
  | some fetcher => Handler.call (internal describe · path) (ensureContent env fetcher path)
  | none => do
      let s ← get
      Handler.check (internal describe · path) (missingChunksForPath env s path)

/-- `get_object` of the S3 facade. -/
def s3GetObject (st : S3State) (bucket key : String) (header : Option String) :
    Handler S3Error S3Response := do
  let path ← Handler.ofExcept (objectPath bucket key)
  Handler.ofExcept (checkAuth header st path)
  let s ← get
  match ← Handler.check (internal describe · path) (statFile s path) with
  | none => throw (noSuchKey path)
  | some (_, _, mtime) => do
      let outstanding ← outstandingFor env describe st.content path
      if !outstanding.isEmpty then throw (contentUnavailable outstanding.length path)
      else do
        let t ← get
        let body ← Handler.check
          (fun e =>
            if isNotARecipient e then ⟨403, "AccessDenied", describe e, path⟩
            else internal describe e path)
          (readFilePath env t path)
        let etag := (etagFor t path).getD ""
        return ⟨"application/octet-stream", "\"" ++ etag ++ "\"", iso8601 mtime, body⟩

abbrev AdminError := Nat × String

structure AdminState where
  token : String
  content : Option ContentFetcher

def requireToken (header : Option String) (expected : String) : Except Nat Unit :=
  if expected.isEmpty then pure ()
  else
    match header with
    | some t => if constantTimeEq (utf8Bytes t) (utf8Bytes expected) then pure () else throw 401
    | none => throw 401

def serverError (err : Err) : AdminError := (500, describe err)

def maxInlineBytes : Nat := 256 * 1024

structure CatResp where
  path : String
  size : U64
  kind : String
  truncated : Bool
  content : Option String
  preview_hex : Option String

def catResp (path : String) (bytes : Bytes) : CatResp :=
  let head := bytes.take (min bytes.length maxInlineBytes)
  let truncated := decide (maxInlineBytes < bytes.length)
  match String.fromUTF8? head.toByteArray with
  | some text => ⟨path, Fin.ofNat _ bytes.length, "text", truncated, some text, none⟩
  | none =>
      ⟨path, Fin.ofNat _ bytes.length, "binary", truncated, none,
        some (hexBytes (head.take (min head.length 64)))⟩

/-- The one request the console makes before a read. That it failed is only logged. -/
def fetchOnce (content : Option ContentFetcher) (path : String) : Handler AdminError Unit :=
  match content with
  | none => pure ()
  | some fetcher => do
      let s ← get
      let wanted ← Handler.check (serverError describe) (missingChunksForPath env s path)
      if wanted.isEmpty then pure ()
      else fun s =>
        match fetcher.fetch 0 wanted s with
        | .ok _ t => .ok () t
        | .error _ t => .ok () t

/-- `fs_cat` of the admin console. -/
def fsCat (st : AdminState) (path : String) (header : Option String) :
    Handler AdminError CatResp := do
  match requireToken header st.token with
  | .error code => throw (code, "unauthorized")
  | .ok () => do
      fetchOnce env describe st.content path
      let t ← get
      let bytes ← Handler.check
        (fun e => if isNotARecipient e then (403, describe e) else serverError describe e)
        (readFilePath env t path)
      return catResp path bytes

end Handlers

section Runs

variable {ε α : Type} {f : Err → ε} {s t : CoreState}

theorem Handler.check_ok {x : Except Err α} {a : α} (run : Handler.check f x s = .ok a t) :
    x = .ok a ∧ s = t := by
  cases x with
  | error e => cases run
  | ok b =>
      cases run
      exact ⟨rfl, rfl⟩

theorem Handler.ofExcept_ok {x : Except ε α} {a : α} (run : Handler.ofExcept x s = .ok a t) :
    x = .ok a ∧ s = t := by
  cases x with
  | error e => cases run
  | ok b =>
      cases run
      exact ⟨rfl, rfl⟩

theorem Handler.call_ok {x : M α} {a : α} (run : Handler.call f x s = .ok a t) :
    x s = .ok a t := by
  unfold Handler.call at run
  cases inner : x s with
  | error e u =>
      rw [inner] at run
      cases run
  | ok b u =>
      rw [inner] at run
      cases run
      rfl

end Runs

section Served

variable {env : Env} {describe : Err → String} {iso8601 : U64 → String} {s t : CoreState}

private theorem outstandingFor_ok {content : Option ContentFetcher} {path : String}
    {outstanding : List Hash}
    (run : outstandingFor env describe content path s = .ok outstanding t) :
    missingChunksForPath env t path = .ok outstanding := by
  unfold outstandingFor at run
  cases content with
  | none =>
      have checked : Handler.check (internal describe · path) (missingChunksForPath env s path) s =
          .ok outstanding t := run
      obtain ⟨missing, rfl⟩ := Handler.check_ok checked
      exact missing
  | some fetcher => exact ensureContent_ok (Handler.call_ok run)

theorem s3GetObject_current {st : S3State} {bucket key : String} {header : Option String}
    {response : S3Response}
    (run : s3GetObject env describe iso8601 st bucket key header s = .ok response t) :
    ∃ path, objectPath bucket key = .ok path ∧ missingChunksForPath env t path = .ok [] ∧
      readFilePath env t path = .ok response.body := by
  unfold s3GetObject at run
  obtain ⟨path, s₁, named, run⟩ := bind_run_eq_ok.mp run
  obtain ⟨isPath, rfl⟩ := Handler.ofExcept_ok named
  obtain ⟨_, s₂, authed, run⟩ := bind_run_eq_ok.mp run
  obtain ⟨-, rfl⟩ := Handler.ofExcept_ok authed
  rw [bind_run, get_run] at run
  obtain ⟨row, s₃, statted, run⟩ := bind_run_eq_ok.mp run
  obtain ⟨-, rfl⟩ := Handler.check_ok statted
  cases row with
  | none => cases run
  | some row =>
      obtain ⟨outstanding, u, asked, run⟩ := bind_run_eq_ok.mp run
      have still := outstandingFor_ok asked
      dsimp only at run
      split at run
      · cases run
      · rename_i nothing
        obtain rfl : outstanding = [] := by simpa using nothing
        rw [bind_run, get_run] at run
        obtain ⟨body, v, read, run⟩ := bind_run_eq_ok.mp run
        obtain ⟨bytes, rfl⟩ := Handler.check_ok read
        cases run
        exact ⟨path, isPath, still, bytes⟩

theorem fsCat_ok_iff {st : AdminState} {path : String} {header : Option String}
    {response : CatResp} :
    fsCat env describe st path header s = .ok response t ↔
      requireToken header st.token = .ok () ∧ fetchOnce env describe st.content path s = .ok () t ∧
        ∃ bytes, readFilePath env t path = .ok bytes ∧ response = catResp path bytes := by
  unfold fsCat
  cases authed : requireToken header st.token with
  | error code =>
      refine iff_of_false (fun run => by cases run) ?_
      rintro ⟨⟨⟩, -⟩
  | ok done =>
      dsimp only
      constructor
      · intro run
        obtain ⟨_, u, fetched, run⟩ := bind_run_eq_ok.mp run
        rw [bind_run, get_run] at run
        obtain ⟨bytes, v, read, run⟩ := bind_run_eq_ok.mp run
        obtain ⟨held, rfl⟩ := Handler.check_ok read
        rw [pure_run] at run
        cases run
        exact ⟨rfl, fetched, bytes, held, rfl⟩
      · rintro ⟨-, fetched, bytes, read, rfl⟩
        rw [bind_run, fetched]
        dsimp only
        rw [bind_run, get_run]
        dsimp only
        rw [read]
        rfl

/-- Whatever a handler serves for the path, nothing is missing for it in the state it read. -/
def ServedCurrent {ε α : Type} (env : Env) (path : String) (run : EStateM.Result ε CoreState α) : Prop :=
  ∀ a t, run = .ok a t → missingChunksForPath env t path = .ok []

private theorem readFilePath_ok_iff {path : String} {bytes : Bytes} :
    readFilePath env s path = .ok bytes ↔
      ∃ inode, resolvePath s path = .ok (some (inode, .file)) ∧ readFile env s inode = .ok bytes := by
  unfold readFilePath
  cases names : resolvePath s path with
  | error e =>
      refine iff_of_false (fun run => by cases run) ?_
      rintro ⟨_, ⟨⟩, -⟩
  | ok found =>
      cases found with
      | none =>
          refine iff_of_false (fun run => by cases run) ?_
          rintro ⟨_, ⟨⟩, -⟩
      | some row =>
          obtain ⟨inode, kind⟩ := row
          cases kind with
          | file =>
              refine ⟨fun run => ⟨inode, rfl, run⟩, ?_⟩
              rintro ⟨_, ⟨⟩, run⟩
              exact run
          | dir =>
              refine iff_of_false (fun run => by cases run) ?_
              rintro ⟨_, ⟨⟩, -⟩

private theorem objectPath_ok {bucket key path : String} (named : objectPath bucket key = .ok path) :
    path = "/" ++ bucket ++ "/" ++ key := by
  unfold objectPath at named
  dsimp only at named
  cases checked : checkBucket bucket ("/" ++ bucket ++ "/" ++ key) with
  | error e =>
      rw [checked] at named
      cases named
  | ok done =>
      simp only [checked, bind, Except.bind] at named
      split at named
      · cases named
      · split at named <;> cases named
        rfl

/-- A file whose content, where it has any, is held, opens and has the lengths that it records. -/
def Legible (env : Env) (s : CoreState) (inode : U128) : Prop :=
  ∃ record, s.loadInode inode = some record ∧ record.kind = .file ∧
    ∀ node_hash, record.content.value.node_hash = some node_hash →
      ∃ file file_key pieces, getObject env s node_hash = .ok (some (.fileNode file)) ∧
        KeyFor env s file.encryption file_key ∧ Reads env s file_key 0 0 file.chunks pieces ∧
        pieces.flatten.length = file.size.val

private theorem exists_readFile_iff {inode : U128} :
    (∃ bytes, readFile env s inode = .ok bytes) ↔ Legible env s inode := by
  unfold readFile
  constructor
  · rintro ⟨bytes, run⟩
    cases found : s.loadInode inode with
    | none =>
        rw [found] at run
        cases run
    | some record =>
        rw [found] at run
        dsimp only at run
        split at run
        · cases run
        · rename_i kind
          refine ⟨record, found, not_not.mp kind, fun node_hash named => ?_⟩
          rw [named] at run
          dsimp only at run
          cases here : getObject env s node_hash with
          | error e =>
              rw [here] at run
              cases run
          | ok object =>
              rw [here] at run
              cases object with
              | none => cases run
              | some object =>
                  cases object with
                  | fileNode file =>
                      obtain ⟨file_key, pieces, key, reads, rfl, size⟩ :=
                        materializeFile_ok_iff.mp run
                      exact ⟨file, file_key, pieces, rfl, key, reads, size⟩
                  | dirNode dir => cases run
                  | snapshotRoot root => cases run
  · rintro ⟨record, found, kind, content⟩
    rw [found]
    dsimp only
    rw [if_neg (not_not.mpr kind)]
    cases named : record.content.value.node_hash with
    | none => exact ⟨[], rfl⟩
    | some node_hash =>
        obtain ⟨file, file_key, pieces, here, key, reads, size⟩ := content node_hash named
        dsimp only
        rw [here]
        exact ⟨_, materializeFile_ok_iff.mpr ⟨file_key, pieces, key, reads, rfl, size⟩⟩

/-- No write to the file that the path names waits for a chunk, unless the file can not be read
anyway. -/
def NoneDeferred (env : Env) (s : CoreState) (path : String) : Prop :=
  ∀ inode, resolvePath s path = .ok (some (inode, .file)) → Legible env s inode →
    PendingHeld s inode

def afterFetch (content : Option ContentFetcher) (wanted : List Hash) (s : CoreState) : CoreState :=
  match content with
  | none => s
  | some fetcher => finalState (fetcher.fetch 0 wanted s)

private theorem fetchOnce_ok_iff {content : Option ContentFetcher} {path : String}
    {wanted : List Hash} (lacking : missingChunksForPath env s path = .ok wanted) :
    fetchOnce env describe content path s = .ok () t ↔
      t = if wanted = [] then s else afterFetch content wanted s := by
  unfold fetchOnce afterFetch
  cases content with
  | none =>
      rw [ite_self]
      exact ⟨fun run => by cases run; rfl, fun same => same ▸ rfl⟩
  | some fetcher =>
      dsimp only
      rw [bind_run, get_run]
      dsimp only
      rw [lacking]
      cases wanted with
      | nil => exact ⟨fun run => by cases run; rfl, fun same => same ▸ rfl⟩
      | cons hash rest =>
          rw [if_neg (List.cons_ne_nil _ _)]
          show (match fetcher.fetch 0 (hash :: rest) s with | .ok _ t => _ | .error _ t => _) = _ ↔ _
          cases fetcher.fetch 0 (hash :: rest) s with
          | ok count u => exact ⟨fun run => by cases run; rfl, fun same => same ▸ rfl⟩
          | error e u => exact ⟨fun run => by cases run; rfl, fun same => same ▸ rfl⟩

private theorem missing_of_readFilePath {path : String} {bytes : Bytes}
    (read : readFilePath env s path = .ok bytes) :
    ∃ wanted, missingChunksForPath env s path = .ok wanted := by
  obtain ⟨inode, names, read⟩ := readFilePath_ok_iff.mp read
  have held := fileHeld_of_readFile read
  unfold missingChunksForPath
  simp only [names, bind, Except.bind, ne_eq, not_true_eq_false, if_false]
  cases found : s.loadInode inode with
  | none => exact ⟨_, rfl⟩
  | some record =>
      dsimp only
      cases named : record.content.value.node_hash with
      | none => exact ⟨_, rfl⟩
      | some node_hash =>
          obtain ⟨object, here, -⟩ := held record node_hash found named
          dsimp only
          unfold objectWanted
          rw [here]
          cases object <;> exact ⟨_, rfl⟩

private theorem missing_of_fetchOnce {content : Option ContentFetcher} {path : String} {bytes : Bytes}
    (fetched : fetchOnce env describe content path s = .ok () t)
    (read : readFilePath env t path = .ok bytes) :
    ∃ wanted, missingChunksForPath env s path = .ok wanted := by
  cases content with
  | none =>
      cases fetched
      exact missing_of_readFilePath read
  | some fetcher =>
      unfold fetchOnce at fetched
      dsimp only at fetched
      rw [bind_run, get_run] at fetched
      obtain ⟨wanted, u, checked, -⟩ := bind_run_eq_ok.mp fetched
      exact ⟨wanted, (Handler.check_ok checked).1⟩

/-- The S3 facade always serves current files. The console does for a request exactly when it refuses
the token, nothing is missing for the file, or the one fetch, if any, leaves no write to it deferred. -/
theorem facades_current_iff (st : S3State) (bucket key : String) (s3_header : Option String)
    (admin : AdminState) (path : String) (admin_header : Option String) :
    ServedCurrent env ("/" ++ bucket ++ "/" ++ key)
        (s3GetObject env describe iso8601 st bucket key s3_header s) ∧
      ServedCurrent env path (fsCat env describe admin path admin_header s) ↔
    (requireToken admin_header admin.token = .ok () →
      ∀ wanted, missingChunksForPath env s path = .ok wanted → wanted ≠ [] →
        NoneDeferred env (afterFetch admin.content wanted s) path) := by
  constructor
  · rintro ⟨-, console⟩ authorized wanted lacking some_missing inode names legible
    obtain ⟨bytes, read⟩ := exists_readFile_iff.mpr legible
    have fetched : fetchOnce env describe admin.content path s =
        .ok () (afterFetch admin.content wanted s) :=
      (fetchOnce_ok_iff lacking).mpr (if_neg some_missing).symm
    have served := fsCat_ok_iff.mpr ⟨authorized, fetched, bytes,
      readFilePath_ok_iff.mpr ⟨inode, names, read⟩, rfl⟩
    exact ((missingChunksForPath_eq_nil names).mp (console _ _ served)).1
  · intro none_deferred
    refine ⟨fun response t run => ?_, fun response t run => ?_⟩
    · obtain ⟨object, named, current, -⟩ := s3GetObject_current run
      exact objectPath_ok named ▸ current
    · obtain ⟨authorized, fetched, bytes, read, -⟩ := fsCat_ok_iff.mp run
      obtain ⟨wanted, lacking⟩ := missing_of_fetchOnce fetched read
      have left := (fetchOnce_ok_iff lacking).mp fetched
      by_cases nothing : wanted = []
      · rw [if_pos nothing] at left
        rw [left, lacking, nothing]
      · rw [if_neg nothing] at left
        obtain ⟨inode, names, read⟩ := readFilePath_ok_iff.mp read
        have parked := none_deferred authorized wanted lacking nothing inode (left ▸ names)
          (left ▸ exists_readFile_iff.mp ⟨bytes, read⟩)
        exact (missingChunksForPath_eq_nil names).mpr ⟨left ▸ parked, fileHeld_of_readFile read⟩

def unreachableFetcher : ContentFetcher := ⟨fun _ _ s => .error .noKeyMaterial s⟩

def servedSize (path : String) : EStateM.Result AdminError CoreState CatResp →
    Option (U64 × Option String × Option (List Hash))
  | .ok response t =>
      some (response.size, response.content, (missingChunksForPath .sealing t path).toOption)
  | .error _ _ => none

private theorem not_current {path : String} {run : EStateM.Result AdminError CoreState CatResp}
    {size : U64} {content : Option String} {hash : Hash} {rest : List Hash}
    (served : servedSize path run = some (size, content, some (hash :: rest))) :
    ¬ServedCurrent .sealing path run := by
  intro current
  cases run with
  | error e t => cases served
  | ok response t =>
      have missing : (missingChunksForPath .sealing t path).toOption = some (hash :: rest) :=
        congrArg (fun row => row.2.2) (Option.some.inj served)
      rw [current response t rfl] at missing
      cases missing

/-- Without a fetcher, and with one that fails, the console serves a file whose only write is parked as
an empty text. -/
theorem console_serves_deferred :
    Net.AnyRun .sealing Net.sampleIdentity Net.parkedState ∧
      [none, some unreachableFetcher].Forall fun content =>
        servedSize "/f" (fsCat .sealing (fun _ => "") ⟨"", content⟩ "/f" none Net.parkedState) =
            some (0, some "", some [Net.firstChunkHash]) ∧
          ¬ServedCurrent .sealing "/f"
            (fsCat .sealing (fun _ => "") ⟨"", content⟩ "/f" none Net.parkedState) := by
  have absent : servedSize "/f" (fsCat .sealing (fun _ => "") ⟨"", none⟩ "/f" none
      Net.parkedState) = some (0, some "", some [Net.firstChunkHash]) := by decide +kernel
  have failing : servedSize "/f" (fsCat .sealing (fun _ => "") ⟨"", some unreachableFetcher⟩ "/f"
      none Net.parkedState) = some (0, some "", some [Net.firstChunkHash]) := by decide +kernel
  exact ⟨Net.parkedState_run, ⟨absent, not_current absent⟩, failing, not_current failing⟩

def supplier : ContentFetcher where
  fetch _ wanted s :=
    match Net.fetchChunks .sealing wanted
        (fun _ => .blobsBatch [(Net.firstChunkHash, Net.firstChunk)] false) s with
    | (.ok count, t) => .ok count t
    | (.error _, t) => .error .noKeyMaterial t

theorem facades_current_sample :
    servedSize "/f" (fsCat .sealing (fun _ => "") ⟨"", some supplier⟩ "/f" none Net.parkedState) =
        some (3, some "\x01\x02\x03", some []) ∧
      ServedCurrent .sealing "/f"
        (fsCat .sealing (fun _ => "") ⟨"", some supplier⟩ "/f" none Net.parkedState) := by
  have before : (missingChunksForPath .sealing Net.parkedState "/f").toOption =
      some [Net.firstChunkHash] := by decide +kernel
  have after : (missingChunksForPath .sealing
      (afterFetch (some supplier) [Net.firstChunkHash] Net.parkedState) "/f").toOption = some [] := by
    decide +kernel
  refine ⟨by decide +kernel, And.right ((@facades_current_iff .sealing (fun _ => "") (fun _ => "")
    Net.parkedState ⟨"", none⟩ "b" "k" none ⟨"", some supplier⟩ "/f" none).mpr
      fun _ wanted lacking _ inode names _ => ?_)⟩
  obtain rfl := Except.ok.inj (lacking.symm.trans (eq_ok_of_toOption before))
  exact ((missingChunksForPath_eq_nil names).mp (eq_ok_of_toOption after)).1

end Served

end NexusFS.Facade
