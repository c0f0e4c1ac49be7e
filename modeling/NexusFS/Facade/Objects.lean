/- GID: NexusFS/Facade/Objects
   source: crates/s3/src/routes.rs
   digest: A node that only the S3 facade writes to is a store of objects in buckets. -/

import NexusFS.Facade.Paging
import NexusFS.Net.Browse

/-!
A key is the path of a file below its bucket. The store knows neither: it maps a bucket and a key to
the bytes that were put there last.
-/

set_option autoImplicit false
set_option relaxedAutoImplicit false

namespace NexusFS.Facade

open NexusFS.Lib NexusFS.Lib.Effect NexusFS.Proto NexusFS.Core NexusFS.Net CoreState

section Keys

variable {bucket key path : String} {parts : List String}

def keyParts (key : String) : List String := (splitChars '/' key.toList).map String.ofList

private theorem splitChars_ne_nil (text : List Char) : splitChars '/' text ≠ [] := by
  cases text with
  | nil => simp [splitChars]
  | cons c text =>
      unfold splitChars
      split
      · simp
      · split <;> simp

private theorem intercalate_splitChars (text : List Char) : ['/'].intercalate (splitChars '/' text) = text := by
  induction text with
  | nil => rfl
  | cons c text ih =>
      unfold splitChars
      cases pieces : splitChars '/' text with
      | nil => exact absurd pieces (splitChars_ne_nil text)
      | cons part rest =>
          rw [pieces] at ih
          split
          · rename_i slash
            subst slash
            rw [List.intercalate_cons_cons, ih]
            rfl
          · dsimp only
            cases rest with
            | nil =>
                rw [List.intercalate_singleton] at ih ⊢
                rw [ih]
            | cons next rest =>
                rw [List.intercalate_cons_cons] at ih ⊢
                rw [← ih]
                rfl

theorem keyParts_ne_nil (key : String) : keyParts key ≠ [] := by
  unfold keyParts
  rw [Ne, List.map_eq_nil_iff]
  exact splitChars_ne_nil _

theorem intercalate_keyParts (key : String) : "/".intercalate (keyParts key) = key := by
  refine String.toList_injective ?_
  have slash : "/".toList = ['/'] := rfl
  have same : String.toList ∘ String.ofList = id := by
    funext chars
    simp
  rw [String.toList_intercalate, slash, keyParts, List.map_map, same, List.map_id]
  exact intercalate_splitChars _

theorem keyParts_intercalate (filled : parts ≠ []) (valid : ∀ part ∈ parts, ValidName part) :
    keyParts ("/".intercalate parts) = parts := by
  cases parts with
  | nil => exact absurd rfl filled
  | cons part rest =>
      have slash : "/".toList = ['/'] := rfl
      have same : String.ofList ∘ String.toList = id := by
        funext name
        simp
      unfold keyParts
      rw [String.toList_intercalate, slash,
        splitChars_joined part rest fun p inside => (validName_iff.mp (valid p inside)).2.1, List.map_map,
        same, List.map_id]

theorem checkBucket_ok_iff {resource : String} : checkBucket bucket resource = .ok () ↔ ValidName bucket := by
  unfold checkBucket
  rw [validName_iff]
  split
  · rename_i bad
    refine iff_of_false (by rintro ⟨⟩) ?_
    rintro ⟨filled, whole, here, up⟩
    simp [filled, whole, here, up] at bad
  · rename_i good
    refine iff_of_true rfl ?_
    simpa [not_or, and_assoc] using good

theorem objectPath_ok_iff : objectPath bucket key = .ok path ↔
    ValidName bucket ∧ (∀ part ∈ keyParts key, ValidName part) ∧ path = "/" ++ bucket ++ "/" ++ key := by
  have parts_valid : (keyParts key).any (fun part => part.isEmpty || part = "." || part = "..") = false ↔
      ∀ part ∈ keyParts key, ValidName part := by
    rw [List.any_eq_false]
    refine forall₂_congr fun part inside => ?_
    obtain ⟨chars, piece, rfl⟩ := List.mem_map.mp inside
    have whole := mem_splitChars piece
    rw [validName_iff, String.toList_ofList]
    simp [whole, not_or, and_assoc]
  unfold objectPath
  dsimp only
  cases checked : checkBucket bucket ("/" ++ bucket ++ "/" ++ key) with
  | error e =>
      refine iff_of_false (by rintro ⟨⟩) ?_
      rintro ⟨valid, -⟩
      cases (checkBucket_ok_iff.mpr valid).symm.trans checked
  | ok done =>
      have valid := checkBucket_ok_iff.mp checked
      dsimp only [bind, Except.bind]
      split
      · rename_i empty
        refine iff_of_false (by rintro ⟨⟩) ?_
        rintro ⟨-, all, -⟩
        obtain rfl := String.isEmpty_iff.mp empty
        exact (validName_iff.mp (all "" (by decide))).1 rfl
      · split
        · rename_i bad
          refine iff_of_false (by rintro ⟨⟩) ?_
          rintro ⟨-, all, -⟩
          have good := parts_valid.mpr all
          unfold keyParts at good
          rw [good] at bad
          cases bad
        · rename_i good
          have all := parts_valid.mp (Bool.eq_false_iff.mpr good)
          constructor
          · intro same
            cases same
            exact ⟨valid, all, rfl⟩
          · rintro ⟨-, -, rfl⟩
            rfl

private theorem pathParts_text (text other : String) {pieces parts : List String}
    (run : pathParts text pieces = .ok parts) : pathParts other pieces = .ok parts := by
  induction pieces generalizing parts with
  | nil => exact run
  | cons piece rest ih =>
      unfold pathParts at run ⊢
      split at run
      · rename_i dropped
        rw [if_pos dropped]
        exact ih run
      · rename_i kept
        split at run
        · cases run
        · rename_i plain
          rw [if_neg kept, if_neg plain]
          obtain ⟨more, later, same⟩ := Effect.bind_eq_ok.mp
            (show (pathParts text rest >>= fun more => .ok (piece :: more)) = .ok parts from run)
          rw [ih later]
          exact same

theorem splitPath_slash {text : String} (split : splitPath text = .ok parts) :
    splitPath ("/" ++ text) = .ok parts := by
  have chars : ("/" ++ text).toList = '/' :: text.toList := by
    rw [String.toList_append]
    rfl
  unfold splitPath at split ⊢
  rw [chars]
  exact pathParts_text _ _ split

theorem splitPath_object (valid : ValidName bucket) (all : ∀ part ∈ keyParts key, ValidName part) :
    splitPath ("/" ++ bucket ++ "/" ++ key) = .ok (bucket :: keyParts key) := by
  have joins : "/" ++ bucket ++ "/" ++ key = "/" ++ "/".intercalate (bucket :: keyParts key) := by
    refine String.toList_injective ?_
    obtain ⟨part, rest, parts⟩ := List.exists_cons_of_ne_nil (keyParts_ne_nil key)
    have whole := congrArg String.toList (intercalate_keyParts key)
    rw [parts] at whole ⊢
    simp only [String.toList_append, String.toList_intercalate, List.map_cons] at whole ⊢
    rw [List.intercalate_cons_cons, whole]
    simp
  rw [joins]
  exact splitPath_slash (splitPath_intercalate _ (List.forall_mem_cons.mpr ⟨valid, all⟩))

theorem splitPath_bucket (valid : ValidName bucket) : splitPath ("/" ++ bucket) = .ok [bucket] := by
  refine splitPath_slash ?_
  have alone := splitPath_intercalate [bucket] (by simpa using valid)
  rwa [String.intercalate_singleton] at alone

end Keys

section Handlers

variable (env : Env) (describe : Err → String) (iso8601 : U64 → String) (identity : Identity)

def listBuckets (st : S3State) (header : Option String) : Handler S3Error (List (String × String)) := do
  Handler.ofExcept (checkAuth header st "/")
  let s ← get
  let entries ← Handler.check (internal describe · "/") (readDirPath s "/")
  return (entries.filter fun e => e.entry_type = .dir).map fun e =>
    (e.name, iso8601 (((s.loadInode e.inode_id).map InodeRecord.ctime_unix_ms).getD 0))

def createBucket (st : S3State) (bucket : String) (header : Option String) (now : U64) :
    Handler S3Error String := do
  let resource := "/" ++ bucket
  Handler.ofExcept (checkAuth header st resource)
  Handler.ofExcept (checkBucket bucket resource)
  let _ ← Handler.call (internal describe · resource) (mkdirP env identity resource now)
  return resource

def putObject (st : S3State) (bucket key : String) (header : Option String) (body : Bytes) (now : U64) :
    Handler S3Error String := do
  Handler.ofExcept (checkAuth header st ("/" ++ bucket ++ "/" ++ key))
  let path ← Handler.ofExcept (objectPath bucket key)
  let _ ← Handler.call (internal describe · path) (writeFile env identity path body now)
  let s ← get
  return "\"" ++ (etagFor s path).getD "" ++ "\""

structure HeadResponse where
  content_length : U64
  etag : String
  last_modified : String

def headObject (st : S3State) (bucket key : String) (header : Option String) :
    Handler S3Error HeadResponse := do
  let path ← Handler.ofExcept (objectPath bucket key)
  Handler.ofExcept (checkAuth header st path)
  let s ← get
  match ← Handler.check (internal describe · path) (statFile s path) with
  | none => throw (noSuchKey path)
  | some (_, size, mtime) => return ⟨size, "\"" ++ (etagFor s path).getD "" ++ "\"", iso8601 mtime⟩

def deleteObject (st : S3State) (bucket key : String) (header : Option String) (now : U64) :
    Handler S3Error Unit := do
  let path ← Handler.ofExcept (objectPath bucket key)
  Handler.ofExcept (checkAuth header st path)
  let s ← get
  match ← Handler.check (internal describe · path) (statFile s path) with
  | none => pure ()
  | some _ => Handler.call (internal describe · path) (removePath env identity path now)

def maxObjectBytes : Nat := 64 * 1024 * 1024

end Handlers

/-- Buckets, and what was put under their keys. -/
structure Store where
  bucket : String → Prop
  object : String → String → Option Bytes

/-- A request that changes the store. -/
inductive S3Call where
  | createBucket (bucket : String)
  | putObject (bucket key : String) (body : Bytes)
  | deleteObject (bucket key : String)

namespace S3Call

def handle (env : Env) (describe : Err → String) (identity : Identity) (st : S3State)
    (header : Option String) (now : U64) : S3Call → Handler S3Error Unit
  | .createBucket bucket => do let _ ← Facade.createBucket env describe identity st bucket header now
  | .putObject bucket key body => do
      let _ ← Facade.putObject env describe identity st bucket key header body now
  | .deleteObject bucket key => Facade.deleteObject env describe identity st bucket key header now

def act : S3Call → Store → Store
  | .createBucket bucket, store => { store with bucket := fun b => b = bucket ∨ store.bucket b }
  | .putObject bucket key body, store =>
      { bucket := fun b => b = bucket ∨ store.bucket b
        object := fun b k => if b = bucket ∧ k = key then some body else store.object b k }
  | .deleteObject bucket key, store =>
      { store with object := fun b k => if b = bucket ∧ k = key then none else store.object b k }

def request : S3Call → Request
  | .createBucket bucket => .mkdir ("/" ++ bucket)
  | .putObject bucket key body => .write ("/" ++ bucket ++ "/" ++ key) body
  | .deleteObject bucket key => .remove ("/" ++ bucket ++ "/" ++ key)

end S3Call

section Trees

variable {tree : FileTree String Bytes} {place path : List String} {data other : Bytes} {name : String}

theorem mkdirs_file_iff {dirs : List String} :
    tree.mkdirs dirs path = some (.file other) ↔ tree path = some (.file other) := by
  unfold FileTree.mkdirs
  split
  · rename_i made
    simp [made.2]
  · rfl

theorem put_file_iff : tree.put place data path = some (.file other) ↔
    if path = place then other = data else tree path = some (.file other) := by
  unfold FileTree.put FileTree.make
  split
  · exact ⟨fun same => (Node.file.inj (Option.some.inj same)).symm, fun same => same ▸ rfl⟩
  · exact mkdirs_file_iff

theorem mkdirs_top {dirs : List String} (top : ∀ data, tree [name] ≠ some (.file data)) :
    (tree.mkdirs dirs [name] = some .dir ↔ [name] <+: dirs ∨ tree [name] = some .dir) ∧
      ∀ data, tree.mkdirs dirs [name] ≠ some (.file data) := by
  refine ⟨?_, fun data made => top data (mkdirs_file_iff.mp made)⟩
  unfold FileTree.mkdirs
  split
  · rename_i made
    exact iff_of_true rfl (.inl made.1)
  · rename_i kept
    refine ⟨.inr, fun either => either.elim (fun first => ?_) id⟩
    cases here : tree [name] with
    | none => exact absurd ⟨first, here⟩ kept
    | some node =>
        cases node with
        | dir => rfl
        | file data => exact absurd here (top data)

end Trees

def Store.empty : Store := ⟨fun _ => False, fun _ _ => none⟩

/-- The tree has only directories at its top, these are the buckets, and the files below them are the
objects. -/
structure Refines (tree : FileTree String Bytes) (store : Store) : Prop where
  top : ∀ name data, tree [name] ≠ some (.file data)
  buckets : ∀ name, store.bucket name ↔ tree [name] = some .dir
  objects : ∀ bucket key data,
    store.object bucket key = some data ↔ tree (bucket :: keyParts key) = some (.file data)

namespace Refines

variable {tree : FileTree String Bytes} {store : Store} {bucket key : String} {body : Bytes}

theorem bare : Refines FileTree.bare Store.empty := by
  refine ⟨?_, fun name => ?_, fun b k data => ?_⟩
  · rintro name data ⟨⟩
  · exact iff_of_false id (by rintro ⟨⟩)
  · exact iff_of_false (by rintro ⟨⟩) (by rintro ⟨⟩)

theorem keyed_inj {b k : String} : b :: keyParts k = bucket :: keyParts key ↔ b = bucket ∧ k = key := by
  constructor
  · intro same
    obtain ⟨rfl, parts⟩ := List.cons.inj same
    refine ⟨rfl, ?_⟩
    rw [← intercalate_keyParts k, parts, intercalate_keyParts]
  · rintro ⟨rfl, rfl⟩
    rfl

theorem createBucket (refines : Refines tree store) :
    Refines (tree.mkdirs [bucket]) ((S3Call.createBucket bucket).act store) := by
  refine ⟨fun name => (mkdirs_top (refines.top name)).2, fun name => ?_, fun b k data => ?_⟩
  · rw [(mkdirs_top (refines.top name)).1, ← refines.buckets]
    refine or_congr_left ⟨?_, ?_⟩
    · rintro rfl
      exact List.prefix_refl _
    · intro inside
      exact (List.cons_prefix_cons.mp inside).1
  · exact (refines.objects b k data).trans mkdirs_file_iff.symm

theorem putObject (refines : Refines tree store) :
    Refines (tree.put (bucket :: keyParts key) body) ((S3Call.putObject bucket key body).act store) := by
  have short : ∀ name, [name] ≠ bucket :: keyParts key :=
    fun name same => keyParts_ne_nil key (List.cons.inj same).2.symm
  have put_top : ∀ name, tree.put (bucket :: keyParts key) body [name] =
      tree.mkdirs (bucket :: (keyParts key).dropLast) [name] := by
    intro name
    unfold FileTree.put FileTree.make
    rw [if_neg (short name), List.dropLast_cons_of_ne_nil (keyParts_ne_nil key)]
  refine ⟨fun name => ?_, fun name => ?_, fun b k data => ?_⟩
  · rw [put_top]
    exact (mkdirs_top (refines.top name)).2
  · rw [put_top, (mkdirs_top (refines.top name)).1, ← refines.buckets]
    refine or_congr_left ⟨?_, ?_⟩
    · rintro rfl
      exact List.prefix_append [name] _
    · intro inside
      exact (List.cons_prefix_cons.mp inside).1
  · rw [put_file_iff]
    unfold S3Call.act
    dsimp only
    simp only [keyed_inj]
    split
    · exact ⟨fun same => (Option.some.inj same).symm, fun same => same ▸ rfl⟩
    · exact refines.objects b k data

theorem deleteObject (refines : Refines tree store)
    (below : ∀ back, back ≠ [] → tree (bucket :: keyParts key ++ back) = none) :
    Refines (tree.remove (bucket :: keyParts key)) ((S3Call.deleteObject bucket key).act store) := by
  have kept : ∀ name, tree.remove (bucket :: keyParts key) [name] = tree [name] := by
    intro name
    unfold FileTree.remove
    rw [if_neg]
    rintro ⟨back, same⟩
    have rest := (List.cons.inj same).2
    exact keyParts_ne_nil key (List.append_eq_nil_iff.mp rest).1
  refine ⟨fun name => ?_, fun name => ?_, fun b k data => ?_⟩
  · rw [kept]
    exact refines.top name
  · rw [kept]
    exact refines.buckets name
  · unfold S3Call.act FileTree.remove
    dsimp only
    by_cases same : b = bucket ∧ k = key
    · obtain ⟨rfl, rfl⟩ := same
      rw [if_pos ⟨rfl, rfl⟩, if_pos (List.prefix_refl _)]
      exact iff_of_false (by rintro ⟨⟩) (by rintro ⟨⟩)
    · rw [if_neg same, refines.objects]
      split
      · rename_i inside
        obtain ⟨back, equal⟩ := inside
        have filled : back ≠ [] := by
          rintro rfl
          rw [List.append_nil] at equal
          exact same (keyed_inj.mp equal.symm)
        rw [← equal, below back filled]
      · rfl

end Refines

section Runs

variable {env : Env} {describe : Err → String} {iso8601 : U64 → String} {identity : Identity}
  {st : S3State} {device : DeviceId} {last : Nat} {clock now : U64} {store : Store} {s t : CoreState}
  {bucket key path : String} {header : Option String}

/-- A call that the facade answered. Its body is not too large, the ids do not run out, and no two byte
strings that are held or written share a hash. -/
structure Answered (env : Env) (describe : Err → String) (identity : Identity) (st : S3State) (last : Nat)
    (header : Option String) (now : U64) (call : S3Call) (s t : CoreState) : Prop where
  answered : call.handle env describe identity st header now s = .ok () t
  room : s.next_counter.val + call.request.cost ≤ last
  apart : Apart env s t []
  written : ∀ bucket key body, call = .putObject bucket key body → body.length ≤ maxObjectBytes ∧
    ∀ inode a b op, Wrote env identity ("/" ++ bucket ++ "/" ++ key) body now s inode a b op t →
      Set.InjOn env.blake3 (writtenBytes env body now a t)

/-- The states of a node that only the facade writes to, with the store that the calls have made. -/
inductive S3Run (env : Env) (describe : Err → String) (identity : Identity) (st : S3State)
    (device : DeviceId) (last : Nat) : U64 → Store → CoreState → Prop
  | boot {s : CoreState} (blank : Blank s) (empty : s.blobs = ∅)
      (size : s.chunk_size ≤ 2 ^ 32 - 1 - 16) (own : s.device_id = device) :
      S3Run env describe identity st device last 0 .empty (booted env s)
  | step {clock now : U64} {store : Store} {s t : CoreState} {header : Option String} {call : S3Call}
      (before : S3Run env describe identity st device last clock store s) (after : clock ≤ now)
      (answered : Answered env describe identity st last header now call s t) :
      S3Run env describe identity st device last now (call.act store) t

theorem createBucket_ok {location : String}
    (ran : createBucket env describe identity st bucket header now s = .ok location t) :
    ValidName bucket ∧ (Request.mkdir ("/" ++ bucket)).perform env identity now s = .ok () t := by
  unfold createBucket at ran
  obtain ⟨_, u, authed, ran⟩ := bind_run_eq_ok.mp ran
  obtain ⟨-, rfl⟩ := Handler.ofExcept_ok authed
  obtain ⟨_, u, checked, ran⟩ := bind_run_eq_ok.mp ran
  obtain ⟨valid, rfl⟩ := Handler.ofExcept_ok checked
  obtain ⟨inode, u, made, ran⟩ := bind_run_eq_ok.mp ran
  cases ran
  refine ⟨checkBucket_ok_iff.mp valid, bind_run_eq_ok.mpr ⟨inode, t, Handler.call_ok made, rfl⟩⟩

theorem putObject_ok {body : Bytes} {tag : String}
    (ran : putObject env describe identity st bucket key header body now s = .ok tag t) :
    splitPath ("/" ++ bucket ++ "/" ++ key) = .ok (bucket :: keyParts key) ∧
      (Request.write ("/" ++ bucket ++ "/" ++ key) body).perform env identity now s = .ok () t := by
  unfold putObject at ran
  obtain ⟨_, u, authed, ran⟩ := bind_run_eq_ok.mp ran
  obtain ⟨-, rfl⟩ := Handler.ofExcept_ok authed
  obtain ⟨path, u, named, ran⟩ := bind_run_eq_ok.mp ran
  obtain ⟨isPath, rfl⟩ := Handler.ofExcept_ok named
  obtain ⟨valid, all, rfl⟩ := objectPath_ok_iff.mp isPath
  obtain ⟨inode, u, wrote, ran⟩ := bind_run_eq_ok.mp ran
  cases ran
  exact ⟨splitPath_object valid all, bind_run_eq_ok.mpr ⟨inode, t, Handler.call_ok wrote, rfl⟩⟩

theorem deleteObject_ok (ran : deleteObject env describe identity st bucket key header now s = .ok () t) :
    splitPath ("/" ++ bucket ++ "/" ++ key) = .ok (bucket :: keyParts key) ∧
      ((statFile s ("/" ++ bucket ++ "/" ++ key) = .ok none ∧ t = s) ∨
        (∃ row, statFile s ("/" ++ bucket ++ "/" ++ key) = .ok (some row)) ∧
          (Request.remove ("/" ++ bucket ++ "/" ++ key)).perform env identity now s = .ok () t) := by
  unfold deleteObject at ran
  obtain ⟨path, u, named, ran⟩ := bind_run_eq_ok.mp ran
  obtain ⟨isPath, rfl⟩ := Handler.ofExcept_ok named
  obtain ⟨valid, all, rfl⟩ := objectPath_ok_iff.mp isPath
  obtain ⟨_, u, authed, ran⟩ := bind_run_eq_ok.mp ran
  obtain ⟨-, rfl⟩ := Handler.ofExcept_ok authed
  rw [bind_run, get_run] at ran
  obtain ⟨row, u, statted, ran⟩ := bind_run_eq_ok.mp ran
  obtain ⟨found, rfl⟩ := Handler.check_ok statted
  refine ⟨splitPath_object valid all, ?_⟩
  cases row with
  | none =>
      cases ran
      exact .inl ⟨found, rfl⟩
  | some row => exact .inr ⟨⟨row, found⟩, Handler.call_ok ran⟩

theorem Answered.granted {call : S3Call} {tree : FileTree String Bytes}
    (answered : Answered env describe identity st last header now call s t)
    (ran : call.request.perform env identity now s = .ok () t) :
    Granted env identity last now call.request tree s t := by
  refine ⟨ran, answered.room, ?_, answered.apart, ?_⟩
  · intro source target same
    cases call <;> cases same
  · intro path data same
    cases call with
    | putObject bucket key body =>
        obtain ⟨small, apart⟩ := answered.written bucket key body rfl
        cases same
        exact ⟨small.trans_lt (by decide), apart⟩
    | createBucket | deleteObject => cases same

theorem S3Run.solo (run : S3Run env describe identity st device last clock store s) (ideal : Ideal env)
    (decodes : ∀ object, env.decodeObject (env.encodeObject object) = some object)
    (inj : Set.InjOn (inodeForOp env) (idsUpTo device last)) (bound : last < 2 ^ 64) :
    ∃ tree seen, seen ≤ clock ∧ SoloRun env identity device last seen tree s ∧ Refines tree store := by
  induction run with
  | boot blank empty size own => exact ⟨_, 0, le_rfl, .boot blank empty size own, .bare⟩
  | @step clock now store s t header call before after answered ih =>
      obtain ⟨tree, seen, early, solo, refines⟩ := ih
      have made : call.request.perform env identity now s = .ok () t →
          SoloRun env identity device last now (call.request.act tree) t :=
        fun ran => solo.step (early.trans after) (answered.granted ran)
      cases call with
      | createBucket bucket =>
          obtain ⟨location, u, ran, rest⟩ := bind_run_eq_ok.mp answered.answered
          cases rest
          obtain ⟨valid, ran⟩ := createBucket_ok ran
          refine ⟨_, now, le_rfl, made ran, ?_⟩
          have parts := Request.components_eq (splitPath_bucket valid)
          show Refines (tree.mkdirs (Request.components ("/" ++ bucket))) _
          rw [parts]
          exact refines.createBucket
      | putObject bucket key body =>
          obtain ⟨tag, u, ran, rest⟩ := bind_run_eq_ok.mp answered.answered
          cases rest
          obtain ⟨split, ran⟩ := putObject_ok ran
          refine ⟨_, now, le_rfl, made ran, ?_⟩
          show Refines (tree.put (Request.components ("/" ++ bucket ++ "/" ++ key)) body) _
          rw [Request.components_eq split]
          exact refines.putObject
      | deleteObject bucket key =>
          obtain ⟨split, ⟨missing, rfl⟩ | ⟨⟨row, found⟩, ran⟩⟩ := deleteObject_ok answered.answered
          · have bears := (solo.bears ideal decodes inj bound).1
            refine ⟨tree, seen, early.trans after, solo, ?_⟩
            have gone : store.object bucket key = none := by
              by_contra there
              obtain ⟨data, here⟩ := Option.ne_none_iff_exists'.mp there
              obtain ⟨_, _, _, found, -⟩ := bears.statFile_eq split ((refines.objects _ _ _).mp here)
              cases missing.symm.trans found
            have same : (S3Call.deleteObject bucket key).act store = store := by
              have objects : (fun b k => if b = bucket ∧ k = key then none else store.object b k) =
                  store.object := by
                funext b k
                split
                · rename_i equal
                  obtain ⟨rfl, rfl⟩ := equal
                  exact gone.symm
                · rfl
              exact congrArg (Store.mk store.bucket) objects
            rw [same]
            exact refines
          · have bears := (solo.bears ideal decodes inj bound).1
            refine ⟨_, now, le_rfl, made ran, ?_⟩
            show Refines (tree.remove (Request.components ("/" ++ bucket ++ "/" ++ key))) _
            rw [Request.components_eq split]
            obtain ⟨inode, size, mtime⟩ := row
            obtain ⟨data, file, -⟩ := (bears.stat_iff split size).mp ⟨inode, mtime, found⟩
            exact refines.deleteObject fun back filled => bears.below_file file filled

end Runs

section Reads

variable {env : Env} {describe : Err → String} {iso8601 : U64 → String} {identity : Identity}
  {st : S3State} {device : DeviceId} {last : Nat} {clock : U64} {store : Store} {s : CoreState}
  {bucket key path : String} {header : Option String} {tree : FileTree String Bytes} {parts : List String}
  {data : Bytes}

theorem outstandingFor_nothing {content : Option ContentFetcher}
    (held : missingChunksForPath env s path = .ok []) :
    outstandingFor env describe content path s = .ok [] s := by
  unfold outstandingFor
  cases content with
  | none =>
      dsimp only
      rw [bind_run, get_run]
      dsimp only
      rw [held]
      rfl
  | some fetcher =>
      have ensured : ensureContent env fetcher path s = .ok [] s := by
        unfold ensureContent
        rw [bind_run, get_run]
        dsimp only
        rw [held]
        rfl
      dsimp only
      unfold Handler.call
      rw [ensured]

theorem s3GetObject_of_file (named : objectPath bucket key = .ok path)
    (authorized : checkAuth header st path = .ok ()) {row : U128 × U64 × U64}
    (statted : statFile s path = .ok (some row)) (held : missingChunksForPath env s path = .ok [])
    (read : readFilePath env s path = .ok data) :
    ∃ response, s3GetObject env describe iso8601 st bucket key header s = .ok response s ∧
      response.body = data := by
  obtain ⟨inode, size, mtime⟩ := row
  refine ⟨⟨"application/octet-stream", "\"" ++ (etagFor s path).getD "" ++ "\"", iso8601 mtime, data⟩, ?_, rfl⟩
  unfold s3GetObject
  rw [named]
  refine bind_run_eq_ok.mpr ⟨path, s, rfl, ?_⟩
  rw [authorized]
  refine bind_run_eq_ok.mpr ⟨(), s, rfl, ?_⟩
  rw [bind_run, get_run]
  dsimp only
  rw [statted]
  refine bind_run_eq_ok.mpr ⟨some (inode, size, mtime), s, rfl, ?_⟩
  refine bind_run_eq_ok.mpr ⟨[], s, outstandingFor_nothing held, ?_⟩
  rw [if_neg (by simp), bind_run, get_run]
  dsimp only
  rw [read]
  rfl

theorem headObject_of_file (named : objectPath bucket key = .ok path)
    (authorized : checkAuth header st path = .ok ()) {inode : U128} {size mtime : U64}
    (statted : statFile s path = .ok (some (inode, size, mtime))) :
    ∃ response, headObject describe iso8601 st bucket key header s = .ok response s ∧
      response.content_length = size := by
  refine ⟨⟨size, "\"" ++ (etagFor s path).getD "" ++ "\"", iso8601 mtime⟩, ?_, rfl⟩
  unfold headObject
  rw [named]
  refine bind_run_eq_ok.mpr ⟨path, s, rfl, ?_⟩
  rw [authorized]
  refine bind_run_eq_ok.mpr ⟨(), s, rfl, ?_⟩
  rw [bind_run, get_run]
  dsimp only
  rw [statted]
  rfl

theorem headObject_ok {response : HeadResponse}
    (ran : headObject describe iso8601 st bucket key header s = .ok response s) :
    ∃ path inode mtime, objectPath bucket key = .ok path ∧
      statFile s path = .ok (some (inode, response.content_length, mtime)) := by
  unfold headObject at ran
  obtain ⟨path, u, named, ran⟩ := bind_run_eq_ok.mp ran
  obtain ⟨isPath, rfl⟩ := Handler.ofExcept_ok named
  obtain ⟨_, u, authed, ran⟩ := bind_run_eq_ok.mp ran
  obtain ⟨-, rfl⟩ := Handler.ofExcept_ok authed
  rw [bind_run, get_run] at ran
  obtain ⟨row, u, statted, ran⟩ := bind_run_eq_ok.mp ran
  obtain ⟨found, rfl⟩ := Handler.check_ok statted
  cases row with
  | none => cases ran
  | some row =>
      obtain ⟨inode, size, mtime⟩ := row
      cases ran
      exact ⟨path, inode, mtime, isPath, found⟩

theorem noSuchKey_of_none (named : objectPath bucket key = .ok path)
    (authorized : checkAuth header st path = .ok ()) (statted : statFile s path = .ok none) :
    s3GetObject env describe iso8601 st bucket key header s = .error (noSuchKey path) s ∧
      headObject describe iso8601 st bucket key header s = .error (noSuchKey path) s := by
  constructor
  · unfold s3GetObject
    rw [named, bind_run]
    show (Handler.ofExcept (checkAuth header st path) >>= _ : Handler S3Error S3Response) s = _
    rw [authorized, bind_run]
    show (get >>= _ : Handler S3Error S3Response) s = _
    rw [bind_run, get_run]
    dsimp only
    rw [statted]
    rfl
  · unfold headObject
    rw [named, bind_run]
    show (Handler.ofExcept (checkAuth header st path) >>= _ : Handler S3Error HeadResponse) s = _
    rw [authorized, bind_run]
    show (get >>= _ : Handler S3Error HeadResponse) s = _
    rw [bind_run, get_run]
    dsimp only
    rw [statted]
    rfl

theorem missing_nothing (bears : Bears env last clock tree s) (split : splitPath path = .ok parts)
    (here : tree parts = some (.file data)) :
    missingChunksForPath env s path = .ok [] ∧ readFilePath env s path = .ok data := by
  have read := (bears.holds.read_iff split).mpr here
  obtain ⟨⟨inode, kind⟩, walk, labelled⟩ := bears.holds.some_iff.mp here
  cases kind with
  | dir => cases labelled
  | file =>
      have resolved := resolvePath_eq_some.mpr ⟨parts, split, leads_iff_walks.mpr walk⟩
      refine ⟨(missingChunksForPath_eq_nil resolved).mpr
        ⟨?_, fileHeld_of_readFile (treeNode_file.mp labelled)⟩, read⟩
      intro id op offset chunks new_size encryption parked
      rw [bears.solo.idle] at parked
      cases parked

private theorem intercalate_append (front back : List (List Char)) (filled : front ≠ []) (more : back ≠ []) :
    ['/'].intercalate (front ++ back) = ['/'].intercalate front ++ '/' :: ['/'].intercalate back := by
  induction front with
  | nil => exact absurd rfl filled
  | cons part front ih =>
      cases front with
      | nil =>
          obtain ⟨next, rest, rfl⟩ := List.exists_cons_of_ne_nil more
          rw [List.singleton_append, List.intercalate_cons_cons, List.intercalate_singleton]
          simp
      | cons next front =>
          rw [List.cons_append, List.cons_append, List.intercalate_cons_cons, List.intercalate_cons_cons,
            ← List.cons_append, ih (by simp)]
          simp

theorem Refines.way (refines : Refines tree store) (root : tree [] = some .dir)
    (all : ∀ part ∈ keyParts key, ValidName part) (gone : store.object bucket key = none)
    (clear : ∀ shorter rest, key = shorter ++ "/" ++ rest → store.object bucket shorter = none)
    {front : List String} (inside : front <+: bucket :: keyParts key) : tree front ≠ some (.file data) := by
  intro here
  cases front with
  | nil =>
      rw [root] at here
      cases here
  | cons b front =>
      obtain ⟨rfl, below⟩ := List.cons_prefix_cons.mp inside
      cases front with
      | nil => exact refines.top _ _ here
      | cons part front =>
          obtain ⟨rest, whole⟩ := below
          have valid : ∀ p ∈ part :: front, ValidName p :=
            fun p member => all p (whole ▸ List.mem_append_left rest member)
          have same := keyParts_intercalate (List.cons_ne_nil part front) valid
          rw [← same, ← refines.objects] at here
          by_cases ends : rest = []
          · rw [ends, List.append_nil] at whole
            rw [whole, intercalate_keyParts, gone] at here
            cases here
          · rw [clear ("/".intercalate (part :: front)) ("/".intercalate rest) ?_] at here
            · cases here
            · refine String.toList_injective ?_
              rw [← intercalate_keyParts key, ← whole]
              simp only [String.toList_append, String.toList_intercalate, List.map_append]
              rw [show "/".toList = ['/'] from rfl, intercalate_append _ _ (by simp) (by simpa using ends)]
              simp

/-- After any calls that were answered, an authorized request for an object is served what was put there
last, whatever may fetch content; and where there is no object, and none along its key, there is no such
key. -/
theorem s3_serves_objects (ideal : Ideal env)
    (decodes : ∀ object, env.decodeObject (env.encodeObject object) = some object)
    (inj : Set.InjOn (inodeForOp env) (idsUpTo device last)) (bound : last < 2 ^ 64)
    (run : S3Run env describe identity st device last clock store s)
    (named : objectPath bucket key = .ok path) (authorized : checkAuth header st path = .ok ()) :
    (∀ data, (∃ response, s3GetObject env describe iso8601 st bucket key header s = .ok response s ∧
        response.body = data) ↔ store.object bucket key = some data) ∧
      (∀ size, (∃ response, headObject describe iso8601 st bucket key header s = .ok response s ∧
        response.content_length = size) ↔
          ∃ data, store.object bucket key = some data ∧ size.val = data.length) ∧
      (store.object bucket key = none →
        (∀ shorter rest, key = shorter ++ "/" ++ rest → store.object bucket shorter = none) →
          s3GetObject env describe iso8601 st bucket key header s = .error (noSuchKey path) s ∧
            headObject describe iso8601 st bucket key header s = .error (noSuchKey path) s) := by
  obtain ⟨tree, seen, -, solo, refines⟩ := run.solo ideal decodes inj bound
  obtain ⟨bears, -⟩ := solo.bears ideal decodes inj bound
  obtain ⟨valid, all, rfl⟩ := objectPath_ok_iff.mp named
  have split := splitPath_object valid all
  refine ⟨fun data => ?_, fun size => ?_, fun gone clear => ?_⟩
  · rw [refines.objects]
    constructor
    · rintro ⟨response, served, rfl⟩
      obtain ⟨path, named', -, read⟩ := s3GetObject_current served
      cases named.symm.trans named'
      exact (bears.holds.read_iff split).mp read
    · intro here
      obtain ⟨held, read⟩ := missing_nothing bears split here
      obtain ⟨_, _, _, statted, -⟩ := bears.statFile_eq split here
      exact s3GetObject_of_file named authorized statted held read
  · simp only [refines.objects]
    rw [← bears.stat_iff split]
    constructor
    · rintro ⟨response, served, rfl⟩
      obtain ⟨path, inode, mtime, named', statted⟩ := headObject_ok served
      cases named.symm.trans named'
      exact ⟨inode, mtime, statted⟩
    · rintro ⟨inode, mtime, statted⟩
      exact headObject_of_file named authorized statted
  · refine noSuchKey_of_none named authorized (bears.statFile_none split fun front data inside => ?_)
    exact refines.way (bears.holds.eq_label (.here _)) all gone clear inside

end Reads

section Lists

variable {env : Env} {describe : Err → String} {iso8601 : U64 → String} {identity : Identity}
  {st : S3State} {device : DeviceId} {last : Nat} {clock : U64} {store : Store} {s : CoreState}
  {bucket : String} {header : Option String} {tree : FileTree String Bytes} {walked : List WalkEntry}

def keyOf (resource : String) (x : WalkEntry) : String := (stripStart (resource ++ "/") x.path).getD x.path

theorem joined_eq (base : String) (names : List String) (filled : names ≠ []) :
    joined base names = base ++ "/" ++ "/".intercalate names := by
  induction names generalizing base with
  | nil => exact absurd rfl filled
  | cons name rest ih =>
      rw [joined_cons]
      cases rest with
      | nil =>
          rw [String.intercalate_singleton]
          rfl
      | cons next rest =>
          rw [ih _ (List.cons_ne_nil _ _)]
          refine String.toList_injective ?_
          simp [String.toList_append, String.toList_intercalate]

theorem trimSlashes_bucket (valid : ValidName bucket) : trimSlashes ("/" ++ bucket) = "/" ++ bucket := by
  obtain ⟨filled, whole, -, -⟩ := validName_iff.mp valid
  unfold trimSlashes
  refine String.toList_injective ?_
  rw [String.toList_ofList]
  rcases List.eq_nil_or_concat' bucket.toList with empty | ⟨front, c, same⟩
  · exact absurd (String.toList_injective empty) filled
  · have plain : c ≠ '/' := by
      rintro rfl
      exact whole (by simp [same])
    rw [String.toList_append, same, ← List.append_assoc, List.reverse_append, List.reverse_singleton,
      List.singleton_append, List.dropWhile_cons_of_neg (by simpa using plain)]
    simp

theorem keyOf_eq {resource key : String} {x : WalkEntry} (path : x.path = resource ++ "/" ++ key) :
    keyOf resource x = key := by
  have chars : x.path.toList = (resource ++ "/").toList ++ key.toList := by
    rw [path]
    exact String.toList_append
  unfold keyOf stripStart
  rw [chars, if_pos (List.isPrefixOf_iff_prefix.mpr (List.prefix_append _ _)), ← String.length_toList,
    List.drop_left, String.ofList_toList]
  rfl

theorem entries_keyed (bears : Bears env last clock tree s) (named : Named tree) (valid : ValidName bucket)
    (listed : walk s ("/" ++ bucket) = .ok walked) :
    (∀ x ∈ walked, x.path = "/" ++ bucket ++ "/" ++ keyOf ("/" ++ bucket) x ∧
      ShowsNode x (tree (bucket :: keyParts (keyOf ("/" ++ bucket) x)))) ∧
    ∀ key node, tree (bucket :: keyParts key) = some node →
      ∃ x ∈ walked, keyOf ("/" ++ bucket) x = key := by
  obtain ⟨-, -, shown, complete⟩ := bears.lists named (splitPath_bucket valid) listed
  rw [trimSlashes_bucket valid] at shown complete
  constructor
  · intro x member
    obtain ⟨front, path, -, shows_it⟩ := shown x member
    rw [joined_eq _ _ (by simp)] at path
    have key := keyOf_eq path
    have there : tree ([bucket] ++ (front ++ [x.name])) ≠ none := by
      intro missing
      rw [missing] at shows_it
      exact shows_it
    have parts : keyParts ("/".intercalate (front ++ [x.name])) = front ++ [x.name] :=
      keyParts_intercalate (by simp) fun part inside => named _ there part (by simp at inside ⊢; tauto)
    rw [key, parts]
    exact ⟨path, shows_it⟩
  · intro key node here
    rcases List.eq_nil_or_concat' (keyParts key) with empty | ⟨front, name, same⟩
    · exact absurd empty (keyParts_ne_nil key)
    · obtain ⟨x, member, path⟩ := complete front name (by
        rw [← same]
        exact Option.ne_none_iff_exists'.mpr ⟨node, here⟩)
      rw [← same, joined_eq _ _ (keyParts_ne_nil key), intercalate_keyParts] at path
      exact ⟨x, member, keyOf_eq path⟩

theorem mem_sortedKeys {resource start : String} {row : KeyRow} :
    row ∈ sortedKeys walked resource start ↔ start.toList <+: row.1.toList ∧
      ∃ x ∈ walked, x.kind = .file ∧ row = (keyOf resource x, x.size, x.mtime_unix_ms) := by
  unfold sortedKeys keyOf
  simp only [List.mem_insertionSort, List.mem_filter, List.mem_map, List.isPrefixOf_iff_prefix,
    decide_eq_true_eq]
  constructor
  · rintro ⟨⟨x, ⟨member, file⟩, rfl⟩, starts⟩
    exact ⟨starts, x, member, file, rfl⟩
  · rintro ⟨starts, x, member, file, rfl⟩
    exact ⟨⟨x, ⟨member, file⟩, rfl⟩, starts⟩

theorem sortedKeys_nodup {resource start : String} (distinct : (walked.map WalkEntry.path).Nodup)
    (keyed : ∀ x ∈ walked, x.path = resource ++ "/" ++ keyOf resource x) :
    ((sortedKeys walked resource start).map Prod.fst).Nodup := by
  have keys : ((walked.filter fun x => x.kind = .file).map (keyOf resource)).Nodup := by
    refine (List.nodup_map_iff_inj_on (distinct.of_map.filter _)).mpr fun x inside y inside' same => ?_
    have inside := List.mem_of_mem_filter inside
    have inside' := List.mem_of_mem_filter inside'
    refine List.inj_on_of_nodup_map distinct inside inside' ?_
    rw [keyed x inside, keyed y inside', same]
  unfold sortedKeys
  refine (((List.perm_insertionSort _ _).map _).nodup_iff).mpr ?_
  refine List.Nodup.sublist (List.Sublist.map _ List.filter_sublist) ?_
  rw [List.map_map]
  exact keys

theorem sortedKeys_files {resource start : String} {way : String → List String}
    (keyed : ∀ x ∈ walked, ShowsNode x (tree (way (keyOf resource x))))
    (complete : ∀ key node, tree (way key) = some node → ∃ x ∈ walked, keyOf resource x = key)
    (key : String) (size : U64) :
    (∃ mtime, (key, size, mtime) ∈ sortedKeys walked resource start) ↔
      start.toList <+: key.toList ∧ ∃ data, tree (way key) = some (.file data) ∧
        size.val = data.length := by
  simp only [mem_sortedKeys]
  constructor
  · rintro ⟨mtime, starts, x, member, file, same⟩
    cases same
    refine ⟨starts, ?_⟩
    have shows_it := keyed x member
    cases here : tree (way (keyOf resource x)) with
    | none =>
        rw [here] at shows_it
        cases shows_it
    | some node =>
        rw [here] at shows_it
        cases node with
        | dir => cases file.symm.trans shows_it.1
        | file data => exact ⟨data, rfl, shows_it.2⟩
  · rintro ⟨starts, data, there, length⟩
    obtain ⟨x, member, rfl⟩ := complete key _ there
    have shows_it := keyed x member
    rw [there] at shows_it
    refine ⟨x.mtime_unix_ms, starts, x, member, shows_it.1, ?_⟩
    rw [Fin.ext (length.trans shows_it.2.symm)]

theorem topDir_iff (bears : Bears env last clock tree s) {name : String} :
    (∃ e, s.lookup rootInode name = some e ∧ e.entry_type = .dir) ↔ tree [name] = some .dir := by
  constructor
  · rintro ⟨e, found, dir⟩
    have walk : Walks (Edge s) rootNode [name] (e.inode_id, .dir) :=
      Walks.cons_iff.mpr ⟨_, ⟨rfl, e, found, by rw [dir]⟩, .here _⟩
    exact bears.holds.eq_label walk
  · intro here
    obtain ⟨⟨i, kind⟩, walk, labelled⟩ := bears.holds.some_iff.mp here
    obtain ⟨_, ⟨-, e, found, rfl⟩, rest⟩ := Walks.cons_iff.mp walk
    obtain rfl : kind = e.entry_type := congrArg Prod.snd (Walks.nil_iff.mp rest)
    refine ⟨e, found, ?_⟩
    cases isDir : e.entry_type with
    | dir => rfl
    | file =>
        rw [isDir] at labelled
        unfold treeNode at labelled
        dsimp only at labelled
        split at labelled <;> cases labelled

theorem listBuckets_of_tree (bears : Bears env last clock tree s)
    (authorized : checkAuth header st "/" = .ok ()) :
    ∃ rows, listBuckets describe iso8601 st header s = .ok rows s ∧
      ∀ name, (∃ created, (name, created) ∈ rows) ↔ tree [name] = some .dir := by
  have resolved : resolvePath s "/" = .ok (some (rootInode, .dir)) := by
    refine resolvePath_eq_some.mpr ⟨[], ?_, .here _⟩
    decide +kernel
  have read : readDirPath s "/" = .ok (s.materializeDir rootInode) := by
    unfold readDirPath
    rw [resolved]
    rfl
  obtain ⟨rows, isRows⟩ : ∃ rows, rows = ((s.materializeDir rootInode).filter fun e =>
      e.entry_type = .dir).map fun e =>
        (e.name, iso8601 (((s.loadInode e.inode_id).map InodeRecord.ctime_unix_ms).getD 0)) := ⟨_, rfl⟩
  refine ⟨rows, ?_, fun name => ?_⟩
  · unfold listBuckets
    rw [authorized]
    refine bind_run_eq_ok.mpr ⟨(), s, rfl, ?_⟩
    rw [bind_run, get_run]
    dsimp only
    rw [read, isRows]
    rfl
  · rw [← topDir_iff bears, isRows]
    simp only [List.mem_map, List.mem_filter, Prod.mk.injEq, Sole.mem_materializeDir bears.solo.sole,
      decide_eq_true_eq]
    constructor
    · rintro ⟨_, e, ⟨found, dir⟩, rfl, rfl⟩
      exact ⟨e, found, dir⟩
    · rintro ⟨e, found, dir⟩
      obtain rfl : e.name = name := by
        rw [lookup_eq_findEntry] at found
        exact (mem_of_findEntry found).2
      exact ⟨_, e, ⟨found, dir⟩, rfl, rfl⟩

/-- After any calls that were answered, an authorized request lists the buckets; and the keys that a
listing of a bucket is made of are those of its objects, each once, with the length of the object. -/
theorem s3_lists_objects (ideal : Ideal env)
    (decodes : ∀ object, env.decodeObject (env.encodeObject object) = some object)
    (inj : Set.InjOn (inodeForOp env) (idsUpTo device last)) (bound : last < 2 ^ 64)
    (run : S3Run env describe identity st device last clock store s)
    (authorized : checkAuth header st "/" = .ok ()) :
    (∃ rows, listBuckets describe iso8601 st header s = .ok rows s ∧
      ∀ name, (∃ created, (name, created) ∈ rows) ↔ store.bucket name) ∧
    ∀ bucket walked start, ValidName bucket → walk s ("/" ++ bucket) = .ok walked →
      store.bucket bucket ∧ ((sortedKeys walked ("/" ++ bucket) start).map Prod.fst).Nodup ∧
        ∀ key size, (∃ mtime, (key, size, mtime) ∈ sortedKeys walked ("/" ++ bucket) start) ↔
          start.toList <+: key.toList ∧ ∃ data, store.object bucket key = some data ∧
            size.val = data.length := by
  obtain ⟨tree, seen, -, solo, refines⟩ := run.solo ideal decodes inj bound
  obtain ⟨bears, -⟩ := solo.bears ideal decodes inj bound
  refine ⟨?_, fun bucket walked start valid listed => ?_⟩
  · obtain ⟨rows, answered, shown⟩ := @listBuckets_of_tree env describe iso8601 st last seen s header tree
      bears authorized
    exact ⟨rows, answered, fun name => (shown name).trans (refines.buckets name).symm⟩
  · obtain ⟨dir, nodup, -, -⟩ := bears.lists solo.named (splitPath_bucket valid) listed
    obtain ⟨keyed, complete⟩ := entries_keyed bears solo.named valid listed
    refine ⟨(refines.buckets bucket).mpr dir, sortedKeys_nodup nodup fun x inside => (keyed x inside).1,
      fun key size => ?_⟩
    rw [sortedKeys_files (fun x inside => (keyed x inside).2) complete]
    simp only [refines.objects]

end Lists

section Sample

def sampleS3 : S3State := ⟨"", none⟩

def answeredState (call : S3Call) (now : U64) (s : CoreState) : CoreState :=
  finalState (call.handle .sealing (fun _ => "") sampleIdentity sampleS3 none now s)

/-- A new bucket, an object in it that is put twice, and one that is put and deleted. -/
def bucketNode : CoreState := answeredState (.createBucket "d") 10 emptyNode

def placedNode : CoreState := answeredState (.putObject "d" "f" [9]) 10 bucketNode

def replacedNode : CoreState := answeredState (.putObject "d" "f" [8, 7]) 11 placedNode

def doubledNode : CoreState := answeredState (.putObject "d" "g" [5]) 12 replacedNode

def clearedNode : CoreState := answeredState (.deleteObject "d" "g") 13 doubledNode

def clearedStore : Store :=
  (S3Call.deleteObject "d" "g").act ((S3Call.putObject "d" "g" [5]).act
    ((S3Call.putObject "d" "f" [8, 7]).act ((S3Call.putObject "d" "f" [9]).act
      ((S3Call.createBucket "d").act .empty))))

/-- A call is answered within the room for ids, and the node holds on to what it has. -/
private def Fits (call : S3Call) (now : U64) (s : CoreState) : Prop :=
  returned (call.handle .sealing (fun _ => "") sampleIdentity sampleS3 none now s) = true ∧
    s.next_counter.val + call.request.cost ≤ 8 ∧ Includes s (answeredState call now s)

private instance (call : S3Call) (now : U64) (s : CoreState) : Decidable (Fits call now s) :=
  inferInstanceAs (Decidable (_ ∧ _ ∧ _))

private theorem bucketNode_fits : Fits (.createBucket "d") 10 emptyNode := by
  decide +kernel

private theorem placedNode_fits : Fits (.putObject "d" "f" [9]) 10 bucketNode ∧
    Retains "/d/f" [9] 10 bucketNode placedNode := by
  decide +kernel

private theorem replacedNode_fits : Fits (.putObject "d" "f" [8, 7]) 11 placedNode ∧
    Retains "/d/f" [8, 7] 11 placedNode replacedNode := by
  decide +kernel

private theorem doubledNode_fits : Fits (.putObject "d" "g" [5]) 12 replacedNode ∧
    Retains "/d/g" [5] 12 replacedNode doubledNode := by
  decide +kernel

private theorem clearedNode_fits : Fits (.deleteObject "d" "g") 13 doubledNode ∧
    objectPath "d" "f" = .ok "/d/f" ∧ objectPath "d" "g" = .ok "/d/g" ∧ "/" ++ "d" = "/d" ∧
    "/" ++ "d" ++ "/" ++ "f" = "/d/f" ∧ "/" ++ "d" ++ "/" ++ "g" = "/d/g" ∧
    (walk clearedNode "/d").toOption.isSome = true ∧ validateName "d" = .ok () := by
  decide +kernel

private theorem S3Call.keyed {call : S3Call} {now : U64} {s t : CoreState} (keyed : Keyed .sealing s)
    (ran : call.handle .sealing (fun _ => "") sampleIdentity sampleS3 none now s = .ok () t) :
    Keyed .sealing t := by
  cases call with
  | createBucket bucket =>
      obtain ⟨location, u, ran, rest⟩ := bind_run_eq_ok.mp ran
      cases rest
      exact Request.keyed _ (createBucket_ok ran).2 keyed
  | putObject bucket key body =>
      obtain ⟨tag, u, ran, rest⟩ := bind_run_eq_ok.mp ran
      cases rest
      exact Request.keyed _ (putObject_ok ran).2 keyed
  | deleteObject bucket key =>
      rcases (deleteObject_ok ran).2 with ⟨-, rfl⟩ | ⟨-, ran⟩
      · exact keyed
      · exact Request.keyed _ ran keyed

private theorem S3Run.call {call : S3Call} {clock now : U64} {store : Store} {s : CoreState}
    (run : S3Run .sealing (fun _ => "") sampleIdentity sampleS3 7 8 clock store s)
    (keyed : Keyed .sealing s) (after : clock ≤ now) (fits : Fits call now s)
    (written : ∀ bucket key body, call = .putObject bucket key body → body.length ≤ maxObjectBytes ∧
      Retains ("/" ++ bucket ++ "/" ++ key) body now s (answeredState call now s)) :
    S3Run .sealing (fun _ => "") sampleIdentity sampleS3 7 8 now (call.act store)
        (answeredState call now s) ∧ Keyed .sealing (answeredState call now s) := by
  have ran := ran_of_returned fits.1
  have keyed' : Keyed .sealing (answeredState call now s) := S3Call.keyed keyed ran
  have answered : Answered .sealing (fun _ => "") sampleIdentity sampleS3 8 none now call s
      (answeredState call now s) := by
    refine ⟨ran, fits.2.1, apart_of_extends keyed keyed' fits.2.2.extends (by simp), ?_⟩
    intro bucket key body same
    obtain ⟨small, retains⟩ := written bucket key body same
    exact ⟨small, fun _ _ _ _ wrote => retains.written keyed keyed' wrote⟩
  exact ⟨run.step after answered, keyed'⟩

theorem clearedNode_run :
    S3Run .sealing (fun _ => "") sampleIdentity sampleS3 7 8 13 clearedStore clearedNode := by
  obtain ⟨deletes, -, -, -, first, second, -⟩ := clearedNode_fits
  have start : S3Run .sealing (fun _ => "") sampleIdentity sampleS3 7 8 0 .empty emptyNode :=
    .boot (blank_new 7) rfl (by decide) rfl
  obtain ⟨made, keyed⟩ := start.call emptyNode_keyed (by decide) bucketNode_fits nofun
  obtain ⟨placed, keyed⟩ := made.call keyed (by decide) placedNode_fits.1 <| by
    intro bucket key body same
    cases same
    rw [first]
    exact ⟨by decide, placedNode_fits.2⟩
  obtain ⟨replaced, keyed⟩ := placed.call keyed (by decide) replacedNode_fits.1 <| by
    intro bucket key body same
    cases same
    rw [first]
    exact ⟨by decide, replacedNode_fits.2⟩
  obtain ⟨doubled, keyed⟩ := replaced.call keyed (by decide) doubledNode_fits.1 <| by
    intro bucket key body same
    cases same
    rw [second]
    exact ⟨by decide, doubledNode_fits.2⟩
  exact (doubled.call keyed (by decide) deletes nofun).1

private theorem storeIds_injective : Set.InjOn (inodeForOp .sealing) (idsUpTo 7 8) := idsUpTo_injOn

theorem s3_serves_objects_sample :
    (∃ response, s3GetObject .sealing (fun _ => "") (fun _ => "") sampleS3 "d" "f" none clearedNode =
      .ok response clearedNode ∧ response.body = [8, 7]) ∧
    s3GetObject .sealing (fun _ => "") (fun _ => "") sampleS3 "d" "g" none clearedNode =
      .error (noSuchKey "/d/g") clearedNode := by
  obtain ⟨-, kept, deleted, -⟩ := clearedNode_fits
  refine ⟨((s3_serves_objects sealing_ideal Env.stored_decode storeIds_injective (by decide)
    clearedNode_run kept rfl).1 [8, 7]).mpr (by decide), ?_⟩
  refine ((s3_serves_objects sealing_ideal Env.stored_decode storeIds_injective (by decide)
    clearedNode_run deleted rfl).2.2 (by decide) ?_).1
  intro shorter rest same
  have slash : '/' ∈ "g".toList := by
    rw [same]
    simp
  cases List.mem_singleton.mp slash

theorem s3_lists_objects_sample :
    ∃ rows walked, listBuckets (fun _ => "") (fun _ => "") sampleS3 none clearedNode =
      .ok rows clearedNode ∧ (∃ created, ("d", created) ∈ rows) ∧ walk clearedNode "/d" = .ok walked ∧
        (∃ mtime, ("f", 2, mtime) ∈ sortedKeys walked "/d" "") ∧
          ∀ size mtime, ("g", size, mtime) ∉ sortedKeys walked "/d" "" := by
  obtain ⟨-, -, -, bucket, -, -, listed, valid⟩ := clearedNode_fits
  obtain ⟨⟨rows, answered, buckets⟩, keys⟩ := @s3_lists_objects .sealing (fun _ => "") (fun _ => "")
    sampleIdentity sampleS3 7 8 13 clearedStore clearedNode none sealing_ideal Env.stored_decode
    storeIds_injective (by decide) clearedNode_run rfl
  cases run : walk clearedNode "/d" with
  | error e =>
      rw [run] at listed
      cases listed
  | ok walked =>
      obtain ⟨-, -, keyed⟩ := keys "d" walked "" valid (bucket ▸ run)
      refine ⟨rows, walked, answered, (buckets "d").mpr (.inl rfl), rfl, ?_, ?_⟩
      · exact (keyed "f" 2).mpr ⟨List.nil_prefix, [8, 7], by decide, rfl⟩
      · intro size mtime inside
        obtain ⟨-, data, here, -⟩ := (keyed "g" size).mp ⟨mtime, inside⟩
        cases here

end Sample

end NexusFS.Facade
