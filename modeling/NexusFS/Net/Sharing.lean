/- GID: NexusFS/Net/Sharing
   source: crates/core/src/share.rs
   digest: Re-sealing and rotation as passes, and where a pass leaves every file it goes over. -/

import NexusFS.Core.Crawl
import NexusFS.Net.Calls
import NexusFS.Net.Passes

set_option autoImplicit false
set_option relaxedAutoImplicit false

namespace NexusFS.Net

open NexusFS.Lib NexusFS.Lib.Effect NexusFS.Proto NexusFS.Core NexusFS.Crdt

section Folds

variable {env : Env} {identity : Identity} {now : U64} {plan : Plan} {s t : CoreState}
  {row : U128 × Hash} {rows : List (U128 × Hash)}

theorem rewriteFile_ok {make : M Content} (run : rewriteFile env identity now row make s = .ok () t) :
    ∃ content b op, make s = .ok content b ∧ applyLocal env identity
      (.write row.1 0 content.1 content.2.1 content.2.2) now b = .ok op t := by
  unfold rewriteFile at run
  rw [bind_run] at run
  cases made : make s with
  | error e b =>
      rw [made] at run
      cases run
  | ok content b =>
      rw [made] at run
      dsimp only at run
      rw [bind_run] at run
      cases wrote : applyLocal env identity (.write row.1 0 content.1 content.2.1 content.2.2) now b with
      | error e u =>
          rw [wrote] at run
          cases run
      | ok op u =>
          rw [wrote] at run
          cases run
          exact ⟨content, b, op, rfl, wrote⟩

/-- A turn that returned passed over its file, or rewrote it by the plan and counted one more. -/
def Follows (env : Env) (identity : Identity) (now : U64) (plan : Plan) {R : Type} (count : R → Nat)
    (turn : R → U128 × Hash → M R) : Prop :=
  ∀ {report row s report' t}, turn report row s = .ok report' t →
    (plan s row = none ∧ t = s ∧ count report' = count report) ∨
      ∃ make, plan s row = some make ∧ rewriteFile env identity now row make s = .ok () t ∧
        count report' = count report + 1

theorem Follows.pass {R : Type} {count : R → Nat} {turn : R → U128 × Hash → M R}
    (follows : Follows env identity now plan count turn) {report report' : R}
    (run : rows.foldlM turn report s = .ok report' t) :
    ∃ ws, Pass env identity now plan s rows ws t ∧ count report' = count report + ws.length := by
  induction rows generalizing report s with
  | nil =>
      cases run
      exact ⟨[], .nil _, rfl⟩
  | cons row rows ih =>
      rw [List.foldlM_cons, bind_run] at run
      cases first : turn report row s with
      | error e u =>
          rw [first] at run
          cases run
      | ok middle u =>
          rw [first] at run
          obtain ⟨ws, rest, total⟩ := ih run
          rcases follows first with ⟨idle, rfl, same⟩ | ⟨make, due, rewrote, more⟩
          · exact ⟨ws, .skip idle rest, by rw [total, same]⟩
          · obtain ⟨content, b, op, made, wrote⟩ := rewriteFile_ok rewrote
            refine ⟨⟨row, s, content, b, u⟩ :: ws, @Pass.turn env identity now plan t rows ws
              ⟨row, s, content, b, u⟩ make op due made wrote rest, ?_⟩
            rw [total, more, List.length_cons]
            omega

end Folds

section Landings

variable {env : Env} {ids : Set OpId} {identity : Identity} {now : U64} {plan : Plan} {s t : CoreState}
  {ws : List Rewrite}

def heldNode (env : Env) (t : CoreState) (hash : Hash) : Option FileNode :=
  match getObject env t hash with
  | .ok (some (.fileNode file)) => some file
  | _ => none

theorem heldNode_eq_some {hash : Hash} {file : FileNode} :
    heldNode env t hash = some file ↔ getObject env t hash = .ok (some (.fileNode file)) := by
  unfold heldNode
  constructor
  · intro held
    split at held
    · rename_i object
      rw [object, Option.some.inj held]
    · cases held
  · intro object
    rw [object]

def dueRows (plan : Plan) (s : CoreState) : List (U128 × Hash) :=
  (encryptedFiles s).filter fun row => (plan s row).isSome

def spareFiles (plan : Plan) (s : CoreState) : Set U128 :=
  {i | ∀ row ∈ dueRows plan s, row.1 ≠ i}

/-- Nothing parked gets in the way of a pass from `s` that stores the content in `own`: it does no harm, or
writes a file in `loose` and leaves something `good` if the file is `free`, or writes a file of the pass
under a key below the pass's own. The ids that the pass takes are not parked, and nothing that a listed
file lacks can come to be stored. -/
structure Uncontested (env : Env) (now : U64) (plan : Plan) (own world : Set Bytes)
    (loose free : Set U128) (good : Object → Prop) (s : CoreState) : Prop where
  parked : ∀ {id : OpId} {op}, s.pending[id]? = some op →
    Tolerated env (Beyond env own s world) loose free good now (dueRows plan s) s op
  unparked : ∀ i < (encryptedFiles s).length, s.pending[ownId s i]? = none
  few : (encryptedFiles s).length ≤ 2 ^ 64
  lacks : ∀ row ∈ encryptedFiles s, ∀ hash, Names env s row hash →
    s.hasBlob hash ∨ Beyond env own s world hash

/-- The byte strings that a pass has to do with are in `world`, where no two share a hash. -/
structure Within (env : Env) (identity : Identity) (now : U64) (plan : Plan) (world : Set Bytes)
    (s : CoreState) : Prop where
  apart : Set.InjOn env.blake3 world
  held : ∀ (hash : Hash) bytes, s.blobs[hash]? = some bytes → bytes ∈ world
  touched : ∀ w ∈ rewrites env identity now plan (encryptedFiles s) s,
    ∀ bytes ∈ w.touched env identity now, bytes ∈ world

theorem names_held (complete : ∀ row ∈ encryptedFiles s, s.hasBlob row.2 ∧
      ∀ file ∈ heldNode env s row.2, ∀ chunk ∈ file.chunks, s.hasBlob chunk.hash) :
    ∀ row ∈ encryptedFiles s, ∀ hash, Names env s row hash → s.hasBlob hash := by
  rintro row member hash (rfl | ⟨file, found, chunk, inside, rfl⟩)
  · exact (complete row member).1
  · exact (complete row member).2 file (heldNode_eq_some.mpr found) chunk inside

theorem within_stored (held : ∀ row ∈ s.blobs.toList, t.blobs[env.blake3 row.2]? = some row.2)
    (touched : ∀ w ∈ rewrites env identity now plan (encryptedFiles s) s,
      ∀ bytes ∈ w.touched env identity now, t.blobs[env.blake3 bytes]? = some bytes) :
    Within env identity now plan {b | t.blobs[env.blake3 b]? = some b} s where
  apart := by
    intro a left b right same
    have one : t.blobs[env.blake3 a]? = some a := left
    rw [same, (right : t.blobs[env.blake3 b]? = some b)] at one
    exact (Option.some.inj one).symm
  held hash bytes here := held (hash, bytes) ((BTreeMap.mem_toList _ _ _).mpr here)
  touched := touched

/-- What a pass over all files does: which it rewrites, and what becomes of each. -/
structure Lands (env : Env) (now : U64) (plan : Plan) (loose free : Set U128) (good : Object → Prop)
    (s : CoreState) (ws : List Rewrite) (t : CoreState) : Prop where
  kept : Core.Kept (loose ∪ {i | ∃ w ∈ ws, w.row.1 = i}) {id | ∃ j < ws.length, id = ownId s j} s t
  stored : Extends s t
  rows : ws.map Rewrite.row = dueRows plan s
  tight : ∀ w ∈ ws, w.row.1 ∉ loose
  same : ∀ row ∈ encryptedFiles s, SameRow env s row t
  made : ∀ w ∈ ws, SameRow env s w.row w.start ∧ Extends w.before t ∧
    ∃ make, plan s w.row = some make ∧ make w.start = .ok w.content w.before
  landed : ∀ i w, ws[i]? = some w → ∃ reg, FileAt w.row.1 reg s ∧
    reg.value.node_hash = some w.row.2 ∧ Landed env now s t i w reg
  loosed : ∀ i ∈ loose, contentAt t i = contentAt s i ∨
    ∃ reg, contentAt t i = some reg ∧ (i ∈ free → Carries env good t reg)

theorem Pass.lands {own world : Set Bytes} {loose free : Set U128} {good : Object → Prop}
    (ideal : Ideal env) (pass : Pass env identity now plan s (encryptedFiles s) ws t)
    (uncontested : Uncontested env now plan own world loose free good s)
    (within : Within env identity now plan world s) (stores : plan.Stores env)
    (orderly : Orderly env ids s) (keyed : Keyed env s) (inside : free ⊆ loose)
    (tight : ∀ row ∈ dueRows plan s, row.1 ∉ loose)
    (steady : ∀ row u, SameRow env s row u → plan u row = plan s row)
    (makes : ∀ row ∈ encryptedFiles s, ∀ u make content b, plan s row = some make → Stays env own s u →
      make u = .ok content b → Stays env own s b ∧ chunksFormWholeFile content.1 content.2.1) :
    Lands env now plan loose free good s ws t := by
  obtain ⟨parked, unparked, few, lacks⟩ := uncontested
  obtain ⟨apart, held, touched⟩ := within
  rw [pass.rewrites] at touched
  have stayed := pass.stayed ideal apart stores keyed (.refl env own s) (.refl s)
    (fun hash bytes here => ⟨held hash bytes here, keyed hash bytes here⟩) lacks
    (fun row _ u same => steady row u same) makes touched
  have rows : ws.map Rewrite.row = dueRows plan s := stayed.due
  have tight_ws : ∀ w ∈ ws, w.row.1 ∉ loose := fun w member =>
    tight w.row (rows ▸ List.mem_map_of_mem member)
  have fewer : ws.length ≤ (encryptedFiles s).length := by
    have filtered := List.length_filter_le (fun row => (plan s row).isSome) (encryptedFiles s)
    rw [← stayed.due, List.length_map] at filtered
    exact filtered
  have files : ∀ row ∈ encryptedFiles s, ∃ reg, FileAt row.1 reg s ∧
      reg.value.node_hash = some row.2 := fun row member => orderly.shape.encryptedFiles_fileAt member
  have passed : Passed env (Beyond env own s world) loose free good now s ws t := by
    refine (pass.passed ideal apart stores keyed (encryptedFiles_distinct s)
      (fun row member => (files row member).imp fun _ both => both.1) orderly.queue.keyed
      (fun here => rows ▸ parked here) inside tight_ws (by omega) (fun i below => unparked i (by omega))
      stayed.covers touched).resolve_left ?_
    rintro ⟨hash, beyond, here⟩
    exact beyond.not_held stayed.stays stayed.within here
  refine ⟨passed.kept, passed.stored, rows, tight_ws,
    fun row member => sameRow_of_stays stayed.stays stayed.grew stayed.within (lacks row member),
    fun w member => ⟨stayed.same w member, stayed.finish w member, ?_⟩, fun i w here => ?_,
    fun i loosed => ?_⟩
  · obtain ⟨make, due, made⟩ := pass.made_by w member
    exact ⟨make, (steady w.row w.start (stayed.same w member)) ▸ due, made⟩
  · obtain ⟨reg, file, named⟩ := files w.row (pass.row_mem w (List.mem_of_getElem? here))
    exact ⟨reg, file, named, passed.landed i w here reg file⟩
  · refine (passed.sourced i fun w member same => tight_ws w member (same ▸ loosed)).imp_right ?_
    rintro ⟨_, _, reg, -, -, -, here, -, carries⟩
    exact ⟨reg, here, carries⟩

variable {loose free : Set U128} {good : Object → Prop}

/-- What became of a listed file that the pass keeps hold of: it is as before, and no turn won it, or a turn
took it. -/
inductive Outcome (env : Env) (now : U64) (s : CoreState) (ws : List Rewrite) (t : CoreState)
    (row : U128 × Hash) : Prop
  | kept {reg : LwwReg ContentState} (before : FileAt row.1 reg s) (after : FileAt row.1 reg t)
      (listed : row ∈ encryptedFiles t)
      (lost : ∀ i w, ws[i]? = some w → w.row = row → ¬Wins now s i reg)
  | took {i : Nat} {w : Rewrite} {reg : LwwReg ContentState} (turn : ws[i]? = some w)
      (own : w.row = row) (before : FileAt row.1 reg s) (wins : Wins now s i reg)
      (after : FileAt row.1 (w.register env now) t)
      (listed : (row.1, objectHash env (w.object now)) ∈ encryptedFiles t)
      (stored : t.blobs[objectHash env (w.object now)]? = some (encodeObject env (w.object now)))

variable {row : U128 × Hash}

theorem Lands.member (lands : Lands env now plan loose free good s ws t) {i : Nat} {w : Rewrite}
    (turn : ws[i]? = some w) : w.row ∈ encryptedFiles s := by
  have inside : w.row ∈ ws.map Rewrite.row := List.mem_map_of_mem (List.mem_of_getElem? turn)
  rw [lands.rows] at inside
  exact List.mem_of_mem_filter inside

theorem Lands.index (lands : Lands env now plan loose free good s ws t) {i j : Nat} {w x : Rewrite}
    (turn : ws[i]? = some w) (turn' : ws[j]? = some x) (same : w.row = x.row) : i = j := by
  have nodup : (ws.map Rewrite.row).Nodup := by
    rw [lands.rows]
    exact (List.Nodup.of_map _ (encryptedFiles_distinct s)).filter _
  have below : i < (ws.map Rewrite.row).length := by
    rw [List.length_map]
    exact (List.getElem?_eq_some_iff.mp turn).1
  refine (List.getElem?_inj below nodup).mp ?_
  rw [List.getElem?_map, List.getElem?_map, turn, turn']
  exact congrArg some same

theorem Lands.listed (lands : Lands env now plan loose free good s ws t) (member : row ∈ encryptedFiles s)
    {hash : Hash} (named : nodeHashOf t row.1 = some hash) : (row.1, hash) ∈ encryptedFiles t :=
  encryptedFiles_later lands.kept.dirs member named

theorem Lands.outcome (lands : Lands env now plan loose free good s ws t) (shape : Shape env ids s)
    (member : row ∈ encryptedFiles s) (tight : row.1 ∉ loose) : Outcome env now s ws t row := by
  by_cases rewritten : ∃ (i : Nat) (w : Rewrite), ws[i]? = some w ∧ w.row = row
  · obtain ⟨i, w, turn, rfl⟩ := rewritten
    obtain ⟨reg, file, named, landed⟩ := lands.landed i w turn
    cases landed with
    | lost lost after =>
        refine .kept file after (lands.listed member (after.nodeHashOf.trans named)) fun j x turn' same => ?_
        rwa [lands.index turn' turn same]
    | took wins after stored =>
        exact .took turn rfl file wins after (lands.listed member after.nodeHashOf) stored
  · obtain ⟨reg, file, named⟩ := shape.encryptedFiles_fileAt member
    have after : FileAt row.1 reg t := by
      refine lands.kept.fileAt ?_ file
      rintro (loosed | ⟨w, inside, same⟩)
      · exact tight loosed
      · obtain ⟨i, turn⟩ := List.mem_iff_getElem?.mp inside
        exact rewritten ⟨i, w, turn, encryptedFiles_ext (lands.member turn) member same⟩
    exact .kept file after (lands.listed member (after.nodeHashOf.trans named)) fun i w turn same =>
      absurd ⟨i, w, turn, same⟩ rewritten

theorem Lands.before (lands : Lands env now plan loose free good s ws t) (listed : row ∈ encryptedFiles t)
    {hash : Hash} (named : nodeHashOf s row.1 = some hash) : (row.1, hash) ∈ encryptedFiles s :=
  encryptedFiles_later lands.kept.dirs.symm listed named

theorem Lands.before_tight (lands : Lands env now plan loose free good s ws t)
    (listed : row ∈ encryptedFiles t) (tight : row.1 ∉ loose) : ∃ old ∈ encryptedFiles s, old.1 = row.1 := by
  by_cases rewritten : ∃ w ∈ ws, w.row.1 = row.1
  · obtain ⟨w, member, same⟩ := rewritten
    obtain ⟨i, turn⟩ := List.mem_iff_getElem?.mp member
    exact ⟨w.row, lands.member turn, same⟩
  · refine ⟨row, lands.before listed ?_, rfl⟩
    have same := lands.kept.content row.1 fun inside => inside.elim tight rewritten
    rw [← nodeHashOf_congr same]
    exact encryptedFiles_named listed

def LiveNode (env : Env) (t : CoreState) (inode : U128) (file : FileNode) : Prop :=
  ∃ reg hash, FileAt inode reg t ∧ reg.value.node_hash = some hash ∧
    getObject env t hash = .ok (some (.fileNode file))

theorem LiveNode.unique {inode : U128} {file other : FileNode} (live : LiveNode env t inode file)
    (live' : LiveNode env t inode other) : file = other := by
  obtain ⟨reg, hash, at_file, named, object⟩ := live
  obtain ⟨reg', hash', at_file', named', object'⟩ := live'
  obtain rfl := Option.some.inj (at_file.contentAt.symm.trans at_file'.contentAt)
  obtain rfl := Option.some.inj (named.symm.trans named')
  rw [object] at object'
  exact Object.fileNode.inj (Option.some.inj (Except.ok.inj object'))

def liveNode (env : Env) (t : CoreState) (inode : U128) : Option FileNode :=
  ((t.loadInode inode).bind fun record =>
    if record.kind = .file then record.content.value.node_hash else none).bind (heldNode env t)

theorem liveNode_eq_some {inode : U128} {file : FileNode} :
    liveNode env t inode = some file ↔ LiveNode env t inode file := by
  unfold liveNode
  constructor
  · intro live
    obtain ⟨hash, first, object⟩ := Option.bind_eq_some_iff.mp live
    obtain ⟨record, found, named⟩ := Option.bind_eq_some_iff.mp first
    split at named
    · rename_i kind
      exact ⟨record.content, hash, ⟨record, found, kind, rfl⟩, named, heldNode_eq_some.mp object⟩
    · cases named
  · rintro ⟨reg, hash, ⟨record, found, kind, rfl⟩, named, object⟩
    rw [found, Option.bind_some, if_pos kind, named, Option.bind_some]
    exact heldNode_eq_some.mpr object

theorem liveNode_of_took (decodes : ∀ object, env.decodeObject (env.encodeObject object) = some object)
    {w : Rewrite} (after : FileAt row.1 (w.register env now) t)
    (stored : t.blobs[objectHash env (w.object now)]? = some (encodeObject env (w.object now))) :
    ∃ file, w.object now = .fileNode file ∧ file.chunks = w.content.1 ∧ file.size = w.content.2.1 ∧
      file.encryption = w.content.2.2 ∧ LiveNode env t row.1 file ∧
      getObject env t (objectHash env (w.object now)) = .ok (some (.fileNode file)) := by
  have object : getObject env t (objectHash env (w.object now)) = .ok (some (.fileNode _)) :=
    getObject_found decodes stored
  exact ⟨_, rfl, rfl, rfl, rfl, ⟨_, _, after, rfl, object⟩, object⟩

theorem Lands.clean_iff (lands : Lands env now plan loose free good s ws t) (shape : Shape env ids s)
    {recipients : List Hash}
    (fresh : ∀ (i : Nat) (w : Rewrite), ws[i]? = some w → FileAt w.row.1 (w.register env now) t →
      t.blobs[objectHash env (w.object now)]? = some (encodeObject env (w.object now)) →
      UpToDate env recipients t (w.row.1, objectHash env (w.object now)))
    (idle : ∀ row ∈ encryptedFiles s, row.1 ∈ loose → UpToDate env recipients s row)
    (left : ∀ i ∈ loose, ∀ reg hash, contentAt t i = some reg → reg.value.node_hash = some hash →
      contentAt t i ≠ contentAt s i → UpToDate env recipients t (i, hash)) :
    (∀ row ∈ encryptedFiles t, UpToDate env recipients t row) ↔
      ∀ row ∈ encryptedFiles s, UpToDate env recipients s row ∨
        ∃ i w reg, ws[i]? = some w ∧ w.row = row ∧ FileAt row.1 reg s ∧ Wins now s i reg := by
  have same : ∀ row ∈ encryptedFiles s, UpToDate env recipients t row ↔ UpToDate env recipients s row := by
    intro row member
    have same := lands.same row member
    unfold UpToDate
    rw [same.object, same.stale]
  constructor
  · intro clean row member
    by_cases loosed : row.1 ∈ loose
    · exact .inl (idle row member loosed)
    · cases lands.outcome shape member loosed with
      | kept before after listed lost => exact .inl ((same row member).mp (clean row listed))
      | took turn own before wins after listed stored => exact .inr ⟨_, _, _, turn, own, before, wins⟩
  · intro clean row listed
    by_cases loosed : row.1 ∈ loose
    · have named := encryptedFiles_named listed
      by_cases still : contentAt t row.1 = contentAt s row.1
      · rw [nodeHashOf_congr still] at named
        have member := lands.before listed named
        exact (same row member).mpr (idle row member loosed)
      · rw [nodeHashOf_eq] at named
        obtain ⟨reg, here, hash⟩ := Option.bind_eq_some_iff.mp named
        exact left row.1 loosed reg row.2 here hash still
    · obtain ⟨old, member, inode⟩ := lands.before_tight listed loosed
      cases lands.outcome shape member (inode ▸ loosed) with
      | kept before after listed' lost =>
          obtain rfl := encryptedFiles_ext listed' listed inode
          refine (same old member).mpr ((clean old member).resolve_right ?_)
          rintro ⟨i, w, reg, turn, own, before', wins⟩
          obtain rfl := Option.some.inj (before.contentAt.symm.trans before'.contentAt)
          exact lost i w turn own wins
      | took turn own before wins after listed' stored =>
          rename_i i w reg
          obtain rfl := encryptedFiles_ext listed' listed inode
          subst own
          exact fresh i w turn after stored

end Landings

section Plans

variable {env : Env} {identity : Identity} {now : U64} {recipients : List Hash} {target : Option U128}
  {s u : CoreState} {row : U128 × Hash}

def resealPlan (env : Env) (recipients : List Hash) : Plan := fun s row =>
  (stale env recipients s row).map (resealContent env recipients)

def rotationPlan (env : Env) (target : Option U128) : Plan := fun s row =>
  (rotatable env target s row).map (rotatedContent env)

private theorem then_pure {R : Type} {make : M Unit} {made r : R} {s t : CoreState}
    (run : (do make; pure made : M R) s = .ok r t) : make s = .ok () t ∧ r = made := by
  rw [bind_run] at run
  cases first : make s with
  | error e u =>
      rw [first] at run
      cases run
  | ok _ u =>
      rw [first] at run
      cases run
      exact ⟨rfl, rfl⟩

theorem follows_resealFile : Follows env identity now (resealPlan env recipients) ShareReport.resealed
    (resealFile env identity recipients now false) := by
  intro report row s report' t run
  obtain ⟨found, object⟩ := resealFile_object run
  obtain ⟨other, idle | ⟨old, due, turn⟩, same⟩ := resealFile_cases object report
  · obtain ⟨idle, turn⟩ := idle
    rw [turn] at run
    cases run
    refine .inl ⟨?_, rfl, same⟩
    unfold resealPlan
    rw [idle]
    rfl
  · rw [turn] at run
    obtain ⟨rewrote, rfl⟩ := then_pure run
    refine .inr ⟨_, ?_, rewrote, congrArg (· + 1) same⟩
    unfold resealPlan
    rw [due]
    rfl

theorem follows_rotateFile : Follows env identity now (rotationPlan env target) RotateReport.rotated
    (rotateFile env identity target now false) := by
  intro report row s report' t run
  unfold rotationPlan
  by_cases outside : target.any (· ≠ row.1)
  · unfold rotateFile at run
    unfold rotatable
    rw [if_pos outside] at run ⊢
    cases run
    exact .inl ⟨rfl, rfl, rfl⟩
  · obtain ⟨found, object⟩ := rotateFile_object outside run
    obtain ⟨other, idle | ⟨plain, due, turn⟩, same⟩ := rotateFile_cases object report
    · obtain ⟨idle, turn⟩ := idle
      rw [turn] at run
      cases run
      rw [idle]
      exact .inl ⟨rfl, rfl, same⟩
    · rw [turn] at run
      obtain ⟨rewrote, rfl⟩ := then_pure run
      rw [due]
      exact .inr ⟨_, rfl, rewrote, congrArg (· + 1) same⟩

theorem resealPlan_stores (env : Env) (recipients : List Hash) : (resealPlan env recipients).Stores env := by
  intro s row make content b due made
  obtain ⟨found, -, rfl⟩ := Option.map_eq_some_iff.mp due
  obtain ⟨envelopes, d, run, -⟩ := @resealContent_run env recipients found s
  rw [run] at made
  cases made
  exact ⟨⟨s.blobs, d, fun _ here => here, rfl⟩, fun keyed => keyed⟩

theorem rotationPlan_stores (env : Env) (target : Option U128) : (rotationPlan env target).Stores env := by
  intro s row make content b due made
  obtain ⟨plain, -, rfl⟩ := Option.map_eq_some_iff.mp due
  unfold rotatedContent at made
  rw [bind_run] at made
  obtain ⟨refs, t, run, only⟩ := storesOnly_storeContent env plain s
  rw [run] at made
  cases made
  refine ⟨only, fun keyed => ?_⟩
  have kept := keeps_storeContent env plain s keyed
  rw [run] at kept
  exact kept

theorem resealPlan_steady (row : U128 × Hash) (u : CoreState) (same : SameRow env s row u) :
    resealPlan env recipients u row = resealPlan env recipients s row := by
  unfold resealPlan
  rw [same.stale]

theorem rotationPlan_steady (row : U128 × Hash) (u : CoreState) (same : SameRow env s row u) :
    rotationPlan env target u row = rotationPlan env target s row := by
  unfold rotationPlan
  rw [same.rotatable]

end Plans

end NexusFS.Net
