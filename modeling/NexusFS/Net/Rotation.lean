/- GID: NexusFS/Net/Rotation
   source: crates/core/src/share.rs, crates/core/src/state.rs, crates/core/src/namespace.rs
   digest: When a rotation leaves everything that it counts under fresh keys, and nothing in plain. -/

import NexusFS.Net.Sharing
import NexusFS.Net.Torn

set_option autoImplicit false
set_option relaxedAutoImplicit false

namespace NexusFS.Net

open NexusFS.Lib NexusFS.Lib.Effect NexusFS.Proto NexusFS.Core NexusFS.Crdt

section Rotation

variable {env : Env} {ids : Set OpId} {identity : Identity} {only_path : Option String} {now : U64}
  {s t u : CoreState} {inode : U128} {row : U128 × Hash} {target : Option U128}
  {report : RotateReport} {ws : List Rewrite} {w : Rewrite} {world : Set Bytes} {loose free : Set U128}
  {good : Object → Prop}

def Encrypted (env : Env) (s : CoreState) (inode : U128) : Prop :=
  ∃ file, LiveNode env s inode file ∧ file.encryption.isSome

def EncryptedNode (object : Object) : Prop :=
  ∃ file, object = .fileNode file ∧ file.encryption.isSome

/-- A file has the plaintext it had, under the key drawn in its turn, which is sealed to the current
recipients, or to the repository key where there are none. -/
structure Rotated (env : Env) (s : CoreState) (w : Rewrite) (t : CoreState) : Prop where
  same : ∃ plain, readFile env s w.row.1 = .ok plain ∧ readFile env t w.row.1 = .ok plain
  fresh : ∃ file info cipher, LiveNode env t w.row.1 file ∧ file.encryption = some info ∧
    recoverFileKey env t info = .ok (freshKey env w.start) ∧ t.cipher = some cipher ∧
    Protected env t (freshKey env w.start) cipher info

def scopeOf (s : CoreState) (only_path : Option String) : Option U128 :=
  (rotationTarget s only_path).toOption.join

def rotationRows (env : Env) (s : CoreState) (only_path : Option String) : List (U128 × Hash) :=
  dueRows (rotationPlan env (scopeOf s only_path)) s

def rotationTexts (env : Env) (s : CoreState) (target : Option U128) : Set Bytes :=
  {plain | ∃ row ∈ encryptedFiles s, rotatable env target s row = some plain}

def rotationTurns (env : Env) (identity : Identity) (now : U64) (s : CoreState)
    (only_path : Option String) : List Rewrite :=
  rewrites env identity now (rotationPlan env (scopeOf s only_path)) (encryptedFiles s) s

def WinsAt (now : U64) (s : CoreState) (i : Nat) (inode : U128) : Prop :=
  ∃ reg, FileAt inode reg s ∧ Wins now s i reg

theorem rotateContent_ok (returned : rotateContent env identity only_path now false s = .ok report t) :
    ∃ ws, Pass env identity now (rotationPlan env (scopeOf s only_path)) s (encryptedFiles s) ws t ∧
      report.rotated = ws.length := by
  unfold rotateContent at returned
  simp only [bind_run, get_run] at returned
  split at returned
  · cases returned
  · cases target : rotationTarget s only_path with
    | error e =>
        rw [bind_run, target] at returned
        cases returned
    | ok scope =>
        have same : scopeOf s only_path = scope := by
          unfold scopeOf
          rw [target]
          rfl
        rw [bind_run, target] at returned
        dsimp only [liftCheck_ok] at returned
        rw [bind_run] at returned
        cases loop : (encryptedFiles s).foldlM (rotateFile env identity scope now false)
            (.empty false) s with
        | error e u =>
            rw [loop] at returned
            cases returned
        | ok last u =>
            rw [loop] at returned
            obtain ⟨ws, pass, total⟩ := follows_rotateFile.pass loop
            have ends : report = last ∧ t = u := by
              cases only_path with
              | none =>
                  cases returned
                  exact ⟨rfl, rfl⟩
              | some path =>
                  dsimp only at returned
                  split at returned
                  · cases returned
                  · cases returned
                    exact ⟨rfl, rfl⟩
            obtain ⟨rfl, rfl⟩ := ends
            rw [same]
            exact ⟨ws, pass, total.trans (Nat.zero_add _)⟩

theorem rotation_lands (ideal : Ideal env) (orderly : Orderly env ids s) (keyed : Keyed env s)
    (size : s.chunk_size ≤ 2 ^ 32 - 1 - 16)
    (uncontested : Uncontested env now (rotationPlan env target) (rotationTexts env s target) world loose
      free good s)
    (within : Within env identity now (rotationPlan env target) world s) (inside : free ⊆ loose)
    (tight : ∀ row ∈ dueRows (rotationPlan env target) s, row.1 ∉ loose)
    (pass : Pass env identity now (rotationPlan env target) s (encryptedFiles s) ws t) :
    Lands env now (rotationPlan env target) loose free good s ws t := by
  refine pass.lands ideal uncontested within (rotationPlan_stores env target) orderly keyed inside tight
    (fun row u same => rotationPlan_steady row u same) ?_
  intro row member u make content b due stays made
  obtain ⟨plain, text, rfl⟩ := Option.map_eq_some_iff.mp due
  obtain ⟨d, run⟩ := rotatedContent_run ideal plain u
  rw [run] at made
  cases made
  have fits : Fits u plain.length := fits_of_size (by rw [stays.keys.settings.chunk_size]; exact size) _
  refine ⟨?_, contentRefs_whole fits⟩
  have kept : Keeps (Stays env (rotationTexts env s target) s) (rotatedContent env plain) := by
    refine .bind (Stays.storeContent ideal fun v keys piece inside => ?_) fun _ => .pure _
    exact @Makes.own env (rotationTexts env s target) s plain piece v ⟨row, member, text⟩ keys inside
  have ends := kept u stays
  rwa [run] at ends

theorem Lands.rotated (lands : Lands env now (rotationPlan env target) loose free good s ws t) (ideal : Ideal env)
    (member : w ∈ ws) : ∃ plain d, rotatable env target s w.row = some plain ∧
      w.content = (contentRefs env w.start plain, Fin.ofNat (2 ^ 64) plain.length,
        contentInfo env w.start plain) ∧
      w.before = { putAll env (contentPieces env w.start plain) w.start with draws := d } := by
  obtain ⟨-, -, make, due, made⟩ := lands.made w member
  obtain ⟨plain, found, rfl⟩ := Option.map_eq_some_iff.mp due
  obtain ⟨d, run⟩ := rotatedContent_run ideal plain w.start
  rw [run] at made
  injection made with content before
  exact ⟨plain, d, found, content.symm, before.symm⟩

theorem Lands.protects (lands : Lands env now (rotationPlan env target) loose free good s ws t) (ideal : Ideal env)
    (decodes : ∀ object, env.decodeObject (env.encodeObject object) = some object)
    (size : s.chunk_size ≤ 2 ^ 32 - 1 - 16) (member : w ∈ ws)
    (pieces : ∀ plain, rotatable env target s w.row = some plain →
      Set.InjOn env.blake3 {b | b ∈ contentPieces env w.start plain})
    {reg : LwwReg ContentState} (before : FileAt w.row.1 reg s)
    (named : reg.value.node_hash = some w.row.2) (after : FileAt w.row.1 (w.register env now) t)
    (stored : t.blobs[objectHash env (w.object now)]? = some (encodeObject env (w.object now)))
    (cipher : s.cipher.isSome) : Rotated env s w t := by
  obtain ⟨same, stays, -⟩ := lands.made w member
  obtain ⟨plain, d, due, content, prepared⟩ := lands.rotated ideal member
  obtain ⟨file, object, encrypted, read⟩ := rotatable_some due
  have length := materializeFile_length read
  have keys : SameKeys w.start t := same.keys.symm.trans lands.kept.keys
  have fits : Fits w.start plain.length :=
    fits_of_size (by rw [same.keys.settings.chunk_size]; exact size) _
  have held : ∀ piece ∈ contentPieces env w.start plain, t.blobs[env.blake3 piece]? = some piece := by
    intro piece inside
    refine stays _ _ ?_
    rw [prepared]
    exact get_putAll (pieces plain due) inside
  have protects := contentInfo_protects ideal plain w.start
  obtain ⟨node, -, chunks, node_size, info, live, object'⟩ := liveNode_of_took decodes after stored
  rw [content] at chunks node_size info
  have whole : materializeFile env t node = .ok plain := by
    refine materializeFile_ok_iff.mpr ⟨contentKey env w.start, chunkBytes plain w.start.chunk_size,
      ?_, ?_, (flatten_chunkBytes _ _).symm, ?_⟩
    · rw [info]
      exact keyFor_content ideal protects keys.settings.sealing_secret keys.settings.cipher
    · rw [chunks]
      exact reads_contentRefs ideal fits length held
    · rw [node_size]
      exact (Nat.mod_eq_of_lt length).symm
  refine ⟨⟨plain, (readFile_held before named object).trans read,
    (readFile_held after rfl object').trans whole⟩, ?_⟩
  rcases protects with ⟨off, -⟩ | ⟨key, made, on, is_made, protects⟩
  · rw [← same.keys.settings.cipher, off] at cipher
    cases cipher
  · exact ⟨node, made, key, live, info.trans is_made,
      protects.recover ideal keys.settings.sealing_secret (keys.settings.cipher.trans on),
      keys.settings.cipher.trans on, protects.congr keys⟩

theorem liveNode_kept {file : FileNode} {reg : LwwReg ContentState} (live : LiveNode env s inode file)
    (before : FileAt inode reg s) (after : FileAt inode reg t) (grew : Extends s t) :
    LiveNode env t inode file := by
  obtain ⟨reg', hash, at_file, named, object⟩ := live
  obtain rfl := Option.some.inj (before.contentAt.symm.trans at_file.contentAt)
  exact ⟨reg, hash, after, named, grew.getObject object⟩

theorem Lands.encrypted
    (lands : Lands env now (rotationPlan env target) (spareFiles (rotationPlan env target) s)
      {i | i ∈ spareFiles (rotationPlan env target) s ∧ Encrypted env s i} EncryptedNode s ws t)
    (ideal : Ideal env) (decodes : ∀ object, env.decodeObject (env.encodeObject object) = some object)
    (cipher : ∀ w ∈ ws, s.cipher.isSome) (before : Encrypted env s inode) : Encrypted env t inode := by
  have was := before
  obtain ⟨file, live, encrypted⟩ := before
  have content := live
  obtain ⟨reg, -, at_file, -⟩ := content
  by_cases rewritten : ∃ w ∈ ws, w.row.1 = inode
  · obtain ⟨w, member, rfl⟩ := rewritten
    obtain ⟨i, turn⟩ := List.mem_iff_getElem?.mp member
    obtain ⟨reg', file', -, landed⟩ := lands.landed i w turn
    obtain rfl := Option.some.inj (at_file.contentAt.symm.trans file'.contentAt)
    cases landed with
    | lost _ after => exact ⟨file, liveNode_kept live at_file after lands.stored, encrypted⟩
    | took _ after stored =>
        obtain ⟨plain, -, -, content, -⟩ := lands.rotated ideal member
        obtain ⟨node, -, -, -, info, live', -⟩ := liveNode_of_took decodes after stored
        refine ⟨node, live', ?_⟩
        rw [info, content]
        rcases contentInfo_protects ideal plain w.start with ⟨off, -⟩ | ⟨_, made, -, is_made, -⟩
        · have on := cipher w member
          rw [← (lands.made w member).1.keys.settings.cipher, off] at on
          cases on
        · dsimp only
          rw [is_made]
          rfl
  · have spare : inode ∈ spareFiles (rotationPlan env target) s := by
      intro row due same
      rw [← lands.rows] at due
      obtain ⟨w, member, rfl⟩ := List.mem_map.mp due
      exact rewritten ⟨w, member, same⟩
    obtain ⟨later, after, -⟩ := lands.kept.file at_file
    rcases lands.loosed inode spare with same | ⟨reg', here, carries⟩
    · rw [after.contentAt, at_file.contentAt] at same
      obtain rfl := Option.some.inj same
      exact ⟨file, liveNode_kept live at_file after lands.stored, encrypted⟩
    · obtain rfl := Option.some.inj (after.contentAt.symm.trans here)
      obtain ⟨_, named, stored, node, rfl, protected_by⟩ := carries ⟨spare, was⟩
      exact ⟨node, ⟨later, _, after, named, getObject_found decodes stored⟩, protected_by⟩

/-- A file that counts as rotated had its turn won, unless the key it had is drawn again. -/
theorem Lands.won (lands : Lands env now (rotationPlan env target) loose free good s ws t) (ideal : Ideal env)
    {i : Nat} (turn : ws[i]? = some w)
    (fresh : ∀ file info, getObject env s w.row.2 = .ok (some (.fileNode file)) →
      file.encryption = some info → recoverFileKey env s info ≠ .ok (freshKey env w.start))
    (rotated : Rotated env s w t) : s.cipher.isSome ∧ WinsAt now s i w.row.1 := by
  obtain ⟨node, info, cipher, live, is_info, recovers, on, -⟩ := rotated.fresh
  refine ⟨by rw [← lands.kept.keys.settings.cipher, on]; rfl, ?_⟩
  have member : w ∈ ws := List.mem_of_getElem? turn
  obtain ⟨reg, before, named, landed⟩ := lands.landed i w turn
  cases landed with
  | took wins _ _ => exact ⟨reg, before, wins⟩
  | lost _ after =>
      obtain ⟨plain, -, due, -, -⟩ := lands.rotated ideal member
      obtain ⟨file, object, -, -⟩ := rotatable_some due
      have same := lands.same w.row (lands.member turn)
      have kept : LiveNode env t w.row.1 file :=
        ⟨reg, w.row.2, after, named, same.object.trans object⟩
      obtain rfl := kept.unique live
      rw [same.recover] at recovers
      exact absurd recovers (fresh file info object is_info)

/-- A rotation that returned left every encrypted file encrypted, and every file it counted with its
plaintext under a fresh key of the current recipients, if and only if it counted no file, or the node
has a repository key and every write took the register of its file. -/
theorem rotation_protects_iff (ideal : Ideal env) (inj : Set.InjOn (inodeForOp env) ids)
    (decodes : ∀ object, env.decodeObject (env.encodeObject object) = some object)
    (run : NodeRun env identity (EachCall env identity fun _ call => call.Within ids) s)
    (size : s.chunk_size ≤ 2 ^ 32 - 1 - 16)
    (returned : rotateContent env identity only_path now false s = .ok report t)
    (uncontested : Uncontested env now (rotationPlan env (scopeOf s only_path))
      (rotationTexts env s (scopeOf s only_path)) world
      (spareFiles (rotationPlan env (scopeOf s only_path)) s)
      {i | i ∈ spareFiles (rotationPlan env (scopeOf s only_path)) s ∧ Encrypted env s i} EncryptedNode s)
    (within : Within env identity now (rotationPlan env (scopeOf s only_path)) world s)
    (pieces : ∀ w ∈ rotationTurns env identity now s only_path, ∀ plain,
      rotatable env (scopeOf s only_path) s w.row = some plain →
        ∀ piece ∈ contentPieces env w.start plain, piece ∈ world)
    (fresh : ∀ w ∈ rotationTurns env identity now s only_path, ∀ file info,
      getObject env s w.row.2 = .ok (some (.fileNode file)) → file.encryption = some info →
        recoverFileKey env s info ≠ .ok (freshKey env w.start)) :
    report.rotated = (rotationRows env s only_path).length ∧
      (rotationTurns env identity now s only_path).map Rewrite.row = rotationRows env s only_path ∧
      (((∀ inode, Encrypted env s inode → Encrypted env t inode) ∧
          ∀ w ∈ rotationTurns env identity now s only_path, Rotated env s w t) ↔
        rotationRows env s only_path = [] ∨ s.cipher.isSome ∧
          ∀ (i : Nat) row, (rotationRows env s only_path)[i]? = some row → WinsAt now s i row.1) := by
  obtain ⟨ws, pass, total⟩ := rotateContent_ok returned
  have turns : rotationTurns env identity now s only_path = ws := pass.rewrites
  rw [turns] at pieces fresh ⊢
  have lands := rotation_lands ideal (run.orderly inj fun _ _ within => within) run.keyed size uncontested
    within (fun _ both => both.1) (fun row due spare => spare row due rfl) pass
  have rows : ws.map Rewrite.row = rotationRows env s only_path := lands.rows
  have indexed : ∀ (i : Nat) row, (rotationRows env s only_path)[i]? = some row ↔
      ∃ w, ws[i]? = some w ∧ w.row = row := by
    intro i row
    rw [← rows, List.getElem?_map, Option.map_eq_some_iff]
  refine ⟨by rw [total, ← rows, List.length_map], rows, ?_⟩
  constructor
  · rintro ⟨-, all⟩
    have won : ∀ (i : Nat) w, ws[i]? = some w → s.cipher.isSome ∧ WinsAt now s i w.row.1 := by
      intro i w turn
      have member := List.mem_of_getElem? turn
      exact lands.won ideal turn (fresh w member) (all w member)
    cases ws with
    | nil => exact .inl rows.symm
    | cons w rest =>
        refine .inr ⟨(won 0 w rfl).1, fun i row here => ?_⟩
        obtain ⟨x, turn, rfl⟩ := (indexed i row).mp here
        exact (won i x turn).2
  · intro condition
    have cipher : ∀ w ∈ ws, s.cipher.isSome := by
      intro w member
      rcases condition with none_due | ⟨cipher, -⟩
      · rw [← rows, List.map_eq_nil_iff] at none_due
        rw [none_due] at member
        cases member
      · exact cipher
    refine ⟨fun inode before => lands.encrypted ideal decodes cipher before, fun w member => ?_⟩
    obtain ⟨i, turn⟩ := List.mem_iff_getElem?.mp member
    obtain ⟨reg, before, named, landed⟩ := lands.landed i w turn
    rcases condition with none_due | ⟨on, wins⟩
    · rw [← rows, List.map_eq_nil_iff] at none_due
      rw [none_due] at member
      cases member
    · obtain ⟨reg', before', wins⟩ := wins i w.row ((indexed i w.row).mpr ⟨w, turn, rfl⟩)
      obtain rfl := Option.some.inj (before.contentAt.symm.trans before'.contentAt)
      cases landed with
      | lost lost _ => exact absurd wins lost
      | took _ after stored =>
          exact lands.protects ideal decodes size member
            (fun plain due => within.apart.mono (pieces w member plain due)) before named after stored on

def sharedAuthor : CoreState := { sealingNode with draws := 7 }

def sharedNode (cipher : Option Hash) : CoreState :=
  { sealingNode with device_id := 8, cipher := cipher }

def sharedPiece : Bytes := sealChunk .sealing (freshKey .sealing sharedAuthor) 0 [1, 2, 3]

def sharedWrite (time : U64) : FsOp :=
  { sampleOp 2 (.write chunkFile 0 (contentRefs .sealing sharedAuthor [1, 2, 3]) 3
      (contentInfo .sealing sharedAuthor [1, 2, 3])) with time_unix_ms := time }

def sharedState (cipher : Option Hash) (time : U64) : CoreState :=
  (Act.receive (sharedWrite time)).run .sealing sampleIdentity
    ((Act.fetch (.blobsBatch [(Env.sealing.blake3 sharedPiece, sharedPiece)] false) 0
      [Env.sealing.blake3 sharedPiece]).run .sealing sampleIdentity
      ((Act.receive (sampleOp 1 (.createFile rootInode "f" 0))).run .sealing sampleIdentity
        (booted .sealing (sharedNode cipher))))

theorem sharedState_run {ids : Set OpId} (inside : sampleIds ⊆ ids) (cipher : Option Hash) (time : U64) :
    NodeRun .sealing sampleIdentity (EachCall .sealing sampleIdentity fun _ call => call.Within ids)
      (sharedState cipher time) := by
  refine .step (.step (.step (.boot ⟨rfl, rfl, rfl, rfl, rfl, rfl, rfl, rfl, rfl, rfl⟩ rfl rfl)
    fun x member => ?_) fun x member => ?_) fun x member => ?_
  · obtain rfl := List.mem_singleton.mp member
    exact inside (.inl rfl)
  · cases member
  · obtain rfl := List.mem_singleton.mp member
    exact inside (.inr rfl)

def spareFile : U128 := inodeForOp .sealing ⟨7, 3⟩

def spareWrite : FsOp := sampleOp 4 (.write spareFile 0 [⟨Env.sealing.blake3 [4, 5], 2, 2, 0⟩] 2 none)

/-- The write of the second file is parked, although a fetch has brought its chunk since. -/
def busyState : CoreState :=
  (Act.fetch (.blobsBatch [(Env.sealing.blake3 [4, 5], [4, 5])] false) 0
    [Env.sealing.blake3 [4, 5]]).run .sealing sampleIdentity
      ((Act.receive spareWrite).run .sealing sampleIdentity
        ((Act.receive (sampleOp 3 (.createFile rootInode "g" 0))).run .sealing sampleIdentity
          (sharedState (some 9) 0)))

theorem busyState_run : NodeRun .sealing sampleIdentity
    (EachCall .sealing sampleIdentity fun _ call => call.Within (idsUpTo 7 4)) busyState := by
  have low : sampleIds ⊆ idsUpTo 7 4 := by
    rintro id (rfl | rfl)
    · exact ⟨rfl, by decide⟩
    · exact ⟨rfl, by decide⟩
  refine .step (.step (.step (sharedState_run low (some 9) 0) fun x member => ?_) fun x member => ?_)
    fun x member => ?_
  · obtain rfl := List.mem_singleton.mp member
    exact ⟨rfl, by decide⟩
  · obtain rfl := List.mem_singleton.mp member
    exact ⟨rfl, by decide⟩
  · cases member

def rotatedState (s : CoreState) : CoreState :=
  finalState (rotateContent .sealing sampleIdentity none 10 false s)

def fileKeyOf (env : Env) (s : CoreState) (row : U128 × Hash) : Option Hash :=
  (heldNode env s row.2).bind fun file =>
    file.encryption.bind fun info => (recoverFileKey env s info).toOption

private theorem busy_facts :
    answer (rotateContent .sealing sampleIdentity none 10 false busyState) =
      some ⟨1, 1, 0, 0, 3, false⟩ ∧
    busyState.pending.toList = [(spareWrite.id, spareWrite)] ∧ busyState.device_id ≠ spareWrite.id.device_id ∧
    (rotatedState busyState).pending.toList = [] ∧
    liveNode .sealing busyState spareFile = none ∧
    (encryptedFiles busyState).length ≤ 2 ^ 64 ∧
    ((encryptedFiles busyState).all fun row => busyState.hasBlob row.2 ∧
      ∀ file ∈ heldNode .sealing busyState row.2, ∀ chunk ∈ file.chunks, busyState.hasBlob chunk.hash) ∧
    (∀ row ∈ busyState.blobs.toList,
      (rotatedState busyState).blobs[Env.sealing.blake3 row.2]? = some row.2) ∧
    (∀ w ∈ rotationTurns .sealing sampleIdentity 10 busyState none,
      (∀ bytes ∈ w.touched .sealing sampleIdentity 10,
        (rotatedState busyState).blobs[Env.sealing.blake3 bytes]? = some bytes) ∧
      (∀ plain ∈ rotatable .sealing none busyState w.row, ∀ piece ∈ contentPieces .sealing w.start plain,
        (rotatedState busyState).blobs[Env.sealing.blake3 piece]? = some piece) ∧
      fileKeyOf .sealing busyState w.row ≠ some (freshKey .sealing w.start)) ∧
    busyState.cipher.isSome ∧ busyState.chunk_size ≤ 2 ^ 32 - 1 - 16 ∧
    (rotationRows .sealing busyState none).map Prod.fst = [chunkFile] ∧ chunkFile ≠ spareFile ∧
    (busyState.loadInode chunkFile).map (fun record => (record.kind,
      decide (ownId busyState 0 ∉ busyState.applied ∧
        record.content.orderKey < ownKeyAt 10 busyState 0))) = some (.file, true) := by
  decide +kernel

private theorem busy_uncontested : Uncontested .sealing 10 (rotationPlan .sealing none)
    (rotationTexts .sealing busyState none)
    {b | (rotatedState busyState).blobs[Env.sealing.blake3 b]? = some b}
    (spareFiles (rotationPlan .sealing none) busyState)
    {i | i ∈ spareFiles (rotationPlan .sealing none) busyState ∧ Encrypted .sealing busyState i}
    EncryptedNode busyState := by
  obtain ⟨-, queue, device, -, bare, few, complete, -, -, -, -, rows, other, -⟩ := busy_facts
  have spare : spareFile ∈ spareFiles (rotationPlan .sealing none) busyState := by
    intro row due same
    have first : row.1 ∈ (rotationRows .sealing busyState none).map Prod.fst := List.mem_map_of_mem due
    rw [rows, List.mem_singleton] at first
    exact other (first.symm.trans same)
  have only : ∀ {id : OpId} {op}, busyState.pending[id]? = some op → id = spareWrite.id ∧ op = spareWrite := by
    intro id op parked
    have listed := (BTreeMap.mem_toList _ _ _).mpr parked
    rw [queue, List.mem_singleton] at listed
    exact Prod.mk.inj listed
  refine ⟨fun parked => ?_, fun i _ => ?_, few, fun row member hash named => .inl ?_⟩
  · obtain ⟨-, rfl⟩ := only parked
    refine .inr (.inl ⟨spareFile, spare, ⟨_, _, _, _, rfl⟩, ?_⟩)
    rintro ⟨-, file, live, -⟩
    rw [liveNode_eq_some.mpr live] at bare
    cases bare
  · by_contra parked
    obtain ⟨op, here⟩ := Option.ne_none_iff_exists'.mp parked
    exact device ((ownId_device busyState i).symm.trans (congrArg OpId.device_id (only here).1))
  · exact names_held (fun row member => of_decide_eq_true (List.all_eq_true.mp complete row member)) row
      member hash named

theorem rotation_protects_sample :
    busyState.pending.toList = [(spareWrite.id, spareWrite)] ∧
    (rotatedState busyState).pending.toList = [] ∧
    (∀ inode, Encrypted .sealing busyState inode → Encrypted .sealing (rotatedState busyState) inode) ∧
    ∀ w ∈ rotationTurns .sealing sampleIdentity 10 busyState none,
      Rotated .sealing busyState w (rotatedState busyState) := by
  obtain ⟨ran, queue, -, drained, -, -, -, held, turns, cipher, size, rows, -, shown⟩ := busy_facts
  have returned : rotateContent .sealing sampleIdentity none 10 false busyState =
      .ok ⟨1, 1, 0, 0, 3, false⟩ (rotatedState busyState) := ran_of_answer ran
  refine ⟨queue, drained, (@rotation_protects_iff .sealing (idsUpTo 7 4) sampleIdentity none 10 busyState
    (rotatedState busyState) ⟨1, 1, 0, 0, 3, false⟩ _ sealing_ideal sealing_injective Env.stored_decode
    busyState_run size returned busy_uncontested (within_stored held fun w member => (turns w member).1)
    (fun w member => (turns w member).2.1) ?_).2.2.mpr (.inr ⟨cipher, ?_⟩)⟩
  · intro w member file info object is_info recovers
    refine (turns w member).2.2 ?_
    unfold fileKeyOf
    rw [heldNode_eq_some.mpr object, Option.bind_some, is_info, Option.bind_some, recovers]
    rfl
  · intro i row here
    have first : ((rotationRows .sealing busyState none).map Prod.fst)[i]? = some row.1 := by
      rw [List.getElem?_map, here]
      rfl
    rw [rows] at first
    cases i with
    | succ i => cases first
    | zero =>
        obtain ⟨record, found, facts⟩ := Option.map_eq_some_iff.mp shown
        obtain ⟨kind, wins⟩ := Prod.mk.inj facts
        rw [← Option.some.inj first]
        exact ⟨record.content, ⟨record, found, kind, rfl⟩, (decide_eq_true_iff.mp wins :)⟩

/-- Without the repository key, a node whose sealing key opens the file rotates it to plain content. -/
theorem rotation_exposes :
    NodeRun .sealing sampleIdentity
      (EachCall .sealing sampleIdentity fun _ call => call.Within sampleIds) (sharedState none 0) ∧
    answer (rotateContent .sealing sampleIdentity none 10 false (sharedState none 0)) =
      some ⟨1, 1, 0, 0, 3, false⟩ ∧
    Encrypted .sealing (sharedState none 0) chunkFile ∧ ¬Encrypted .sealing (rotatedState (sharedState none 0)) chunkFile := by
  have facts : answer (rotateContent .sealing sampleIdentity none 10 false (sharedState none 0)) =
        some ⟨1, 1, 0, 0, 3, false⟩ ∧
      (liveNode .sealing (sharedState none 0) chunkFile).map (fun file => file.encryption.isSome) =
        some true ∧
      (liveNode .sealing (rotatedState (sharedState none 0)) chunkFile).map (fun file => file.encryption.isSome) =
        some false := by
    decide +kernel
  obtain ⟨ran, before, after⟩ := facts
  refine ⟨sharedState_run subset_rfl none 0, ran, ?_, ?_⟩
  · obtain ⟨file, live, encrypted⟩ := Option.map_eq_some_iff.mp before
    exact ⟨file, liveNode_eq_some.mp live, encrypted⟩
  · rintro ⟨file, live, encrypted⟩
    rw [liveNode_eq_some.mpr live, Option.map_some, Option.some.injEq] at after
    rw [encrypted] at after
    cases after

end Rotation

end NexusFS.Net
