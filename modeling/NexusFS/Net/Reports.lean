/- GID: NexusFS/Net/Reports
   source: crates/core/src/share.rs
   digest: When the report of a re-sealing or a rotation is true, and a survey after it finds nothing. -/

import NexusFS.Net.Rotation

set_option autoImplicit false
set_option relaxedAutoImplicit false

namespace NexusFS.Net

open NexusFS.Lib NexusFS.Lib.Effect NexusFS.Proto NexusFS.Core NexusFS.Crdt

section Calls

/-- The two calls, neither as a survey. -/
inductive ShareCall where
  | reseal
  | rotate (only_path : Option String)

def ShareCall.run (env : Env) (identity : Identity) (now : U64) : ShareCall → M Nat
  | .reseal => do
      let report ← resealToRecipients env identity now false
      return report.resealed
  | .rotate only_path => do
      let report ← rotateContent env identity only_path now false
      return report.rotated

def ShareCall.plan (env : Env) (s : CoreState) : ShareCall → Plan
  | .reseal => resealPlan env (s.sealingRecipientKeys env)
  | .rotate only_path => rotationPlan env (scopeOf s only_path)

def ShareCall.rows (env : Env) (s : CoreState) (call : ShareCall) : List (U128 × Hash) :=
  dueRows (call.plan env s) s

def ShareCall.texts (env : Env) (s : CoreState) : ShareCall → Set Bytes
  | .reseal => ∅
  | .rotate only_path => rotationTexts env s (scopeOf s only_path)

def ShareCall.settled (env : Env) (s : CoreState) (call : ShareCall) : Set U128 :=
  {i | ∀ row ∈ encryptedFiles s, row.1 = i →
    call.plan env s s row = none ∧ UpToDate env (s.sealingRecipientKeys env) s row}

def PassedOver (env : Env) (s : CoreState) (object : Object) : Prop :=
  ∃ file, object = .fileNode file ∧ ∀ info file_key, file.encryption = some info →
    recoverFileKey env s info = .ok file_key → info.sealed_key = none ∧
      info.recipients_digest = some (recipientsDigest env file_key (s.sealingRecipientKeys env))

def ShareCall.seals (s : CoreState) : ShareCall → Bool
  | .reseal => true
  | .rotate _ => s.cipher.isSome

end Calls

section Reports

variable {env : Env} {ids : Set OpId} {identity : Identity} {now later : U64} {call : ShareCall}
  {s t : CoreState} {inode : U128} {row : U128 × Hash} {count : Nat} {ws : List Rewrite} {w : Rewrite}
  {keys : List Hash} {info : FileEncryption} {world : Set Bytes} {loose free : Set U128}
  {good : Object → Prop}

/-- There is one envelope for each of these keys and no other, and no other secret opens one. -/
structure SealedTo (env : Env) (keys : List Hash) (info : FileEncryption) : Prop where
  without : info.sealed_key = none
  made : ∃ file_key, List.Forall₂ (SealedFor env file_key) keys info.recipients
  opens : ∀ secret, OpensOnlyOwn env secret keys info.recipients →
    ((firstOpened env secret info.recipients).isSome ↔ env.x25519Public secret ∈ keys)

def SealedAt (env : Env) (t : CoreState) (inode : U128) : Prop :=
  ∃ file info, LiveNode env t inode file ∧ file.encryption = some info ∧
    SealedTo env (t.sealingRecipientKeys env) info

def SurveyClean (env : Env) (identity : Identity) (later : U64) (t : CoreState) : Prop :=
  ∃ report u, resealToRecipients env identity later true t = .ok report u ∧ report.resealed = 0

/-- The node has a sealing key, every file whose write takes the register is encrypted again, every
other file that is counted was sealed to the current recipients before, and there is no further file
that a survey would count. -/
structure Concludes (env : Env) (now : U64) (call : ShareCall) (s : CoreState) : Prop where
  sealing : s.sealing_secret.isSome
  won : ∀ (i : Nat) row, (call.rows env s)[i]? = some row → WinsAt now s i row.1 → call.seals s
  lost : ∀ (i : Nat) row, (call.rows env s)[i]? = some row → ¬WinsAt now s i row.1 →
    SealedAt env s row.1
  others : ∀ row ∈ encryptedFiles s, UpToDate env (s.sealingRecipientKeys env) s row ∨
    ∃ i : Nat, (call.rows env s)[i]? = some row ∧ WinsAt now s i row.1

theorem ShareCall.pass (returned : call.run env identity now s = .ok count t) : ∃ ws,
    Pass env identity now (call.plan env s) s (encryptedFiles s) ws t ∧ count = ws.length := by
  cases call with
  | reseal =>
      unfold ShareCall.run at returned
      simp only [bind_run] at returned
      cases loop : resealToRecipients env identity now false s with
      | error e u =>
          rw [loop] at returned
          cases returned
      | ok report u =>
          rw [loop] at returned
          cases returned
          unfold resealToRecipients at loop
          simp only [bind_run, get_run] at loop
          split at loop
          · cases loop
          · obtain ⟨ws, pass, total⟩ := follows_resealFile.pass loop
            exact ⟨ws, pass, total.trans (Nat.zero_add _)⟩
  | rotate only_path =>
      unfold ShareCall.run at returned
      simp only [bind_run] at returned
      cases rotated : rotateContent env identity only_path now false s with
      | error e u =>
          rw [rotated] at returned
          cases returned
      | ok report u =>
          rw [rotated] at returned
          cases returned
          exact rotateContent_ok rotated

theorem ShareCall.settled_tight (call : ShareCall) :
    ∀ row ∈ dueRows (call.plan env s) s, row.1 ∉ call.settled env s := by
  intro row due settled
  obtain ⟨member, planned⟩ := List.mem_filter.mp due
  rw [(settled row member rfl).1] at planned
  cases planned

theorem ShareCall.lands (ideal : Ideal env) (orderly : Orderly env ids s) (keyed : Keyed env s)
    (size : s.chunk_size ≤ 2 ^ 32 - 1 - 16)
    (whole : ∀ row ∈ encryptedFiles s, ∀ file, heldNode env s row.2 = some file →
      chunksFormWholeFile file.chunks file.size)
    (uncontested : Uncontested env now (call.plan env s) (call.texts env s) world (call.settled env s)
      (call.settled env s) good s)
    (within : Within env identity now (call.plan env s) world s)
    (pass : Pass env identity now (call.plan env s) s (encryptedFiles s) ws t) :
    Lands env now (call.plan env s) (call.settled env s) (call.settled env s) good s ws t := by
  cases call with
  | rotate only_path =>
      exact rotation_lands ideal orderly keyed size uncontested within subset_rfl
        (ShareCall.settled_tight (.rotate only_path)) pass
  | reseal =>
      refine pass.lands ideal uncontested within (resealPlan_stores env _) orderly keyed subset_rfl
        (ShareCall.settled_tight .reseal) (fun row u same => resealPlan_steady row u same) ?_
      intro row member u make content b due stays made
      obtain ⟨⟨file, file_key⟩, found, rfl⟩ := Option.map_eq_some_iff.mp due
      obtain ⟨envelopes, d, run, -⟩ := @resealContent_run env (s.sealingRecipientKeys env)
        (file, file_key) u
      rw [run] at made
      cases made
      exact ⟨⟨stays.known, stays.keys.trans ⟨⟨rfl, rfl, rfl⟩, rfl, rfl⟩, stays.queue⟩,
        whole row member file (heldNode_eq_some.mpr (stale_some found).1)⟩

theorem Lands.resealed (lands : Lands env now (call.plan env s) loose free good s ws t) (ideal : Ideal env)
    (sealing : s.sealing_secret.isSome) (member : w ∈ ws) :
    (call.seals s ∧ ∃ file_key envelopes, w.content.2.2 = some ⟨none, envelopes,
        some (recipientsDigest env file_key (s.sealingRecipientKeys env))⟩ ∧
      List.Forall₂ (SealedFor env file_key) (s.sealingRecipientKeys env) envelopes) ∨
      ¬call.seals s ∧ w.content.2.2 = none := by
  cases call with
  | reseal =>
      obtain ⟨-, -, make, due, made⟩ := lands.made w member
      obtain ⟨found, -, rfl⟩ := Option.map_eq_some_iff.mp due
      obtain ⟨envelopes, d, run, sealed⟩ := @resealContent_run env (s.sealingRecipientKeys env) found
        w.start
      rw [run] at made
      injection made with content
      rw [← content]
      exact .inl ⟨rfl, _, _, rfl, sealed⟩
  | rotate only_path =>
      obtain ⟨plain, d, -, content, -⟩ := Lands.rotated lands ideal member
      have keys := (lands.made w member).1.keys
      rw [content]
      rcases contentInfo_protects ideal plain w.start with ⟨off, plain_info⟩ | ⟨_, made, on, is_made, protects⟩
      · refine .inr ⟨?_, plain_info⟩
        unfold ShareCall.seals
        dsimp only
        rw [← keys.settings.cipher, off]
        decide
      · refine .inl ⟨?_, ?_⟩
        · unfold ShareCall.seals
          rw [← keys.settings.cipher, on]
          rfl
        · cases protects.congr keys.symm with
          | repository without _ =>
              rw [without] at sealing
              cases sealing
          | recipients _ made => exact ⟨_, _, is_made, made⟩

theorem sealedTo_of_made (ideal : Ideal env) {file_key : Hash} {envelopes : List SealedFileKey}
    {digest : Option Hash} (made : List.Forall₂ (SealedFor env file_key) keys envelopes) :
    SealedTo env keys ⟨none, envelopes, digest⟩ := by
  refine ⟨rfl, ⟨file_key, made⟩, fun secret only => ?_⟩
  rw [firstOpened_sealed ideal made only]
  split
  · rename_i listed
    exact ⟨fun _ => listed, fun _ => rfl⟩
  · rename_i other
    exact iff_of_false (by simp) other

theorem Lands.settled (lands : Lands env now (call.plan env s) loose free good s ws t) (ideal : Ideal env)
    (decodes : ∀ object, env.decodeObject (env.encodeObject object) = some object)
    (sealing : s.sealing_secret.isSome) (member : w ∈ ws)
    (after : FileAt w.row.1 (w.register env now) t)
    (stored : t.blobs[objectHash env (w.object now)]? = some (encodeObject env (w.object now))) :
    UpToDate env (s.sealingRecipientKeys env) t (w.row.1, objectHash env (w.object now)) ∧
      (SealedAt env t w.row.1 ↔ call.seals s) := by
  have keys := lands.kept.keys
  obtain ⟨node, -, -, -, protected_by, live, object⟩ := liveNode_of_took decodes after stored
  unfold UpToDate stale
  dsimp only
  rw [object]
  refine ⟨⟨⟨_, rfl⟩, ?_⟩, ?_⟩
  · dsimp only
    rw [protected_by]
    rcases lands.resealed ideal sealing member with ⟨-, file_key, envelopes, same, made⟩ | ⟨-, same⟩
    · obtain ⟨secret, own⟩ := Option.isSome_iff_exists.mp sealing
      obtain ⟨rest, listed⟩ := @sealingRecipientKeys_own env s secret own
      have recovers : recoverFileKey env t ⟨none, envelopes,
          some (recipientsDigest env file_key (s.sealingRecipientKeys env))⟩ = .ok file_key :=
        recoverFileKey_own ideal (keys.settings.sealing_secret.trans own) (listed ▸ made)
      rw [same]
      dsimp only
      rw [recovers]
      exact if_pos ⟨rfl, rfl⟩
    · rw [same]
  · rcases lands.resealed ideal sealing member with ⟨seals, file_key, envelopes, same, made⟩ | ⟨open_, same⟩
    · refine iff_of_true ⟨node, _, live, protected_by.trans same, ?_⟩ seals
      rw [keys.recipients]
      exact sealedTo_of_made ideal made
    · refine iff_of_false ?_ open_
      rintro ⟨other, info, live', is_info, -⟩
      obtain rfl := live.unique live'
      rw [protected_by, same] at is_info
      cases is_info

theorem PassedOver.upToDate {reg : LwwReg ContentState} {hash : Hash}
    (decodes : ∀ object, env.decodeObject (env.encodeObject object) = some object)
    (carries : Carries env (PassedOver env s) t reg) (keys : SameKeys s t)
    (named : reg.value.node_hash = some hash) :
    UpToDate env (s.sealingRecipientKeys env) t (inode, hash) := by
  obtain ⟨_, named', stored, file, rfl, passed⟩ := carries
  obtain rfl := Option.some.inj (named'.symm.trans named)
  have object := getObject_found decodes stored
  refine ⟨⟨_, object⟩, ?_⟩
  unfold stale
  rw [object]
  dsimp only
  cases protected_by : file.encryption with
  | none => rfl
  | some info =>
      dsimp only
      cases recovers : recoverFileKey env t info with
      | error e => rfl
      | ok file_key =>
          rw [keys.recover] at recovers
          exact if_pos (passed info file_key protected_by recovers)

private theorem sealedAt_kept (same : SameRow env s row t) {reg : LwwReg ContentState}
    (before : FileAt row.1 reg s) (after : FileAt row.1 reg t)
    (named : reg.value.node_hash = some row.2) : SealedAt env t row.1 ↔ SealedAt env s row.1 := by
  have live : ∀ file, LiveNode env t row.1 file ↔ LiveNode env s row.1 file := by
    intro file
    constructor
    · rintro ⟨reg', hash, there, named', object⟩
      obtain rfl := Option.some.inj (after.contentAt.symm.trans there.contentAt)
      obtain rfl := Option.some.inj (named.symm.trans named')
      exact ⟨reg, row.2, before, named, same.object.symm.trans object⟩
    · rintro ⟨reg', hash, there, named', object⟩
      obtain rfl := Option.some.inj (before.contentAt.symm.trans there.contentAt)
      obtain rfl := Option.some.inj (named.symm.trans named')
      exact ⟨reg, row.2, after, named, same.object.trans object⟩
  unfold SealedAt
  rw [same.keys.recipients]
  exact exists_congr fun file => exists_congr fun info => and_congr_left fun _ => live file

private theorem Lands.sealedAt_iff (lands : Lands env now (call.plan env s) loose free good s ws t) (ideal : Ideal env)
    (decodes : ∀ object, env.decodeObject (env.encodeObject object) = some object)
    (sealing : s.sealing_secret.isSome) {i : Nat} (turn : ws[i]? = some w) :
    SealedAt env t w.row.1 ↔ (WinsAt now s i w.row.1 → call.seals s) ∧
      (¬WinsAt now s i w.row.1 → SealedAt env s w.row.1) := by
  obtain ⟨reg, before, named, landed⟩ := lands.landed i w turn
  cases landed with
  | lost lost after =>
      have lost' : ¬WinsAt now s i w.row.1 := by
        rintro ⟨reg', before', wins⟩
        obtain rfl := Option.some.inj (before.contentAt.symm.trans before'.contentAt)
        exact lost wins
      rw [sealedAt_kept (lands.same w.row (lands.member turn)) before after named]
      exact ⟨fun kept => ⟨fun wins => absurd wins lost', fun _ => kept⟩, fun both => both.2 lost'⟩
  | took wins after stored =>
      have won : WinsAt now s i w.row.1 := ⟨reg, before, wins⟩
      rw [(lands.settled ideal decodes sealing (List.mem_of_getElem? turn) after stored).2]
      exact ⟨fun seals => ⟨fun _ => seals, fun lost => absurd won lost⟩, fun both => both.1 won⟩

private theorem recipients_ne_nil : s.sealingRecipientKeys env ≠ [] ↔ s.sealing_secret.isSome := by
  rcases Option.eq_none_or_eq_some s.sealing_secret with without | ⟨secret, own⟩
  · rw [without, sealingRecipientKeys_none without]
    simp
  · obtain ⟨rest, keys⟩ := @sealingRecipientKeys_own env s secret own
    rw [own, keys]
    simp

/-- After a re-sealing or a rotation that returned, every file that it counts is sealed to exactly the
current recipients and a survey then finds nothing to do, if and only if the calls settle. -/
theorem share_reports_iff (ideal : Ideal env) (inj : Set.InjOn (inodeForOp env) ids)
    (decodes : ∀ object, env.decodeObject (env.encodeObject object) = some object)
    (run : NodeRun env identity (EachCall env identity fun _ call => call.Within ids) s)
    (size : s.chunk_size ≤ 2 ^ 32 - 1 - 16)
    (whole : ∀ row ∈ encryptedFiles s, ∀ file, heldNode env s row.2 = some file →
      chunksFormWholeFile file.chunks file.size)
    (returned : call.run env identity now s = .ok count t)
    (uncontested : Uncontested env now (call.plan env s) (call.texts env s) world (call.settled env s)
      (call.settled env s) (PassedOver env s) s)
    (within : Within env identity now (call.plan env s) world s) :
    count = (call.rows env s).length ∧
      (((∀ row ∈ call.rows env s, SealedAt env t row.1) ∧ SurveyClean env identity later t) ↔
        Concludes env now call s) := by
  obtain ⟨ws, pass, total⟩ := ShareCall.pass returned
  have orderly := run.orderly inj fun _ _ within => within
  have lands := ShareCall.lands ideal orderly run.keyed size whole uncontested within pass
  have rows : ws.map Rewrite.row = call.rows env s := lands.rows
  have indexed : ∀ (i : Nat) row, (call.rows env s)[i]? = some row ↔
      ∃ w, ws[i]? = some w ∧ w.row = row := by
    intro i row
    rw [← rows, List.getElem?_map, Option.map_eq_some_iff]
  refine ⟨by rw [total, ← rows, List.length_map], ?_⟩
  unfold SurveyClean
  rw [survey_clean_iff, lands.kept.keys.recipients, recipients_ne_nil]
  have left : ∀ i ∈ call.settled env s, ∀ reg hash, contentAt t i = some reg →
      reg.value.node_hash = some hash → contentAt t i ≠ contentAt s i →
        UpToDate env (s.sealingRecipientKeys env) t (i, hash) := by
    intro i settled reg hash here named other
    obtain ⟨reg', here', carries⟩ := (lands.loosed i settled).resolve_left other
    obtain rfl := Option.some.inj (here.symm.trans here')
    exact PassedOver.upToDate decodes (carries settled) lands.kept.keys named
  by_cases sealing : s.sealing_secret.isSome
  · rw [lands.clean_iff orderly.shape (fun i w turn after stored =>
      (lands.settled ideal decodes sealing (List.mem_of_getElem? turn) after stored).1)
      (fun row member settled => (settled row member rfl).2) left]
    have taken : ∀ row, (∃ (i : Nat) (w : Rewrite) (reg : LwwReg ContentState), ws[i]? = some w ∧ w.row = row ∧ FileAt row.1 reg s ∧
        Wins now s i reg) ↔ ∃ i : Nat, (call.rows env s)[i]? = some row ∧ WinsAt now s i row.1 := by
      intro row
      constructor
      · rintro ⟨i, w, reg, turn, own, before, wins⟩
        exact ⟨i, (indexed i row).mpr ⟨w, turn, own⟩, reg, before, wins⟩
      · rintro ⟨i, here, reg, before, wins⟩
        obtain ⟨w, turn, own⟩ := (indexed i row).mp here
        exact ⟨i, w, reg, turn, own, before, wins⟩
    simp only [taken]
    constructor
    · rintro ⟨all, -, others⟩
      have each : ∀ (i : Nat) row, (call.rows env s)[i]? = some row →
          (WinsAt now s i row.1 → call.seals s) ∧ (¬WinsAt now s i row.1 → SealedAt env s row.1) := by
        intro i row here
        obtain ⟨w, turn, rfl⟩ := (indexed i row).mp here
        exact (lands.sealedAt_iff ideal decodes sealing turn).mp (all _ (List.mem_of_getElem? here))
      exact ⟨sealing, fun i row here => (each i row here).1, fun i row here => (each i row here).2, others⟩
    · rintro ⟨-, won, lost, others⟩
      refine ⟨fun row member => ?_, sealing, others⟩
      obtain ⟨i, here⟩ := List.mem_iff_getElem?.mp member
      obtain ⟨w, turn, rfl⟩ := (indexed i row).mp here
      exact (lands.sealedAt_iff ideal decodes sealing turn).mpr ⟨won i _ here, lost i _ here⟩
  · exact iff_of_false (fun both => sealing both.2.1) fun settles => sealing settles.sealing

def joinedState (s : CoreState) : CoreState :=
  (Act.enrol 12 23 (some 11) false).run .sealing sampleIdentity s

theorem joinedState_run (run : NodeRun .sealing sampleIdentity
    (EachCall .sealing sampleIdentity fun _ call => call.Within ids) s) :
    NodeRun .sealing sampleIdentity (EachCall .sealing sampleIdentity fun _ call => call.Within ids)
      (joinedState s) :=
  .step run fun _ member => by cases member

def resealedState (s : CoreState) : CoreState :=
  finalState (ShareCall.reseal.run .sealing sampleIdentity 10 (joinedState s))

private theorem joined_facts :
    answer (ShareCall.reseal.run .sealing sampleIdentity 10 (joinedState busyState)) = some 1 ∧
    (joinedState busyState).pending.toList = [(spareWrite.id, spareWrite)] ∧
    (joinedState busyState).device_id ≠ spareWrite.id.device_id ∧
    (resealedState busyState).pending.toList = [] ∧
    (encryptedFiles (joinedState busyState)).length ≤ 2 ^ 64 ∧
    ((encryptedFiles (joinedState busyState)).all fun row => (joinedState busyState).hasBlob row.2 ∧
      ∀ file ∈ heldNode .sealing (joinedState busyState) row.2, ∀ chunk ∈ file.chunks,
        (joinedState busyState).hasBlob chunk.hash) ∧
    (∀ row ∈ (joinedState busyState).blobs.toList,
      (resealedState busyState).blobs[Env.sealing.blake3 row.2]? = some row.2) ∧
    (∀ w ∈ rewrites .sealing sampleIdentity 10 (ShareCall.reseal.plan .sealing (joinedState busyState))
        (encryptedFiles (joinedState busyState)) (joinedState busyState),
      ∀ bytes ∈ w.touched .sealing sampleIdentity 10,
        (resealedState busyState).blobs[Env.sealing.blake3 bytes]? = some bytes) ∧
    ((encryptedFiles (joinedState busyState)).all fun row =>
      ∀ file ∈ heldNode .sealing (joinedState busyState) row.2,
        chunksFormWholeFile file.chunks file.size) ∧
    (joinedState busyState).sealing_secret.isSome ∧
    (joinedState busyState).chunk_size ≤ 2 ^ 32 - 1 - 16 ∧
    ShareCall.reseal.rows .sealing (joinedState busyState) = encryptedFiles (joinedState busyState) ∧
    (encryptedFiles (joinedState busyState)).map Prod.fst = [chunkFile] ∧ chunkFile ≠ spareFile ∧
    ((joinedState busyState).loadInode chunkFile).map (fun record => (record.kind,
      decide (ownId (joinedState busyState) 0 ∉ (joinedState busyState).applied ∧
        record.content.orderKey < ownKeyAt 10 (joinedState busyState) 0))) = some (.file, true) := by
  decide +kernel

private theorem joined_uncontested : Uncontested .sealing 10
    (ShareCall.reseal.plan .sealing (joinedState busyState))
    (ShareCall.reseal.texts .sealing (joinedState busyState))
    {b | (resealedState busyState).blobs[Env.sealing.blake3 b]? = some b}
    (ShareCall.reseal.settled .sealing (joinedState busyState))
    (ShareCall.reseal.settled .sealing (joinedState busyState))
    (PassedOver .sealing (joinedState busyState)) (joinedState busyState) := by
  obtain ⟨-, queue, device, -, few, complete, -, -, -, -, -, -, files, other, -⟩ := joined_facts
  have settled : spareFile ∈ ShareCall.reseal.settled .sealing (joinedState busyState) := by
    intro row member same
    have first : row.1 ∈ (encryptedFiles (joinedState busyState)).map Prod.fst := List.mem_map_of_mem member
    rw [files, List.mem_singleton] at first
    exact absurd (first.symm.trans same) other
  have only : ∀ {id : OpId} {op}, (joinedState busyState).pending[id]? = some op →
      id = spareWrite.id ∧ op = spareWrite := by
    intro id op parked
    have listed := (BTreeMap.mem_toList _ _ _).mpr parked
    rw [queue, List.mem_singleton] at listed
    exact Prod.mk.inj listed
  refine ⟨fun parked => ?_, fun i _ => ?_, few, fun row member hash named => .inl ?_⟩
  · obtain ⟨-, rfl⟩ := only parked
    refine .inr (.inl ⟨spareFile, settled, ⟨_, _, _, _, rfl⟩, fun _ inode offset chunks size info shape => ?_⟩)
    cases shape
    exact ⟨fun _ => ⟨_, rfl, fun _ _ protected_by => by cases protected_by⟩,
      fun partly => absurd ⟨rfl, by decide⟩ partly⟩
  · by_contra parked
    obtain ⟨op, here⟩ := Option.ne_none_iff_exists'.mp parked
    exact device ((ownId_device _ i).symm.trans (congrArg OpId.device_id (only here).1))
  · exact names_held (fun row member => of_decide_eq_true (List.all_eq_true.mp complete row member)) row
      member hash named

theorem share_reports_sample :
    (joinedState busyState).pending.toList = [(spareWrite.id, spareWrite)] ∧
    (resealedState busyState).pending.toList = [] ∧
    (∀ row ∈ ShareCall.reseal.rows .sealing (joinedState busyState),
      SealedAt .sealing (resealedState busyState) row.1) ∧
    SurveyClean .sealing sampleIdentity 11 (resealedState busyState) := by
  obtain ⟨ran, queue, -, drained, -, -, held, touched, whole, sealing, size, rows, files, -, shown⟩ :=
    joined_facts
  have wins : WinsAt 10 (joinedState busyState) 0 chunkFile := by
    obtain ⟨record, found, facts⟩ := Option.map_eq_some_iff.mp shown
    obtain ⟨kind, wins⟩ := Prod.mk.inj facts
    exact ⟨record.content, ⟨record, found, kind, rfl⟩, (decide_eq_true_iff.mp wins :)⟩
  have only : ∀ (i : Nat) row, (ShareCall.reseal.rows .sealing (joinedState busyState))[i]? = some row →
      i = 0 ∧ row.1 = chunkFile := by
    intro i row here
    have first : ((encryptedFiles (joinedState busyState)).map Prod.fst)[i]? = some row.1 := by
      rw [List.getElem?_map, ← rows, here]
      rfl
    rw [files] at first
    cases i with
    | zero => exact ⟨rfl, (Option.some.inj first).symm⟩
    | succ i => cases first
  refine ⟨queue, drained, (@share_reports_iff .sealing (idsUpTo 7 4) sampleIdentity 10 11 .reseal
    (joinedState busyState) (resealedState busyState) 1 _ sealing_ideal sealing_injective
    Env.stored_decode (joinedState_run busyState_run) size
    (fun row member => of_decide_eq_true (List.all_eq_true.mp whole row member))
    (ran_of_answer ran) joined_uncontested (within_stored held touched)).2.mpr
      ⟨sealing, fun _ _ _ _ => rfl, ?_, ?_⟩⟩
  · intro i row here lost
    obtain ⟨rfl, same⟩ := only i row here
    exact absurd (same ▸ wins) lost
  · intro row member
    rw [← rows] at member
    obtain ⟨i, here⟩ := List.mem_iff_getElem?.mp member
    obtain ⟨rfl, same⟩ := only i row here
    exact .inr ⟨0, here, same ▸ wins⟩

/-- With the author's clock ahead, the file counts as re-sealed, has the one envelope that it had, and
is reported again. -/
theorem reseal_unsettled :
    NodeRun .sealing sampleIdentity (EachCall .sealing sampleIdentity fun _ call => call.Within sampleIds)
      (joinedState (sharedState (some 9) 100)) ∧
    answer (resealToRecipients .sealing sampleIdentity 10 false
      (joinedState (sharedState (some 9) 100))) = some ⟨1, 0, 1, 0, 0, false⟩ ∧
    ((liveNode .sealing (resealedState (sharedState (some 9) 100)) chunkFile).bind FileNode.encryption).map
      (fun info => info.recipients.length) = some 1 ∧
    ((resealedState (sharedState (some 9) 100)).sealingRecipientKeys .sealing).length = 2 ∧
    answer (resealToRecipients .sealing sampleIdentity 11 true
      (resealedState (sharedState (some 9) 100))) = some ⟨1, 0, 1, 0, 0, true⟩ := by
  refine ⟨joinedState_run (sharedState_run subset_rfl (some 9) 100), ?_⟩
  decide +kernel

end Reports

end NexusFS.Net
