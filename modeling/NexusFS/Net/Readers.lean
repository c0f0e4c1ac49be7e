/- GID: NexusFS/Net/Readers
   source: crates/core/src/peers.rs, crates/core/src/state.rs, crates/core/src/namespace.rs,
     crates/core/src/ops.rs
   digest: Who can read a file that was sealed to the peers enrolled when it was written. -/

import NexusFS.Net.Local
import NexusFS.Net.Trust

set_option autoImplicit false
set_option relaxedAutoImplicit false

namespace NexusFS.Net

open NexusFS.Lib NexusFS.Lib.Effect NexusFS.Proto NexusFS.Core NexusFS.Crdt

section Calls

variable {s : CoreState} {device : DeviceId}

/-- The calls by which a node changes whom it has enrolled. -/
inductive TrustCall where
  | enrol (device : DeviceId) (pubkey : Hash) (seal_key : Option Hash) (allow_rotation : Bool)
  | revoke (device : DeviceId)

def TrustCall.run (s : CoreState) : TrustCall → CoreState
  | .enrol device pubkey seal_key allow_rotation =>
      finalState (enrolPeer device pubkey seal_key allow_rotation s)
  | .revoke device => finalState (revokePeer device s)

def afterCalls (s : CoreState) (calls : List TrustCall) : CoreState := calls.foldl TrustCall.run s

/-- The keys that are pinned for one device. -/
structure Pins where
  signing : Option Hash
  sealing : Option Hash
  deriving DecidableEq

def pinsOf (s : CoreState) (device : DeviceId) : Pins := ⟨s.peer_keys[device]?, s.seal_keys[device]?⟩

def conflicts (pinned : Option Hash) (offered : Hash) : Bool := pinned.any (· ≠ offered)

/-- An enrolment of the device: a sealing key is pinned before the signing key is looked at. -/
def Pins.enrol (pubkey : Hash) (seal_key : Option Hash) (allow_rotation : Bool) (pins : Pins) : Pins :=
  if !allow_rotation && seal_key.any (conflicts pins.sealing) then pins
  else
    { signing :=
        if !allow_rotation && conflicts pins.signing pubkey then pins.signing else some pubkey
      sealing := seal_key.or pins.sealing }

def TrustCall.pins (device : DeviceId) (pins : Pins) : TrustCall → Pins
  | .enrol other pubkey seal_key allow_rotation =>
      if other = device then pins.enrol pubkey seal_key allow_rotation else pins
  | .revoke other => if other = device then ⟨none, none⟩ else pins

private theorem pinsOf_pinSealKey (owner : DeviceId) (seal_key : Hash) :
    pinsOf (pinSealKey owner seal_key s) device =
      if owner = device then ⟨(pinsOf s device).signing, some seal_key⟩ else pinsOf s device := by
  show (⟨s.peer_keys[device]?, (s.seal_keys.insert owner seal_key)[device]?⟩ : Pins) = _
  rw [BTreeMap.get_insert]
  split <;> rfl

theorem pinsOf_pinKey (owner : DeviceId) (pubkey : Hash) :
    pinsOf (pinKey owner pubkey s) device =
      if owner = device then ⟨some pubkey, (pinsOf s device).sealing⟩ else pinsOf s device := by
  show (⟨(s.peer_keys.insert owner pubkey)[device]?, s.seal_keys[device]?⟩ : Pins) = _
  rw [BTreeMap.get_insert]
  split <;> rfl

/-- A sealing key is pinned unless the device has another and may not replace it. -/
theorem enrolSealKey_run (owner : DeviceId) (seal_key : Option Hash) (allow_rotation : Bool) :
    if !allow_rotation && seal_key.any (conflicts (pinsOf s owner).sealing) then
      ∃ e, enrolSealKey owner seal_key allow_rotation s = .error e s
    else ∃ t, enrolSealKey owner seal_key allow_rotation s = .ok () t ∧ ∀ device, pinsOf t device =
      if owner = device then ⟨(pinsOf s device).signing, seal_key.or (pinsOf s device).sealing⟩
      else pinsOf s device := by
  have same : (pinsOf s owner).sealing = s.seal_keys[owner]? := rfl
  have unchanged : ∀ offered, s.seal_keys[owner]? = some offered → ∀ device, pinsOf s device =
      if owner = device then ⟨(pinsOf s device).signing, (some offered).or (pinsOf s device).sealing⟩
      else pinsOf s device := by
    intro offered here device
    split
    · rename_i owns
      subst owns
      rw [Option.some_or, ← here, ← same]
    · rfl
  unfold enrolSealKey
  simp only [bind_run, get_run, same]
  cases seal_key with
  | none =>
      simp only [Option.any_none, Bool.and_false, Bool.false_eq_true, if_false, Option.none_or]
      exact ⟨s, rfl, fun device => by split <;> rfl⟩
  | some offered =>
      simp only [Option.any_some]
      cases pinned : s.seal_keys[owner]? with
      | none =>
          simp only [conflicts, Option.any_none, Bool.and_false, Bool.false_eq_true, if_false]
          exact ⟨_, rfl, fun device => pinsOf_pinSealKey owner offered⟩
      | some existing =>
          by_cases equal : existing = offered
          · subst equal
            simp only [conflicts, Option.any_some, ne_eq, not_true_eq_false, decide_false,
              Bool.and_false, Bool.false_eq_true, if_false, if_true]
            exact ⟨s, rfl, unchanged existing pinned⟩
          · simp only [conflicts, Option.any_some, ne_eq, equal, not_false_eq_true, decide_true,
              Bool.and_true, if_false]
            cases allow_rotation with
            | true => exact ⟨_, rfl, fun device => pinsOf_pinSealKey owner offered⟩
            | false => exact ⟨_, rfl⟩

theorem pinsOf_enrolPeer (owner : DeviceId) (pubkey : Hash) (seal_key : Option Hash)
    (allow_rotation : Bool) :
    pinsOf (finalState (enrolPeer owner pubkey seal_key allow_rotation s)) device =
      if owner = device then (pinsOf s device).enrol pubkey seal_key allow_rotation
      else pinsOf s device := by
  have first := @enrolSealKey_run s owner seal_key allow_rotation
  unfold enrolPeer Pins.enrol
  rw [bind_run]
  split at first
  · rename_i refused
    obtain ⟨e, run⟩ := first
    rw [run]
    show pinsOf s device = _
    split
    · rename_i owns
      rw [← owns, if_pos refused]
    · rfl
  · rename_i allowed
    obtain ⟨t, run, pins⟩ := first
    have signing : (pinsOf s owner).signing = t.peer_keys[owner]? := by
      have here := congrArg Pins.signing (pins owner)
      rw [if_pos rfl] at here
      exact here.symm
    rw [run]
    simp only [bind_run, get_run]
    by_cases owns : owner = device
    · subst owns
      rw [if_pos rfl, if_neg allowed, signing]
      have sealing := congrArg Pins.sealing (pins owner)
      rw [if_pos rfl] at sealing
      dsimp only at sealing
      rw [← sealing]
      cases pinned : t.peer_keys[owner]? with
      | none =>
          simp only [conflicts, Option.any_none, Bool.and_false, Bool.false_eq_true, if_false]
          exact (pinsOf_pinKey owner pubkey).trans (if_pos rfl)
      | some existing =>
          by_cases equal : existing = pubkey
          · subst equal
            simp only [conflicts, Option.any_some, ne_eq, not_true_eq_false, decide_false,
              Bool.and_false, Bool.false_eq_true, if_false, if_true]
            show pinsOf t owner = _
            unfold pinsOf
            rw [pinned]
          · simp only [conflicts, Option.any_some, ne_eq, equal, not_false_eq_true, decide_true,
              Bool.and_true, if_false]
            cases allow_rotation with
            | true => exact (pinsOf_pinKey owner pubkey).trans (if_pos rfl)
            | false =>
                show pinsOf t owner = _
                unfold pinsOf
                rw [pinned]
                rfl
    · rw [if_neg owns]
      have other := pins device
      rw [if_neg owns] at other
      rw [← other]
      have kept : pinsOf (pinKey owner pubkey t) device = pinsOf t device :=
        (pinsOf_pinKey owner pubkey).trans (if_neg owns)
      cases t.peer_keys[owner]? with
      | none => exact kept
      | some existing =>
          dsimp only
          split
          · rfl
          · split
            · rfl
            · exact kept

theorem pinsOf_revokePeer (owner : DeviceId) :
    pinsOf (finalState (revokePeer owner s)) device =
      if owner = device then ⟨none, none⟩ else pinsOf s device := by
  unfold revokePeer
  simp only [bind_run, get_run]
  split
  · rename_i absent
    show pinsOf s device = _
    split
    · rename_i owns
      subst owns
      simp only [Bool.and_eq_true, Option.isNone_iff_eq_none] at absent
      unfold pinsOf
      rw [absent.1, absent.2]
    · rfl
  · show (⟨(s.peer_keys.erase owner)[device]?, (s.seal_keys.erase owner)[device]?⟩ : Pins) = _
    rw [BTreeMap.get_erase, BTreeMap.get_erase]
    split <;> rfl

theorem pinsOf_run (s : CoreState) (call : TrustCall) (device : DeviceId) :
    pinsOf (call.run s) device = call.pins device (pinsOf s device) := by
  cases call with
  | enrol owner pubkey seal_key allow_rotation =>
      exact pinsOf_enrolPeer owner pubkey seal_key allow_rotation
  | revoke owner => exact pinsOf_revokePeer owner

theorem pinsOf_afterCalls (s : CoreState) (calls : List TrustCall) (device : DeviceId) :
    pinsOf (afterCalls s calls) device =
      calls.foldl (TrustCall.pins device) (pinsOf s device) := by
  induction calls generalizing s with
  | nil => rfl
  | cons call rest ih =>
      rw [List.foldl_cons, ← pinsOf_run]
      exact ih _

theorem enrolled_afterCalls {calls : List TrustCall} {key : Hash} :
    Enrolled (afterCalls s calls) key ↔ ∃ device signing,
      calls.foldl (TrustCall.pins device) (pinsOf s device) = ⟨some signing, some key⟩ := by
  refine exists_congr fun device => ?_
  rw [← pinsOf_afterCalls, Option.isSome_iff_exists]
  constructor
  · rintro ⟨⟨signing, pinned⟩, sealing⟩
    refine ⟨signing, ?_⟩
    unfold pinsOf
    rw [pinned, sealing]
  · rintro ⟨signing, pins⟩
    exact ⟨⟨signing, congrArg Pins.signing pins⟩, congrArg Pins.sealing pins⟩

theorem revoked_pins (s : CoreState) (before after : List TrustCall) (device : DeviceId)
    (never : ∀ call ∈ after, ∀ pubkey seal_key allow_rotation,
      call ≠ .enrol device pubkey seal_key allow_rotation) :
    pinsOf (afterCalls s (before ++ .revoke device :: after)) device = ⟨none, none⟩ := by
  rw [pinsOf_afterCalls, List.foldl_append, List.foldl_cons]
  generalize before.foldl (TrustCall.pins device) (pinsOf s device) = pins
  rw [show TrustCall.pins device pins (.revoke device) = ⟨none, none⟩ from if_pos rfl]
  induction after with
  | nil => rfl
  | cons call rest ih =>
      have still : call.pins device ⟨none, none⟩ = ⟨none, none⟩ := by
        cases call with
        | enrol other pubkey seal_key allow_rotation =>
            refine if_neg fun same => never _ List.mem_cons_self pubkey seal_key allow_rotation ?_
            rw [same]
        | revoke other => exact ite_self _
      rw [List.foldl_cons, still]
      exact ih fun other member => never other (List.mem_cons_of_mem call member)

theorem sameSettings_afterCalls (s : CoreState) (calls : List TrustCall) :
    SameSettings s (afterCalls s calls) := by
  induction calls generalizing s with
  | nil => exact ⟨rfl, rfl, rfl⟩
  | cons call rest ih =>
      refine SameSettings.trans ?_ (ih (call.run s))
      cases call with
      | enrol owner pubkey seal_key allow_rotation =>
          obtain ⟨_, _, _, _, same⟩ :=
            (pinned_enrolPeer owner pubkey seal_key allow_rotation s).frame
          show SameSettings s (finalState (enrolPeer owner pubkey seal_key allow_rotation s))
          rw [same]
          exact ⟨rfl, rfl, rfl⟩
      | revoke owner =>
          obtain ⟨_, _, _, _, same, -⟩ := revokePeer_forgets owner s
          show SameSettings s (finalState (revokePeer owner s))
          rw [same]
          exact ⟨rfl, rfl, rfl⟩

end Calls

section Readers

variable {env : Env} {identity : Identity} {path : String} {data bytes : Bytes} {now : U64}
  {s a b t r : CoreState} {inode : U128} {op : FsOp} {calls : List TrustCall} {secret own : Hash}

/-- The content of the file is this object, which is held. -/
structure Shows (env : Env) (r : CoreState) (inode : U128) (object : Object) : Prop where
  file : ∃ reg, FileAt inode reg r ∧ reg.value.node_hash = some (objectHash env object)
  stored : r.blobs[objectHash env object]? = some (encodeObject env object)

def writtenObject (env : Env) (a : CoreState) (data : Bytes) (now : U64) : Object :=
  contentObject env a data now (contentInfo env a data)

def writtenEnvelopes (env : Env) (a : CoreState) (data : Bytes) : List SealedFileKey :=
  ((contentInfo env a data).map FileEncryption.recipients).getD []

def HoldsContent (env : Env) (a : CoreState) (data : Bytes) (r : CoreState) : Prop :=
  ∀ piece ∈ contentPieces env a data, r.blobs[env.blake3 piece]? = some piece

private theorem sealed_contentInfo (ideal : Ideal env) (cipher : a.cipher.isSome)
    (sealing : a.sealing_secret.isSome) : ∃ digest,
    contentInfo env a data = some ⟨none, writtenEnvelopes env a data, digest⟩ ∧
      List.Forall₂ (SealedFor env (freshKey env a)) (a.sealingRecipientKeys env)
        (writtenEnvelopes env a data) := by
  unfold writtenEnvelopes
  rcases contentInfo_protects ideal data a with ⟨off, -⟩ | ⟨key, made, -, same, protects⟩
  · rw [off] at cipher
    cases cipher
  · rw [same]
    cases protects with
    | repository without length =>
        rw [without] at sealing
        cases sealing
    | recipients _ made => exact ⟨_, rfl, made⟩

/-- After any enrolments and revocations, a node that holds a file that was then written can read it
with its sealing secret if and only if that is the writer's or its public key is enrolled. The keys
enrolled are those that the calls leave pinned, and a revoked device has none until it is enrolled
again. -/
theorem sealed_readers_iff (ideal : Ideal env)
    (decodes : ∀ object, env.decodeObject (env.encodeObject object) = some object)
    (cipher : s.cipher.isSome) (sealing : s.sealing_secret = some own)
    (size : s.chunk_size ≤ 2 ^ 32 - 1 - 16) (length : data.length < 2 ^ 64)
    (wrote : Wrote env identity path data now (afterCalls s calls) inode a b op t)
    (shows : Shows env r inode (writtenObject env a data now)) (holds : HoldsContent env a data r)
    (reader : r.sealing_secret = some secret)
    (only : OpensOnlyOwn env secret ((afterCalls s calls).sealingRecipientKeys env)
      (writtenEnvelopes env a data)) :
    ((∃ bytes, readFile env r inode = .ok bytes) ↔
        env.x25519Public secret = env.x25519Public own ∨
          Enrolled (afterCalls s calls) (env.x25519Public secret)) ∧
      (∀ bytes, readFile env r inode = .ok bytes → bytes = data) ∧
      (∀ key, Enrolled (afterCalls s calls) key ↔ ∃ device signing,
        calls.foldl (TrustCall.pins device) (pinsOf s device) = ⟨some signing, some key⟩) ∧
      ∀ before device after, calls = before ++ .revoke device :: after →
        (∀ call ∈ after, ∀ pubkey seal_key allow_rotation,
          call ≠ .enrol device pubkey seal_key allow_rotation) →
          pinsOf (afterCalls s calls) device = ⟨none, none⟩ := by
  have same : SameKeys (afterCalls s calls) a := wrote.sameKeys
  have settings := (sameSettings_afterCalls s calls).trans same.settings
  have fits : Fits a data.length := fits_of_size (by rw [settings.chunk_size]; exact size) _
  have sealing' : a.sealing_secret = some own := settings.sealing_secret.trans sealing
  obtain ⟨digest, info, made⟩ := @sealed_contentInfo env data a ideal
    (by rw [settings.cipher]; exact cipher) (by rw [sealing']; rfl)
  rw [same.recipients] at made
  obtain ⟨reg, file, named⟩ := shows.file
  obtain ⟨node, isNode, node_info, node_chunks, node_size⟩ : ∃ node : FileNode,
      writtenObject env a data now = .fileNode node ∧
        node.encryption = some ⟨none, writtenEnvelopes env a data, digest⟩ ∧
        node.chunks = contentRefs env a data ∧ node.size = Fin.ofNat (2 ^ 64) data.length :=
    ⟨_, rfl, info, rfl, rfl⟩
  have read : readFile env r inode = materializeFile env r node := by
    have stored := shows.stored
    rw [isNode] at stored named
    exact readFile_held file named (getObject_found decodes stored)
  have key : contentKey env a = some (freshKey env a) := by
    obtain ⟨cipher', on⟩ := Option.isSome_iff_exists.mp cipher
    unfold contentKey
    rw [settings.cipher, on]
    rfl
  have listed : env.x25519Public secret ∈ (afterCalls s calls).sealingRecipientKeys env ↔ _ :=
    mem_sealingRecipientKeys ((sameSettings_afterCalls s calls).sealing_secret.trans sealing)
  have exactly : ∀ bytes, readFile env r inode = .ok bytes ↔
      env.x25519Public secret ∈ (afterCalls s calls).sealingRecipientKeys env ∧ bytes = data := by
    intro bytes
    rw [read, materializeFile_ok_iff, node_info, node_chunks, node_size]
    constructor
    · rintro ⟨file_key, pieces, ⟨found, recovered, rfl⟩, reads, rfl, -⟩
      obtain ⟨member, rfl⟩ := (recoverFileKey_sealed ideal made only reader).mp recovered
      refine ⟨member, ?_⟩
      have whole := reads_contentRefs ideal fits length holds
      rw [key] at whole
      have one := @Reads.readChunks env r _ 0 _ _ [] reads
      rw [@Reads.readChunks env r _ 0 _ _ [] whole, flatten_chunkBytes] at one
      exact (Except.ok.inj one).symm
    · rintro ⟨member, rfl⟩
      refine ⟨contentKey env a, chunkBytes bytes a.chunk_size, ⟨freshKey env a,
        (recoverFileKey_sealed ideal made only reader).mpr ⟨member, rfl⟩, key⟩,
        reads_contentRefs ideal fits length holds, (flatten_chunkBytes _ _).symm,
        (Nat.mod_eq_of_lt length).symm⟩
  rw [← listed]
  refine ⟨⟨fun ⟨bytes, run⟩ => ((exactly bytes).mp run).1, fun member => ⟨data, ?_⟩⟩,
    fun bytes run => ((exactly bytes).mp run).2, fun key => enrolled_afterCalls, ?_⟩
  · exact (exactly data).mpr ⟨member, rfl⟩
  · rintro before device after rfl never
    exact revoked_pins s before after device never

/-- A writer that enrolled a peer with its sealing key, one without, and one it revoked again. -/
def enrolledCalls : List TrustCall :=
  [.enrol 8 21 (some 6) false, .enrol 9 22 none false, .enrol 10 23 (some 11) false, .revoke 10]

def strangersNode : CoreState := booted .sealing sealingNode

def enrolledNode : CoreState := afterCalls strangersNode enrolledCalls

def enrolledStoring : CoreState :=
  finalState (prepareFile .sealing sampleIdentity "/f" 10 enrolledNode)

def enrolledFile : U128 := inodeForOp .sealing ⟨7, 1⟩

def enrolledReader (secret : Hash) : CoreState :=
  { finalState (writeFile .sealing sampleIdentity "/f" [1, 2, 3] 10 enrolledNode) with
    device_id := 8, cipher := none, sealing_secret := some secret }

private theorem enrolled_facts :
    answer (writeFile .sealing sampleIdentity "/f" [1, 2, 3] 10 enrolledNode) =
      some enrolledFile ∧
    ((enrolledReader 6).loadInode enrolledFile).map (fun r => (r.kind, r.content.value.node_hash)) =
      some (.file, some (objectHash .sealing (writtenObject .sealing enrolledStoring [1, 2, 3] 10))) ∧
    (enrolledReader 6).blobs[objectHash .sealing
        (writtenObject .sealing enrolledStoring [1, 2, 3] 10)]? =
      some (encodeObject .sealing (writtenObject .sealing enrolledStoring [1, 2, 3] 10)) ∧
    (∀ piece ∈ contentPieces .sealing enrolledStoring [1, 2, 3],
      (enrolledReader 6).blobs[Env.sealing.blake3 piece]? = some piece) ∧
    enrolledNode.peer_keys[(8 : DeviceId)]? = some 21 ∧
    enrolledNode.seal_keys[(8 : DeviceId)]? = some (Env.sealing.x25519Public 6) ∧
    strangersNode.cipher.isSome ∧ strangersNode.sealing_secret = some 5 ∧
    strangersNode.chunk_size ≤ 2 ^ 32 - 1 - 16 := by
  decide +kernel

private theorem enrolled_opens : OpensOnlyOwn .sealing 6 (enrolledNode.sealingRecipientKeys .sealing)
    (writtenEnvelopes .sealing enrolledStoring [1, 2, 3]) := by
  unfold OpensOnlyOwn
  decide +kernel

private theorem revoked_opens : OpensOnlyOwn .sealing 11 (enrolledNode.sealingRecipientKeys .sealing)
    (writtenEnvelopes .sealing enrolledStoring [1, 2, 3]) := by
  unfold OpensOnlyOwn
  decide +kernel

private theorem revoked_keys :
    Env.sealing.x25519Public 11 ∉ enrolledNode.seal_keys.toList.map Prod.snd ∧
      Env.sealing.x25519Public 11 ≠ Env.sealing.x25519Public 5 := by
  decide +kernel

theorem sealed_readers_sample :
    (∃ bytes, readFile .sealing (enrolledReader 6) enrolledFile = .ok bytes) ∧
      (¬∃ bytes, readFile .sealing (enrolledReader 11) enrolledFile = .ok bytes) ∧
      pinsOf enrolledNode 10 = ⟨none, none⟩ := by
  obtain ⟨ran, shown, stored, holds, signing, sealing, cipher, own, size⟩ := enrolled_facts
  obtain ⟨others, foreign⟩ := revoked_keys
  obtain ⟨t, run⟩ : ∃ t, writeFile .sealing sampleIdentity "/f" [1, 2, 3] 10 enrolledNode =
      .ok enrolledFile t := by
    cases result : writeFile .sealing sampleIdentity "/f" [1, 2, 3] 10 enrolledNode with
    | error e t =>
        rw [result] at ran
        cases ran
    | ok inode t =>
        rw [result] at ran
        exact ⟨t, by rw [Option.some.inj ran]⟩
  obtain ⟨a, b, op, wrote⟩ := (writeFile_ok_iff sealing_ideal).mp run
  have storing : a = enrolledStoring := by
    unfold enrolledStoring
    rw [wrote.prepared]
    rfl
  rw [storing] at wrote
  obtain ⟨record, found, facts⟩ := Option.map_eq_some_iff.mp shown
  obtain ⟨kind, named⟩ := Prod.mk.inj facts
  have shows : ∀ secret, Shows .sealing (enrolledReader secret) enrolledFile
      (writtenObject .sealing enrolledStoring [1, 2, 3] 10) := fun _ =>
    ⟨⟨record.content, ⟨record, found, kind, rfl⟩, named⟩, stored⟩
  have reads := fun (secret : Hash) only =>
    @sealed_readers_iff .sealing sampleIdentity "/f" [1, 2, 3] 10 strangersNode enrolledStoring b t
      (enrolledReader secret) enrolledFile op enrolledCalls secret 5 sealing_ideal Env.stored_decode cipher
      own size (by decide) wrote (shows secret) holds rfl only
  obtain ⟨peer, -, -, revoked⟩ := reads 6 enrolled_opens
  obtain ⟨stranger, -⟩ := reads 11 revoked_opens
  refine ⟨peer.mpr (.inr ⟨8, Option.isSome_of_eq_some signing, sealing⟩), fun read => ?_,
    revoked (enrolledCalls.take 3) 10 [] rfl fun _ none => (by cases none)⟩
  rcases stranger.mp read with same | ⟨device, -, pinned⟩
  · exact foreign same
  · exact others (List.mem_map.mpr ⟨(device, _), (BTreeMap.mem_toList _ _ _).mpr pinned, rfl⟩)

end Readers

end NexusFS.Net
