/- GID: NexusFS/Core/Recipients
   source: crates/core/src/peers.rs, crates/core/src/state.rs, crates/core/src/namespace.rs
   digest: Who a file key is sealed to, and whose secret recovers it. -/

import NexusFS.Core.Written

set_option autoImplicit false
set_option relaxedAutoImplicit false

namespace NexusFS.Core

open NexusFS.Lib NexusFS.Lib.Effect NexusFS.Proto NexusFS.Crdt CoreState

section Recipients

variable {env : Env} {s t : CoreState} {secret key : Hash}

def Enrolled (s : CoreState) (key : Hash) : Prop :=
  ∃ device : DeviceId, (s.peer_keys[device]?).isSome ∧ s.seal_keys[device]? = some key

theorem mem_sealingRecipients {row : DeviceId × Hash} :
    row ∈ s.sealingRecipients ↔
      (s.peer_keys[row.1]?).isSome ∧ s.seal_keys[row.1]? = some row.2 := by
  unfold sealingRecipients
  rw [List.mem_filterMap]
  constructor
  · rintro ⟨device, pinned, named⟩
    obtain ⟨key, sealing, rfl⟩ := Option.map_eq_some_iff.mp named
    obtain ⟨pubkey, here⟩ := (BTreeMap.mem_keys _ _).mp pinned
    refine ⟨?_, sealing⟩
    rw [here]
    rfl
  · rintro ⟨pinned, sealing⟩
    obtain ⟨pubkey, here⟩ := Option.isSome_iff_exists.mp pinned
    refine ⟨row.1, (BTreeMap.mem_keys _ _).mpr ⟨pubkey, here⟩, ?_⟩
    rw [sealing]
    rfl

private theorem mem_foldl_new (peers : List (DeviceId × Hash)) (keys : List Hash) :
    key ∈ peers.foldl (fun keys p => if keys.contains p.2 then keys else keys ++ [p.2]) keys ↔
      key ∈ keys ∨ ∃ device, (device, key) ∈ peers := by
  induction peers generalizing keys with
  | nil => simp
  | cons peer peers ih =>
      obtain ⟨owner, offered⟩ := peer
      rw [List.foldl_cons, ih]
      have grown : key ∈ (if keys.contains offered then keys else keys ++ [offered]) ↔
          key ∈ keys ∨ key = offered := by
        split
        · rename_i known
          have listed : offered ∈ keys := by simpa using known
          exact ⟨.inl, fun either => either.elim id fun same => same ▸ listed⟩
        · rw [List.mem_append, List.mem_singleton]
      rw [grown, or_assoc]
      refine or_congr_right ⟨?_, ?_⟩
      · rintro (rfl | ⟨device, later⟩)
        · exact ⟨owner, List.mem_cons_self⟩
        · exact ⟨device, List.mem_cons_of_mem _ later⟩
      · rintro ⟨device, member⟩
        rcases List.mem_cons.mp member with same | later
        · exact .inl (Prod.mk.inj same).2
        · exact .inr ⟨device, later⟩

theorem mem_sealingRecipientKeys (own : s.sealing_secret = some secret) :
    key ∈ s.sealingRecipientKeys env ↔ key = env.x25519Public secret ∨ Enrolled s key := by
  unfold sealingRecipientKeys
  rw [own]
  dsimp only
  rw [mem_foldl_new, List.mem_singleton]
  exact or_congr_right (exists_congr fun device => mem_sealingRecipients)

end Recipients

section Keys

variable {env : Env} {s t u : CoreState} {op : FsOp}

theorem SameKeys.recipients (same : SameKeys s t) :
    t.sealingRecipientKeys env = s.sealingRecipientKeys env := by
  unfold sealingRecipientKeys sealingRecipients
  rw [same.settings.sealing_secret, same.peer_keys, same.seal_keys]

theorem Protected.congr {key cipher : Hash} {info : FileEncryption}
    (made : Protected env s key cipher info) (keys : SameKeys s t) : Protected env t key cipher info := by
  cases made with
  | repository without length => exact .repository (keys.settings.sealing_secret.trans without) length
  | recipients own made =>
      rw [← keys.recipients] at made ⊢
      exact .recipients (keys.settings.sealing_secret.trans own) made

theorem Took.sameKeys (took : Took env op s t) : SameKeys s t := by
  obtain ⟨u, effect, blobs, imap, -, rfl⟩ := took
  obtain ⟨dirs, inodes, parents, stored, draws, -, rfl⟩ := effect.frame
  exact ⟨⟨rfl, rfl, rfl⟩, rfl, rfl⟩

theorem sameKeysRule (env : Env) (origin : CoreState) :
    CallRule env (SameKeys origin) (fun _ => True) (fun _ _ => True) fun _ => SameKeys origin where
  toAttemptRule := .of_took (fun same _ _ took => same.trans took.sameKeys)
    (fun same _ _ => same.trans ⟨⟨rfl, rfl, rfl⟩, rfl, rfl⟩) fun _ _ => trivial
  logged same _ := same.trans ⟨⟨rfl, rfl, rfl⟩, rfl, rfl⟩
  aside := by
    rintro s t same ⟨_, _, _, _, _, -, rfl⟩
    exact same.trans ⟨⟨rfl, rfl, rfl⟩, rfl, rfl⟩
  park same _ _ := same.trans ⟨⟨rfl, rfl, rfl⟩, rfl, rfl⟩

end Keys

section Opening

variable {env : Env} {s r : CoreState} {secret file_key : Hash} {keys : List Hash}
  {envelopes : List SealedFileKey}

/-- Under this secret, an envelope opens only if the secret is that of the recipient it was sealed
to. -/
def OpensOnlyOwn (env : Env) (secret : Hash) (keys : List Hash) (envelopes : List SealedFileKey) :
    Prop :=
  List.Forall₂ (fun recipient envelope =>
    openEnvelope env secret envelope ≠ none → env.x25519Public secret = recipient) keys envelopes

theorem firstOpened_sealed (ideal : Ideal env)
    (made : List.Forall₂ (SealedFor env file_key) keys envelopes)
    (only : OpensOnlyOwn env secret keys envelopes) :
    firstOpened env secret envelopes =
      if env.x25519Public secret ∈ keys then some (be256 file_key) else none := by
  unfold firstOpened
  induction made with
  | nil => rfl
  | @cons recipient envelope keys envelopes first rest ih =>
      obtain ⟨own, others⟩ := List.forall₂_cons.mp only
      rw [List.findSome?_cons]
      by_cases same : env.x25519Public secret = recipient
      · subst same
        rw [first.opens ideal, if_pos List.mem_cons_self]
      · have closed : openEnvelope env secret envelope = none := by
          by_contra opened
          exact same (own opened)
        rw [closed]
        dsimp only
        rw [ih others]
        simp only [List.mem_cons, same, false_or]

theorem recoverFileKey_sealed (ideal : Ideal env) {digest : Option Hash}
    (made : List.Forall₂ (SealedFor env file_key) keys envelopes)
    (only : OpensOnlyOwn env secret keys envelopes) (own : r.sealing_secret = some secret)
    {found : Hash} :
    recoverFileKey env r ⟨none, envelopes, digest⟩ = .ok found ↔
      env.x25519Public secret ∈ keys ∧ found = file_key := by
  unfold recoverFileKey
  rw [own]
  dsimp only [Option.bind_some]
  rw [firstOpened_sealed ideal made only]
  by_cases listed : env.x25519Public secret ∈ keys
  · rw [if_pos listed]
    dsimp only
    rw [hashOfBytes_be256]
    refine ⟨fun recovered => ⟨listed, (Except.ok.inj recovered).symm⟩, ?_⟩
    rintro ⟨-, rfl⟩
    rfl
  · rw [if_neg listed]
    refine iff_of_false ?_ fun both => listed both.1
    dsimp only
    split <;> exact fun recovered => nomatch recovered

end Opening

end NexusFS.Core
