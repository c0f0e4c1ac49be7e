/- GID: NexusFS/Net/Torn
   source: crates/core/src/apply.rs, crates/core/src/namespace.rs
   digest: When a write that a node applies leaves a file that can be read. -/

import NexusFS.Core.Intact
import NexusFS.Net.Calls

set_option autoImplicit false
set_option relaxedAutoImplicit false

namespace NexusFS.Net

open NexusFS.Lib NexusFS.Lib.Effect NexusFS.Proto NexusFS.Core NexusFS.Crdt

section Torn

variable {env : Env} {identity : Identity} {inode : U128} {s x w u : CoreState} {op : FsOp}
  {offset new_size : U64} {chunks : List ChunkRef}

/-- A write that a node applies, in any call of any step, and that holds the register at the end of
the step: the file reads with its recorded size if and only if the write was intact. -/
theorem write_intact_iff (ideal : Ideal env)
    (decodes : ∀ object, env.decodeObject (env.encodeObject object) = some object)
    (run : AnyRun env identity s) {a : Act} {call : Call}
    (made : (x, call) ∈ a.calls env identity s) (attempted : (w, op) ∈ call.attempts env x)
    (shape : op.kind = .write inode offset chunks new_size none)
    {record : InodeRecord} (found : w.loadInode inode = some record)
    (wins : writeCanWin record.content op) (applied : mutate env op w = .ok .done u)
    (still : ∃ reg, FileAt inode reg u ∧ FileAt inode reg (a.run env identity s))
    (apart : Apart env w (a.run env identity s) (storedBytes env w op)) :
    ReadsInFull env (a.run env identity s) inode ↔ Intact w offset chunks new_size := by
  obtain ⟨-, keyed, last⟩ := Act.after_call made
  have keyed_w : Keyed env w :=
    (keyedRule env).traced (fun _ keyed => keyed) (fun _ keyed => keyed) (keyed run.keyed) attempted
  have keyed_t : Keyed env (a.run env identity s) := keyed_act run.keyed a
  obtain ⟨keeps, settings⟩ := Call.lasts attempted applied
  have lasts : Lasts u (a.run env identity s) := by
    rcases last with same | ⟨proven, same⟩
    · exact same ▸ ⟨keeps, settings⟩
    · exact same ▸ ⟨keeps, settings.trans ⟨rfl, rfl, rfl⟩⟩
  have kind : record.kind = .file := by
    by_contra other
    simp only [mutate, shape, mutateWrite, bind_run, get_run, found, ne_eq, other,
      not_false_eq_true, if_true] at applied
    cases applied
  exact readsInFull_iff ideal apart keyed_w.within_left decodes shape ⟨record, found, kind, rfl⟩
    (of_decide_eq_true wins) (fun bytes member => .inl member) applied keyed_t.within_right lasts.1
    lasts.2 still

def chunkState : CoreState :=
  (Act.store [1, 2, 3]).run .sealing sampleIdentity
    ((Act.receive (sampleOp 1 (.createFile rootInode "f" 0))).run .sealing sampleIdentity
      (booted .sealing (CoreState.new 7)))

def chunkFile : U128 := inodeForOp .sealing ⟨7, 1⟩

theorem sealing_injective : Set.InjOn (inodeForOp .sealing) (idsUpTo 7 4) := by
  refine Set.InjOn.mono (fun id within => ?_) idsUpTo_injOn
  exact ⟨within.1, within.2.trans (by decide)⟩

/-- A write of the whole file, of a chunk of three bytes that says how many it stands for. -/
def chunkWrite (plain_len : U32) (new_size : U64) : FsOp :=
  sampleOp 2 (.write chunkFile 0 [⟨Lib.blake3 [1, 2, 3], 3, plain_len, 0⟩] new_size none)

def chunkWritten (plain_len : U32) (new_size : U64) : CoreState :=
  (Act.receive (chunkWrite plain_len new_size)).run .sealing sampleIdentity chunkState

private theorem chunkState_run : AnyRun .sealing sampleIdentity chunkState :=
  .step (.step (.boot (blank_new 7) rfl rfl) trivial) trivial

def chunkLogged : CoreState := chunkState.appendOp (chunkWrite 3 3)

private theorem chunkLogged_facts :
    (∀ row ∈ chunkLogged.blobs.toList, (chunkWritten 3 3).blobs[row.1]? = some row.2) ∧
    (∀ bytes ∈ storedBytes .sealing chunkLogged (chunkWrite 3 3),
      (chunkWritten 3 3).blobs[Env.sealing.blake3 bytes]? = some bytes) ∧
    (chunkLogged.loadInode chunkFile).map
      (fun r => (r.kind, writeCanWin r.content (chunkWrite 3 3))) = some (.file, true) ∧
    chunkLogged.blobs[Lib.blake3 [1, 2, 3]]? = some [1, 2, 3] ∧
    ((chunkWritten 3 3).loadInode chunkFile).map (fun r => (r.kind, r.content)) =
      some (.file, contentOf (chunkWrite 3 3) (objectHash .sealing (fileObject
        [⟨Lib.blake3 [1, 2, 3], 3, 3, 0⟩] 3 (chunkWrite 3 3).time_unix_ms none)) 3) ∧
    (chunkWrite 3 3).id ∉ chunkState.applied ∧ Admits .sealing (chunkWrite 3 3) true chunkState := by
  decide +kernel

private theorem chunkLogged_attempted : (chunkLogged, chunkWrite 3 3) ∈
    (Call.apply (chunkWrite 3 3) true).attempts .sealing chunkState := by
  obtain ⟨-, -, -, -, -, new, admits⟩ := chunkLogged_facts
  show _ ∈ applyAttempts .sealing (chunkWrite 3 3) true chunkState
  rw [applyAttempts_new admits new]
  exact List.mem_cons_self

theorem write_intact_sample : ReadsInFull .sealing (chunkWritten 3 3) chunkFile := by
  obtain ⟨rows, listed, kind, chunk, final, -, -⟩ := chunkLogged_facts
  have keyed : Keyed .sealing chunkLogged := chunkState_run.keyed.appendOp _
  have apart : Apart .sealing chunkLogged (chunkWritten 3 3)
      (storedBytes .sealing chunkLogged (chunkWrite 3 3)) :=
    apart_of_extends keyed (keyed_act chunkState_run.keyed _)
      (fun hash bytes here => rows (hash, bytes) ((BTreeMap.mem_toList _ _ _).mpr here)) listed
  obtain ⟨record, found, isFile⟩ := Option.map_eq_some_iff.mp kind
  obtain ⟨file, wins⟩ := Prod.mk.inj isFile
  obtain ⟨record', found', isFile'⟩ := Option.map_eq_some_iff.mp final
  obtain ⟨file', content⟩ := Prod.mk.inj isFile'
  have held : ∀ c ∈ ([⟨Lib.blake3 [1, 2, 3], 3, 3, 0⟩] : List ChunkRef),
      chunkLogged.blobs[c.hash]? = some [1, 2, 3] := by
    intro c member
    rw [List.mem_singleton.mp member]
    exact chunk
  obtain ⟨u, applied, placed⟩ := mutate_whole apart keyed.within_left rfl ⟨record, found, file, rfl⟩
    (of_decide_eq_true wins) (fun c member => hasBlob_iff_get.mpr (by rw [held c member]; rfl))
    ⟨rfl, by decide⟩ fun bytes member => .inl member
  refine (write_intact_iff sealing_ideal Env.stored_decode chunkState_run
    (a := .receive (chunkWrite 3 3)) (List.mem_singleton.mpr rfl) chunkLogged_attempted rfl found wins
    applied ⟨_, placed.file, record', found', file', content⟩ apart).mpr ?_
  refine (if_pos (by decide)).mpr ⟨fun c member => ⟨[1, 2, 3], held c member, ?_⟩, by decide⟩
  rw [List.mem_singleton.mp member]
  exact ⟨rfl, rfl⟩

/-- A chunk of three bytes stated to stand for two: the write is applied and holds the register, and
the file cannot be read. -/
theorem write_torn : AnyRun .sealing sampleIdentity (chunkWritten 2 2) ∧
    (chunkWrite 2 2).id ∈ (chunkWritten 2 2).applied ∧
    (contentAt (chunkWritten 2 2) chunkFile).map LwwReg.orderKey = some (regKey (chunkWrite 2 2)) ∧
    ¬ReadsInFull .sealing (chunkWritten 2 2) chunkFile := by
  have facts : (chunkWritten 2 2).applied.contains (chunkWrite 2 2).id = true ∧
      (contentAt (chunkWritten 2 2) chunkFile).map LwwReg.orderKey = some (regKey (chunkWrite 2 2)) ∧
      (readFile .sealing (chunkWritten 2 2) chunkFile).toOption = none := by
    decide +kernel
  refine ⟨chunkState_run.step trivial, by simpa using facts.1, facts.2.1, ?_⟩
  rintro ⟨bytes, record, read, -⟩
  rw [read] at facts
  cases facts.2.2

end Torn

end NexusFS.Net
