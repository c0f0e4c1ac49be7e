/- GID: NexusFS/Core/Room
   source: crates/core/src/apply.rs, crates/core/src/snapshot.rs
   digest: While there are few directories, no climb, no subtree search and no walk meets its limit. -/

import NexusFS.Core.Reachable

set_option autoImplicit false
set_option relaxedAutoImplicit false

namespace NexusFS.Core

open NexusFS.Lib NexusFS.Lib.Effect NexusFS.Proto NexusFS.Crdt CoreState Relation

def Roomy (s : CoreState) : Prop :=
  ∀ dirs : List U128, dirs.Nodup →
    (∀ i ∈ dirs, s.isDir i = true ∨ ∃ p, s.LinkedAs .dir p i) → dirs.length ≤ maxTreeNodes

section Searches

variable {s : CoreState} {inode target : U128} {e : Err}

private theorem climb_chain (fuel : Nat) (current : U128)
    (failed : climbParents s inode fuel current = .error e) :
    ∃ l : List U128, l.length = fuel ∧ (∀ i ∈ l, TransGen s.Linked i current) ∧
      l.Pairwise fun a b => TransGen s.Linked b a := by
  induction fuel generalizing current with
  | zero => exact ⟨[], rfl, by simp, .nil⟩
  | succ fuel ih =>
      unfold climbParents at failed
      split at failed
      · cases failed
      · split at failed
        · cases failed
        · split at failed
          · cases failed
          · rename_i parent _
            split at failed
            · rename_i lists
              have link : s.Linked parent current := (s.dirLists_iff _ _).mp lists
              obtain ⟨l, length, above, chain⟩ := ih parent failed
              refine ⟨parent :: l, by rw [List.length_cons, length], ?_, ?_⟩
              · exact List.forall_mem_cons.mpr
                  ⟨.single link, fun i member => (above i member).tail link⟩
              · exact List.pairwise_cons.mpr ⟨above, chain⟩
            · cases failed

private theorem subtree_met (fuel : Nat) (stack : List U128) (seen : BTreeSet U128)
    (failed : subtreeLoop s target fuel stack seen = .error e) :
    ∃ l : List U128, l.length = fuel + 1 ∧ l.Nodup ∧ (∀ i ∈ l, i ∉ seen) ∧
      ∀ i ∈ l, ∃ j ∈ stack, ReflTransGen (s.LinkedAs .dir) j i := by
  induction fuel generalizing stack seen with
  | zero =>
      unfold subtreeLoop at failed
      split at failed
      · cases failed
      · rename_i inode rest pending
        have member : inode ∈ stack.dropWhile fun i => seen.contains i := by
          rw [pending]
          exact List.mem_cons_self
        refine ⟨[inode], rfl, List.nodup_singleton _, ?_, ?_⟩
        · intro i inside
          obtain rfl := List.mem_singleton.mp inside
          have unseen := List.head?_dropWhile_not (fun i => seen.contains i) stack
          rw [pending] at unseen
          have unseen' : seen.contains i = false := by simpa using unseen
          exact fun old => Bool.false_ne_true (unseen'.symm.trans (Std.ExtTreeSet.contains_iff_mem.mpr old))
        · intro i inside
          obtain rfl := List.mem_singleton.mp inside
          exact ⟨_, (List.dropWhile_sublist _).subset member, .refl⟩
  | succ fuel ih =>
      unfold subtreeLoop at failed
      split at failed
      · cases failed
      · rename_i inode rest pending
        dsimp only at failed
        split at failed
        · cases failed
        · have kept : ∀ i ∈ inode :: rest, i ∈ stack := fun i inside =>
            (List.dropWhile_sublist _).subset (pending ▸ inside)
          have unseen : inode ∉ seen := by
            have head := List.head?_dropWhile_not (fun i => seen.contains i) stack
            rw [pending] at head
            have head' : seen.contains inode = false := by simpa using head
            exact fun old => Bool.false_ne_true (head'.symm.trans (Std.ExtTreeSet.contains_iff_mem.mpr old))
          obtain ⟨l, length, nodup, fresh, below⟩ := ih _ _ failed
          have apart : ∀ i ∈ l, i ≠ inode ∧ i ∉ seen := fun i inside =>
            ⟨fun same => fresh i inside ((BTreeSet.mem_insert _ _ _).mpr (.inl same.symm)),
              fun old => fresh i inside ((BTreeSet.mem_insert _ _ _).mpr (.inr old))⟩
          refine ⟨inode :: l, by rw [List.length_cons, length],
            List.nodup_cons.mpr ⟨fun inside => (apart _ inside).1 rfl, nodup⟩,
            List.forall_mem_cons.mpr ⟨unseen, fun i inside => (apart i inside).2⟩, ?_⟩
          refine List.forall_mem_cons.mpr
            ⟨⟨inode, kept inode List.mem_cons_self, .refl⟩, fun i inside => ?_⟩
          obtain ⟨j, stacked, path⟩ := below i inside
          rcases List.mem_append.mp stacked with listed | old
          · obtain ⟨entry, entered, rfl⟩ := List.mem_map.mp (List.mem_reverse.mp listed)
            obtain ⟨entered, dir⟩ := List.mem_filter.mp entered
            have link : s.LinkedAs .dir inode entry.inode_id :=
              (s.mem_materializeDir _ _ _).mp ⟨entry, entered, rfl, by simpa using dir⟩
            exact ⟨inode, kept inode List.mem_cons_self, .head link path⟩
          · exact ⟨j, kept j (List.mem_cons_of_mem _ old), path⟩

private theorem subtreeLoop_true (fuel : Nat) (stack : List U128) (seen : BTreeSet U128)
    (result : subtreeLoop s target fuel stack seen = .ok true) :
    ∃ j ∈ stack, ∃ i, ReflTransGen (s.LinkedAs .dir) j i ∧ s.Linked i target := by
  induction fuel generalizing stack seen with
  | zero =>
      unfold subtreeLoop at result
      split at result <;> cases result
  | succ fuel ih =>
      unfold subtreeLoop at result
      split at result
      · cases result
      · rename_i inode rest pending
        have kept : ∀ i ∈ inode :: rest, i ∈ stack := fun i inside =>
          (List.dropWhile_sublist _).subset (pending ▸ inside)
        dsimp only at result
        split at result
        · rename_i hit
          obtain ⟨entry, entered, same⟩ := List.any_eq_true.mp hit
          exact ⟨inode, kept inode List.mem_cons_self, inode, .refl,
            (s.exists_mem_materializeDir _ _).mp ⟨entry, entered, by simpa using same⟩⟩
        · obtain ⟨j, stacked, i, path, link⟩ := ih _ _ result
          rcases List.mem_append.mp stacked with listed | old
          · obtain ⟨entry, entered, rfl⟩ := List.mem_map.mp (List.mem_reverse.mp listed)
            obtain ⟨entered, dir⟩ := List.mem_filter.mp entered
            have first : s.LinkedAs .dir inode entry.inode_id :=
              (s.mem_materializeDir _ _ _).mp ⟨entry, entered, rfl, by simpa using dir⟩
            exact ⟨inode, kept inode List.mem_cons_self, i, .head first path, link⟩
          · exact ⟨j, kept j (List.mem_cons_of_mem _ old), i, path, link⟩

theorem below_of_subtree {root : U128} (inside : subtreeContains s root target = .ok true) :
    root = target ∨ ∃ i, ReflTransGen (s.LinkedAs .dir) root i ∧ s.Linked i target := by
  unfold subtreeContains at inside
  split at inside
  · exact .inl ‹_›
  · obtain ⟨j, stacked, found⟩ := subtreeLoop_true _ _ _ inside
    obtain rfl := List.mem_singleton.mp stacked
    exact .inr found

end Searches

section Room

variable {env : Env} {ids : Set OpId} {s t : CoreState}

theorem Roomy.congr (roomy : Roomy s) (dirs : t.dirs = s.dirs) (inodes : t.inodes = s.inodes) :
    Roomy t := by
  have isDir : ∀ i, t.isDir i = s.isDir i := fun i => by
    simp only [CoreState.isDir, CoreState.loadInode, inodes]
  have linked : t.LinkedAs = s.LinkedAs := by
    funext kind p i
    simp only [LinkedAs, CoreState.Live, added_congr dirs, removed_congr dirs]
  intro l nodup listed
  refine roomy l nodup fun i member => ?_
  rw [← isDir, ← linked]
  exact listed i member

theorem Roomy.smallTree (roomy : Roomy s) (shape : Shape env ids s) : SmallTree s := by
  intro dirs nodup below
  refine roomy dirs nodup fun i member => ?_
  rcases (below i member).cases_tail with rfl | ⟨p, -, link⟩
  · exact .inl shape.root
  · exact .inr ⟨p, link⟩

theorem Roomy.isReachable_returns (roomy : Roomy s) (shape : Shape env ids s) (i : U128) :
    ∃ answer, isReachable s i = .ok answer := by
  cases result : isReachable s i with
  | ok answer => exact ⟨answer, rfl⟩
  | error e =>
      obtain ⟨l, length, above, chain⟩ := climb_chain _ _ result
      have nodup : l.Nodup := by
        refine chain.imp ?_
        rintro a b path rfl
        exact shape.forest.acyclic _ path
      have bound := roomy l nodup fun j member => by
        obtain ⟨k, link, -⟩ := TransGen.head'_iff.mp (above j member)
        exact .inl ((shape.mapped j).mp (s.loadDir_of_linked link))
      omega

theorem Roomy.subtree_returns (roomy : Roomy s) {root target : U128}
    (dir : ∃ p, s.LinkedAs .dir p root) : ∃ answer, subtreeContains s root target = .ok answer := by
  cases result : subtreeContains s root target with
  | ok answer => exact ⟨answer, rfl⟩
  | error e =>
      unfold subtreeContains at result
      split at result
      · cases result
      · obtain ⟨l, length, nodup, -, below⟩ := subtree_met _ _ _ result
        have bound := roomy l nodup fun i member => by
          obtain ⟨j, stacked, path⟩ := below i member
          obtain rfl := List.mem_singleton.mp stacked
          rcases path.cases_tail with rfl | ⟨p, -, link⟩
          · exact .inr dir
          · exact .inr ⟨p, link⟩
        have limits : maxTreeNodes = maxSubtreeNodes := rfl
        omega

private theorem Roomy.refresh_returns (roomy : Roomy s) (shape : Shape env ids s) (i : U128) :
    ∃ t, refreshMapEntry env i s = .ok () t ∧ OnlyMap s t := by
  have only := onlyMap_refresh env i s
  suffices returns : ∃ t, refreshMapEntry env i s = .ok () t by
    obtain ⟨t, run⟩ := returns
    rw [run] at only
    exact ⟨t, run, only⟩
  obtain ⟨answer, reachable⟩ := roomy.isReachable_returns shape i
  unfold refreshMapEntry
  simp only [bind_run, get_run, reachable, liftCheck_ok]
  cases answer with
  | false => exact ⟨_, rfl⟩
  | true =>
      cases s.loadInode i with
      | none => exact ⟨_, rfl⟩
      | some record =>
          obtain ⟨kind, content, attrs, ctime⟩ := record
          cases kind with
          | dir =>
              obtain ⟨blobs, -, stored⟩ := putObject_blobs env (currentDirObject s i) s
              simp only [if_true, storeDirObject, bind_run, get_run, stored, modify_run]
              exact ⟨_, rfl⟩
          | file =>
              dsimp only
              cases content.value.node_hash <;> exact ⟨_, rfl⟩

theorem Roomy.onlyMap (roomy : Roomy s) (only : OnlyMap s t) : Roomy t := by
  obtain ⟨blobs, imap, -, rfl⟩ := only
  exact roomy.congr rfl rfl

theorem Roomy.maintain_returns (roomy : Roomy s) (shape : Shape env ids s) (op : FsOp) :
    ∃ t, maintainInodeMap env op s = .ok () t := by
  have created : ∀ parent new, ∃ t,
      (do refreshMapEntry env parent; refreshMapEntry env new : M Unit) s = .ok () t := by
    intro parent new
    obtain ⟨t, first, only⟩ := roomy.refresh_returns shape parent
    obtain ⟨u, second, -⟩ := (roomy.onlyMap only).refresh_returns (shape.onlyMap only) new
    exact ⟨u, by rw [bind_run, first]; exact second⟩
  have rebuilt : ∃ t, (do let _ ← rebuildInodeMap env : M Unit) s = .ok () t := by
    have spec := shape.rebuildInodeMap_spec
    rw [bind_run]
    cases run : rebuildInodeMap env s with
    | ok rows t => exact ⟨t, rfl⟩
    | error e t =>
        rw [run] at spec
        obtain ⟨w, overfull⟩ := spec.2.2.2
        exact absurd overfull ((roomy.smallTree shape).not_overfull w)
  unfold maintainInodeMap
  cases op.kind with
  | mkdir parent name mode => exact created _ _
  | createFile parent name mode => exact created _ _
  | write inode offset chunks new_size encryption =>
      obtain ⟨t, run, -⟩ := roomy.refresh_returns shape inode
      exact ⟨t, run⟩
  | setAttr inode mode uid gid =>
      obtain ⟨t, run, -⟩ := roomy.refresh_returns shape inode
      exact ⟨t, run⟩
  | unlink parent name observed => exact rebuilt
  | rename old_parent old_name new_parent new_name observed => exact rebuilt

end Room

end NexusFS.Core
