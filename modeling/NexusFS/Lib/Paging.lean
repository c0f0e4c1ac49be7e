/- GID: NexusFS/Lib/Paging
   layer: library
   digest: Pages of an ordered listing whose keys fold into items, and when each item is listed once. -/

import Mathlib.Data.List.SplitBy
import Mathlib.Data.Nat.ModEq
import Mathlib.Order.Defs.LinearOrder
import Mathlib.Tactic.Linarith

/-!
A page takes keys until it lists as many items as it has room for, and the next one resumes after
the last key taken. An item that folds takes one place of a page however many keys it has.
-/

set_option autoImplicit false
set_option relaxedAutoImplicit false

namespace NexusFS.Lib.Paging

universe u v

variable {κ : Type u} {ι : Type v}

/-- A page so far: the items it lists, the last key it took, and whether a key was left. -/
structure Page (κ : Type u) (ι : Type v) where
  listed : List ι
  last : Option κ
  truncated : Bool

def Page.empty : Page κ ι := ⟨[], none, false⟩

section Definitions

variable [DecidableEq ι] (item : κ → ι) (folds : ι → Bool) (room : Nat)

/-- Take one key: it adds its item, unless it folds into an item of this page. -/
def Page.take (p : Page κ ι) (k : κ) : Page κ ι :=
  { p with
    listed := if folds (item k) && p.listed.contains (item k) then p.listed else p.listed ++ [item k]
    last := some k }

def fill : List κ → Page κ ι → Page κ ι
  | [], p => p
  | k :: rest, p =>
      if room ≤ p.listed.length then { p with truncated := true }
      else fill rest (p.take item folds k)

variable [LinearOrder κ]

/-- The pages from one that is being filled, each resuming after the last key of the one before. -/
inductive Follows : List κ → Page κ ι → List (Page κ ι) → Prop
  | last {keys : List κ} {p : Page κ ι} : (fill item folds room keys p).truncated = false →
      Follows keys p [fill item folds room keys p]
  | more {keys : List κ} {p : Page κ ι} {token : κ} {pages : List (Page κ ι)} :
      (fill item folds room keys p).truncated = true →
      (fill item folds room keys p).last = some token →
      Follows (keys.filter fun k => token < k) .empty pages →
      Follows keys p (fill item folds room keys p :: pages)

def runs (keys : List κ) : List (List κ) := keys.splitBy fun a b => item a == item b

/-- What the run numbered `n` must be like: at the end of a page, copies of one key; elsewhere, of an
item that folds or a single key. -/
def Fits (n : Nat) (run : List κ) : Prop :=
  if room ∣ n then ∀ a ∈ run, ∀ b ∈ run, a = b
  else ∀ a ∈ run, folds (item a) = true ∨ run.length = 1

def Aligned (n : Nat) (rs : List (List κ)) : Prop :=
  ∀ i r, rs[i]? = some r → Fits item folds room (n + i + 1) r

end Definitions

/-- Nonempty runs of one item each, different ones, in ascending order. -/
structure IsRuns [LinearOrder κ] (item : κ → ι) (rs : List (List κ)) : Prop where
  nonempty : ∀ r ∈ rs, r ≠ []
  constant : ∀ r ∈ rs, ∀ a ∈ r, ∀ b ∈ r, item a = item b
  ascending : ∀ r ∈ rs, r.Pairwise (· ≤ ·)
  apart : rs.Pairwise fun r q => ∀ a ∈ r, ∀ b ∈ q, item a ≠ item b ∧ a < b

section Ascending

variable [LinearOrder κ] {item : κ → ι} {r : List κ} {rs : List (List κ)}

theorem IsRuns.tail (is_runs : IsRuns item (r :: rs)) : IsRuns item rs where
  nonempty q inside := is_runs.nonempty q (List.mem_cons_of_mem r inside)
  constant q inside := is_runs.constant q (List.mem_cons_of_mem r inside)
  ascending q inside := is_runs.ascending q (List.mem_cons_of_mem r inside)
  apart := is_runs.apart.of_cons

theorem IsRuns.across (is_runs : IsRuns item (r :: rs)) {a b : κ} (here : a ∈ r)
    (there : b ∈ rs.flatten) : item a ≠ item b ∧ a < b := by
  obtain ⟨q, member, inside⟩ := List.mem_flatten.mp there
  exact (List.pairwise_cons.mp is_runs.apart).1 q member a here b inside

theorem IsRuns.sorted (is_runs : IsRuns item rs) : rs.flatten.Pairwise (· ≤ ·) := by
  rw [List.pairwise_flatten]
  exact ⟨is_runs.ascending, is_runs.apart.imp fun across a here b there => (across a here b there).2.le⟩

end Ascending

section Runs

variable [LinearOrder κ] [DecidableEq ι] {item : κ → ι}

private theorem apart_of_adjacent {rs : List (List κ)} (nonempty : ∀ r ∈ rs, r ≠ [])
    (constant : ∀ r ∈ rs, ∀ a ∈ r, ∀ b ∈ r, item a = item b) (sorted : rs.flatten.Pairwise (· ≤ ·))
    (adjacent : rs.IsChain fun r q => ∃ hr hq, (item (r.getLast hr) == item (q.head hq)) = false)
    (convex : ∀ a ∈ rs.flatten, ∀ b ∈ rs.flatten, ∀ c ∈ rs.flatten,
      a ≤ b → b ≤ c → item a = item c → item b = item a) :
    rs.Pairwise fun r q => ∀ a ∈ r, ∀ b ∈ q, item a ≠ item b ∧ a < b := by
  induction rs with
  | nil => exact List.Pairwise.nil
  | cons r rs ih =>
      rw [List.flatten_cons, List.pairwise_append] at sorted
      obtain ⟨-, rest_sorted, across⟩ := sorted
      have in_rest : ∀ {a}, a ∈ rs.flatten → a ∈ (r :: rs).flatten := fun member => by
        rw [List.flatten_cons]
        exact List.mem_append_right r member
      have in_first : ∀ {a}, a ∈ r → a ∈ (r :: rs).flatten := fun member => by
        rw [List.flatten_cons]
        exact List.mem_append_left _ member
      refine List.pairwise_cons.mpr ⟨fun q member a here b there => ?_, ih
        (fun q inside => nonempty q (List.mem_cons_of_mem r inside))
        (fun q inside => constant q (List.mem_cons_of_mem r inside)) rest_sorted adjacent.tail
        fun a ha b hb c hc => convex a (in_rest ha) b (in_rest hb) c (in_rest hc)⟩
      have listed : b ∈ rs.flatten := List.mem_flatten.mpr ⟨q, member, there⟩
      have order : a ≤ b := across a here b listed
      have different : item a ≠ item b := by
        intro same
        -- the head of the next run lies between the two, and differs from the run's own item
        cases rs with
        | nil => cases member
        | cons next rs =>
            obtain ⟨ends, starts, apart⟩ := (List.isChain_cons_cons.mp adjacent).1
            have head : next.head starts ∈ next := List.head_mem starts
            have head_listed : next.head starts ∈ (next :: rs).flatten :=
              List.mem_flatten.mpr ⟨next, List.mem_cons_self, head⟩
            have below : next.head starts ≤ b := by
              obtain ⟨c, tail, is_it⟩ := List.exists_cons_of_ne_nil starts
              subst is_it
              rw [List.flatten_cons, List.cons_append] at rest_sorted listed
              rcases List.mem_cons.mp listed with rfl | later
              · exact le_rfl
              · exact (List.pairwise_cons.mp rest_sorted).1 b later
            have between := convex a (in_first here) _ (in_rest head_listed) b (in_rest listed)
              (across a here _ head_listed) below same
            have own := constant r List.mem_cons_self _ (List.getLast_mem ends) a here
            rw [own, between] at apart
            simp at apart
      exact ⟨different, lt_of_le_of_ne order fun equal => different (congrArg item equal)⟩

theorem isRuns_runs {keys : List κ} (sorted : keys.Pairwise (· ≤ ·))
    (convex : ∀ a ∈ keys, ∀ b ∈ keys, ∀ c ∈ keys, a ≤ b → b ≤ c → item a = item c → item b = item a) :
    IsRuns item (runs item keys) := by
  have whole : (runs item keys).flatten = keys := List.flatten_splitBy _ keys
  have nonempty : ∀ r ∈ runs item keys, r ≠ [] := fun r member => List.ne_nil_of_mem_splitBy member
  have constant : ∀ r ∈ runs item keys, ∀ a ∈ r, ∀ b ∈ r, item a = item b := by
    intro r member a here b there
    have chain : r.IsChain fun x y => item x = item y :=
      (List.isChain_of_mem_splitBy member).imp fun x y same => by simpa using same
    have trans : IsTrans κ fun x y => item x = item y := ⟨fun _ _ _ => Eq.trans⟩
    have pairs := List.isChain_iff_pairwise.mp chain
    have symmetric : Std.Symm fun x y => item x = item y := ⟨fun _ _ => Eq.symm⟩
    exact List.Pairwise.forall_of_forall (R := fun x y => item x = item y) (fun _ _ => rfl) pairs here there
  refine ⟨nonempty, constant, fun r member => ?_, ?_⟩
  · exact sorted.sublist (whole ▸ List.sublist_flatten_of_mem member)
  · exact apart_of_adjacent nonempty constant (by rwa [whole])
      (List.isChain_getLast_head_splitBy (fun a b => item a == item b) keys) (by rwa [whole])

end Runs

def times [DecidableEq ι] (pages : List (Page κ ι)) (x : ι) : Nat := (pages.flatMap Page.listed).count x

section Filling

variable [DecidableEq ι] {item : κ → ι} {folds : ι → Bool} {room : Nat} {p : Page κ ι} {k : κ}
  {rest keys : List κ} {pages : List (Page κ ι)} {x : ι}

theorem fill_cons_room (open_place : p.listed.length < room) :
    fill item folds room (k :: rest) p = fill item folds room rest (p.take item folds k) :=
  if_neg (not_le.mpr open_place)

theorem fill_cons_full (full : room ≤ p.listed.length) :
    fill item folds room (k :: rest) p = { p with truncated := true } :=
  if_pos full

theorem listed_prefix_take (p : Page κ ι) (k : κ) : p.listed <+: (p.take item folds k).listed := by
  unfold Page.take
  split
  · exact List.prefix_rfl
  · exact List.prefix_append _ _

theorem listed_prefix_fill (keys : List κ) (p : Page κ ι) :
    p.listed <+: (fill item folds room keys p).listed := by
  induction keys generalizing p with
  | nil => exact List.prefix_rfl
  | cons k rest ih =>
      by_cases full : room ≤ p.listed.length
      · have same := @fill_cons_full κ ι _ item folds room p k rest full
        exact same ▸ List.prefix_rfl
      · rw [fill_cons_room (not_le.mp full)]
        exact (listed_prefix_take p k).trans (ih _)

@[simp] theorem take_last (p : Page κ ι) (k : κ) : (p.take item folds k).last = some k := rfl

theorem take_listed (fresh : item k ∉ p.listed) :
    (p.take item folds k).listed = p.listed ++ [item k] := by
  unfold Page.take
  rw [if_neg]
  simp [fresh]

theorem take_listed_folded (fold : folds (item k) = true) (there : item k ∈ p.listed) :
    (p.take item folds k).listed = p.listed := by
  unfold Page.take
  rw [if_pos]
  simp [fold, there]

theorem take_listed_again (apart : folds (item k) = false) :
    (p.take item folds k).listed = p.listed ++ [item k] := by
  unfold Page.take
  rw [if_neg]
  simp [apart]

theorem fill_last_mem (keys : List κ) (p : Page κ ι) {token : κ}
    (ends : (fill item folds room keys p).last = some token) : p.last = some token ∨ token ∈ keys := by
  induction keys generalizing p with
  | nil => exact .inl ends
  | cons k rest ih =>
      by_cases full : room ≤ p.listed.length
      · rw [fill_cons_full full] at ends
        exact .inl ends
      · rw [fill_cons_room (not_le.mp full)] at ends
        rcases ih _ ends with own | later
        · rw [take_last] at own
          exact .inr (Option.some.inj own ▸ List.mem_cons_self)
        · exact .inr (List.mem_cons_of_mem k later)

theorem fill_named (positive : 0 < room) (keys : List κ) (p : Page κ ι) (fresh : p.truncated = false)
    (named : p.listed ≠ [] → ∃ token, p.last = some token)
    (truncated : (fill item folds room keys p).truncated = true) :
    ∃ token, (fill item folds room keys p).last = some token := by
  induction keys generalizing p with
  | nil =>
      rw [fill, fresh] at truncated
      cases truncated
  | cons k rest ih =>
      by_cases full : room ≤ p.listed.length
      · rw [fill_cons_full full]
        exact named (List.ne_nil_of_length_pos (positive.trans_le full))
      · rw [fill_cons_room (not_le.mp full)] at truncated ⊢
        exact ih _ fresh (fun _ => ⟨k, rfl⟩) truncated

variable [LinearOrder κ]

theorem fill_last_ge {a : κ} (keys : List κ) (p : Page κ ι) (last : p.last = some a)
    (above : ∀ k ∈ keys, a ≤ k) (sorted : keys.Pairwise (· ≤ ·)) {token : κ}
    (ends : (fill item folds room keys p).last = some token) : a ≤ token := by
  induction keys generalizing p a with
  | nil =>
      rw [fill, last] at ends
      exact (Option.some.inj ends).le
  | cons k rest ih =>
      by_cases full : room ≤ p.listed.length
      · rw [fill_cons_full full, last] at ends
        exact (Option.some.inj ends).le
      · rw [fill_cons_room (not_le.mp full)] at ends
        obtain ⟨first, later⟩ := List.pairwise_cons.mp sorted
        exact (above k List.mem_cons_self).trans (ih (p.take item folds k) rfl first later ends)

theorem follows_nil (fresh : p.truncated = false) (follows : Follows item folds room [] p pages) :
    pages = [p] := by
  cases follows with
  | last _ => rfl
  | more truncated _ _ =>
      rw [fill, fresh] at truncated
      cases truncated

theorem follows_cons_room (sorted : (k :: rest).Pairwise (· ≤ ·)) (open_place : p.listed.length < room)
    (follows : Follows item folds room (k :: rest) p pages) :
    Follows item folds room rest (p.take item folds k) pages := by
  have same := @fill_cons_room κ ι _ item folds room p k rest open_place
  obtain ⟨first, later⟩ := List.pairwise_cons.mp sorted
  cases follows with
  | last ends =>
      rw [same] at ends ⊢
      exact .last ends
  | @more _ _ token pages truncated ends rests =>
      rw [same] at truncated ends ⊢
      have above : k ≤ token := fill_last_ge rest _ (take_last p k) first later ends
      rw [List.filter_cons_of_neg (by simpa using above)] at rests
      exact .more truncated ends rests

theorem follows_cons_full (full : room ≤ p.listed.length) {token : κ} (last : p.last = some token)
    (follows : Follows item folds room (k :: rest) p pages) :
    ∃ later, pages = { p with truncated := true } :: later ∧
      Follows item folds room ((k :: rest).filter fun k => token < k) .empty later := by
  have same := @fill_cons_full κ ι _ item folds room p k rest full
  cases follows with
  | last ends =>
      rw [same] at ends
      cases ends
  | @more _ _ next pages truncated ends rests =>
      rw [same] at ends ⊢
      obtain rfl : token = next := Option.some.inj (last.symm.trans ends)
      exact ⟨pages, rfl, rests⟩

theorem times_ge (follows : Follows item folds room keys p pages) (x : ι) :
    p.listed.count x ≤ times pages x := by
  have inside : p.listed.Sublist (fill item folds room keys p).listed :=
    (listed_prefix_fill keys p).sublist
  cases follows with
  | last _ =>
      rw [times, List.flatMap_singleton]
      exact inside.count_le x
  | more _ _ _ =>
      rw [times, List.flatMap_cons, List.count_append]
      exact (inside.count_le x).trans (Nat.le_add_right _ _)

theorem times_pos (positive : 0 < room) (sorted : (k :: rest).Pairwise (· ≤ ·))
    (follows : Follows item folds room (k :: rest) .empty pages) : 1 ≤ times pages (item k) := by
  have taken := times_ge (follows_cons_room sorted (p := .empty) positive follows) (item k)
  rw [take_listed (by simp [Page.empty])] at taken
  simpa [Page.empty] using taken

end Filling

/-- A page between two runs: after `n` items, with none of the remaining keys touched. -/
structure Ready [LinearOrder κ] (item : κ → ι) (room : Nat) (p : Page κ ι) (n : Nat)
    (keys : List κ) : Prop where
  fresh : p.truncated = false
  places : p.listed.length ≤ room
  number : p.listed.length % room = n % room
  unseen : ∀ k ∈ keys, item k ∉ p.listed
  beyond : ∀ token, p.last = some token → ∀ k ∈ keys, token < k
  named : p.listed ≠ [] → ∃ token, p.last = some token

theorem ready_empty [LinearOrder κ] {item : κ → ι} {room : Nat} (n : Nat) (start : n % room = 0) (keys : List κ) :
    Ready item room (.empty : Page κ ι) n keys where
  fresh := rfl
  places := Nat.zero_le room
  number := by rw [start]; exact Nat.zero_mod room
  unseen _ _ := List.not_mem_nil
  beyond _ last := nomatch last
  named some_listed := absurd rfl some_listed

section Stepping

variable [LinearOrder κ] [DecidableEq ι] {item : κ → ι} {folds : ι → Bool} {room n : Nat}
  {p : Page κ ι} {k : κ} {r rest keys : List κ} {rs : List (List κ)} {pages : List (Page κ ι)}

theorem filter_beyond {token : κ} (beyond : ∀ k ∈ keys, token < k) :
    (keys.filter fun k => token < k) = keys :=
  List.filter_eq_self.mpr fun k member => decide_eq_true (beyond k member)

theorem Ready.turn (ready : Ready item room p n (k :: rest)) (positive : 0 < room)
    (follows : Follows item folds room (k :: rest) p pages) :
    ∃ ended q later, pages = ended ++ later ∧ Follows item folds room (k :: rest) q later ∧
      Ready item room q n (k :: rest) ∧ q.listed.length < room ∧
      ∀ x, times ended x + q.listed.count x = p.listed.count x := by
  rcases ready.places.lt_or_eq with open_place | full
  · exact ⟨[], p, pages, rfl, follows, ready, open_place, fun x => by simp [times]⟩
  · have some_listed : p.listed ≠ [] := List.ne_nil_of_length_pos (full ▸ positive)
    obtain ⟨token, last⟩ := ready.named some_listed
    obtain ⟨later, is_it, rests⟩ := follows_cons_full full.ge last follows
    rw [filter_beyond (ready.beyond token last)] at rests
    have start : n % room = 0 := by rw [← ready.number, full, Nat.mod_self]
    exact ⟨[{ p with truncated := true }], .empty, later, is_it, rests, ready_empty n start _, positive,
      fun x => by simp [times, Page.empty]⟩

theorem follows_folded (fold : ∀ b ∈ r, folds (item b) = true) (there : ∀ b ∈ r, item b ∈ p.listed)
    (open_place : p.listed.length < room) (sorted : (r ++ rest).Pairwise (· ≤ ·))
    (follows : Follows item folds room (r ++ rest) p pages) :
    ∃ q : Page κ ι, Follows item folds room rest q pages ∧ q.listed = p.listed ∧
      q.truncated = p.truncated ∧ (q.last = p.last ∨ ∃ b ∈ r, q.last = some b) := by
  induction r generalizing p with
  | nil => exact ⟨p, follows, rfl, rfl, .inl rfl⟩
  | cons b r ih =>
      have next := follows_cons_room sorted open_place follows
      have same := take_listed_folded (fold b List.mem_cons_self) (there b List.mem_cons_self)
      obtain ⟨q, rests, listed, truncated, last⟩ := ih
        (fun c inside => fold c (List.mem_cons_of_mem b inside))
        (fun c inside => same ▸ there c (List.mem_cons_of_mem b inside)) (same ▸ open_place)
        sorted.of_cons next
      refine ⟨q, rests, listed.trans same, truncated, .inr ?_⟩
      rcases last with here | ⟨c, inside, here⟩
      · exact ⟨b, List.mem_cons_self, here⟩
      · exact ⟨c, List.mem_cons_of_mem b inside, here⟩

omit [DecidableEq ι] in
theorem divides_iff (ready : Ready item room p n keys) (open_place : p.listed.length < room) :
    room ∣ n + 1 ↔ p.listed.length + 1 = room := by
  have next : (p.listed.length + 1) % room = (n + 1) % room := Nat.ModEq.add_right 1 ready.number
  rw [Nat.dvd_iff_mod_eq_zero, ← next]
  constructor
  · intro ends
    by_contra short
    rw [Nat.mod_eq_of_lt (by omega)] at ends
    omega
  · intro full
    rw [full, Nat.mod_self]

omit [DecidableEq ι] in
/-- The page once an item of the run `r` was added to it, for the runs after `r`. -/
theorem Ready.advance {q : Page κ ι} (ready : Ready item room p n (r :: rs).flatten)
    (is_runs : IsRuns item (r :: rs)) (open_place : p.listed.length < room) (here : k ∈ r)
    (listed : q.listed = p.listed ++ [item k]) (fresh : q.truncated = p.truncated)
    (last : ∃ b ∈ r, q.last = some b) : Ready item room q (n + 1) rs.flatten := by
  obtain ⟨b, member, is_it⟩ := last
  have length : q.listed.length = p.listed.length + 1 := by
    rw [listed, List.length_append, List.length_singleton]
  refine ⟨fresh.trans ready.fresh, length ▸ open_place, ?_, fun c there => ?_, fun token ends c there => ?_,
    fun _ => ⟨b, is_it⟩⟩
  · rw [length]
    exact Nat.ModEq.add_right 1 ready.number
  · rw [listed, List.mem_append, List.mem_singleton]
    rintro (before | same)
    · refine ready.unseen c ?_ before
      rw [List.flatten_cons]
      exact List.mem_append_right _ there
    · exact (is_runs.across here there).1 same.symm
  · obtain rfl := Option.some.inj (is_it.symm.trans ends)
    exact (is_runs.across member there).2

omit [LinearOrder κ] in
theorem count_item (constant : ∀ a ∈ r, ∀ b ∈ r, item a = item b) (here : k ∈ r) (l : List ι) (x : ι) :
    (l ++ [item k]).count x = l.count x + if x ∈ r.map item then 1 else 0 := by
  have items : x ∈ r.map item ↔ item k = x := by
    refine ⟨fun member => ?_, fun same => same ▸ List.mem_map_of_mem here⟩
    obtain ⟨b, inside, rfl⟩ := List.mem_map.mp member
    exact constant k here b inside
  rw [List.count_append, List.count_singleton, if_congr items rfl rfl]
  simp [beq_iff_eq]

/-- A full page ends, and the next one skips the copies of its last key. -/
theorem follows_copies {b : κ} {run : List κ} (full : room ≤ p.listed.length) (last : p.last = some k)
    (copies : ∀ c ∈ b :: run, c = k) (above : ∀ c ∈ rest, k < c)
    (follows : Follows item folds room ((b :: run) ++ rest) p pages) :
    ∃ later, pages = { p with truncated := true } :: later ∧ Follows item folds room rest .empty later := by
  obtain ⟨later, is_it, rests⟩ := follows_cons_full full last follows
  have none_left : ((b :: run).filter fun c => k < c) = [] := by
    rw [List.filter_eq_nil_iff]
    intro c inside less
    rw [copies c inside] at less
    simp at less
  have skipped : (((b :: run) ++ rest).filter fun c => k < c) = rest := by
    rw [List.filter_append, none_left, List.nil_append, filter_beyond above]
  exact ⟨later, is_it, skipped ▸ rests⟩

theorem step_fits (is_runs : IsRuns item (r :: rs))
    (ready : Ready item room p n (r :: rs).flatten) (open_place : p.listed.length < room)
    (fits : Fits item folds room (n + 1) r)
    (follows : Follows item folds room (r :: rs).flatten p pages) :
    ∃ ended q later, pages = ended ++ later ∧ Follows item folds room rs.flatten q later ∧
      Ready item room q (n + 1) rs.flatten ∧
      ∀ x, times ended x + q.listed.count x = p.listed.count x + if x ∈ r.map item then 1 else 0 := by
  obtain ⟨k, run, rfl⟩ := List.exists_cons_of_ne_nil (is_runs.nonempty r List.mem_cons_self)
  have sorted := is_runs.sorted
  have here : k ∈ (k :: run) := List.mem_cons_self
  have constant := is_runs.constant _ List.mem_cons_self
  have unseen : item k ∉ p.listed := ready.unseen k (List.mem_flatten.mpr ⟨_, List.mem_cons_self, here⟩)
  have taken : (p.take item folds k).listed = p.listed ++ [item k] := take_listed unseen
  have length : (p.take item folds k).listed.length = p.listed.length + 1 := by
    rw [taken, List.length_append, List.length_singleton]
  have counted := count_item constant here p.listed
  rw [List.flatten_cons, List.cons_append] at follows sorted
  have next := follows_cons_room sorted open_place follows
  unfold Fits at fits
  split at fits
  · rename_i ends
    have full : p.listed.length + 1 = room := (divides_iff ready open_place).mp ends
    cases run with
    | nil =>
        refine ⟨[], p.take item folds k, pages, rfl, next,
          ready.advance is_runs open_place here taken rfl ⟨k, here, take_last p k⟩, fun x => ?_⟩
        rw [taken]
        simpa [times] using counted x
    | cons b run =>
        obtain ⟨later, is_it, rests⟩ := follows_copies (full.ge.trans length.ge) (take_last p k)
          (fun c inside => fits c (List.mem_cons_of_mem k inside) k here)
          (fun c there => (is_runs.across here there).2) next
        refine ⟨[{ p.take item folds k with truncated := true }], .empty, later, is_it, rests,
          ready_empty (n + 1) (Nat.mod_eq_zero_of_dvd ends) _, fun x => ?_⟩
        have listed : times [{ p.take item folds k with truncated := true }] x =
            (p.listed ++ [item k]).count x := by
          rw [times, List.flatMap_singleton, taken]
        rw [listed]
        simpa [Page.empty] using counted x
  · rename_i inside
    have short : p.listed.length + 1 < room :=
      lt_of_le_of_ne open_place fun full => inside ((divides_iff ready open_place).mpr full)
    have fold : ∀ b ∈ run, folds (item b) = true := by
      intro b member
      rcases fits b (List.mem_cons_of_mem k member) with fold | single
      · exact fold
      · rw [List.length_cons, Nat.add_eq_right] at single
        rw [List.eq_nil_of_length_eq_zero single] at member
        cases member
    have there : ∀ b ∈ run, item b ∈ (p.take item folds k).listed := by
      intro b member
      rw [taken, constant b (List.mem_cons_of_mem k member) k here]
      exact List.mem_append_right _ List.mem_cons_self
    obtain ⟨q, rests, listed, truncated, last⟩ :=
      follows_folded fold there (length.trans_lt short) sorted.of_cons next
    have last_in : ∃ b ∈ k :: run, q.last = some b := by
      rcases last with same | ⟨b, member, is_it⟩
      · exact ⟨k, here, same⟩
      · exact ⟨b, List.mem_cons_of_mem k member, is_it⟩
    refine ⟨[], q, pages, rfl, rests,
      ready.advance is_runs open_place here (listed.trans taken) truncated last_in, fun x => ?_⟩
    rw [listed, taken]
    simpa [times] using counted x

theorem twice_of_not_fits (positive : 0 < room) (is_runs : IsRuns item (r :: rs))
    (ready : Ready item room p n (r :: rs).flatten) (open_place : p.listed.length < room)
    (unfit : ¬Fits item folds room (n + 1) r)
    (follows : Follows item folds room (r :: rs).flatten p pages) :
    ∃ k ∈ r, 2 ≤ times pages (item k) := by
  obtain ⟨k, run, rfl⟩ := List.exists_cons_of_ne_nil (is_runs.nonempty r List.mem_cons_self)
  have sorted := is_runs.sorted
  have here : k ∈ (k :: run) := List.mem_cons_self
  have unseen : item k ∉ p.listed := ready.unseen k (List.mem_flatten.mpr ⟨_, List.mem_cons_self, here⟩)
  have taken : (p.take item folds k).listed = p.listed ++ [item k] := take_listed unseen
  rw [List.flatten_cons, List.cons_append] at follows sorted
  have next := follows_cons_room sorted open_place follows
  refine ⟨k, here, ?_⟩
  unfold Fits at unfit
  split at unfit
  · rename_i ends
    -- the page ends after the first key, and another key of the item is left for the next page
    have full : p.listed.length + 1 = room := (divides_iff ready open_place).mp ends
    have no_room : room ≤ (p.take item folds k).listed.length := by
      rw [taken, List.length_append, List.length_singleton]
      exact full.ge
    obtain ⟨first, later_sorted⟩ := List.pairwise_cons.mp sorted
    have other : ∃ c ∈ run, k < c := by
      by_contra none_above
      push Not at none_above
      have copies : ∀ c ∈ k :: run, c = k := by
        intro c member
        rcases List.mem_cons.mp member with rfl | inside
        · rfl
        · exact le_antisymm (none_above c inside) (first c (List.mem_append_left _ inside))
      exact unfit fun a ha b hb => (copies a ha).trans (copies b hb).symm
    obtain ⟨c, inside, above⟩ := other
    cases run with
    | nil => cases inside
    | cons b run =>
        obtain ⟨later, is_it, rests⟩ := follows_cons_full no_room (take_last p k) next
        have left : c ∈ ((b :: run).filter fun c => k < c) :=
          List.mem_filter.mpr ⟨inside, decide_eq_true above⟩
        obtain ⟨head, tail, split⟩ := List.exists_cons_of_ne_nil (List.ne_nil_of_mem left)
        have starts : (((b :: run) ++ rs.flatten).filter fun c => k < c) =
            head :: (tail ++ rs.flatten.filter fun c => k < c) := by
          rw [List.filter_append, split, List.cons_append]
        replace rests : Follows item folds room (((b :: run) ++ rs.flatten).filter fun c => k < c)
          .empty later := rests
        have remaining : (((b :: run) ++ rs.flatten).filter fun c => k < c).Pairwise (· ≤ ·) :=
          later_sorted.filter _
        rw [starts] at rests remaining
        have again := times_pos positive remaining rests
        have member : head ∈ b :: run := (List.mem_filter.mp (split ▸ List.mem_cons_self)).1
        have same : item head = item k :=
          is_runs.constant _ List.mem_cons_self head (List.mem_cons_of_mem k member) k here
        rw [same] at again
        rw [is_it, times, List.flatMap_cons, List.count_append, taken, List.count_append]
        have once : 1 ≤ [item k].count (item k) := by simp
        have rest_of : times later (item k) = (later.flatMap Page.listed).count (item k) := rfl
        omega
  · rename_i inside
    -- there is room for a second copy of the key, on the same page
    have short : p.listed.length + 1 < room :=
      lt_of_le_of_ne open_place fun full => inside ((divides_iff ready open_place).mpr full)
    push Not at unfit
    obtain ⟨a, member, apart, several⟩ := unfit
    cases run with
    | nil => exact absurd rfl several
    | cons b run =>
        have open_still : (p.take item folds k).listed.length < room := by
          rw [taken, List.length_append, List.length_singleton]
          exact short
        have second := follows_cons_room sorted.of_cons open_still next
        have same : item b = item k :=
          is_runs.constant _ List.mem_cons_self b (List.mem_cons_of_mem k List.mem_cons_self) k here
        have single : folds (item b) = false := by
          rw [same, ← is_runs.constant _ List.mem_cons_self a member k here]
          simpa using apart
        have listed := times_ge second (item k)
        rw [take_listed_again single, taken, same] at listed
        have twice : 2 ≤ ((p.listed ++ [item k]) ++ [item k]).count (item k) := by
          simp [List.count_append]
        exact twice.trans listed

omit [LinearOrder κ] [DecidableEq ι] in
theorem aligned_cons : Aligned item folds room n (r :: rs) ↔
    Fits item folds room (n + 1) r ∧ Aligned item folds room (n + 1) rs := by
  constructor
  · intro aligned
    refine ⟨aligned 0 r rfl, fun i q at_i => ?_⟩
    have later := aligned (i + 1) q at_i
    rwa [← Nat.add_assoc, Nat.add_right_comm n i 1] at later
  · rintro ⟨first, later⟩ i q at_i
    cases i with
    | zero =>
        obtain rfl : r = q := Option.some.inj at_i
        exact first
    | succ i =>
        have fits := later i q at_i
        rwa [Nat.add_right_comm n 1 i] at fits

theorem times_of_follows (positive : 0 < room) (is_runs : IsRuns item rs)
    (ready : Ready item room p n rs.flatten) (follows : Follows item folds room rs.flatten p pages) :
    (Aligned item folds room n rs →
      ∀ x, times pages x = p.listed.count x + if x ∈ rs.flatten.map item then 1 else 0) ∧
    (¬Aligned item folds room n rs → ∃ k ∈ rs.flatten, 2 ≤ times pages (item k)) := by
  induction rs generalizing p n pages with
  | nil =>
      rw [follows_nil ready.fresh follows]
      refine ⟨fun _ x => by simp [times], fun unaligned => ?_⟩
      exact absurd (fun i r at_i => by simp at at_i) unaligned
  | cons r rs ih =>
      obtain ⟨k, run, rfl⟩ := List.exists_cons_of_ne_nil (is_runs.nonempty r List.mem_cons_self)
      obtain ⟨ended, q, later, rfl, follows', ready', open_place, kept⟩ := ready.turn positive follows
      rw [aligned_cons]
      by_cases fits : Fits item folds room (n + 1) (k :: run)
      · obtain ⟨closed, q', rests, rfl, next, ready_next, counted⟩ :=
          step_fits is_runs ready' open_place fits follows'
        obtain ⟨once, twice⟩ := ih is_runs.tail ready_next next
        constructor
        · rintro ⟨-, aligned⟩ x
          have later_once := once aligned x
          have now := counted x
          have before := kept x
          have split : times (ended ++ (closed ++ rests)) x =
              times ended x + (times closed x + times rests x) := by
            simp [times, List.flatMap_append, List.count_append]
          have apart : x ∈ (k :: run).map item → x ∉ rs.flatten.map item := by
            rintro own other
            obtain ⟨a, here, rfl⟩ := List.mem_map.mp own
            obtain ⟨b, there, same⟩ := List.mem_map.mp other
            exact (is_runs.across here there).1 same.symm
          have either : (if x ∈ ((k :: run) :: rs).flatten.map item then 1 else 0) =
              (if x ∈ (k :: run).map item then 1 else 0) +
                if x ∈ rs.flatten.map item then 1 else 0 := by
            rw [List.flatten_cons, List.map_append]
            by_cases own : x ∈ (k :: run).map item
            · rw [if_pos own, if_neg (apart own), if_pos (List.mem_append_left _ own)]
            · by_cases other : x ∈ rs.flatten.map item
              · rw [if_neg own, if_pos other, if_pos (List.mem_append_right _ other)]
              · rw [if_neg own, if_neg other, if_neg fun member =>
                  (List.mem_append.mp member).elim own other]
          rw [split, either]
          omega
        · intro unaligned
          obtain ⟨c, there, again⟩ := twice fun aligned => unaligned ⟨fits, aligned⟩
          refine ⟨c, by rw [List.flatten_cons]; exact List.mem_append_right _ there, again.trans ?_⟩
          simp only [times, List.flatMap_append, List.count_append]
          omega
      · refine ⟨fun both => absurd both.1 fits, fun _ => ?_⟩
        obtain ⟨c, here, again⟩ := twice_of_not_fits positive is_runs ready' open_place fits follows'
        refine ⟨c, by rw [List.flatten_cons]; exact List.mem_append_left _ here, again.trans ?_⟩
        simp only [times, List.flatMap_append, List.count_append]
        omega

theorem once_iff_aligned (positive : 0 < room) (sorted : keys.Pairwise (· ≤ ·))
    (convex : ∀ a ∈ keys, ∀ b ∈ keys, ∀ c ∈ keys, a ≤ b → b ≤ c → item a = item c → item b = item a)
    (follows : Follows item folds room keys .empty pages) :
    (∀ k ∈ keys, times pages (item k) = 1) ↔ Aligned item folds room 0 (runs item keys) := by
  have whole : (runs item keys).flatten = keys := List.flatten_splitBy _ keys
  have is_runs := isRuns_runs sorted convex
  rw [← whole] at follows
  obtain ⟨once, twice⟩ :=
    times_of_follows positive is_runs (ready_empty 0 (Nat.zero_mod room) _) follows
  rw [whole] at once twice
  constructor
  · intro each
    by_contra unaligned
    obtain ⟨k, member, again⟩ := twice unaligned
    rw [each k member] at again
    omega
  · intro aligned k member
    rw [once aligned (item k), if_pos (List.mem_map_of_mem member)]
    rfl

theorem exists_follows (positive : 0 < room) (keys : List κ) :
    ∃ pages, Follows item folds room keys (.empty : Page κ ι) pages := by
  induction size : keys.length using Nat.strong_induction_on generalizing keys with
  | _ length ih =>
      cases ends : (fill item folds room keys (.empty : Page κ ι)).truncated with
      | false => exact ⟨_, .last ends⟩
      | true =>
          obtain ⟨token, last⟩ := fill_named positive keys .empty rfl (absurd rfl) ends
          have member : token ∈ keys := (fill_last_mem keys .empty last).resolve_left nofun
          have shorter : (keys.filter fun k => token < k).length < length := by
            rw [← size]
            exact List.length_filter_lt_length_iff_exists.mpr ⟨token, member, by simp⟩
          obtain ⟨pages, rests⟩ := ih _ shorter _ rfl
          exact ⟨_, .more ends last rests⟩

end Stepping

end NexusFS.Lib.Paging
