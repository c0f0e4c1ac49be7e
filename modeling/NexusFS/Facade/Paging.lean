/- GID: NexusFS/Facade/Paging
   source: crates/s3/src/routes.rs, crates/s3/src/xml.rs
   digest: The pages of an S3 listing, and when each object and each common prefix is listed once. -/

import NexusFS.Facade.Serving
import NexusFS.Lib.Paging
import Mathlib.Data.List.Sort
import Mathlib.Data.String.Basic

/-!
A listing is a pure read: it walks the bucket, keeps the keys that start with the prefix, and takes
them in order until the page is full. Its token is the last key the page took.
-/

set_option autoImplicit false
set_option relaxedAutoImplicit false

namespace NexusFS.Facade

open NexusFS.Lib.Effect NexusFS.Lib.Paging NexusFS.Proto NexusFS.Core CoreState

def maxKeysLimit : Nat := 1000

/-- The query of a listing. -/
structure ListQuery where
  prefix_text : Option String
  delimiter : Option String
  max_keys : Option Nat
  continuation_token : Option String

abbrev KeyRow := String × U64 × U64

structure ObjectRow where
  key : String
  size : U64
  etag : String
  last_modified : String
  deriving DecidableEq

/-- What `list_objects_v2` renders. -/
structure ListPage where
  bucket : String
  prefix_text : String
  delimiter : Option String
  max_keys : Nat
  truncated : Bool
  next_token : Option String
  objects : List ObjectRow
  common_prefixes : List String
  deriving DecidableEq

def noSuchBucket (bucket : String) : S3Error :=
  ⟨404, "NoSuchBucket", "The specified bucket does not exist.", "/" ++ bucket⟩

/-- `str::strip_prefix`. -/
def stripStart (start text : String) : Option String :=
  if start.toList.isPrefixOf text.toList then
    some (String.ofList (text.toList.drop start.length))
  else none

/-- `str::find`, in characters. -/
def findText (pattern : List Char) : List Char → Option Nat
  | [] => if pattern.isEmpty then some 0 else none
  | c :: rest =>
      if pattern.isPrefixOf (c :: rest) then some 0 else (findText pattern rest).map (· + 1)

/-- The common prefix a key folds into: it ends with the first delimiter after the prefix. -/
def groupOf (start : String) (delimiter : Option String) (key : String) : Option String := do
  let delim ← delimiter.filter fun d => !d.isEmpty
  let idx ← findText delim.toList (key.toList.drop start.length)
  return String.ofList (key.toList.take (start.length + idx)) ++ delim

/-- The files of a walk whose keys start with the prefix, in the order of their keys. -/
def sortedKeys (walked : List WalkEntry) (resource start : String) : List KeyRow :=
  (((walked.filter fun e => e.kind = .file).map fun e =>
      ((stripStart (resource ++ "/") e.path).getD e.path, e.size, e.mtime_unix_ms)).filter
    fun row => start.toList.isPrefixOf row.1.toList).insertionSort fun a b => a.1 ≤ b.1

def afterToken : Option String → List KeyRow → List KeyRow
  | none, keys => keys
  | some token, keys => keys.filter fun row => token < row.1

/-- What the loop over the keys has collected. -/
structure Listing where
  objects : List ObjectRow
  common : List String
  last_key : Option String
  truncated : Bool

/-- `max_keys.unwrap_or(MAX_KEYS_LIMIT).clamp(1, MAX_KEYS_LIMIT)`. -/
def pageSize (max_keys : Option Nat) : Nat := max 1 (min (max_keys.getD maxKeysLimit) maxKeysLimit)

section Handler

variable (describe : Err → String) (iso8601 : U64 → String) (s : CoreState)

def objectRow (resource : String) (row : KeyRow) : ObjectRow :=
  ⟨row.1, row.2.1, (etagFor s (resource ++ "/" ++ row.1)).getD "", iso8601 row.2.2⟩

def listKeys (resource start : String) (delimiter : Option String) (max_keys : Nat) :
    List KeyRow → Listing → Listing
  | [], page => page
  | row :: rest, page =>
      -- the size of the page is checked before the key is known to fold into one of its groups
      if max_keys ≤ page.objects.length + page.common.length then { page with truncated := true }
      else
        match groupOf start delimiter row.1 with
        | some group =>
            listKeys resource start delimiter max_keys rest
              { page with
                common := if page.common.contains group then page.common else page.common ++ [group]
                last_key := some row.1 }
        | none =>
            listKeys resource start delimiter max_keys rest
              { page with
                objects := page.objects ++ [objectRow iso8601 s resource row]
                last_key := some row.1 }

def listPage (bucket : String) (q : ListQuery) (walked : List WalkEntry) : ListPage :=
  let resource := "/" ++ bucket
  let start := q.prefix_text.getD ""
  let max_keys := pageSize q.max_keys
  let keys := afterToken q.continuation_token (sortedKeys walked resource start)
  let page := listKeys iso8601 s resource start q.delimiter max_keys keys ⟨[], [], none, false⟩
  let next_token := if page.truncated then page.last_key else none
  ⟨bucket, start, q.delimiter, max_keys, page.truncated, next_token, page.objects, page.common⟩

/-- `list_objects`. -/
def listObjects (st : S3State) (bucket : String) (q : ListQuery) (header : Option String) :
    Except S3Error ListPage := do
  let resource := "/" ++ bucket
  checkAuth header st resource
  checkBucket bucket resource
  match ← (resolvePath s resource).mapError (internal describe · resource) with
  | some (_, .dir) => do
      let walked ← (walk s resource).mapError (internal describe · resource)
      return listPage iso8601 s bucket q walked
  | _ => throw (noSuchBucket bucket)

end Handler

/-- The pages a client gets that follows the continuation tokens to the first page that is not
truncated. -/
inductive Paged (ask : Option String → Except S3Error ListPage) :
    Option String → List ListPage → Prop
  | last {token : Option String} {page : ListPage} : ask token = .ok page →
      page.truncated = false → Paged ask token [page]
  | more {token : Option String} {page : ListPage} {next : String} {pages : List ListPage} :
      ask token = .ok page → page.truncated = true → page.next_token = some next →
      Paged ask (some next) pages → Paged ask token (page :: pages)

def objectCount (pages : List ListPage) (key : String) : Nat :=
  (pages.flatMap fun page => page.objects.map ObjectRow.key).count key

def prefixCount (pages : List ListPage) (group : String) : Nat :=
  (pages.flatMap ListPage.common_prefixes).count group

/-- Each key is accounted for exactly once: as an object, or by the common prefix of its group. -/
def ExactlyOnce (start : String) (delimiter : Option String) (keys : List KeyRow)
    (pages : List ListPage) : Prop :=
  ∀ row ∈ keys,
    (groupOf start delimiter row.1 = none → objectCount pages row.1 = 1) ∧
      ∀ group, groupOf start delimiter row.1 = some group → prefixCount pages group = 1

/-- What a key is listed as. -/
inductive Item where
  | object (key : String)
  | common (group : String)
  deriving DecidableEq

def Item.key? : Item → Option String
  | .object key => some key
  | .common _ => none

def Item.group? : Item → Option String
  | .object _ => none
  | .common group => some group

def Item.folds (item : Item) : Bool := item.group?.isSome

def itemOf (start : String) (delimiter : Option String) (key : String) : Item :=
  match groupOf start delimiter key with
  | some group => .common group
  | none => .object key

section Groups

private theorem findText_some {pattern l : List Char} {i : Nat} (found : findText pattern l = some i) :
    ∃ t r, l = t ++ pattern ++ r ∧ t.length = i := by
  induction l generalizing i with
  | nil =>
      unfold findText at found
      split at found
      · rename_i empty
        obtain rfl : 0 = i := Option.some.inj found
        exact ⟨[], [], by simpa using empty, rfl⟩
      · cases found
  | cons c rest ih =>
      unfold findText at found
      split at found
      · rename_i here
        obtain rfl : 0 = i := Option.some.inj found
        obtain ⟨r, is_it⟩ := List.isPrefixOf_iff_prefix.mp here
        exact ⟨[], r, by simpa using is_it.symm, rfl⟩
      · obtain ⟨j, inner, rfl⟩ := Option.map_eq_some_iff.mp found
        obtain ⟨t, r, rfl, rfl⟩ := ih inner
        exact ⟨c :: t, r, rfl, rfl⟩

private theorem findText_same {pattern t r r' : List Char}
    (found : findText pattern (t ++ pattern ++ r) = some t.length) :
    findText pattern (t ++ pattern ++ r') = some t.length := by
  induction t with
  | nil =>
      cases pattern with
      | nil => cases r' <;> simp [findText]
      | cons c pattern => simp [findText]
  | cons c t ih =>
      have bound : pattern.length ≤ (c :: t ++ pattern).length := by
        rw [List.length_append]
        exact Nat.le_add_left _ _
      have same : pattern.isPrefixOf (c :: t ++ pattern ++ r) =
          pattern.isPrefixOf (c :: t ++ pattern ++ r') := by
        rw [Bool.eq_iff_iff, List.isPrefixOf_iff_prefix, List.isPrefixOf_iff_prefix]
        constructor <;> intro starts <;>
          exact (List.prefix_of_prefix_length_le starts (List.prefix_append _ _) bound).trans
            (List.prefix_append _ _)
      simp only [List.cons_append] at same
      simp only [List.cons_append, findText, ← same] at found ⊢
      split at found
      · cases found
      · rename_i apart
        rw [if_neg apart]
        obtain ⟨j, inner, next⟩ := Option.map_eq_some_iff.mp found
        obtain rfl : j = t.length := by simpa using next
        rw [ih inner]
        rfl

private theorem cons_le_cons {x y : Char} {a b : List Char} (order : x :: a ≤ y :: b) :
    x < y ∨ x = y ∧ a ≤ b := by
  rcases le_iff_lt_or_eq.mp order with below | same
  · cases below with
    | cons below => exact .inr ⟨rfl, le_of_lt below⟩
    | rel below => exact .inl below
  · cases same
    exact .inr ⟨rfl, le_rfl⟩

private theorem starts_between {g a b c : List Char} (first : g <+: a) (last : g <+: c) (low : a ≤ b)
    (high : b ≤ c) : g <+: b := by
  induction g generalizing a b c with
  | nil => exact List.nil_prefix
  | cons x g ih =>
      obtain ⟨a, rfl⟩ := first
      obtain ⟨c, rfl⟩ := last
      cases b with
      | nil => exact absurd low (not_le.mpr List.Lex.nil)
      | cons y b =>
          rcases cons_le_cons low with below | ⟨rfl, after⟩
          · rcases cons_le_cons high with above | ⟨rfl, -⟩
            · exact absurd (lt_trans below above) (lt_irrefl x)
            · exact absurd below (lt_irrefl _)
          · rcases cons_le_cons high with above | ⟨-, before⟩
            · exact absurd above (lt_irrefl _)
            · exact List.cons_prefix_cons.mpr ⟨rfl,
                ih (List.prefix_append g a) (List.prefix_append g c) after before⟩

variable {start key other group : String} {delimiter : Option String}

private theorem groupOf_some (folds : groupOf start delimiter key = some group) :
    ∃ delim t r, delimiter.filter (fun d => !d.isEmpty) = some delim ∧
      key.toList.drop start.length = t ++ delim.toList ++ r ∧
      findText delim.toList (t ++ delim.toList ++ r) = some t.length ∧
      group.toList = key.toList.take start.length ++ t ++ delim.toList := by
  unfold groupOf at folds
  obtain ⟨delim, given, folds⟩ := Option.bind_eq_some_iff.mp folds
  obtain ⟨idx, found, is_it⟩ := Option.bind_eq_some_iff.mp folds
  obtain ⟨t, r, split, rfl⟩ := findText_some found
  refine ⟨delim, t, r, given, split, split ▸ found, ?_⟩
  obtain rfl := Option.some.inj is_it
  rw [String.toList_append, String.toList_ofList, List.take_add, split]
  simp

private theorem groupOf_of_starts (long : start.length ≤ key.length)
    (folds : groupOf start delimiter key = some group) (starts : group.toList <+: other.toList) :
    groupOf start delimiter other = some group := by
  obtain ⟨delim, t, r, given, split, found, is_it⟩ := groupOf_some folds
  obtain ⟨r', rest⟩ := starts
  have head : (key.toList.take start.length).length = start.length := by
    rw [List.length_take, String.length_toList]
    exact min_eq_left long
  have whole : other.toList = key.toList.take start.length ++ (t ++ delim.toList ++ r') := by
    rw [← rest, is_it]
    simp
  unfold groupOf
  refine Option.bind_eq_some_iff.mpr ⟨delim, given, Option.bind_eq_some_iff.mpr ⟨t.length, ?_, ?_⟩⟩
  · rw [whole, List.drop_append_of_le_length head.ge, List.drop_of_length_le head.le, List.nil_append]
    exact findText_same found
  · refine congrArg some (String.toList_injective ?_)
    rw [String.toList_append, String.toList_ofList, whole, is_it, List.take_append, head]
    simp

private theorem starts_of_groupOf (folds : groupOf start delimiter key = some group) :
    group.toList <+: key.toList := by
  obtain ⟨delim, t, r, -, split, -, is_it⟩ := groupOf_some folds
  refine ⟨r, ?_⟩
  rw [is_it]
  conv_rhs => rw [← List.take_append_drop start.length key.toList, split]
  simp

private theorem itemOf_between {a b c : String} (starts : start.toList <+: a.toList) (low : a ≤ b)
    (high : b ≤ c) (same : itemOf start delimiter a = itemOf start delimiter c) :
    itemOf start delimiter b = itemOf start delimiter a := by
  cases first : groupOf start delimiter a with
  | none =>
      cases last : groupOf start delimiter c with
      | some group => simp [itemOf, first, last] at same
      | none =>
          obtain rfl : a = c := by simpa [itemOf, first, last] using same
          rw [le_antisymm low high]
  | some group =>
      cases last : groupOf start delimiter c with
      | none => simp [itemOf, first, last] at same
      | some other =>
          obtain rfl : group = other := by simpa [itemOf, first, last] using same
          have between := starts_between (starts_of_groupOf first) (starts_of_groupOf last)
            (String.le_iff_toList_le.mp low) (String.le_iff_toList_le.mp high)
          have long : start.length ≤ a.length := starts.length_le
          simp [itemOf, first, groupOf_of_starts long first between]

end Groups

section Simulation

variable {iso8601 : U64 → String} {s : CoreState} {resource start : String}
  {delimiter : Option String} {max_keys : Nat} {page : Listing} {p : Page String Item}

private theorem length_sides (l : List Item) :
    (l.filterMap Item.key?).length + (l.filterMap Item.group?).length = l.length := by
  induction l with
  | nil => rfl
  | cons x l ih =>
      rw [List.length_cons, ← ih]
      cases x with
      | object key => exact Nat.add_right_comm _ 1 _
      | common group => exact (Nat.add_assoc _ _ 1).symm

private theorem count_objects (l : List Item) (key : String) :
    (l.filterMap Item.key?).count key = l.count (.object key) := by
  induction l with
  | nil => rfl
  | cons x l ih =>
      cases x with
      | object other => simp [Item.key?, List.count_cons, ih]
      | common group =>
          rw [List.count_cons_of_ne (by simp)]
          exact ih

private theorem count_groups (l : List Item) (group : String) :
    (l.filterMap Item.group?).count group = l.count (.common group) := by
  induction l with
  | nil => rfl
  | cons x l ih =>
      cases x with
      | object key =>
          rw [List.count_cons_of_ne (by simp)]
          exact ih
      | common other => simp [Item.group?, List.count_cons, ih]

/-- What the loop has collected is a page of items. -/
private structure Shows (page : Listing) (p : Page String Item) : Prop where
  objects : page.objects.map ObjectRow.key = p.listed.filterMap Item.key?
  common : page.common = p.listed.filterMap Item.group?
  last : page.last_key = p.last
  truncated : page.truncated = p.truncated

private theorem Shows.size (shows_it : Shows page p) :
    page.objects.length + page.common.length = p.listed.length := by
  rw [← length_sides p.listed, ← shows_it.objects, ← shows_it.common, List.length_map]

private theorem Shows.contains (shows_it : Shows page p) (group : String) :
    page.common.contains group = p.listed.contains (.common group) := by
  rw [Bool.eq_iff_iff, List.contains_iff_mem, List.contains_iff_mem, shows_it.common,
    ← List.count_pos_iff, ← List.count_pos_iff, count_groups]

private theorem Shows.take_object (shows_it : Shows page p) {row : KeyRow}
    (apart : groupOf start delimiter row.1 = none) :
    Shows
      { page with
        objects := page.objects ++ [objectRow iso8601 s resource row]
        last_key := some row.1 }
      (p.take (itemOf start delimiter) Item.folds row.1) := by
  have is_it : itemOf start delimiter row.1 = .object row.1 := by simp only [itemOf, apart]
  have listed : (p.take (itemOf start delimiter) Item.folds row.1).listed =
      p.listed ++ [.object row.1] :=
    is_it ▸ take_listed_again (is_it ▸ rfl)
  refine ⟨?_, ?_, rfl, shows_it.truncated⟩
  · rw [listed, List.map_append, List.filterMap_append, shows_it.objects]
    rfl
  · rw [listed, List.filterMap_append, shows_it.common]
    exact (List.append_nil _).symm

private theorem Shows.take_group (shows_it : Shows page p) {row : KeyRow} {group : String}
    (folds : groupOf start delimiter row.1 = some group) :
    Shows
      { page with
        common := if page.common.contains group then page.common else page.common ++ [group]
        last_key := some row.1 }
      (p.take (itemOf start delimiter) Item.folds row.1) := by
  have is_it : itemOf start delimiter row.1 = .common group := by simp only [itemOf, folds]
  have listed : (p.take (itemOf start delimiter) Item.folds row.1).listed =
      if p.listed.contains (.common group) then p.listed else p.listed ++ [.common group] := by
    rw [Page.take, is_it]
    rfl
  refine ⟨?_, ?_, rfl, shows_it.truncated⟩
  · dsimp only
    rw [listed]
    split
    · exact shows_it.objects
    · rw [List.filterMap_append, ← shows_it.objects]
      exact (List.append_nil _).symm
  · dsimp only
    rw [listed, shows_it.contains]
    split
    · exact shows_it.common
    · rw [List.filterMap_append, shows_it.common]
      rfl

private theorem listKeys_shows (rows : List KeyRow) (shows_it : Shows page p) :
    Shows (listKeys iso8601 s resource start delimiter max_keys rows page)
      (fill (itemOf start delimiter) Item.folds max_keys (rows.map Prod.fst) p) := by
  induction rows generalizing page p with
  | nil => exact shows_it
  | cons row rest ih =>
      unfold listKeys
      rw [shows_it.size, List.map_cons]
      by_cases full : max_keys ≤ p.listed.length
      · rw [if_pos full, fill_cons_full full]
        exact ⟨shows_it.objects, shows_it.common, shows_it.last, rfl⟩
      · rw [if_neg full, fill_cons_room (not_le.mp full)]
        split
        · rename_i group folds
          exact ih (shows_it.take_group folds)
        · rename_i apart
          exact ih (shows_it.take_object apart)

end Simulation

section Pages

variable {describe : Err → String} {iso8601 : U64 → String} {s : CoreState} {st : S3State}
  {bucket : String} {header : Option String} {walked : List WalkEntry}

private theorem listObjects_ok {q : ListQuery} {page : ListPage}
    (walks : walk s ("/" ++ bucket) = .ok walked)
    (listed : listObjects describe iso8601 s st bucket q header = .ok page)
    (token : Option String) :
    listObjects describe iso8601 s st bucket { q with continuation_token := token } header =
      .ok (listPage iso8601 s bucket { q with continuation_token := token } walked) := by
  unfold listObjects at listed ⊢
  obtain ⟨_, authed, listed⟩ := bind_eq_ok.mp listed
  obtain ⟨_, named, listed⟩ := bind_eq_ok.mp listed
  obtain ⟨row, found, listed⟩ := bind_eq_ok.mp listed
  refine bind_eq_ok.mpr ⟨_, authed, bind_eq_ok.mpr ⟨_, named, bind_eq_ok.mpr ⟨row, found, ?_⟩⟩⟩
  cases row with
  | none => cases listed
  | some row =>
      obtain ⟨inode, kind⟩ := row
      cases kind with
      | file => cases listed
      | dir =>
          dsimp only
          rw [walks]
          rfl

private theorem sortedKeys_sorted (resource start : String) :
    ((sortedKeys walked resource start).map Prod.fst).Pairwise (· ≤ ·) := by
  have total : Std.Total fun a b : KeyRow => a.1 ≤ b.1 := ⟨fun a b => le_total a.1 b.1⟩
  have trans : IsTrans KeyRow fun a b => a.1 ≤ b.1 := ⟨fun _ _ _ => le_trans⟩
  exact List.pairwise_map.mpr (List.pairwise_insertionSort (fun a b : KeyRow => a.1 ≤ b.1) _)

private theorem starts_of_mem {resource start key : String}
    (member : key ∈ (sortedKeys walked resource start).map Prod.fst) :
    start.toList <+: key.toList := by
  obtain ⟨row, inside, rfl⟩ := List.mem_map.mp member
  have kept := (List.mem_filter.mp ((List.mem_insertionSort _).mp inside)).2
  exact List.isPrefixOf_iff_prefix.mp kept

private theorem map_afterToken (next : String) (rows : List KeyRow) :
    (afterToken (some next) rows).map Prod.fst =
      (rows.map Prod.fst).filter fun key => next < key := by
  rw [List.filter_map]
  rfl

private theorem afterToken_later {token : Option String} {next : String} {rows : List KeyRow}
    (inside : next ∈ (afterToken token rows).map Prod.fst) :
    afterToken (some next) (afterToken token rows) = afterToken (some next) rows := by
  cases token with
  | none => rfl
  | some token =>
      obtain ⟨row, member, rfl⟩ := List.mem_map.mp inside
      have above : token < row.1 := of_decide_eq_true (List.mem_filter.mp member).2
      show (rows.filter fun row => token < row.1).filter (fun other => row.1 < other.1) =
        rows.filter fun other => row.1 < other.1
      rw [List.filter_filter]
      refine List.filter_congr fun other _ => ?_
      rw [Bool.eq_iff_iff, Bool.and_eq_true, decide_eq_true_iff, decide_eq_true_iff]
      exact and_iff_left_of_imp above.trans

/-- A rendered page lists the items of a page, and names its last key if that was not the end. -/
private structure Lists (page : ListPage) (p : Page String Item) : Prop where
  objects : page.objects.map ObjectRow.key = p.listed.filterMap Item.key?
  common : page.common_prefixes = p.listed.filterMap Item.group?
  truncated : page.truncated = p.truncated
  next_token : page.next_token = if p.truncated then p.last else none

private def pageAfter (bucket : String) (q : ListQuery) (walked : List WalkEntry)
    (token : Option String) : Page String Item :=
  fill (itemOf (q.prefix_text.getD "") q.delimiter) Item.folds (pageSize q.max_keys)
    ((afterToken token (sortedKeys walked ("/" ++ bucket) (q.prefix_text.getD ""))).map Prod.fst)
    .empty

private theorem listPage_lists (q : ListQuery) (token : Option String) :
    Lists (listPage iso8601 s bucket { q with continuation_token := token } walked)
      (pageAfter bucket q walked token) := by
  have shown : Shows
      (listKeys iso8601 s ("/" ++ bucket) (q.prefix_text.getD "") q.delimiter (pageSize q.max_keys)
        (afterToken token (sortedKeys walked ("/" ++ bucket) (q.prefix_text.getD "")))
        ⟨[], [], none, false⟩)
      (pageAfter bucket q walked token) :=
    listKeys_shows _ ⟨rfl, rfl, rfl, rfl⟩
  refine ⟨shown.objects, shown.common, shown.truncated, ?_⟩
  rw [← shown.truncated, ← shown.last]
  rfl

private def Answers (ask : Option String → Except S3Error ListPage) (bucket : String) (q : ListQuery)
    (walked : List WalkEntry) : Prop :=
  ∀ token, ∃ page, ask token = .ok page ∧ Lists page (pageAfter bucket q walked token)

variable {ask : Option String → Except S3Error ListPage} {q : ListQuery}

private theorem follows_of_paged (answers : Answers ask bucket q walked) {token : Option String}
    {pages : List ListPage} (paged : Paged ask token pages) :
    ∃ ps, Follows (itemOf (q.prefix_text.getD "") q.delimiter) Item.folds (pageSize q.max_keys)
        ((afterToken token (sortedKeys walked ("/" ++ bucket) (q.prefix_text.getD ""))).map Prod.fst)
        .empty ps ∧
      List.Forall₂ Lists pages ps := by
  induction paged with
  | @last token page answered complete =>
      obtain ⟨_, again, lists⟩ := answers token
      obtain rfl := Except.ok.inj (again.symm.trans answered)
      exact ⟨[pageAfter bucket q walked token], .last (lists.truncated ▸ complete),
        .cons lists .nil⟩
  | @more token page next pages answered truncated named _ ih =>
      obtain ⟨_, again, lists⟩ := answers token
      obtain rfl := Except.ok.inj (again.symm.trans answered)
      obtain ⟨ps, follows, shown⟩ := ih
      have short := lists.truncated ▸ truncated
      have last : (pageAfter bucket q walked token).last = some next := by
        rw [lists.next_token, if_pos short] at named
        exact named
      have inside := (fill_last_mem _ .empty last).resolve_left nofun
      refine ⟨pageAfter bucket q walked token :: ps, .more short last ?_, .cons lists shown⟩
      rwa [← map_afterToken, afterToken_later inside]

private theorem paged_of_follows (answers : Answers ask bucket q walked) {keys : List String}
    {p : Page String Item} {ps : List (Page String Item)}
    (follows : Follows (itemOf (q.prefix_text.getD "") q.delimiter) Item.folds
      (pageSize q.max_keys) keys p ps) {token : Option String}
    (left : keys =
      (afterToken token (sortedKeys walked ("/" ++ bucket) (q.prefix_text.getD ""))).map Prod.fst)
    (start : p = .empty) : ∃ pages, Paged ask token pages := by
  induction follows generalizing token with
  | last complete =>
      subst left start
      obtain ⟨page, answered, lists⟩ := answers token
      exact ⟨[page], .last answered (lists.truncated.trans complete)⟩
  | @more keys p next ps truncated last _ ih =>
      subst left start
      obtain ⟨page, answered, lists⟩ := answers token
      have inside := (fill_last_mem _ .empty last).resolve_left nofun
      have rests : ∃ pages, Paged ask (some next) pages :=
        ih (by rw [← map_afterToken, afterToken_later inside]) rfl
      obtain ⟨pages, paged⟩ := rests
      refine ⟨page :: pages, .more answered (lists.truncated.trans truncated) ?_ paged⟩
      rw [lists.next_token]
      exact (if_pos truncated).trans last

private theorem objectCount_eq {pages : List ListPage} {ps : List (Page String Item)}
    (shown : List.Forall₂ Lists pages ps) (key : String) :
    objectCount pages key = times ps (.object key) := by
  induction shown with
  | nil => rfl
  | cons lists _ ih =>
      simp only [objectCount, times, List.flatMap_cons, List.count_append] at ih ⊢
      rw [ih, lists.objects, count_objects]

private theorem prefixCount_eq {pages : List ListPage} {ps : List (Page String Item)}
    (shown : List.Forall₂ Lists pages ps) (group : String) :
    prefixCount pages group = times ps (.common group) := by
  induction shown with
  | nil => rfl
  | cons lists _ ih =>
      simp only [prefixCount, times, List.flatMap_cons, List.count_append] at ih ⊢
      rw [ih, lists.common, count_groups]

private theorem exactlyOnce_iff {start : String} {delimiter : Option String} {keys : List KeyRow}
    {pages : List ListPage} {ps : List (Page String Item)} (shown : List.Forall₂ Lists pages ps) :
    ExactlyOnce start delimiter keys pages ↔
      ∀ key ∈ keys.map Prod.fst, times ps (itemOf start delimiter key) = 1 := by
  rw [List.forall_mem_map]
  refine forall₂_congr fun row _ => ?_
  cases folds : groupOf start delimiter row.1 with
  | none => simp [itemOf, folds, objectCount_eq shown]
  | some group => simp [itemOf, folds, prefixCount_eq shown]

/-- Following the tokens of a bucket that stays as it is comes to an end, and lists each object and
each common prefix exactly once if and only if the runs of keys fit the pages: the keys of a common
prefix that ends a page are copies of one, and so are those of an object, which elsewhere is single. -/
theorem paging_exactly_once_iff {page : ListPage} (walks : walk s ("/" ++ bucket) = .ok walked)
    (listed : listObjects describe iso8601 s st bucket q header = .ok page) :
    (∃ pages, Paged (fun token => listObjects describe iso8601 s st bucket
      { q with continuation_token := token } header) none pages) ∧
    ∀ pages, Paged (fun token => listObjects describe iso8601 s st bucket
        { q with continuation_token := token } header) none pages →
      (ExactlyOnce (q.prefix_text.getD "") q.delimiter
          (sortedKeys walked ("/" ++ bucket) (q.prefix_text.getD "")) pages ↔
        Aligned (itemOf (q.prefix_text.getD "") q.delimiter) Item.folds (pageSize q.max_keys) 0
          (runs (itemOf (q.prefix_text.getD "") q.delimiter)
            ((sortedKeys walked ("/" ++ bucket) (q.prefix_text.getD "")).map Prod.fst))) := by
  have answers : Answers
      (fun token => listObjects describe iso8601 s st bucket { q with continuation_token := token }
        header) bucket q walked :=
    fun token => ⟨_, listObjects_ok walks listed token, listPage_lists q token⟩
  have positive : 0 < pageSize q.max_keys := Nat.lt_of_lt_of_le Nat.one_pos (Nat.le_max_left 1 _)
  constructor
  · obtain ⟨ps, follows⟩ : ∃ ps, Follows (itemOf (q.prefix_text.getD "") q.delimiter) Item.folds
        (pageSize q.max_keys)
        ((sortedKeys walked ("/" ++ bucket) (q.prefix_text.getD "")).map Prod.fst) .empty ps :=
      exists_follows positive _
    exact paged_of_follows answers follows rfl rfl
  · intro pages paged
    obtain ⟨ps, follows, shown⟩ := follows_of_paged answers paged
    rw [exactlyOnce_iff shown]
    exact once_iff_aligned positive (sortedKeys_sorted _ _)
      (fun a inside b _ c _ low high same => itemOf_between (starts_of_mem inside) low high same)
      follows

def slashedState : CoreState :=
  finalState (writeFile .plain Net.sampleIdentity "/bk/a/2" [] 0
    (finalState (writeFile .plain Net.sampleIdentity "/bk/a/1" [] 0
      (finalState (mkdirP .plain Net.sampleIdentity "/bk/a" 0
        (booted .plain (CoreState.new 7)))))))

private theorem slashedState_run : Net.AnyRun .plain Net.sampleIdentity slashedState := by
  have boot : Net.AnyRun .plain Net.sampleIdentity (booted .plain (CoreState.new 7)) :=
    .boot (blank_new 7) rfl rfl
  have made := (Net.keeps_api "/bk/a" "" [] 0).1 _ boot
  have first := (Net.keeps_api "/bk/a/1" "" [] 0).2.1 _ made
  exact (Net.keeps_api "/bk/a/2" "" [] 0).2.1 _ first

def slashedPage (max_keys : Option Nat) (token : Option String) : Except S3Error ListPage :=
  listObjects (fun _ => "") (fun _ => "") slashedState ⟨"", none⟩ "bk"
    ⟨none, some "/", max_keys, token⟩ none

private theorem slashed_facts :
    (walk slashedState "/bk").toOption.map (fun walked => sortedKeys walked "/bk" "") =
        some [("a/1", 0, 0), ("a/2", 0, 0)] ∧
      (slashedPage (some 1) none).toOption =
        some ⟨"bk", "", some "/", 1, true, some "a/1", [], ["a/"]⟩ ∧
      (slashedPage (some 1) (some "a/1")).toOption =
        some ⟨"bk", "", some "/", 1, false, none, [], ["a/"]⟩ ∧
      (slashedPage none none).toOption =
        some ⟨"bk", "", some "/", 1000, false, none, [], ["a/"]⟩ := by decide +kernel

private theorem slashedState_walk : ∃ walked, walk slashedState "/bk" = .ok walked ∧
    sortedKeys walked "/bk" "" = [("a/1", 0, 0), ("a/2", 0, 0)] := by
  obtain ⟨walked, walks, keys⟩ := Option.map_eq_some_iff.mp slashed_facts.1
  exact ⟨walked, eq_ok_of_toOption walks, keys⟩

theorem paging_exactly_once_iff_sample : ∃ walked pages, walk slashedState "/bk" = .ok walked ∧
    Paged (slashedPage none) none pages ∧
      ExactlyOnce "" (some "/") (sortedKeys walked "/bk" "") pages := by
  obtain ⟨walked, walks, keys⟩ := slashedState_walk
  obtain ⟨-, -, -, whole⟩ := slashed_facts
  have resource : "/" ++ "bk" = "/bk" := by decide
  have listed : listObjects (fun _ => "") (fun _ => "") slashedState ⟨"", none⟩ "bk"
      ⟨none, some "/", none, none⟩ none = .ok _ := eq_ok_of_toOption whole
  obtain ⟨⟨pages, paged⟩, once⟩ := paging_exactly_once_iff (resource ▸ walks) listed
  replace once := once pages paged
  rw [resource] at once
  refine ⟨walked, pages, walks, paged, once.mpr ?_⟩
  have single : runs (itemOf "" (some "/")) ["a/1", "a/2"] = [["a/1", "a/2"]] := by decide +kernel
  have fold : ∀ key ∈ ["a/1", "a/2"], (itemOf "" (some "/") key).folds = true := by decide +kernel
  show Aligned (itemOf "" (some "/")) Item.folds 1000 0
    (runs (itemOf "" (some "/")) ((sortedKeys walked "/bk" "").map Prod.fst))
  rw [keys]
  show Aligned (itemOf "" (some "/")) Item.folds 1000 0 (runs (itemOf "" (some "/")) ["a/1", "a/2"])
  rw [single, aligned_cons]
  refine ⟨?_, fun i r at_i => by simp at at_i⟩
  unfold Lib.Paging.Fits
  rw [if_neg (by decide)]
  exact fun key member => .inl (fold key member)

/-- With pages of one place, the second file of the directory brings its common prefix again. -/
theorem paging_repeats_group :
    Net.AnyRun .plain Net.sampleIdentity slashedState ∧
      ∃ walked pages, walk slashedState "/bk" = .ok walked ∧
        Paged (slashedPage (some 1)) none pages ∧ prefixCount pages "a/" = 2 ∧
        ¬ExactlyOnce "" (some "/") (sortedKeys walked "/bk" "") pages := by
  obtain ⟨walked, walks, keys⟩ := slashedState_walk
  obtain ⟨-, first, second, -⟩ := slashed_facts
  refine ⟨slashedState_run, walked, [_, _], walks,
    .more (eq_ok_of_toOption first) rfl rfl (.last (eq_ok_of_toOption second) rfl), rfl, ?_⟩
  intro once
  rw [keys] at once
  have group : groupOf "" (some "/") "a/1" = some "a/" := by decide +kernel
  have single := (once ("a/1", 0, 0) List.mem_cons_self).2 "a/" group
  cases single

end Pages

end NexusFS.Facade
