/- GID: NexusFS/Lib/FileTree
   layer: library
   digest: File trees as functions of a path, and the labelled graphs that denote them as they change. -/

import Mathlib.Data.List.Basic
import Mathlib.Data.List.Induction
import Mathlib.Tactic.Common

/-!
A graph with labelled edges and one root denotes the tree of the paths that lead from the root.
Adding a leaf, cutting an edge and moving an edge change the tree as the operations of the same
names do.
-/

set_option autoImplicit false
set_option relaxedAutoImplicit false

namespace NexusFS.Lib

universe u v w

section Walks

variable {N : Type u} {L : Type v} {E F : N → L → N → Prop} {a b c p q x y root : N} {l m n : L}
  {front back labels other src dst : List L}

/-- The labels lead from the first node to the second. -/
inductive Walks (E : N → L → N → Prop) : N → List L → N → Prop
  | here (a : N) : Walks E a [] a
  | down {a b c : N} {l : L} {labels : List L} (edge : E a l b) (rest : Walks E b labels c) :
      Walks E a (l :: labels) c

namespace Walks

theorem nil_iff : Walks E a [] b ↔ b = a := by
  constructor
  · intro walk
    cases walk
    rfl
  · rintro rfl
    exact .here _

theorem cons_iff : Walks E a (l :: labels) c ↔ ∃ b, E a l b ∧ Walks E b labels c := by
  constructor
  · intro walk
    cases walk with
    | down edge rest => exact ⟨_, edge, rest⟩
  · rintro ⟨b, edge, rest⟩
    exact .down edge rest

theorem append_iff : Walks E a (front ++ back) c ↔ ∃ b, Walks E a front b ∧ Walks E b back c := by
  induction front generalizing a with
  | nil => simp [nil_iff]
  | cons l front ih =>
      rw [List.cons_append, cons_iff]
      simp only [ih, cons_iff]
      constructor
      · rintro ⟨b, edge, d, first, second⟩
        exact ⟨d, ⟨b, edge, first⟩, second⟩
      · rintro ⟨d, ⟨b, edge, first⟩, second⟩
        exact ⟨b, edge, d, first, second⟩

theorem snoc_iff : Walks E a (front ++ [l]) c ↔ ∃ b, Walks E a front b ∧ E b l c := by
  rw [append_iff]
  simp only [cons_iff, nil_iff]
  constructor
  · rintro ⟨b, first, d, edge, rfl⟩
    exact ⟨b, first, edge⟩
  · rintro ⟨b, first, edge⟩
    exact ⟨b, first, c, edge, rfl⟩

theorem trans (first : Walks E a front b) (second : Walks E b back c) : Walks E a (front ++ back) c :=
  append_iff.mpr ⟨b, first, second⟩

theorem mono (sub : ∀ a l b, E a l b → F a l b) (walk : Walks E a labels b) : Walks F a labels b := by
  induction walk with
  | here a => exact .here a
  | down edge _ ih => exact .down (sub _ _ _ edge) ih

end Walks

/-- A label leads to one node, a node is led to by one edge, and nothing leads to the root. -/
structure Rooted (E : N → L → N → Prop) (root : N) : Prop where
  unique : ∀ {a l b c}, E a l b → E a l c → b = c
  single : ∀ {a l b m c}, E a l c → E b m c → a = b ∧ l = m
  top : ∀ a l, ¬E a l root

namespace Rooted

theorem target (rooted : Rooted E root) (one : Walks E a labels b) (two : Walks E a labels c) :
    b = c := by
  induction one with
  | here a => exact (Walks.nil_iff.mp two).symm
  | down edge _ ih =>
      obtain ⟨d, edge', rest⟩ := Walks.cons_iff.mp two
      cases rooted.unique edge edge'
      exact ih rest

theorem labels_eq (rooted : Rooted E root) (one : Walks E root labels x) (two : Walks E root other x) :
    labels = other := by
  induction labels using List.reverseRecOn generalizing other x with
  | nil =>
      obtain rfl := Walks.nil_iff.mp one
      rcases List.eq_nil_or_concat' other with rfl | ⟨front, l, rfl⟩
      · rfl
      · obtain ⟨b, -, edge⟩ := Walks.snoc_iff.mp two
        exact absurd edge (rooted.top b l)
  | append_singleton front l ih =>
      obtain ⟨b, first, edge⟩ := Walks.snoc_iff.mp one
      rcases List.eq_nil_or_concat' other with rfl | ⟨front', m, rfl⟩
      · obtain rfl := Walks.nil_iff.mp two
        exact absurd edge (rooted.top b l)
      · obtain ⟨c, first', edge'⟩ := Walks.snoc_iff.mp two
        obtain ⟨rfl, rfl⟩ := rooted.single edge edge'
        rw [ih first first']

theorem not_back (rooted : Rooted E root) (front_walk : Walks E root front p) (edge : E p n x) :
    ¬Walks E x back p := by
  intro again
  have same := rooted.labels_eq front_walk (front_walk.trans (.down edge again))
  have lengths := congrArg List.length same
  simp only [List.length_append, List.length_cons] at lengths
  omega

theorem subrelation (rooted : Rooted E root) (sub : ∀ a l b, F a l b → E a l b) : Rooted F root where
  unique one two := rooted.unique (sub _ _ _ one) (sub _ _ _ two)
  single one two := rooted.single (sub _ _ _ one) (sub _ _ _ two)
  top a l edge := rooted.top a l (sub _ _ _ edge)

theorem cut_iff (rooted : Rooted E root) (above : Walks E root src p)
    (cut : ∀ a l b, F a l b ↔ E a l b ∧ ¬(a = p ∧ l = n)) :
    Walks F root labels y ↔ Walks E root labels y ∧ ¬src ++ [n] <+: labels := by
  have sub : ∀ a l b, F a l b → E a l b := fun a l b edge => ((cut a l b).mp edge).1
  constructor
  · refine fun walk => ⟨walk.mono sub, ?_⟩
    rintro ⟨back, rfl⟩
    obtain ⟨b, first, -⟩ := Walks.append_iff.mp walk
    obtain ⟨c, before, edge⟩ := Walks.snoc_iff.mp first
    obtain rfl := rooted.target above (before.mono sub)
    exact ((cut _ _ _).mp edge).2 ⟨rfl, rfl⟩
  · rintro ⟨walk, away⟩
    induction labels using List.reverseRecOn generalizing y with
    | nil =>
        obtain rfl := Walks.nil_iff.mp walk
        exact .here _
    | append_singleton front l ih =>
        obtain ⟨b, first, edge⟩ := Walks.snoc_iff.mp walk
        have before := ih first fun inside => away (inside.trans (List.prefix_append _ _))
        refine Walks.snoc_iff.mpr ⟨b, before, (cut _ _ _).mpr ⟨edge, ?_⟩⟩
        rintro ⟨rfl, rfl⟩
        cases rooted.labels_eq above first
        exact away (List.prefix_refl _)

theorem below_cut (cut : ∀ a l b, F a l b ↔ E a l b ∧ ¬(a = p ∧ l = n))
    (away : ∀ back, ¬Walks E x back p) : Walks F x labels y ↔ Walks E x labels y := by
  refine ⟨Walks.mono fun a l b edge => ((cut a l b).mp edge).1, fun walk => ?_⟩
  induction labels using List.reverseRecOn generalizing y with
  | nil =>
      obtain rfl := Walks.nil_iff.mp walk
      exact .here _
  | append_singleton front l ih =>
      obtain ⟨b, first, edge⟩ := Walks.snoc_iff.mp walk
      refine Walks.snoc_iff.mpr ⟨b, ih first, (cut _ _ _).mpr ⟨edge, ?_⟩⟩
      rintro ⟨rfl, rfl⟩
      exact away front first

section Graft

variable (rooted : Rooted E root) (above : Walks E root dst p)
  (away : ∀ back, ¬Walks E x back p) (graft : ∀ a l b, F a l b ↔ E a l b ∨ (a = p ∧ l = n ∧ b = x))

include rooted above away graft

theorem graft_iff : Walks F root labels y ↔
    Walks E root labels y ∨ ∃ back, labels = dst ++ n :: back ∧ Walks E x back y := by
  have sub : ∀ a l b, E a l b → F a l b := fun a l b edge => (graft a l b).mpr (.inl edge)
  constructor
  · intro walk
    induction labels using List.reverseRecOn generalizing y with
    | nil =>
        obtain rfl := Walks.nil_iff.mp walk
        exact .inl (.here _)
    | append_singleton front l ih =>
        obtain ⟨b, first, edge⟩ := Walks.snoc_iff.mp walk
        rcases ih first with old | ⟨back, rfl, under⟩
        · rcases (graft _ _ _).mp edge with kept | ⟨rfl, rfl, rfl⟩
          · exact .inl (Walks.snoc_iff.mpr ⟨b, old, kept⟩)
          · cases rooted.labels_eq above old
            exact .inr ⟨[], rfl, .here _⟩
        · rcases (graft _ _ _).mp edge with kept | ⟨rfl, rfl, rfl⟩
          · exact .inr ⟨back ++ [l], by simp, Walks.snoc_iff.mpr ⟨b, under, kept⟩⟩
          · exact absurd under (away back)
  · rintro (old | ⟨back, rfl, under⟩)
    · exact old.mono sub
    · exact (above.mono sub).trans (.down ((graft _ _ _).mpr (.inr ⟨rfl, rfl, rfl⟩)) (under.mono sub))

end Graft

theorem move_iff (rooted : Rooted E root) (above : Walks E root src p) (edge : E p n x)
    (target : Walks E root dst q) (away : ∀ back, ¬Walks E x back q)
    (moved : ∀ a l b, F a l b ↔ (E a l b ∧ ¬(a = p ∧ l = n)) ∨ (a = q ∧ l = m ∧ b = x)) :
    Walks F root labels y ↔ (Walks E root labels y ∧ ¬src ++ [n] <+: labels) ∨
      ∃ back, labels = dst ++ m :: back ∧ Walks E x back y := by
  obtain ⟨G, cut⟩ : ∃ G : N → L → N → Prop, ∀ a l b, G a l b ↔ E a l b ∧ ¬(a = p ∧ l = n) :=
    ⟨fun a l b => E a l b ∧ ¬(a = p ∧ l = n), fun _ _ _ => .rfl⟩
  have left : Rooted G root := rooted.subrelation fun a l b edge => ((cut a l b).mp edge).1
  have below : ∀ {labels y}, Walks G x labels y ↔ Walks E x labels y :=
    below_cut cut fun back => rooted.not_back above edge
  have reached : Walks G root dst q := by
    refine (rooted.cut_iff above cut).mpr ⟨target, ?_⟩
    rintro ⟨back, rfl⟩
    obtain ⟨b, first, rest⟩ := Walks.append_iff.mp target
    obtain ⟨c, before, again⟩ := Walks.snoc_iff.mp first
    cases rooted.target above before
    cases rooted.unique edge again
    exact away back rest
  rw [left.graft_iff reached (fun back under => away back (below.mp under))
    fun a l b => (moved a l b).trans (or_congr_left (cut a l b).symm), rooted.cut_iff above cut]
  simp only [below]

end Rooted

end Walks

/-- What a path can lead to. -/
inductive Node (β : Type w) where
  | dir
  | file (content : β)
  deriving DecidableEq

abbrev FileTree (L : Type v) (β : Type w) := List L → Option (Node β)

namespace FileTree

variable {N : Type u} {L : Type v} {β : Type w}

section Operations

variable [DecidableEq L]

def bare : FileTree L β := fun path => if path = [] then some .dir else none

def make (t : FileTree L β) (place : List L) (node : Node β) : FileTree L β :=
  fun path => if path = place then some node else t path

def mkdirs (t : FileTree L β) (dirs : List L) : FileTree L β :=
  fun path => if path <+: dirs ∧ t path = none then some .dir else t path

def put (t : FileTree L β) (place : List L) (content : β) : FileTree L β :=
  (t.mkdirs place.dropLast).make place (.file content)

def remove (t : FileTree L β) (place : List L) : FileTree L β :=
  fun path => if place <+: path then none else t path

def move (t : FileTree L β) (source target : List L) : FileTree L β :=
  fun path =>
    if target <+: path then t (source ++ path.drop target.length)
    else if source <+: path then none else t path

theorem mkdirs_eq_self {t : FileTree L β} {dirs : List L}
    (there : ∀ path, path <+: dirs → t path ≠ none) : t.mkdirs dirs = t := by
  funext path
  unfold mkdirs
  rw [if_neg fun both => there path both.1 both.2]

theorem mkdirs_make {t : FileTree L β} {place dirs : List L} (inside : place <+: dirs)
    (missing : t place = none) : (t.make place .dir).mkdirs dirs = t.mkdirs dirs := by
  funext path
  unfold mkdirs make
  by_cases here : path = place
  · subst here
    simp [inside, missing]
  · simp [here]

end Operations

/-- The graph below `root`, with what its nodes are, is the tree. -/
structure Denotes (E : N → L → N → Prop) (root : N) (label : N → Option (Node β)) (t : FileTree L β) :
    Prop where
  some_iff : ∀ {path node}, t path = some node ↔ ∃ y, Walks E root path y ∧ label y = some node
  total : ∀ {path y}, Walks E root path y → ∃ node, label y = some node

namespace Denotes

variable {E F : N → L → N → Prop} {root p q x y : N} {l m n : L} {label label' : N → Option (Node β)}
  {t : FileTree L β} {node : Node β} {path src dst : List L}

theorem none_iff (denotes : Denotes E root label t) : t path = none ↔ ∀ y, ¬Walks E root path y := by
  constructor
  · intro missing y walk
    obtain ⟨node, labelled⟩ := denotes.total walk
    have here := denotes.some_iff.mpr ⟨y, walk, labelled⟩
    rw [missing] at here
    cases here
  · intro nowhere
    by_contra there
    obtain ⟨node, here⟩ := Option.ne_none_iff_exists'.mp there
    obtain ⟨y, walk, -⟩ := denotes.some_iff.mp here
    exact nowhere y walk

theorem eq_label (denotes : Denotes E root label t) (walk : Walks E root path y) : t path = label y := by
  obtain ⟨node, labelled⟩ := denotes.total walk
  rw [labelled]
  exact denotes.some_iff.mpr ⟨y, walk, labelled⟩

theorem congr (denotes : Denotes E root label t)
    (same : ∀ path y, Walks E root path y → label' y = label y) : Denotes E root label' t where
  some_iff {path node} := by
    rw [denotes.some_iff]
    refine exists_congr fun y => and_congr_right fun walk => ?_
    rw [same path y walk]
  total walk := by
    rw [same _ _ walk]
    exact denotes.total walk

variable [DecidableEq L]

theorem relabel (rooted : Rooted E root) (denotes : Denotes E root label t) (walk : Walks E root path x)
    (now : label' x = some node) (same : ∀ y, y ≠ x → label' y = label y) :
    Denotes E root label' (t.make path node) where
  some_iff {other v} := by
    unfold make
    split
    · rename_i here
      subst here
      constructor
      · intro equal
        obtain rfl := Option.some.inj equal
        exact ⟨x, walk, now⟩
      · rintro ⟨y, there, labelled⟩
        rw [rooted.target there walk, now] at labelled
        exact labelled
    · rename_i apart
      rw [denotes.some_iff]
      refine exists_congr fun y => and_congr_right fun there => ?_
      rw [same y]
      rintro rfl
      exact apart (rooted.labels_eq there walk)
  total {other y} there := by
    by_cases here : y = x
    · exact ⟨node, here ▸ now⟩
    · rw [same y here]
      exact denotes.total there

theorem graft (rooted : Rooted E root) (denotes : Denotes E root label t) (above : Walks E root dst p)
    (free : t (dst ++ [n]) = none) (loose : ∀ a l, ¬E a l x) (childless : ∀ l b, ¬E x l b)
    (other : x ≠ root) (graft : ∀ a l b, F a l b ↔ E a l b ∨ (a = p ∧ l = n ∧ b = x))
    (made : label x = some node) : Denotes F root label (t.make (dst ++ [n]) node) := by
  have alone : ∀ {back b}, Walks E x back b → back = [] ∧ b = x := by
    intro back b walk
    cases back with
    | nil => exact ⟨rfl, Walks.nil_iff.mp walk⟩
    | cons l back =>
        obtain ⟨c, edge, -⟩ := Walks.cons_iff.mp walk
        exact absurd edge (childless l c)
  have away : ∀ back, ¬Walks E x back p := by
    intro back under
    obtain ⟨-, rfl⟩ := alone under
    rcases List.eq_nil_or_concat' dst with rfl | ⟨front, l, rfl⟩
    · exact other (Walks.nil_iff.mp above)
    · obtain ⟨b, -, edge⟩ := Walks.snoc_iff.mp above
      exact loose b l edge
  have walks : ∀ {path y}, Walks F root path y ↔ Walks E root path y ∨ (path = dst ++ [n] ∧ y = x) := by
    intro path y
    rw [rooted.graft_iff above away graft]
    refine or_congr_right ⟨?_, ?_⟩
    · rintro ⟨back, rfl, under⟩
      obtain ⟨rfl, rfl⟩ := alone under
      exact ⟨rfl, rfl⟩
    · rintro ⟨rfl, rfl⟩
      exact ⟨[], rfl, .here _⟩
  refine ⟨fun {path v} => ?_, fun {path y} walk => ?_⟩
  · unfold make
    simp only [walks]
    split
    · rename_i here
      subst here
      constructor
      · intro equal
        obtain rfl := Option.some.inj equal
        exact ⟨x, .inr ⟨rfl, rfl⟩, made⟩
      · rintro ⟨y, old | ⟨-, rfl⟩, labelled⟩
        · exact absurd old (denotes.none_iff.mp free y)
        · rw [← labelled, made]
    · rename_i apart
      rw [denotes.some_iff]
      refine exists_congr fun y => and_congr_left fun _ => ?_
      exact ⟨.inl, fun either => either.resolve_right fun both => apart both.1⟩
  · rcases walks.mp walk with old | ⟨-, rfl⟩
    · exact denotes.total old
    · exact ⟨node, made⟩

theorem cut (rooted : Rooted E root) (denotes : Denotes E root label t) (above : Walks E root src p)
    (cut : ∀ a l b, F a l b ↔ E a l b ∧ ¬(a = p ∧ l = n)) :
    Denotes F root label (t.remove (src ++ [n])) where
  some_iff {path v} := by
    unfold remove
    simp only [rooted.cut_iff above cut]
    split
    · rename_i inside
      simp [inside]
    · rename_i outside
      rw [denotes.some_iff]
      simp [outside]
  total walk := denotes.total ((rooted.cut_iff above cut).mp walk).1

theorem move (rooted : Rooted E root) (denotes : Denotes E root label t) (above : Walks E root src p)
    (edge : E p n x) (target : Walks E root dst q) (away : ∀ back, ¬Walks E x back q)
    (free : t (dst ++ [m]) = none)
    (moved : ∀ a l b, F a l b ↔ (E a l b ∧ ¬(a = p ∧ l = n)) ∨ (a = q ∧ l = m ∧ b = x)) :
    Denotes F root label (t.move (src ++ [n]) (dst ++ [m])) := by
  have below : ∀ {back y}, Walks E root (src ++ n :: back) y ↔ Walks E x back y := by
    intro back y
    rw [Walks.append_iff]
    constructor
    · rintro ⟨b, first, rest⟩
      obtain rfl := rooted.target above first
      obtain ⟨c, again, under⟩ := Walks.cons_iff.mp rest
      obtain rfl := rooted.unique edge again
      exact under
    · exact fun under => ⟨p, above, .down edge under⟩
  have missing : ∀ {back y}, ¬Walks E root (dst ++ m :: back) y := by
    intro back y walk
    obtain ⟨b, first, rest⟩ := Walks.append_iff.mp walk
    obtain ⟨c, again, -⟩ := Walks.cons_iff.mp rest
    exact denotes.none_iff.mp free c (Walks.snoc_iff.mpr ⟨b, first, again⟩)
  have walks := fun {path y} => @Rooted.move_iff _ _ E F p q x y root m n path src dst rooted above edge
    target away moved
  refine ⟨fun {path v} => ?_, fun {path y} walk => ?_⟩
  · unfold FileTree.move
    simp only [walks]
    split
    · rename_i inside
      obtain ⟨back, rfl⟩ := inside
      have there : (dst ++ [m] ++ back).drop (dst ++ [m]).length = back := List.drop_left
      rw [there, List.append_assoc, List.singleton_append, denotes.some_iff]
      refine exists_congr fun y => and_congr_left fun _ => ?_
      rw [below, List.append_assoc, List.singleton_append]
      constructor
      · exact fun under => .inr ⟨back, rfl, under⟩
      · rintro (⟨old, -⟩ | ⟨back', same, under⟩)
        · exact absurd old missing
        · have equal := List.append_cancel_left same
          cases equal
          exact under
    · rename_i outside
      have elsewhere : ∀ y, ¬∃ back, path = dst ++ m :: back ∧ Walks E x back y := by
        rintro y ⟨back, rfl, -⟩
        exact outside ⟨back, by simp⟩
      simp only [elsewhere, or_false]
      split
      · rename_i inside
        simp [inside]
      · rename_i apart
        rw [denotes.some_iff]
        simp [apart]
  · rcases walks.mp walk with ⟨old, -⟩ | ⟨back, -, under⟩
    · exact denotes.total old
    · exact denotes.total (below.mpr under)

end Denotes

end FileTree

end NexusFS.Lib
