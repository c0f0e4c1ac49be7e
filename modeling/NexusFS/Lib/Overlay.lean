/- GID: NexusFS/Lib/Overlay
   layer: library
   digest: A keyed register whose writes overlay some points: when every order of them agrees. -/

import Mathlib.Data.List.Perm.Basic
import Mathlib.Order.Lattice

/-!
A write carries a key and gives values at some points. The register takes a write
of a higher key, and at the points the write leaves out it keeps what it holds.
So a write below the highest one leaves its values behind if it comes first, and
leaves nothing if it comes later.
-/

set_option autoImplicit false
set_option relaxedAutoImplicit false

namespace NexusFS.Lib.Overlay

variable {ι K P V : Type} [LinearOrder K]

/-- A value at every point, under the key of the last write taken. -/
@[ext] structure Register (K P V : Type) where
  key : K
  value : P → V

def lay (patch : P → Option V) (below : P → V) : P → V := fun p => (patch p).getD (below p)

variable (key : ι → K) (patch : ι → P → Option V)

def put (r : Register K P V) (w : ι) : Register K P V :=
  if r.key < key w then ⟨key w, lay (patch w) r.value⟩ else r

def Contends (r : Register K P V) (l : List ι) (w : ι) : Prop := w ∈ l ∧ r.key < key w

def Top (r : Register K P V) (l : List ι) (top : ι) : Prop :=
  Contends key r l top ∧ ∀ w, Contends key r l w → key w ≤ key top

/-- Where the top write gives nothing, every contending write gives what is there already. -/
def Redundant (r : Register K P V) (l : List ι) : Prop :=
  ∀ top, Top key r l top → ∀ w, Contends key r l w →
    ∀ p, patch top p = none → ∀ v, patch w p = some v → v = r.value p

section Orders

variable {key patch} {r : Register K P V} {l : List ι}

theorem put_low {w : ι} (low : ¬r.key < key w) : put key patch r w = r := if_neg low

theorem put_high {w : ι} (high : r.key < key w) :
    put key patch r w = ⟨key w, lay (patch w) r.value⟩ := if_pos high

theorem foldl_put_low (low : ∀ w ∈ l, ¬r.key < key w) : l.foldl (put key patch) r = r := by
  induction l with
  | nil => rfl
  | cons w l ih =>
      rw [List.foldl_cons, put_low (low w List.mem_cons_self)]
      exact ih fun other member => low other (List.mem_cons_of_mem w member)

theorem Top.not_lt {top : ι} (isTop : Top key r l top) {w : ι} (member : w ∈ l) :
    ¬key top < key w := by
  intro higher
  exact absurd (isTop.2 w ⟨member, isTop.1.2.trans higher⟩) (not_le.mpr higher)

theorem exists_top {w : ι} (contends : Contends key r l w) : ∃ top, Top key r l top := by
  induction l generalizing w with
  | nil => cases contends.1
  | cons a l ih =>
      by_cases later : ∃ b, Contends key r l b
      · obtain ⟨b, here⟩ := later
        obtain ⟨top, ⟨member, above⟩, highest⟩ := ih here
        by_cases higher : key top < key a
        · refine ⟨a, ⟨List.mem_cons_self, above.trans higher⟩, ?_⟩
          rintro c ⟨inside, takes⟩
          rcases List.mem_cons.mp inside with rfl | old
          · exact le_rfl
          · exact (highest c ⟨old, takes⟩).trans higher.le
        · refine ⟨top, ⟨List.mem_cons_of_mem a member, above⟩, ?_⟩
          rintro c ⟨inside, takes⟩
          rcases List.mem_cons.mp inside with rfl | old
          · exact not_lt.mp higher
          · exact highest c ⟨old, takes⟩
      · have only : ∀ c, Contends key r (a :: l) c → c = a := by
          rintro c ⟨inside, takes⟩
          exact (List.mem_cons.mp inside).resolve_right fun old => later ⟨c, old, takes⟩
        refine ⟨a, only w contends ▸ contends, fun c here => ?_⟩
        rw [only c here]

/-- What a register can hold while a redundant batch is delivered: the top write over the first
values, or the first values wherever the top write gives none. -/
private def Underway (patch : ι → P → Option V) (key : ι → K) (r : Register K P V) (top : ι)
    (now : Register K P V) : Prop :=
  now = ⟨key top, lay (patch top) r.value⟩ ∨
    (now.key < key top ∧ r.key ≤ now.key ∧ ∀ p, patch top p = none → now.value p = r.value p)

private theorem underway_put (redundant : Redundant key patch r l)
    (distinct : ∀ a ∈ l, ∀ b ∈ l, key a = key b → a = b) {top : ι} (isTop : Top key r l top)
    {now : Register K P V} (underway : Underway patch key r top now) {w : ι} (member : w ∈ l) :
    Underway patch key r top (put key patch now w) ∧
      (w = top → put key patch now w = ⟨key top, lay (patch top) r.value⟩) := by
  rcases underway with rfl | ⟨below, above, kept⟩
  · rw [put_low (isTop.not_lt member)]
    exact ⟨.inl rfl, fun _ => rfl⟩
  · by_cases takes : now.key < key w
    · rw [put_high takes]
      have contends : Contends key r l w := ⟨member, above.trans_lt takes⟩
      by_cases same : key w = key top
      · obtain rfl := distinct w member top isTop.1.1 same
        have ends : (⟨key w, lay (patch w) now.value⟩ : Register K P V) =
            ⟨key w, lay (patch w) r.value⟩ := by
          ext p
          · rfl
          · show (patch w p).getD (now.value p) = (patch w p).getD (r.value p)
            cases given : patch w p with
            | none => exact kept p given
            | some v => rfl
        exact ⟨.inl ends, fun _ => ends⟩
      · refine ⟨.inr ⟨lt_of_le_of_ne (isTop.2 w contends) same, above.trans takes.le, ?_⟩,
          fun equal => absurd (equal ▸ rfl) same⟩
        intro p free
        show (patch w p).getD (now.value p) = r.value p
        cases given : patch w p with
        | none => exact kept p free
        | some v => exact redundant top isTop w contends p free v given
    · rw [put_low takes]
      exact ⟨.inr ⟨below, above, kept⟩, fun equal => absurd (equal ▸ below) takes⟩

private theorem foldl_underway (redundant : Redundant key patch r l)
    (distinct : ∀ a ∈ l, ∀ b ∈ l, key a = key b → a = b) {top : ι} (isTop : Top key r l top)
    (order : List ι) (members : ∀ w ∈ order, w ∈ l) {now : Register K P V}
    (underway : Underway patch key r top now) :
    Underway patch key r top (order.foldl (put key patch) now) ∧
      (top ∈ order → order.foldl (put key patch) now = ⟨key top, lay (patch top) r.value⟩) := by
  induction order generalizing now with
  | nil => exact ⟨underway, fun none_left => nomatch none_left⟩
  | cons w order ih =>
      have inside := members w List.mem_cons_self
      have rest : ∀ w ∈ order, w ∈ l := fun other member =>
        members other (List.mem_cons_of_mem w member)
      obtain ⟨step, ends⟩ := underway_put redundant distinct isTop underway inside
      obtain ⟨later, found⟩ := ih rest step
      refine ⟨later, fun member => ?_⟩
      rcases List.mem_cons.mp member with rfl | old
      · rw [List.foldl_cons, ends rfl]
        exact foldl_put_low fun other here => isTop.not_lt (rest other here)
      · exact found old

theorem foldl_top_first {top : ι} (isTop : Top key r l top) {rest : List ι}
    (members : ∀ w ∈ rest, w ∈ l) :
    (top :: rest).foldl (put key patch) r = ⟨key top, lay (patch top) r.value⟩ := by
  rw [List.foldl_cons, put_high isTop.1.2]
  exact foldl_put_low fun w here => isTop.not_lt (members w here)

theorem foldl_top_second {top w : ι} (isTop : Top key r l top) (contends : Contends key r l w)
    (lower : key w < key top) {rest : List ι} (members : ∀ w ∈ rest, w ∈ l) :
    (w :: top :: rest).foldl (put key patch) r =
      ⟨key top, lay (patch top) (lay (patch w) r.value)⟩ := by
  have takes : (⟨key w, lay (patch w) r.value⟩ : Register K P V).key < key top := lower
  rw [List.foldl_cons, put_high contends.2, List.foldl_cons, put_high takes]
  exact foldl_put_low fun other here => isTop.not_lt (members other here)

theorem orders_agree_iff (distinct : ∀ a ∈ l, ∀ b ∈ l, key a = key b → a = b) :
    (∀ l₁ l₂ : List ι, l₁.Perm l → l₂.Perm l →
      l₁.foldl (put key patch) r = l₂.foldl (put key patch) r) ↔ Redundant key patch r l := by
  classical
  constructor
  · intro agree top isTop w contends p free v given
    have apart : top ≠ w := by
      rintro rfl
      rw [free] at given
      cases given
    have lower : key w < key top := by
      refine lt_of_le_of_ne (isTop.2 w contends) fun same => apart ?_
      exact (distinct w contends.1 top isTop.1.1 same).symm
    have topFirst : (top :: l.erase top).Perm l := (List.perm_cons_erase isTop.1.1).symm
    have inErase : top ∈ l.erase w := (List.mem_erase_of_ne apart).mpr isTop.1.1
    have lowFirst : (w :: top :: (l.erase w).erase top).Perm l :=
      ((List.perm_cons_erase inErase).symm.cons w).trans (List.perm_cons_erase contends.1).symm
    have same := agree _ _ lowFirst topFirst
    rw [foldl_top_first isTop fun other here => List.mem_of_mem_erase here,
      foldl_top_second isTop contends lower fun other here =>
        List.mem_of_mem_erase (List.mem_of_mem_erase here)] at same
    have point := congrFun (congrArg Register.value same) p
    simpa only [lay, free, given, Option.getD_none, Option.getD_some] using point
  · intro redundant l₁ l₂ first second
    by_cases some_contend : ∃ w, Contends key r l w
    · obtain ⟨w, contends⟩ := some_contend
      obtain ⟨top, isTop⟩ := exists_top contends
      have start : Underway patch key r top r := .inr ⟨isTop.1.2, le_rfl, fun _ _ => rfl⟩
      have ends : ∀ order : List ι, order.Perm l →
          order.foldl (put key patch) r = ⟨key top, lay (patch top) r.value⟩ := fun order perm =>
        (foldl_underway redundant distinct isTop order (fun w here => perm.mem_iff.mp here) start).2
          (perm.mem_iff.mpr isTop.1.1)
      rw [ends l₁ first, ends l₂ second]
    · have ends : ∀ order : List ι, order.Perm l → order.foldl (put key patch) r = r :=
        fun order perm => foldl_put_low fun w here takes =>
          some_contend ⟨w, perm.mem_iff.mp here, takes⟩
      rw [ends l₁ first, ends l₂ second]

end Orders

end NexusFS.Lib.Overlay
