/- GID: NexusFS/Crdt/Lww
   source: crates/crdt/src/lww.rs
   digest: Last-writer-wins registers ordered by timestamp, writer and sequence number. -/

import NexusFS.Proto.Types

set_option autoImplicit false
set_option relaxedAutoImplicit false

namespace NexusFS.Crdt

open NexusFS.Proto

universe u

/-- `LwwReg<T>`: a value with the key it was written under. -/
structure LwwReg (T : Type u) where
  value : T
  ts : U64
  writer_id : U128
  seq : U64
  deriving DecidableEq

abbrev OrderKey := U64 ×ₗ U128 ×ₗ U64

def orderKeyOf (ts : U64) (writer : U128) (seq : U64) : OrderKey := toLex (ts, toLex (writer, seq))

theorem orderKeyOf_inj {t t' : U64} {w w' : U128} {q q' : U64} :
    orderKeyOf t w q = orderKeyOf t' w' q' ↔ t = t' ∧ w = w' ∧ q = q' := by
  simp [orderKeyOf]

namespace LwwReg

variable {T : Type u}

def orderKey (r : LwwReg T) : OrderKey := orderKeyOf r.ts r.writer_id r.seq

def merge (current other : LwwReg T) : LwwReg T :=
  if current.orderKey < other.orderKey then other else current

theorem merge_mem (a b : LwwReg T) : a.merge b = a ∨ a.merge b = b := by
  unfold merge
  split
  · exact .inr rfl
  · exact .inl rfl

theorem merge_orderKey (a b : LwwReg T) : (a.merge b).orderKey = max a.orderKey b.orderKey := by
  unfold merge
  split
  · rename_i lt
    exact (max_eq_right lt.le).symm
  · rename_i ge
    exact (max_eq_left (not_lt.mp ge)).symm

/-- The register that has met exactly the candidates: the first one or a candidate above it, and
no candidate is above the register. -/
structure Latest (first : LwwReg T) (candidate : LwwReg T → Prop) (current : LwwReg T) : Prop where
  source : current = first ∨ (candidate current ∧ first.orderKey < current.orderKey)
  above : ∀ other, candidate other → other.orderKey ≤ current.orderKey

namespace Latest

variable {first current : LwwReg T} {candidate candidate' : LwwReg T → Prop}

theorem init (first : LwwReg T) (none_yet : ∀ other, ¬candidate other) :
    Latest first candidate first :=
  ⟨.inl rfl, fun other here => absurd here (none_yet other)⟩

theorem congr (latest : Latest first candidate current)
    (same : ∀ other, candidate' other ↔ candidate other) : Latest first candidate' current :=
  ⟨latest.source.imp_right fun here => ⟨(same current).mpr here.1, here.2⟩,
    fun other here => latest.above other ((same other).mp here)⟩

theorem first_le (latest : Latest first candidate current) : first.orderKey ≤ current.orderKey := by
  rcases latest.source with rfl | ⟨-, higher⟩
  · exact le_rfl
  · exact higher.le

theorem merge (latest : Latest first candidate current) {other : LwwReg T}
    (grows : ∀ c, candidate' c ↔ c = other ∨ candidate c) :
    Latest first candidate' (current.merge other) := by
  constructor
  · unfold LwwReg.merge
    split
    · rename_i higher
      exact .inr ⟨(grows other).mpr (.inl rfl), latest.first_le.trans_lt higher⟩
    · exact latest.source.imp_right fun here => ⟨(grows current).mpr (.inr here.1), here.2⟩
  · intro c here
    rw [merge_orderKey]
    rcases (grows c).mp here with rfl | old
    · exact le_max_right _ _
    · exact (latest.above c old).trans (le_max_left _ _)

theorem unique {x y : LwwReg T} (left : Latest first candidate x) (right : Latest first candidate y)
    (keyed : ∀ a b, candidate a → candidate b → a.orderKey = b.orderKey → a = b) : x = y := by
  rcases left.source with rfl | ⟨hereX, higherX⟩
  · rcases right.source with rfl | ⟨hereY, higherY⟩
    · rfl
    · exact absurd (left.above y hereY) (not_le.mpr higherY)
  · rcases right.source with rfl | ⟨hereY, -⟩
    · exact absurd (right.above x hereX) (not_le.mpr higherX)
    · exact keyed x y hereX hereY (le_antisymm (right.above x hereX) (left.above y hereY))

end Latest

end LwwReg

end NexusFS.Crdt
