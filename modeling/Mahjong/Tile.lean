/-
Tiles (`struct mj`), their order, and the 144-tile set.

A tile is a type, a number and a priority; the priority matters to the
shuffle only, so two tiles are the same tile when their faces (type and
number) agree. The null tile, type and number zero, marks an empty
slot; slots are emptied by zeroing type and number, which leaves the
priority behind, hence `isNull` is a test on the face.
-/
import Mathlib.Data.List.Perm.Basic
import Mathlib.Tactic

namespace Mahjong

/-- `struct mj`; all numbers are 1-indexed. -/
structure Mj where
  type : Int
  number : Int
  priority : Int
deriving DecidableEq, Repr

-- The tile types; a null mj has the type 0.
abbrev tong : Int := 1
abbrev tiao : Int := 2
abbrev wan : Int := 3
abbrev dazi : Int := 4
abbrev flower : Int := 5

/-- What is painted on a tile: type and number. -/
abbrev Face := Int × Int

namespace Mj

/-- The zero-initialised slot. -/
def null : Mj := ⟨0, 0, 0⟩

/-- The two assignments `.type = 0; .number = 0`. -/
def zero (m : Mj) : Mj := { m with type := 0, number := 0 }

/-- The test `type == 0 && number == 0`. -/
def isNull (m : Mj) : Bool := m.type == 0 && m.number == 0

def face (m : Mj) : Face := (m.type, m.number)

/-- A tile that can stand in a hand: a suited tile 1..9 or an honour
1..7. -/
def Real (m : Mj) : Prop :=
  (1 ≤ m.type ∧ m.type ≤ 3 ∧ 1 ≤ m.number ∧ m.number ≤ 9)
    ∨ (m.type = 4 ∧ 1 ≤ m.number ∧ m.number ≤ 7)

instance (m : Mj) : Decidable m.Real :=
  inferInstanceAs (Decidable (_ ∨ _))

/-- The sort key of a hand, `type * 10 + number`. -/
def key (m : Mj) : Int := m.type * 10 + m.number

end Mj

/-- `mj_compare`: `0` on the same face, `-1` if `a` comes after `b`,
`1` if before. -/
def mjCompare (a b : Mj) : Int :=
  if a.type = b.type ∧ a.number = b.number then 0
  else if a.type > b.type ∨ (a.type = b.type ∧ a.number > b.number) then -1
  else 1

-- ============================================================= the tile set

/-- `copies` of every number `1..kinds` of one type. -/
def row (type : Int) (kinds copies : Nat) : List Face :=
  (List.range kinds).flatMap fun i => List.replicate copies (type, (i : Int) + 1)

/-- The 144 tiles in the order `shuffle` writes them down. -/
def tileSet : List Face :=
  row tong 9 4 ++ row tiao 9 4 ++ row wan 9 4 ++ row dazi 7 4 ++ row flower 8 1

/-- An order of the 144 tiles: what `shuffle` leaves in
`shuffled_mjs`. -/
structure Wall where
  tiles : List Mj
  perm : (tiles.map Mj.face).Perm tileSet

-- ============================================================== small facts

namespace Mj

@[simp] theorem face_zero (m : Mj) : m.zero.face = (0, 0) := rfl

@[simp] theorem face_null : null.face = (0, 0) := rfl

theorem isNull_iff {m : Mj} : m.isNull = true ↔ m.face = (0, 0) := by
  simp [isNull, face]

theorem face_eq_iff {a b : Mj} :
    a.face = b.face ↔ a.type = b.type ∧ a.number = b.number := by
  simp [face]

theorem Real.congr {a b : Mj} (h : a.face = b.face) (ha : a.Real) : b.Real := by
  obtain ⟨ht, hn⟩ := face_eq_iff.mp h
  unfold Real at ha ⊢
  rw [← ht, ← hn]
  exact ha

theorem Real.not_null {m : Mj} (h : m.Real) : m.isNull = false := by
  unfold Real at h
  simp only [isNull, Bool.and_eq_false_iff, beq_eq_false_iff_ne]
  omega

end Mj

theorem mjCompare_eq_zero {a b : Mj} : mjCompare a b = 0 ↔ a.face = b.face := by
  rw [Mj.face_eq_iff]
  unfold mjCompare
  split
  next h => simp [h]
  next h =>
    simp only [h, iff_false]
    split <;> decide

theorem tileSet_length : tileSet.length = 144 := by decide +kernel

/-- A tile of the set is one that can stand in a hand, or a flower. -/
theorem mem_tileSet {f : Face} (h : f ∈ tileSet) :
    (1 ≤ f.1 ∧ f.1 ≤ 3 ∧ 1 ≤ f.2 ∧ f.2 ≤ 9)
      ∨ (f.1 = 4 ∧ 1 ≤ f.2 ∧ f.2 ≤ 7) ∨ (f.1 = 5 ∧ 1 ≤ f.2 ∧ f.2 ≤ 8) := by
  have hall : ∀ g ∈ tileSet, (1 ≤ g.1 ∧ g.1 ≤ 3 ∧ 1 ≤ g.2 ∧ g.2 ≤ 9)
      ∨ (g.1 = 4 ∧ 1 ≤ g.2 ∧ g.2 ≤ 7) ∨ (g.1 = 5 ∧ 1 ≤ g.2 ∧ g.2 ≤ 8) := by
    decide +kernel
  exact hall f h

namespace Wall

theorem length (w : Wall) : w.tiles.length = 144 := by
  have h := w.perm.length_eq
  rw [List.length_map, tileSet_length] at h
  exact h

/-- Every tile of a wall is real or a flower. -/
theorem real_or_flower (w : Wall) {m : Mj} (hm : m ∈ w.tiles) :
    m.Real ∨ m.type = flower := by
  have hf : m.face ∈ tileSet :=
    w.perm.mem_iff.mp (List.mem_map_of_mem hm)
  rcases mem_tileSet hf with h | h | h
  · exact Or.inl (Or.inl h)
  · exact Or.inl (Or.inr h)
  · exact Or.inr h.1

end Wall

end Mahjong
