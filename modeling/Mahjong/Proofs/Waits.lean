/-
What the wait loops of `point` count.

The test of the closed wait wants the number in the slot before to be two
greater, which in a sorted hand happens only where one suit ends and the
next begins; a genuine closed wait it never sees (`closedTest_border`).
The tests of the edge wait see the genuine ones, but take such a border
for one as well (`edgeTest_iff`). A hand cannot
have both the genuine wait and the border (`Neighbours.not_border`), so
the loops are right exactly when there is no closed wait and no such
border (`waitsCounted_iff`).
-/
import Mahjong.Point

namespace Mahjong

-- ============================================================== neighbouring

/-- Two neighbouring slots hold `n` and `n'` of type `t`. -/
def Neighbours (decks : List Mj) (t n n' : Int) : Prop :=
  ∃ i, i + 1 < 16 ∧ (decks.getD i Mj.null).face = (t, n)
    ∧ (decks.getD (i + 1) Mj.null).face = (t, n')

/-- The tiles of type `t` begin with `n'`, after an `n` of another type. -/
def Border (decks : List Mj) (t n n' : Int) : Prop :=
  ∃ i, i + 1 < 16 ∧ (decks.getD i Mj.null).type ≠ t
    ∧ (decks.getD i Mj.null).number = n ∧ (decks.getD (i + 1) Mj.null).face = (t, n')

/-- A closed wait (中洞) for `last`. -/
def ClosedWait (decks : List Mj) (last : Mj) : Prop :=
  Neighbours decks last.type (last.number - 1) (last.number + 1)

/-- An edge wait (邊張) for `last`. -/
def EdgeWait (decks : List Mj) (last : Mj) : Prop :=
  (last.number = 3 ∧ Neighbours decks last.type 1 2)
    ∨ (last.number = 7 ∧ Neighbours decks last.type 8 9)

section Hand

variable {decks : List Mj} {last : Mj}

theorem SortedHand.le (h : SortedHand decks) {i j : Nat} (hij : i < j) (hj : j < 16) :
    (decks.getD i Mj.null).type < (decks.getD j Mj.null).type
      ∨ (decks.getD i Mj.null).type = (decks.getD j Mj.null).type
        ∧ (decks.getD i Mj.null).number ≤ (decks.getD j Mj.null).number := by
  have hlen := h.length
  have hi' : i < decks.length := by omega
  have hj' : j < decks.length := by omega
  rw [List.getD_eq_getElem?_getD, List.getD_eq_getElem?_getD,
    List.getElem?_eq_getElem hi', List.getElem?_eq_getElem hj']
  exact List.pairwise_iff_getElem.mp h.sorted i j hi' hj' hij

/-- Tiles of a type that begin with `m'` have nothing below it. -/
theorem Neighbours.not_border (h : SortedHand decks) {t n n' m m' : Int} (hlt : n < m')
    (hn : Neighbours decks t n n') : ¬ Border decks t m m' := by
  intro hb
  obtain ⟨i, hi, hface, -⟩ := hn
  obtain ⟨j, hj, htype, -, hface'⟩ := hb
  simp only [Mj.face, Prod.mk.injEq] at hface hface'
  have hborder := h.le (by omega : j < j + 1) hj
  by_cases hij : i ≤ j
  · by_cases heq : i = j
    · rw [heq] at hface
      omega
    · have := h.le (by omega : i < j) (by omega)
      omega
  · by_cases heq : i = j + 1
    · rw [heq] at hface
      omega
    · have := h.le (by omega : j + 1 < i) (by omega)
      omega

-- ================================================================= the tests

/-- The closed-wait test holds at borders, and nowhere else. -/
theorem closedTest_border (h : SortedHand decks) :
    (∃ i ∈ List.range' 1 15, closedTest decks last i = true)
      ↔ Border decks last.type (last.number + 3) (last.number + 1) := by
  unfold closedTest Border
  simp only [Bool.and_eq_true, beq_iff_eq, List.mem_range'_1, Mj.face, Prod.mk.injEq]
  constructor
  · intro hex
    obtain ⟨i, hi, ⟨hnum, htype⟩, hlast⟩ := hex
    have hle := h.le (by omega : i - 1 < i) (by omega)
    refine ⟨i - 1, by omega, ?_, ?_, ?_⟩
    · omega
    · omega
    · rw [Nat.sub_add_cancel hi.1]
      omega
  · intro hex
    obtain ⟨i, hi, htype, hnum, hface⟩ := hex
    exact ⟨i + 1, by omega, ⟨by rw [Nat.add_sub_cancel]; omega, hface.1.symm⟩, by omega⟩

/-- An edge test sees neighbours, and takes a border for neighbours. -/
theorem edgeTest_iff (n n' wait : Int) :
    (∃ i ∈ List.range' 1 15, edgeTest n n' wait decks last i = true)
      ↔ last.number = wait
        ∧ (Neighbours decks last.type n n' ∨ Border decks last.type n n') := by
  unfold edgeTest Neighbours Border
  simp only [Bool.and_eq_true, beq_iff_eq, List.mem_range'_1, Mj.face, Prod.mk.injEq]
  constructor
  · intro hex
    obtain ⟨i, hi, ⟨⟨hnum, hbefore⟩, htype⟩, hlast⟩ := hex
    by_cases hsame : (decks.getD (i - 1) Mj.null).type = last.type
    · exact ⟨hlast, Or.inl ⟨i - 1, by omega, ⟨hsame, hbefore⟩,
        by rw [Nat.sub_add_cancel hi.1]; exact ⟨htype, hnum⟩⟩⟩
    · exact ⟨hlast, Or.inr ⟨i - 1, by omega, hsame, hbefore,
        by rw [Nat.sub_add_cancel hi.1]; exact ⟨htype, hnum⟩⟩⟩
  · intro hex
    obtain ⟨hlast, hor⟩ := hex
    cases hor with
    | inl hn =>
        obtain ⟨i, hi, hface, htype, hnum⟩ := hn
        exact ⟨i + 1, by omega, ⟨⟨hnum, hface.2⟩, htype⟩, hlast⟩
    | inr hb =>
        obtain ⟨i, hi, -, hbefore, htype, hnum⟩ := hb
        exact ⟨i + 1, by omega, ⟨⟨hnum, hbefore⟩, htype⟩, hlast⟩

end Hand

-- ================================================================= the loops

/-- A loop whose turns add nothing or something adds something exactly
when a turn does. -/
theorem lt_foldl_iff {step : Int → Nat → Int} {p : Nat → Prop}
    (hadd : ∀ count i, p i → count < step count i)
    (hstay : ∀ count i, ¬ p i → step count i = count) (is : List Nat) :
    ∀ count : Int, count ≤ is.foldl step count
      ∧ (count < is.foldl step count ↔ ∃ i ∈ is, p i) := by
  induction is with
  | nil =>
      intro count
      simp
  | cons i is ih =>
      intro count
      obtain ⟨hle, hiff⟩ := ih (step count i)
      rw [List.foldl_cons, List.exists_mem_cons_iff]
      by_cases hp : p i
      · have hlt := hadd count i hp
        exact ⟨by omega, iff_of_true (by omega) (Or.inl hp)⟩
      · rw [hstay count i hp] at hle hiff ⊢
        rw [hiff]
        exact ⟨hle, ⟨Or.inr, fun h => h.resolve_left hp⟩⟩

theorem closedLoop_adds (decks : List Mj) (last : Mj) (count : Int) :
    count < closedLoop decks last count
      ↔ ∃ i ∈ List.range' 1 15, closedTest decks last i = true := by
  apply (lt_foldl_iff _ _ _ count).2
  · intro count i hp
    rw [if_pos hp]
    omega
  · intro count i hp
    rw [if_neg hp]

theorem edgeLoop_adds (decks : List Mj) (last : Mj) (count : Int) :
    count < edgeLoop decks last count
      ↔ ∃ i ∈ List.range' 1 15, edgeTest 1 2 3 decks last i = true
        ∨ edgeTest 8 9 7 decks last i = true := by
  apply (lt_foldl_iff (p := fun i => edgeTest 1 2 3 decks last i = true
    ∨ edgeTest 8 9 7 decks last i = true) _ _ _ count).2
  · intro count i hp
    dsimp only
    by_cases hlow : edgeTest 1 2 3 decks last i = true
    · rw [if_pos hlow]
      split <;> omega
    · rw [if_neg hlow, if_pos (hp.resolve_left hlow)]
      omega
  · intro count i hp
    rw [not_or] at hp
    dsimp only
    rw [if_neg hp.1, if_neg hp.2]

-- ========================================================= when they are right

/-- The loops count the waits that are there, and no border between two
types. -/
structure WaitsCounted (decks : List Mj) (last : Mj) : Prop where
  closed : ∀ count, count < closedLoop decks last count ↔ ClosedWait decks last
  edge : ∀ count, count < edgeLoop decks last count ↔ EdgeWait decks last
  borders : ∀ i, 1 ≤ i → i < 16 →
    (decks.getD (i - 1) Mj.null).type ≠ (decks.getD i Mj.null).type →
      closedTest decks last i = false ∧ edgeTest 1 2 3 decks last i = false
        ∧ edgeTest 8 9 7 decks last i = false

/-- A border that a wait loop takes for a wait for `last`. -/
def Mistaken (decks : List Mj) (last : Mj) : Prop :=
  Border decks last.type (last.number + 3) (last.number + 1)
    ∨ (last.number = 3 ∧ Border decks last.type 1 2)
    ∨ (last.number = 7 ∧ Border decks last.type 8 9)

section Right

variable {decks : List Mj} {last : Mj}

/-- The edge loop adds for an edge wait, and for a border taken for one. -/
theorem edgeLoop_iff (count : Int) :
    count < edgeLoop decks last count ↔ EdgeWait decks last
      ∨ (last.number = 3 ∧ Border decks last.type 1 2)
      ∨ (last.number = 7 ∧ Border decks last.type 8 9) := by
  rw [edgeLoop_adds]
  simp only [and_or_left, exists_or]
  rw [edgeTest_iff, edgeTest_iff]
  unfold EdgeWait
  tauto

/-- A test that holds between two types has found a mistaken border. -/
theorem mistaken_of_test (h : SortedHand decks) {i : Nat} (hi : 1 ≤ i) (hlt : i < 16)
    (hborder : (decks.getD (i - 1) Mj.null).type ≠ (decks.getD i Mj.null).type)
    (htest : closedTest decks last i = true ∨ edgeTest 1 2 3 decks last i = true
      ∨ edgeTest 8 9 7 decks last i = true) : Mistaken decks last := by
  have hmem : i ∈ List.range' 1 15 := List.mem_range'_1.mpr ⟨hi, by omega⟩
  have hback : i - 1 + 1 = i := by omega
  have hedge : ∀ n n' wait : Int, edgeTest n n' wait decks last i = true →
      last.number = wait ∧ Border decks last.type n n' := by
    intro n n' wait he
    unfold edgeTest at he
    simp only [Bool.and_eq_true, beq_iff_eq] at he
    obtain ⟨⟨⟨hnum, hbefore⟩, htype⟩, hlast⟩ := he
    refine ⟨hlast, i - 1, by omega, htype ▸ hborder, hbefore, ?_⟩
    rw [hback, Mj.face, htype, hnum]
  cases htest with
  | inl hc => exact Or.inl ((closedTest_border h).mp ⟨i, hmem, hc⟩)
  | inr he =>
      cases he with
      | inl hl => exact Or.inr (Or.inl (hedge 1 2 3 hl))
      | inr hh => exact Or.inr (Or.inr (hedge 8 9 7 hh))

/-- The wait loops are right on the hands without a closed wait and
without a border that looks like a wait. -/
theorem waitsCounted_iff (h : SortedHand decks) :
    WaitsCounted decks last ↔ ¬ ClosedWait decks last ∧ ¬ Mistaken decks last := by
  have hclosed : ∀ count, count < closedLoop decks last count
      ↔ Border decks last.type (last.number + 3) (last.number + 1) :=
    fun count => (closedLoop_adds decks last count).trans (closedTest_border h)
  have hexclusive : ClosedWait decks last →
      ¬ Border decks last.type (last.number + 3) (last.number + 1) :=
    fun hn => hn.not_border h (by omega)
  have hlow : Neighbours decks last.type 1 2 → ¬ Border decks last.type 1 2 :=
    fun hn => hn.not_border h (by omega)
  have hhigh : Neighbours decks last.type 8 9 → ¬ Border decks last.type 8 9 :=
    fun hn => hn.not_border h (by omega)
  constructor
  · intro hw
    have hc := (hclosed 0).symm.trans (hw.closed 0)
    have he := (edgeLoop_iff 0).symm.trans (hw.edge 0)
    have hnot : ¬ ClosedWait decks last := fun hn => hexclusive hn (hc.mpr hn)
    refine ⟨hnot, ?_⟩
    intro hm
    unfold EdgeWait at he
    cases hm with
    | inl hb => exact hnot (hc.mp hb)
    | inr hm =>
        cases he.mp (Or.inr hm) with
        | inl hl =>
            cases hm with
            | inl hb => exact hlow hl.2 hb.2
            | inr hb => omega
        | inr hl =>
            cases hm with
            | inl hb => omega
            | inr hb => exact hhigh hl.2 hb.2
  · intro hcond
    obtain ⟨hnot, hmistaken⟩ := hcond
    constructor
    case closed =>
      intro count
      rw [hclosed]
      exact iff_of_false (fun hb => hmistaken (Or.inl hb)) hnot
    case edge =>
      intro count
      rw [edgeLoop_iff]
      exact ⟨fun hor => hor.resolve_right fun hm => hmistaken (Or.inr hm), Or.inl⟩
    case borders =>
      intro i hi hlt hborder
      by_contra hsome
      apply hmistaken
      apply mistaken_of_test h hi hlt hborder
      simp only [not_and_or, Bool.not_eq_false] at hsome
      exact hsome

end Right

/-- One tile short of a run, three runs of another suit, three east winds
and a pair of red dragons. -/
def closedWaitHand : List Mj :=
  [⟨1, 1, 0⟩, ⟨1, 3, 0⟩, ⟨2, 1, 0⟩, ⟨2, 2, 0⟩, ⟨2, 3, 0⟩, ⟨2, 4, 0⟩, ⟨2, 5, 0⟩,
    ⟨2, 6, 0⟩, ⟨2, 7, 0⟩, ⟨2, 8, 0⟩, ⟨2, 9, 0⟩, ⟨4, 1, 0⟩, ⟨4, 1, 0⟩, ⟨4, 1, 0⟩,
    ⟨4, 5, 0⟩, ⟨4, 5, 0⟩]

theorem closedWaitHand_sorted : SortedHand closedWaitHand := ⟨by decide, by decide⟩

/-- With another 9 as the last tile the loops are right. -/
theorem waitsCounted_iff_nine : WaitsCounted closedWaitHand ⟨2, 9, 0⟩ := by
  refine (waitsCounted_iff closedWaitHand_sorted).mpr ⟨?_, ?_⟩
  · intro hn
    obtain ⟨i, hi, -, hface⟩ := hn
    have hi : i < 15 := by omega
    revert hface
    interval_cases i <;> decide
  · intro hm
    cases hm with
    | inl hb =>
        obtain ⟨i, hi, -, hnum, -⟩ := hb
        have hi : i < 15 := by omega
        revert hnum
        interval_cases i <;> decide
    | inr hm =>
        cases hm with
        | inl h => exact absurd h.1 (by decide)
        | inr h => exact absurd h.1 (by decide)

/-- The 2 between 1 and 3 is a closed wait that is not counted. -/
theorem closed_wait_missed :
    SortedHand closedWaitHand ∧ ClosedWait closedWaitHand ⟨1, 2, 0⟩
      ∧ closedLoop closedWaitHand ⟨1, 2, 0⟩ 0 = 0
      ∧ ¬ WaitsCounted closedWaitHand ⟨1, 2, 0⟩ := by
  have hwait : ClosedWait closedWaitHand ⟨1, 2, 0⟩ := ⟨0, by decide, by decide, by decide⟩
  have hnone : closedLoop closedWaitHand ⟨1, 2, 0⟩ 0 = 0 := by decide
  refine ⟨closedWaitHand_sorted, hwait, hnone, ?_⟩
  intro hw
  have hadds := (hw.closed 0).mpr hwait
  rw [hnone] at hadds
  omega

end Mahjong
