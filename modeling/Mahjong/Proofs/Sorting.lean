/-
The quicksorts sort.

Both are one algorithm with two keys (`Lib/QuickSort.lean`), and their
runs end, within the segment they are called for (`quickSortIn_eq`). What
is left for here is the order: on tiles with one-digit numbers the key
`type * 10 + number` orders by type and then number, which is the order
of `mj_compare` (`key_le_iff`), so equal tiles end up side by side.
-/
import Mahjong.Server.Within

namespace Mahjong

open QuickSort

-- ================================================================ the order

/-- A one-digit number, the only ones a key has room for. -/
def Mj.Digit (m : Mj) : Prop := 0 ≤ m.number ∧ m.number ≤ 9

instance (m : Mj) : Decidable m.Digit := inferInstanceAs (Decidable (_ ∧ _))

theorem mjCompare_ne_neg_one {a b : Mj} :
    mjCompare a b ≠ -1
      ↔ a.type < b.type ∨ (a.type = b.type ∧ a.number ≤ b.number) := by
  unfold mjCompare
  by_cases hsame : a.type = b.type ∧ a.number = b.number
  · rw [if_pos hsame]
    exact iff_of_true (by decide) (Or.inr ⟨hsame.1, hsame.2.le⟩)
  · rw [if_neg hsame]
    by_cases hafter : a.type > b.type ∨ (a.type = b.type ∧ a.number > b.number)
    · rw [if_pos hafter]
      exact iff_of_false (fun h => h rfl) (by omega)
    · rw [if_neg hafter]
      exact iff_of_true (by decide) (by omega)

/-- The key and `mj_compare` order one-digit tiles alike. -/
theorem key_le_iff {a b : Mj} (ha : a.Digit) (hb : b.Digit) :
    a.key ≤ b.key ↔ mjCompare a b ≠ -1 := by
  unfold Mj.Digit at ha hb
  rw [mjCompare_ne_neg_one]
  unfold Mj.key
  omega

theorem face_eq_of_key {a b : Mj} (ha : a.Digit) (hb : b.Digit)
    (h : a.key = b.key) : a.face = b.face := by
  unfold Mj.Digit at ha hb
  unfold Mj.key at h
  rw [Mj.face_eq_iff]
  omega

/-- In order by `mj_compare`, and nothing stands between two tiles of one
face but tiles of that face. -/
structure InOrder (l : List Mj) : Prop where
  compare : l.Pairwise fun a b => mjCompare a b ≠ -1
  contiguous : ∀ a b c : Mj, [a, b, c].Sublist l → a.face = c.face → b.face = a.face

theorem inOrder_of_key {l : List Mj} (hdigit : ∀ m ∈ l, m.Digit)
    (h : l.Pairwise fun a b => a.key ≤ b.key) : InOrder l := by
  constructor
  case compare =>
    apply h.imp_of_mem
    intro a b ha hb hle
    exact (key_le_iff (hdigit a ha) (hdigit b hb)).mp hle
  case contiguous =>
    intro a b c hsub hac
    have ha := hdigit a (hsub.subset (by simp))
    have hb := hdigit b (hsub.subset (by simp))
    have hsorted := h.sublist hsub
    simp only [List.pairwise_cons, List.mem_cons, List.not_mem_nil, or_false,
      forall_eq_or_imp, forall_eq] at hsorted
    obtain ⟨⟨hab, -⟩, hbc, -⟩ := hsorted
    have hca : c.key = a.key := by
      obtain ⟨ht, hn⟩ := Mj.face_eq_iff.mp hac
      rw [Mj.key, Mj.key, ht, hn]
    exact face_eq_of_key hb ha (by omega)

-- ================================================================= the sorts

/-- `sort`, called for the slots `start..stop` of `mjs`, ends with `r`
without touching another slot; the other slots are as they were, the
segment holds what it held, by increasing key. -/
structure Sorts (sort : Window → Nat → List Mj → Int → Int → Option (List Mj))
    (key : Mj → Int) (mjs : List Mj) (start stop : Int) (r : List Mj) : Prop where
  ends : ∃ enough, ∀ fuel ≥ enough, sort ⟨start, stop⟩ fuel mjs start stop = some r
  outside : ∀ i : Nat, (i : Int) < start ∨ stop < i → r[i]? = mjs[i]?
  perm : (segment r start stop).Perm (segment mjs start stop)
  sorted : (segment r start stop).Pairwise fun a b => key a ≤ key b

theorem quickSortIn_sorts (key : Mj → Int) {mjs : List Mj} {start stop : Int}
    (hstart : 0 ≤ start) (hstop : stop < mjs.length) :
    Sorts (fun w => quickSortIn w key) key mjs start stop
      (quickSort key mjs start.toNat stop.toNat) := by
  have hends : ∃ enough, ∀ fuel ≥ enough,
      quickSortIn ⟨start, stop⟩ key fuel mjs start stop
        = some (quickSort key mjs start.toNat stop.toNat) :=
    ⟨(stop - start).toNat + 4, fun fuel hfuel =>
      quickSortIn_eq fuel mjs start stop hstart le_rfl le_rfl hstop hfuel⟩
  by_cases hlt : start < stop
  case pos =>
    obtain ⟨a, rfl⟩ := Int.eq_ofNat_of_zero_le hstart
    obtain ⟨b, rfl⟩ := Int.eq_ofNat_of_zero_le (by omega : 0 ≤ stop)
    rw [Int.toNat_natCast, Int.toNat_natCast] at hends ⊢
    obtain ⟨hseg, hsorted⟩ := quickSort_spec key mjs a b (by omega)
    constructor
    case ends => exact hends
    case outside =>
      intro i hi
      exact hseg.outside i (by omega)
    case perm => exact hseg.segment_perm
    case sorted =>
      apply hsorted.pairwise
      rw [hseg.length_eq]
      omega
  case neg =>
    -- nothing to sort: the sort returns at once
    have hself : quickSort key mjs start.toNat stop.toNat = mjs := by
      rw [quickSort, if_pos (by omega)]
    rw [hself] at hends ⊢
    constructor
    case ends => exact hends
    case outside =>
      intro i _
      rfl
    case perm => exact List.Perm.refl _
    case sorted =>
      have hshort := length_segment_le (l := mjs) (not_lt.mp hlt)
      rw [List.pairwise_iff_getElem]
      intro i j hi hj hij
      omega

/-- Both sorts sort the segment they are called for, and only that; what
`decks_quick_sort` leaves is in the order of `mj_compare` wherever the
numbers have one digit. -/
theorem quicksorts_sort (mjs : List Mj) (start stop : Int) (hstart : 0 ≤ start)
    (hstop : stop < mjs.length) :
    Sorts decksQuickSortIn Mj.key mjs start stop
        (decksQuickSort mjs start.toNat stop.toNat)
      ∧ Sorts priorityQuickSortIn Mj.priority mjs start stop
        (priorityQuickSort mjs start.toNat stop.toNat)
      ∧ (∀ a b : Mj, a.Digit → b.Digit → (a.key ≤ b.key ↔ mjCompare a b ≠ -1))
      ∧ ((∀ m ∈ segment mjs start stop, m.Digit) →
          InOrder (segment (decksQuickSort mjs start.toNat stop.toNat) start stop)) := by
  have hdecks : Sorts decksQuickSortIn Mj.key mjs start stop
      (decksQuickSort mjs start.toNat stop.toNat) :=
    quickSortIn_sorts Mj.key hstart hstop
  refine ⟨hdecks, quickSortIn_sorts Mj.priority hstart hstop,
    fun a b ha hb => key_le_iff ha hb, ?_⟩
  intro hdigit
  apply inOrder_of_key
  · intro m hm
    exact hdigit m (hdecks.perm.mem_iff.mp hm)
  · exact hdecks.sorted

/-- Three equal tiles between two others, and a sort of the middle. -/
theorem quicksorts_sort_equal :
    InOrder (segment (decksQuickSort
      [⟨3, 9, 0⟩, ⟨2, 5, 1⟩, ⟨2, 5, 2⟩, ⟨1, 9, 3⟩, ⟨2, 5, 4⟩, ⟨1, 1, 5⟩] 1 4) 1 4) :=
  (quicksorts_sort
    [⟨3, 9, 0⟩, ⟨2, 5, 1⟩, ⟨2, 5, 2⟩, ⟨1, 9, 3⟩, ⟨2, 5, 4⟩, ⟨1, 1, 5⟩] 1 4
    (by decide) (by decide)).2.2.2 (by decide)

end Mahjong
