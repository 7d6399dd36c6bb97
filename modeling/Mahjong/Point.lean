/-
What a won hand is worth: `point` of point_count.c.

`decks` are sixteen tiles, which the caller has to have sorted by type
and number (`SortedHand`), and `last` is the seventeenth. The function
is five loops over the slots that hand a running `count` on; each loop
is a definition of its own here, in their order. The three loops with a
running `tmpcnt` start at slot 2, the two that look for a waiting pair
at slot 1. `count` and `tmpcnt` stay far below what an int holds.
-/
import Mahjong.Meld

namespace Mahjong

/-- `mjsame`. -/
def mjsame (a b : Mj) : Bool := a.type == b.type && a.number == b.number

-- ======================================================== dragons and winds

/-- One turn of the loops over honours, for the numbers `lo..hi`: `two` is
what a second tile is worth when `last` is the third, `three` what the
third in a row is worth. The state is `count` and `tmpcnt`. -/
def honourStep (lo hi : Int) (two three : Int → Int) (last : Mj) (s : Int × Nat)
    (m : Mj) : Int × Nat :=
  let tmpcnt := if m.type = dazi ∧ m.number ≥ lo ∧ m.number ≤ hi then s.2 + 1 else 0
  let s := if tmpcnt = 2 ∧ last.type = dazi ∧ last.number = m.number
    then (s.1 + two m.number, 0) else (s.1, tmpcnt)
  if s.2 = 3 then (s.1 + three m.number, 0) else s

/-- A loop over honours; the count it leaves. -/
def honourLoop (lo hi : Int) (two three : Int → Int) (decks : List Mj) (last : Mj)
    (count : Int) : Int :=
  ((List.range' 2 14).foldl
    (fun s i => honourStep lo hi two three last s (decks.getD i Mj.null)) (count, 0)).1

/-- 中發白. -/
def dragonLoop (decks : List Mj) (last : Mj) (count : Int) : Int :=
  honourLoop 5 7 (fun _ => 1) (fun _ => 1) decks last count

/-- What the door wind and a wind numbered as `TONG` add. -/
def windPoint (doorwind number : Int) : Int :=
  (if doorwind = number then 1 else 0) + if number = tong then 1 else 0

/-- 東南西北; only three in the hand are worth a point of their own. -/
def windLoop (decks : List Mj) (last : Mj) (doorwind count : Int) : Int :=
  honourLoop 1 4 (windPoint doorwind) (fun number => windPoint doorwind number + 1)
    decks last count

-- ================================================================= the waits

/-- The test of 中洞 at slot `i`. -/
def closedTest (decks : List Mj) (last : Mj) (i : Nat) : Bool :=
  let m := decks.getD i Mj.null
  let before := decks.getD (i - 1) Mj.null
  m.number == before.number - 2 && last.type == m.type && last.number == m.number - 1

/-- A test of 邊張 at slot `i`: `n` and `n'` while waiting for `wait`. -/
def edgeTest (n n' wait : Int) (decks : List Mj) (last : Mj) (i : Nat) : Bool :=
  let m := decks.getD i Mj.null
  let before := decks.getD (i - 1) Mj.null
  m.number == n' && before.number == n && m.type == last.type && last.number == wait

/-- 中洞. -/
def closedLoop (decks : List Mj) (last : Mj) (count : Int) : Int :=
  (List.range' 1 15).foldl
    (fun count i => if closedTest decks last i then count + 1 else count) count

/-- 邊張. -/
def edgeLoop (decks : List Mj) (last : Mj) (count : Int) : Int :=
  (List.range' 1 15).foldl
    (fun count i =>
      let count := if edgeTest 1 2 3 decks last i then count + 1 else count
      if edgeTest 8 9 7 decks last i then count + 1 else count) count

-- ============================================================== all triplets

/-- One turn of the loop of 碰碰胡 at slot `i`. -/
def tripletStep (decks : List Mj) (last : Mj) (tmpcnt i : Nat) : Nat :=
  let m := decks.getD i Mj.null
  let before := decks.getD (i - 1) Mj.null
  let tmpcnt := if mjsame m before && mjsame m (decks.getD (i - 2) Mj.null)
    then tmpcnt + 1 else tmpcnt
  if mjsame m before && mjsame m last then tmpcnt + 1 else tmpcnt

/-- 碰碰胡, 4台. -/
def tripletLoop (decks : List Mj) (last : Mj) (count : Int) : Int :=
  let tmpcnt := (List.range' 2 14).foldl (tripletStep decks last) 0
  if tmpcnt = 5 then count + 4 else count

-- ================================================================== the total

/-- `point(base, mul, decks, last, doorwind)`. -/
def point (base mul : Int) (decks : List Mj) (last : Mj) (doorwind : Int) : Int :=
  let count := dragonLoop decks last 0
  let count := windLoop decks last doorwind count
  let count := closedLoop decks last count
  let count := edgeLoop decks last count
  let count := tripletLoop decks last count
  base + count * mul

-- ============================================================= its argument

/-- By type, then by number. -/
def FaceLe (a b : Face) : Prop := a.1 < b.1 ∨ a.1 = b.1 ∧ a.2 ≤ b.2

instance : DecidableRel FaceLe := fun _ _ => inferInstanceAs (Decidable (_ ∨ _))

theorem FaceLe.antisymm {a b : Face} (h : FaceLe a b) (h' : FaceLe b a) : a = b := by
  unfold FaceLe at h h'
  apply Prod.ext <;> omega

/-- What `point` has to be given. -/
structure SortedHand (decks : List Mj) : Prop where
  length : decks.length = 16
  sorted : decks.Pairwise fun a b =>
    a.type < b.type ∨ a.type = b.type ∧ a.number ≤ b.number

theorem SortedHand.faces {decks : List Mj} (h : SortedHand decks) :
    (decks.map Mj.face).Pairwise FaceLe :=
  List.pairwise_map.mpr h.sorted

/-- A bound on the copies of the kinds there are. -/
theorem count_le_of_mem {T : Multiset Face} {k : Nat} (h : ∀ f ∈ T, T.count f ≤ k) :
    ∀ f, T.count f ≤ k := by
  intro f
  by_cases hf : f ∈ T
  · exact h f hf
  · rw [Multiset.count_eq_zero_of_notMem hf]
    exact Nat.zero_le k

end Mahjong
