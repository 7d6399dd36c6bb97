/-
Arrays of which a run may touch one window only.

Every access names its slot. A slot outside the window or outside the
array has no value, and the run stops there (`none`); a run that comes
to an end has touched nothing but the window. Slots are integers, as a
cursor that runs down may end at -1.

The second half is the quicksort of `Lib/QuickSort.lean` written this
way: its loops step by step, each turn of a loop and each call taking one
unit of fuel. `quickSortIn_eq` says that with enough fuel it ends, inside
the window, with what `quickSort` computes; `segment` is the part of an
array that a sort is about.
-/
import Mahjong.Lib.QuickSort

/-- The slots `lo..hi`. -/
structure Window where
  lo : Int
  hi : Int

namespace Window

variable {α : Type}

/-- Read slot `i`. -/
def get (w : Window) (l : List α) (i : Int) : Option α :=
  if w.lo ≤ i ∧ i ≤ w.hi ∧ 0 ≤ i then l[i.toNat]? else none

/-- Replace what slot `i` holds. -/
def update (w : Window) (l : List α) (i : Int) (f : α → α) : Option (List α) :=
  (w.get l i).map fun a => l.set i.toNat (f a)

/-- Exchange slots `i` and `j`. -/
def swap (w : Window) (l : List α) (i j : Int) : Option (List α) :=
  (w.get l i).bind fun a => (w.get l j).bind fun b =>
    (w.update l i fun _ => b).bind fun l' => w.update l' j fun _ => a

theorem get_natCast {w : Window} {i : Nat} (hlo : w.lo ≤ i) (hhi : (i : Int) ≤ w.hi)
    (l : List α) : w.get l i = l[i]? := by
  unfold get
  rw [if_pos ⟨hlo, hhi, Int.natCast_nonneg i⟩, Int.toNat_natCast]

theorem update_natCast {w : Window} {i : Nat} (hlo : w.lo ≤ i)
    (hhi : (i : Int) ≤ w.hi) {l : List α} (hi : i < l.length) (f : α → α) :
    w.update l i f = some (l.modify i f) := by
  unfold update
  rw [get_natCast hlo hhi, List.getElem?_eq_getElem hi, Option.map_some,
    Int.toNat_natCast, List.modify_eq_set_get f hi]
  rfl

theorem swap_natCast {w : Window} {i j : Nat} (hlo : w.lo ≤ i)
    (hhi : (i : Int) ≤ w.hi) (hlo' : w.lo ≤ j) (hhi' : (j : Int) ≤ w.hi)
    {l : List α} (hi : i < l.length) (hj : j < l.length) :
    w.swap l i j = some (QuickSort.swap l i j) := by
  have hlen : j < (l.set i l[j]).length := by
    rw [List.length_set]
    exact hj
  unfold swap QuickSort.swap
  simp only [get_natCast hlo hhi, get_natCast hlo' hhi', List.getElem?_eq_getElem hi,
    List.getElem?_eq_getElem hj, Option.bind_some, update_natCast hlo hhi hi,
    update_natCast hlo' hhi' hlen, ← List.set_eq_modify]

end Window

namespace QuickSort

variable {α : Type}

-- =============================================== the loops, every access seen

section Loops

variable (w : Window) (key : α → Int)

/-- The left cursor's loop. -/
def scanUpIn (mjs : List α) (pivot right : Int) : Nat → Int → Option Int
  | 0, _ => none
  | fuel + 1, left =>
      if left ≤ right then
        (w.get mjs left).bind fun m =>
          if key m ≤ pivot then scanUpIn mjs pivot right fuel (left + 1)
          else some left
      else some left

/-- The right cursor's loop. -/
def scanDownIn (mjs : List α) (pivot left : Int) : Nat → Int → Option Int
  | 0, _ => none
  | fuel + 1, right =>
      if left ≤ right then
        (w.get mjs right).bind fun m =>
          if key m ≥ pivot then scanDownIn mjs pivot left fuel (right - 1)
          else some right
      else some right

/-- The cursor loop. -/
def partitionIn (pivot : Int) : Nat → List α → Int → Int → Option (List α × Int)
  | 0, _, _, _ => none
  | fuel + 1, mjs, left, right =>
      if left ≤ right then
        (scanUpIn w key mjs pivot right fuel left).bind fun left =>
          (scanDownIn w key mjs pivot left fuel right).bind fun right =>
            (if left < right then w.swap mjs left right else some mjs).bind fun mjs =>
              partitionIn pivot fuel mjs left right
      else some (mjs, right)

/-- The sort of the segment `start..stop`. -/
def quickSortIn : Nat → List α → Int → Int → Option (List α)
  | 0, _, _, _ => none
  | fuel + 1, mjs, start, stop =>
      if start ≥ stop then some mjs
      else
        (w.get mjs start).bind fun p =>
          (partitionIn w key (key p) fuel mjs (start + 1) stop).bind fun split =>
            (w.swap split.1 start split.2).bind fun mjs =>
              (quickSortIn fuel mjs start (split.2 - 1)).bind fun mjs =>
                quickSortIn fuel mjs (split.2 + 1) stop

end Loops

-- ==================================================== they end, in the window

section Runs

variable {w : Window} {key : α → Int}

theorem keyAt_getElem {l : List α} {i : Nat} (hi : i < l.length) :
    keyAt key l i = key l[i] :=
  keyAt_of_some (List.getElem?_eq_getElem hi)

theorem scanUpIn_eq {mjs : List α} {pivot : Int} {right : Nat}
    (hhi : (right : Int) ≤ w.hi) (hlen : right < mjs.length) (fuel : Nat) :
    ∀ left : Nat, w.lo ≤ left → right + 2 ≤ fuel + left → 1 ≤ fuel →
      scanUpIn w key mjs pivot right fuel left
        = some ((scanUp key mjs pivot right left : Nat) : Int) := by
  induction fuel with
  | zero => intro left _ _ h; omega
  | succ fuel ih =>
      intro left hlo hfuel _
      unfold scanUpIn scanUp
      by_cases hle : left ≤ right
      · have hl : left < mjs.length := by omega
        rw [if_pos (by omega), Window.get_natCast hlo (by omega),
          List.getElem?_eq_getElem hl, Option.bind_some, keyAt_getElem hl]
        by_cases hk : key mjs[left] ≤ pivot
        · rw [if_pos hk, if_pos ⟨hle, hk⟩]
          have h := ih (left + 1) (by omega) (by omega) (by omega)
          rw [Nat.cast_add_one] at h
          exact h
        · rw [if_neg hk, if_neg fun h => hk h.2]
      · rw [if_neg (by omega), if_neg fun h => hle h.1]

theorem scanDownIn_eq {mjs : List α} {pivot : Int} {left : Nat} (hpos : 1 ≤ left)
    (hlo : w.lo ≤ left) (fuel : Nat) :
    ∀ right : Nat, (right : Int) ≤ w.hi → right < mjs.length →
      right + 2 ≤ fuel + left → 1 ≤ fuel →
      scanDownIn w key mjs pivot left fuel right
        = some ((scanDown key mjs pivot left right : Nat) : Int) := by
  induction fuel with
  | zero => intro right _ _ _ h; omega
  | succ fuel ih =>
      intro right hhi hlen hfuel _
      unfold scanDownIn
      cases right with
      | zero =>
          rw [if_neg (by omega)]
          rfl
      | succ right =>
          rw [scanDown]
          by_cases hle : left ≤ right + 1
          · rw [if_pos (by omega), Window.get_natCast (by omega) hhi,
              List.getElem?_eq_getElem hlen, Option.bind_some, keyAt_getElem hlen]
            by_cases hk : pivot ≤ key mjs[right + 1]
            · rw [if_pos hk, if_pos ⟨hle, hk⟩, Nat.cast_add_one,
                Int.add_sub_cancel]
              exact ih right (by omega) (by omega) (by omega) (by omega)
            · rw [if_neg hk, if_neg fun h => hk h.2]
          · rw [if_neg (by omega), if_neg fun h => hle h.1]

/-- The cursor loop ends with what `partition` computes: a turn moves a
cursor, and after the last exchange the cursors have crossed. -/
theorem partitionIn_eq {pivot : Int} (rest : Nat) :
    ∀ (fuel : Nat) (mjs : List α) (left right : Nat),
      rounds key pivot mjs left right ≤ rest →
      rounds key pivot mjs left right + 2 ≤ fuel → 1 ≤ left →
      left ≤ right + 1 → w.lo ≤ left → (right : Int) ≤ w.hi → right < mjs.length →
      partitionIn w key pivot fuel mjs left right
        = some ((partition key pivot rest mjs left right).1,
            ((partition key pivot rest mjs left right).2 : Int)) := by
  induction rest with
  | zero =>
      intro fuel mjs left right hrest hfuel _ _ _ _ _
      have hcross : ¬ left ≤ right := by
        unfold rounds at hrest
        omega
      obtain ⟨fuel, rfl⟩ : ∃ k, fuel = k + 1 := ⟨fuel - 1, by omega⟩
      unfold partitionIn
      rw [if_neg (by omega)]
      rfl
  | succ rest ih =>
      intro fuel mjs left right hrest hfuel hpos hlr hlo hhi hlen
      obtain ⟨fuel, rfl⟩ : ∃ k, fuel = k + 1 := ⟨fuel - 1, by omega⟩
      rw [partitionIn, partition]
      by_cases hle : left ≤ right
      case neg =>
        rw [if_neg (by omega), if_neg hle]
      case pos =>
        have hwide : right + 1 - left ≤ rounds key pivot mjs left right := by
          unfold rounds
          omega
        obtain ⟨u1, u2, -, u4⟩ := scanUp_spec key mjs pivot right left hlr
        obtain ⟨d1, d2, -, d4⟩ := scanDown_spec key mjs pivot
          (scanUp key mjs pivot right left) right (by omega) u2
        rw [if_pos (by omega), if_pos hle,
          scanUpIn_eq hhi hlen fuel left hlo (by omega) (by omega), Option.bind_some,
          scanDownIn_eq (by omega) (by omega) fuel right hhi hlen (by omega) (by omega),
          Option.bind_some]
        dsimp only
        generalize scanUp key mjs pivot right left = left' at *
        generalize scanDown key mjs pivot left' right = right' at *
        by_cases hlt : left' < right'
        case pos =>
          have hstep := rounds_swap (by omega) u1 d1 hlt (u4 (by omega)) (d4 (by omega))
          rw [if_pos (by omega), if_pos hlt,
            Window.swap_natCast (by omega) (by omega) (by omega) (by omega) (by omega)
              (by omega), Option.bind_some]
          apply ih
          · omega
          · omega
          · omega
          · omega
          · omega
          · omega
          · rw [length_swap]
            omega
        case neg =>
          -- on one slot the key would be above and below the pivot
          have hne : left' ≠ right' := by
            intro he
            have hup := u4 (by omega)
            have hdn := d4 (by omega)
            rw [he] at hup
            omega
          obtain ⟨fuel, rfl⟩ : ∃ k, fuel = k + 1 := ⟨fuel - 1, by omega⟩
          rw [if_neg (by omega), if_neg hlt, Option.bind_some, partitionIn,
            if_neg (by omega)]

/-- With enough fuel the sort ends, every access in the window. -/
theorem quickSortIn_eq (fuel : Nat) :
    ∀ (mjs : List α) (start stop : Int), 0 ≤ start → w.lo ≤ start → stop ≤ w.hi →
      stop < mjs.length → (stop - start).toNat + 4 ≤ fuel →
      quickSortIn w key fuel mjs start stop
        = some (quickSort key mjs start.toNat stop.toNat) := by
  induction fuel with
  | zero => intro mjs start stop _ _ _ _ h; omega
  | succ fuel ih =>
      intro mjs start stop hpos hlo hhi hlen hfuel
      unfold quickSortIn
      by_cases hge : start ≥ stop
      · rw [if_pos hge, quickSort, if_pos (by omega)]
      · obtain ⟨a, rfl⟩ := Int.eq_ofNat_of_zero_le hpos
        obtain ⟨b, rfl⟩ := Int.eq_ofNat_of_zero_le (by omega : 0 ≤ stop)
        have ha : a < mjs.length := by omega
        rw [if_neg hge, Window.get_natCast hlo (by omega), List.getElem?_eq_getElem ha,
          Option.bind_some, ← @keyAt_getElem _ key _ _ ha, Int.toNat_natCast,
          Int.toNat_natCast, quickSort, if_neg (by omega)]
        dsimp only
        have hrounds : rounds key (keyAt key mjs a) mjs (a + 1) b ≤ b + 1 - a := by
          unfold rounds
          split <;> omega
        have hpart : partitionIn w key (keyAt key mjs a) fuel mjs ((a + 1 : Nat) : Int) b
            = _ :=
          partitionIn_eq (b + 1 - a) fuel mjs (a + 1) b hrounds (by omega) (by omega)
            (by omega) (by omega) hhi (by omega)
        rw [Nat.cast_add_one a] at hpart
        rw [hpart, Option.bind_some]
        dsimp only
        have hsplit : Split key (keyAt key mjs a) mjs a b _ _ :=
          partition_split (b + 1 - a) mjs (a + 1) b hrounds (by omega)
            (by omega) (by omega) (Nat.le_refl _) (fun i h1 h2 => by omega)
            (fun i h1 h2 => by omega)
        generalize partition key (keyAt key mjs a) (b + 1 - a) mjs (a + 1) b = split at *
        have hslo := hsplit.lo
        have hshi := hsplit.hi
        have hslen := hsplit.seg.length_eq
        have hseg := (swap_split (by omega) (by omega) hsplit).1
        rw [Window.swap_natCast hlo (by omega) (by omega) (by omega) (by omega)
          (by omega), Option.bind_some]
        have hlen' := hseg.length_eq
        have hleft := ih (swap split.1 a split.2) a (split.2 - 1) hpos hlo (by omega)
          (by omega) (by omega)
        rw [Int.toNat_natCast, show ((split.2 : Int) - 1).toNat = split.2 - 1 by omega]
          at hleft
        rw [hleft, Option.bind_some]
        have hllen : (quickSort key (swap split.1 a split.2) a (split.2 - 1)).length
            = mjs.length :=
          (quickSort_seg key _ a _ (by omega)).length_eq.trans hlen'
        have hright := ih (quickSort key (swap split.1 a split.2) a (split.2 - 1))
          (split.2 + 1) b (by omega) (by omega) hhi (by omega) (by omega)
        rw [Int.toNat_natCast, show ((split.2 : Int) + 1).toNat = split.2 + 1 by omega]
          at hright
        exact hright

end Runs

-- ================================================================ segments

/-- What the slots `start..stop` hold. -/
def segment (l : List α) (start stop : Int) : List α :=
  (l.take (stop + 1).toNat).drop start.toNat

/-- A rearrangement inside the segment permutes it. -/
theorem SegPerm.segment_perm {l r : List α} {a b : Nat} (h : SegPerm l r a b) :
    (segment r a b).Perm (segment l a b) := by
  have htake : (r.take (b + 1)).take a = (l.take (b + 1)).take a := by
    apply List.ext_getElem?
    intro i
    by_cases hi : i < a
    · rw [List.getElem?_take_of_lt hi, List.getElem?_take_of_lt hi, List.getElem?_take,
        List.getElem?_take, h.outside i (Or.inl hi)]
    · rw [List.getElem?_eq_none (by rw [List.length_take]; omega),
        List.getElem?_eq_none (by rw [List.length_take]; omega)]
  have hperm := (h.widen (Nat.zero_le a) (Nat.le_refl b)).take_perm
  rw [← List.take_append_drop a (r.take (b + 1)),
    ← List.take_append_drop a (l.take (b + 1)), htake] at hperm
  unfold segment
  rw [show ((b : Int) + 1).toNat = b + 1 by omega, Int.toNat_natCast]
  exact (List.perm_append_left_iff _).mp hperm

theorem Sorted.pairwise {key : α → Int} {l : List α} {a b : Nat}
    (h : Sorted key l a b) (hb : b < l.length) :
    (segment l a b).Pairwise fun x y => key x ≤ key y := by
  unfold segment
  rw [show ((b : Int) + 1).toNat = b + 1 by omega, Int.toNat_natCast,
    List.pairwise_iff_getElem]
  intro i j hi hj hij
  rw [List.length_drop, List.length_take] at hi hj
  have hle := h (a + i) (a + j) (by omega) (by omega) (by omega)
  rw [keyAt_getElem (by omega), keyAt_getElem (by omega)] at hle
  rw [List.getElem_drop, List.getElem_drop, List.getElem_take, List.getElem_take]
  exact hle

/-- A segment that ends where it starts, or before, has one slot at most. -/
theorem length_segment_le {l : List α} {start stop : Int} (h : stop ≤ start) :
    (segment l start stop).length ≤ 1 := by
  unfold segment
  rw [List.length_drop, List.length_take]
  omega

end QuickSort
