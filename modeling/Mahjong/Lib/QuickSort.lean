/-
Hoare-style quicksort on a segment of an array, pivot first, over any
element type with an integer key.

The pivot is the first element of the segment. Two cursors run towards
each other, both skipping elements equal to the pivot; when they stop
short of crossing, the two elements they stand on are swapped; when
they have crossed, the pivot is swapped with the element under the
right cursor and both sides are sorted.

`SegPerm l r a b` is the frame every step respects: `r` is a
permutation of `l` that moves elements inside `[a, b]` only. The main
results are `quickSort_seg` (the frame) and `quickSort_prefix`, the form
callers use: sorting a prefix of an array puts it in order and leaves the
rest alone.
-/
import Mathlib.Tactic

namespace QuickSort

variable {α β : Type}

-- ================================================================= arrays

/-- The key under a cursor. -/
def keyAt (key : α → Int) (l : List α) (i : Nat) : Int :=
  match l[i]? with
  | some a => key a
  | none => 0

/-- Exchange two slots. -/
def swap (l : List α) (i j : Nat) : List α :=
  match l[i]?, l[j]? with
  | some a, some b => (l.set i b).set j a
  | _, _ => l

theorem keyAt_of_some {key : α → Int} {l : List α} {i : Nat} {a : α}
    (h : l[i]? = some a) : keyAt key l i = key a := by
  rw [keyAt, h]

theorem keyAt_congr {key : α → Int} {l r : List α} {i j : Nat}
    (h : r[i]? = l[j]?) : keyAt key r i = keyAt key l j := by
  rw [keyAt, keyAt, h]

theorem swap_getElem? {l : List α} {i j : Nat} (hi : i < l.length)
    (hj : j < l.length) (k : Nat) :
    (swap l i j)[k]? = if k = j then l[i]? else if k = i then l[j]? else l[k]? := by
  unfold swap
  rw [List.getElem?_eq_getElem hi, List.getElem?_eq_getElem hj]
  simp only [List.getElem?_set, List.length_set]
  by_cases hkj : k = j
  · subst hkj
    simp [hj]
  · by_cases hki : k = i
    · subst hki
      simp [hkj, hi, Ne.symm hkj]
    · simp [hkj, hki, Ne.symm hkj, Ne.symm hki]

@[simp] theorem length_swap (l : List α) (i j : Nat) :
    (swap l i j).length = l.length := by
  unfold swap
  split <;> simp

theorem swap_perm (l : List α) (i j : Nat) : (swap l i j).Perm l := by
  unfold swap
  split
  next a b ha hb =>
    obtain ⟨hi, rfl⟩ := List.getElem?_eq_some_iff.mp ha
    obtain ⟨hj, rfl⟩ := List.getElem?_eq_some_iff.mp hb
    exact List.set_set_perm hi hj
  next => exact List.Perm.refl l

theorem map_swap (f : α → β) (l : List α) (i j : Nat) :
    (swap l i j).map f = swap (l.map f) i j := by
  unfold swap
  rw [List.getElem?_map, List.getElem?_map]
  cases l[i]? <;> cases l[j]? <;> simp [List.map_set]

/-- Two slots around a middle part change places. -/
theorem swap_append (a m t : List α) (x y : α) :
    swap (a ++ x :: (m ++ y :: t)) a.length (a.length + (m.length + 1))
      = a ++ y :: (m ++ x :: t) := by
  have hx : (a ++ x :: (m ++ y :: t))[a.length]? = some x := by simp
  have hy : (a ++ x :: (m ++ y :: t))[a.length + (m.length + 1)]? = some y := by
    rw [List.getElem?_append_right (by omega)]
    simp
  rw [swap, hx, hy]
  show ((a ++ x :: (m ++ y :: t)).set a.length y).set _ x = _
  rw [List.set_append_right _ _ (Nat.le_refl _), Nat.sub_self, List.set_cons_zero,
    List.set_append_right _ _ (by omega), Nat.add_sub_cancel_left,
    List.set_cons_succ, List.set_append_right _ _ (Nat.le_refl _), Nat.sub_self,
    List.set_cons_zero]

/-- An exchange inside the middle part. -/
theorem swap_middle (a z t : List α) {i j : Nat} (hi : i < z.length)
    (hj : j < z.length) :
    swap (a ++ z ++ t) (a.length + i) (a.length + j) = a ++ swap z i j ++ t := by
  have hget : ∀ l < z.length, (a ++ z ++ t)[a.length + l]? = z[l]? := by
    intro l hl
    rw [List.append_assoc, List.getElem?_append_right (by omega),
      Nat.add_sub_cancel_left, List.getElem?_append_left hl]
  have hset : ∀ (w : List α) (l : Nat) (x : α), l < w.length →
      (a ++ w ++ t).set (a.length + l) x = a ++ w.set l x ++ t := by
    intro w l x hl
    rw [List.append_assoc, List.set_append_right _ _ (by omega),
      Nat.add_sub_cancel_left, List.set_append_left _ _ hl, List.append_assoc]
  rw [swap, swap, hget i hi, hget j hj, List.getElem?_eq_getElem hi,
    List.getElem?_eq_getElem hj]
  show ((a ++ z ++ t).set _ _).set _ _ = a ++ (z.set i _).set j _ ++ t
  rw [hset z i _ hi, hset _ j _ (by rw [List.length_set]; exact hj)]

-- =============================================================== the frame

/-- `r` rearranges `l` inside the segment `[a, b]` only; a property of
all elements of the segment survives. -/
structure SegPerm (l r : List α) (a b : Nat) : Prop where
  perm : r.Perm l
  outside : ∀ i, i < a ∨ b < i → r[i]? = l[i]?
  bound : ∀ p : α → Prop,
    (∀ i x, a ≤ i → i ≤ b → l[i]? = some x → p x) →
    ∀ i x, a ≤ i → i ≤ b → r[i]? = some x → p x

namespace SegPerm

theorem refl (l : List α) (a b : Nat) : SegPerm l l a b :=
  ⟨List.Perm.refl l, fun _ _ => rfl, fun _ h => h⟩

theorem trans {l r t : List α} {a b : Nat} (h : SegPerm l r a b)
    (h' : SegPerm r t a b) : SegPerm l t a b :=
  ⟨h'.perm.trans h.perm,
    fun i hi => (h'.outside i hi).trans (h.outside i hi),
    fun p hp => h'.bound p (h.bound p hp)⟩

/-- A rearrangement of a smaller segment is one of the larger. -/
theorem widen {l r : List α} {a b a' b' : Nat} (h : SegPerm l r a b)
    (ha : a' ≤ a) (hb : b ≤ b') : SegPerm l r a' b' := by
  refine ⟨h.perm, fun i hi => h.outside i (by omega), ?_⟩
  intro p hp i x hai hib hx
  by_cases hin : a ≤ i ∧ i ≤ b
  · exact h.bound p (fun j y hj hj' hy => hp j y (by omega) (by omega) hy)
      i x hin.1 hin.2 hx
  · rw [h.outside i (by omega)] at hx
    exact hp i x hai hib hx

theorem length_eq {l r : List α} {a b : Nat} (h : SegPerm l r a b) :
    r.length = l.length := h.perm.length_eq

theorem swap {l : List α} {i j a b : Nat} (hi : i < l.length)
    (hj : j < l.length) (hai : a ≤ i) (hib : i ≤ b) (haj : a ≤ j)
    (hjb : j ≤ b) : SegPerm l (QuickSort.swap l i j) a b := by
  refine ⟨swap_perm l i j, ?_, ?_⟩
  · intro k hk
    rw [swap_getElem? hi hj, if_neg (by omega), if_neg (by omega)]
  · intro p hp k x hak hkb hx
    rw [swap_getElem? hi hj] at hx
    split at hx
    · exact hp i x hai hib hx
    · split at hx
      · exact hp j x haj hjb hx
      · exact hp k x hak hkb hx

/-- A rearrangement of the first slots permutes what they hold. -/
theorem take_perm {l r : List α} {n : Nat} (h : SegPerm l r 0 n) :
    (r.take (n + 1)).Perm (l.take (n + 1)) := by
  have hdrop : r.drop (n + 1) = l.drop (n + 1) := by
    apply List.ext_getElem?
    intro i
    rw [List.getElem?_drop, List.getElem?_drop, h.outside _ (Or.inr (by omega))]
  have hp := h.perm
  rw [← List.take_append_drop (n + 1) r, ← List.take_append_drop (n + 1) l,
    hdrop] at hp
  exact (List.perm_append_right_iff _).mp hp

/-- The keys of a segment stay below a bound. -/
theorem key_le {key : α → Int} {l r : List α} {a b : Nat} {m : Int}
    (h : SegPerm l r a b) (hb : b < l.length)
    (hl : ∀ i, a ≤ i → i ≤ b → keyAt key l i ≤ m) :
    ∀ i, a ≤ i → i ≤ b → keyAt key r i ≤ m := by
  intro i hai hib
  have hir : i < r.length := by rw [h.length_eq]; omega
  have hx := List.getElem?_eq_getElem hir
  rw [keyAt_of_some hx]
  refine h.bound (fun x => key x ≤ m) ?_ i _ hai hib hx
  intro j y hj hj' hy
  rw [← @keyAt_of_some _ key _ _ _ hy]
  exact hl j hj hj'

/-- The keys of a segment stay above a bound. -/
theorem le_key {key : α → Int} {l r : List α} {a b : Nat} {m : Int}
    (h : SegPerm l r a b) (hb : b < l.length)
    (hl : ∀ i, a ≤ i → i ≤ b → m ≤ keyAt key l i) :
    ∀ i, a ≤ i → i ≤ b → m ≤ keyAt key r i := by
  intro i hai hib
  have hir : i < r.length := by rw [h.length_eq]; omega
  have hx := List.getElem?_eq_getElem hir
  rw [keyAt_of_some hx]
  refine h.bound (fun x => m ≤ key x) ?_ i _ hai hib hx
  intro j y hj hj' hy
  rw [← @keyAt_of_some _ key _ _ _ hy]
  exact hl j hj hj'

end SegPerm

-- ============================================================= the cursors

/-- Move the left cursor past everything not above the pivot. -/
def scanUp (key : α → Int) (mjs : List α) (pivot : Int) (right : Nat)
    (left : Nat) : Nat :=
  if left ≤ right ∧ keyAt key mjs left ≤ pivot then
    scanUp key mjs pivot right (left + 1)
  else left
termination_by right + 1 - left

/-- Move the right cursor down past everything not below the pivot. -/
def scanDown (key : α → Int) (mjs : List α) (pivot : Int) (left : Nat) :
    Nat → Nat
  | 0 => 0
  | right + 1 =>
      if left ≤ right + 1 ∧ pivot ≤ keyAt key mjs (right + 1) then
        scanDown key mjs pivot left right
      else right + 1

theorem scanUp_spec (key : α → Int) (mjs : List α) (pivot : Int)
    (right left : Nat) (h : left ≤ right + 1) :
    left ≤ scanUp key mjs pivot right left
      ∧ scanUp key mjs pivot right left ≤ right + 1
      ∧ (∀ i, left ≤ i → i < scanUp key mjs pivot right left →
          keyAt key mjs i ≤ pivot)
      ∧ (scanUp key mjs pivot right left ≤ right →
          pivot < keyAt key mjs (scanUp key mjs pivot right left)) := by
  induction left using scanUp.induct key mjs pivot right with
  | case1 left hgo ih =>
      obtain ⟨h1, h2, h3, h4⟩ := ih (by omega)
      rw [scanUp, if_pos hgo]
      refine ⟨by omega, h2, fun i hi hlt => ?_, h4⟩
      by_cases hil : i = left
      · rw [hil]
        exact hgo.2
      · exact h3 i (by omega) hlt
  | case2 left hstop =>
      rw [scanUp, if_neg hstop]
      exact ⟨Nat.le_refl _, h, fun i hi hlt => by omega,
        fun hle => not_le.mp fun hk => hstop ⟨hle, hk⟩⟩

theorem scanDown_spec (key : α → Int) (mjs : List α) (pivot : Int)
    (left right : Nat) (hpos : 1 ≤ left) (h : left ≤ right + 1) :
    scanDown key mjs pivot left right ≤ right
      ∧ left ≤ scanDown key mjs pivot left right + 1
      ∧ (∀ i, scanDown key mjs pivot left right < i → i ≤ right →
          pivot ≤ keyAt key mjs i)
      ∧ (left ≤ scanDown key mjs pivot left right →
          keyAt key mjs (scanDown key mjs pivot left right) < pivot) := by
  induction right with
  | zero =>
      rw [scanDown]
      exact ⟨Nat.le_refl _, h, fun i hi hle => by omega, fun hle => by omega⟩
  | succ right ih =>
      rw [scanDown]
      split
      next hgo =>
        obtain ⟨h1, h2, h3, h4⟩ := ih (by omega)
        refine ⟨by omega, h2, fun i hi hle => ?_, h4⟩
        by_cases hir : i = right + 1
        · rw [hir]
          exact hgo.2
        · exact h3 i hi (by omega)
      next hstop =>
        exact ⟨Nat.le_refl _, h, fun i hi hle => by omega,
          fun hle => not_le.mp fun hk => hstop ⟨hle, hk⟩⟩

-- =========================================================== the partition

/-- The cursor loop: the array and the right cursor when the cursors
have crossed. The cursors never meet on one slot (its key would be both
above and below the pivot), so not being able to swap is having
crossed. -/
def partition (key : α → Int) (pivot : Int) :
    Nat → List α → Nat → Nat → List α × Nat
  | 0, mjs, _, right => (mjs, right)
  | fuel + 1, mjs, left, right =>
      if left ≤ right then
        let left' := scanUp key mjs pivot right left
        let right' := scanDown key mjs pivot left' right
        if left' < right' then
          partition key pivot fuel (swap mjs left' right') left' right'
        else (mjs, right')
      else (mjs, right)

/-- Rounds the cursor loop still needs: every round moves a cursor, but
for a first one that stands on a pair to be swapped. -/
def rounds (key : α → Int) (pivot : Int) (mjs : List α) (left right : Nat) :
    Nat :=
  right + 1 - left + if pivot < keyAt key mjs left then 1 else 0

/-- An exchange takes the cursor loop a round on. -/
theorem rounds_swap {key : α → Int} {pivot : Int} {mjs : List α}
    {left right left' right' : Nat} (hlen : right' < mjs.length) (hl : left ≤ left')
    (hr : right' ≤ right) (hlt : left' < right') (hup : pivot < keyAt key mjs left')
    (hdn : keyAt key mjs right' < pivot) :
    rounds key pivot (swap mjs left' right') left' right'
      < rounds key pivot mjs left right := by
  have hatl : keyAt key (swap mjs left' right') left' = keyAt key mjs right' := by
    rw [keyAt, swap_getElem? (by omega) hlen, if_neg (by omega), if_pos rfl]
    rfl
  unfold rounds
  rw [hatl, if_neg (by omega)]
  by_cases hll : left' = left
  · rw [← hll, if_pos hup]
    omega
  · omega

/-- What the cursor loop leaves: a rearrangement after `start`, split at
`mid` into keys not above and keys not below the pivot. -/
structure Split (key : α → Int) (pivot : Int) (mjs : List α)
    (start stop : Nat) (r : List α) (mid : Nat) : Prop where
  seg : SegPerm mjs r (start + 1) stop
  lo : start ≤ mid
  hi : mid ≤ stop
  below : ∀ i, start < i → i ≤ mid → keyAt key r i ≤ pivot
  above : ∀ i, mid < i → i ≤ stop → pivot ≤ keyAt key r i

theorem partition_split {key : α → Int} {pivot : Int} {start stop : Nat}
    (fuel : Nat) : ∀ (mjs : List α) (left right : Nat),
      rounds key pivot mjs left right ≤ fuel → stop < mjs.length →
      start < left → left ≤ right + 1 → right ≤ stop →
      (∀ i, start < i → i < left → keyAt key mjs i ≤ pivot) →
      (∀ i, right < i → i ≤ stop → pivot ≤ keyAt key mjs i) →
      Split key pivot mjs start stop
        (partition key pivot fuel mjs left right).1
        (partition key pivot fuel mjs left right).2 := by
  induction fuel with
  | zero =>
      intro mjs left right hfuel hlen hsl hlr hrs hbelow habove
      have hcross : right + 1 ≤ left := by
        unfold rounds at hfuel
        omega
      exact ⟨.refl _ _ _, by simp only [partition]; omega, hrs,
        fun i hi hle => hbelow i hi (by simp only [partition] at hle; omega),
        habove⟩
  | succ fuel ih =>
      intro mjs left right hfuel hlen hsl hlr hrs hbelow habove
      rw [partition]
      split
      case isFalse hcross =>
        exact ⟨.refl _ _ _, by show start ≤ right; omega, hrs,
          fun i hi (hle : i ≤ right) => hbelow i hi (by omega), habove⟩
      case isTrue hle =>
        dsimp only
        obtain ⟨u1, u2, u3, u4⟩ := scanUp_spec key mjs pivot right left hlr
        obtain ⟨d1, d2, d3, d4⟩ := scanDown_spec key mjs pivot
          (scanUp key mjs pivot right left) right (by omega) u2
        generalize scanUp key mjs pivot right left = left' at *
        generalize scanDown key mjs pivot left' right = right' at *
        have hbelow' : ∀ i, start < i → i < left' → keyAt key mjs i ≤ pivot := by
          intro i hi hlt
          by_cases hil : i < left
          · exact hbelow i hi hil
          · exact u3 i (by omega) hlt
        have habove' : ∀ i, right' < i → i ≤ stop →
            pivot ≤ keyAt key mjs i := by
          intro i hi hst
          by_cases hir : i ≤ right
          · exact d3 i hi hir
          · exact habove i (by omega) hst
        split
        case isTrue hlt =>
          -- the swapped pair: a key above the pivot goes right, one below left
          have hl' : left' < mjs.length := by omega
          have hr' : right' < mjs.length := by omega
          have hup : pivot < keyAt key mjs left' := u4 (by omega)
          have hdn : keyAt key mjs right' < pivot := d4 (by omega)
          have hswap := swap_getElem? hl' hr'
          have hseg : SegPerm mjs (swap mjs left' right') (start + 1) stop :=
            .swap hl' hr' (by omega) (by omega) (by omega) (by omega)
          have hrounds : rounds key pivot (swap mjs left' right') left' right'
              ≤ fuel :=
            Nat.le_of_lt_succ ((rounds_swap hr' u1 d1 hlt hup hdn).trans_le hfuel)
          have h := ih (swap mjs left' right') left' right' hrounds
            (by rw [length_swap]; exact hlen) (by omega) (by omega) (by omega)
            (by
              intro i hi hlt'
              rw [keyAt_congr (r := swap mjs left' right') (l := mjs)
                (i := i) (j := i) (by rw [hswap, if_neg (by omega), if_neg (by omega)])]
              exact hbelow' i hi hlt')
            (by
              intro i hi hst
              rw [keyAt_congr (r := swap mjs left' right') (l := mjs)
                (i := i) (j := i) (by rw [hswap, if_neg (by omega), if_neg (by omega)])]
              exact habove' i hi hst)
          exact ⟨hseg.trans h.seg, h.lo, h.hi, h.below, h.above⟩
        case isFalse hge =>
          have hne : left' ≠ right' := by
            rintro rfl
            have hup := u4 d1
            have hdn := d4 (Nat.le_refl _)
            omega
          exact ⟨.refl _ _ _, by show start ≤ right'; omega,
            by show right' ≤ stop; omega,
            fun i hi (hle' : i ≤ right') => hbelow' i hi (by omega), habove'⟩

/-- The right cursor ends inside the segment, whatever the array. -/
theorem partition_mid (key : α → Int) (pivot : Int) (fuel : Nat) :
    ∀ (mjs : List α) (left right : Nat), 1 ≤ left → left ≤ right + 1 →
      left ≤ (partition key pivot fuel mjs left right).2 + 1
        ∧ (partition key pivot fuel mjs left right).2 ≤ right := by
  induction fuel with
  | zero => intro mjs left right _ h; exact ⟨h, Nat.le_refl _⟩
  | succ fuel ih =>
      intro mjs left right hpos h
      rw [partition]
      split
      case isFalse hcross => exact ⟨h, Nat.le_refl _⟩
      case isTrue hle =>
        dsimp only
        obtain ⟨u1, u2, -, -⟩ := scanUp_spec key mjs pivot right left h
        obtain ⟨d1, d2, -, -⟩ := scanDown_spec key mjs pivot
          (scanUp key mjs pivot right left) right (by omega) u2
        split
        case isTrue hlt =>
          obtain ⟨h1, h2⟩ := ih (swap mjs (scanUp key mjs pivot right left)
            (scanDown key mjs pivot (scanUp key mjs pivot right left) right))
            _ _ (by omega) (Nat.le_succ_of_le (Nat.le_of_lt hlt))
          exact ⟨u1.trans h1, h2.trans d1⟩
        case isFalse hge => exact ⟨u1.trans d2, d1⟩

-- ================================================================ the sort

/-- Sort the segment `[start, stop]` of `mjs` by `key`. -/
def quickSort (key : α → Int) (mjs : List α) (start stop : Nat) : List α :=
  if stop ≤ start then mjs
  else
    let pivot := keyAt key mjs start
    let split := partition key pivot (stop + 1 - start) mjs (start + 1) stop
    let mid := split.2
    let mjs' := swap split.1 start mid
    let mjs'' := quickSort key mjs' start (mid - 1)
    quickSort key mjs'' (mid + 1) stop
termination_by stop + 1 - start
decreasing_by
  all_goals
    have := partition_mid key (keyAt key mjs start) (stop + 1 - start) mjs
      (start + 1) stop (by omega) (by omega)
    omega

/-- The keys of a segment do not decrease. -/
def Sorted (key : α → Int) (l : List α) (a b : Nat) : Prop :=
  ∀ i j, a ≤ i → i ≤ j → j ≤ b → keyAt key l i ≤ keyAt key l j

/-- The array between the partition and the recursive calls: the pivot
at `mid`, what is before it not above, what is after it not below. -/
theorem swap_split {key : α → Int} {mjs r : List α} {start stop mid : Nat}
    (hlen : stop < mjs.length) (hlt : start < stop)
    (h : Split key (keyAt key mjs start) mjs start stop r mid) :
    SegPerm mjs (swap r start mid) start stop
      ∧ keyAt key (swap r start mid) mid = keyAt key mjs start
      ∧ (∀ i, start ≤ i → i ≤ mid →
          keyAt key (swap r start mid) i ≤ keyAt key mjs start)
      ∧ (∀ i, mid ≤ i → i ≤ stop →
          keyAt key mjs start ≤ keyAt key (swap r start mid) i) := by
  have hlo := h.lo
  have hhi := h.hi
  have hrlen : r.length = mjs.length := h.seg.length_eq
  have hget := swap_getElem? (l := r) (i := start) (j := mid) (by omega) (by omega)
  have hpiv : keyAt key r start = keyAt key mjs start :=
    keyAt_congr (h.seg.outside start (by omega))
  have hmid : keyAt key (swap r start mid) mid = keyAt key mjs start := by
    rw [← hpiv]
    exact keyAt_congr (by rw [hget, if_pos rfl])
  refine ⟨?_, hmid, ?_, ?_⟩
  · exact (h.seg.widen (by omega) (Nat.le_refl _)).trans
      (.swap (by omega) (by omega) (by omega) (by omega) hlo hhi)
  · intro i hi hle
    by_cases him : i = mid
    · rw [him, hmid]
    · by_cases his : i = start
      · have hval : keyAt key (swap r start mid) i = keyAt key r mid :=
          keyAt_congr (by rw [hget, if_neg him, if_pos his])
        rw [hval]
        exact h.below mid (by omega) (Nat.le_refl _)
      · have hval : keyAt key (swap r start mid) i = keyAt key r i :=
          keyAt_congr (by rw [hget, if_neg him, if_neg his])
        rw [hval]
        exact h.below i (by omega) hle
  · intro i hi hle
    by_cases him : i = mid
    · rw [him, hmid]
    · have hval : keyAt key (swap r start mid) i = keyAt key r i :=
        keyAt_congr (by rw [hget, if_neg him, if_neg (by omega)])
      rw [hval]
      exact h.above i (by omega) hle

/-- The sort rearranges its segment only, and leaves it in order. -/
theorem quickSort_spec (key : α → Int) (mjs : List α) (start stop : Nat)
    (hlen : stop < mjs.length) :
    SegPerm mjs (quickSort key mjs start stop) start stop
      ∧ Sorted key (quickSort key mjs start stop) start stop := by
  induction mjs, start, stop using quickSort.induct key with
  | case1 mjs start stop hle =>
      rw [quickSort, if_pos hle]
      refine ⟨.refl _ _ _, fun i j hi hij hj => ?_⟩
      have hij' : i = j := by omega
      rw [hij']
  | case2 mjs start stop hgt pivot split mid mjs' mjs'' ih1 _ ih2 =>
      have hsplit : Split key pivot mjs start stop split.1 mid := by
        refine partition_split (stop + 1 - start) mjs (start + 1) stop ?_ hlen
          (by omega) (by omega) (Nat.le_refl _) (fun i h1 h2 => by omega)
          (fun i h1 h2 => by omega)
        unfold rounds
        split <;> omega
      obtain ⟨hseg, hpiv, hbelow, habove⟩ := swap_split hlen (by omega) hsplit
      have hlo := hsplit.lo
      have hhi := hsplit.hi
      have hlen' : mjs'.length = mjs.length := hseg.length_eq
      obtain ⟨hseg1, hsort1⟩ := ih1 (by omega)
      -- the left call leaves everything from the pivot on
      have hout1 : ∀ i, mid ≤ i → mjs''[i]? = mjs'[i]? := by
        intro i hi
        by_cases hms : mid = start
        · show (quickSort key mjs' start (mid - 1))[i]? = _
          rw [quickSort, if_pos (by omega)]
        · exact hseg1.outside i (Or.inr (by omega))
      have hlen'' : mjs''.length = mjs.length := by
        rw [← hlen']
        exact hseg1.length_eq
      obtain ⟨hseg2, hsort2⟩ := ih2 (by omega)
      have hout2 : ∀ i, i ≤ mid →
          (quickSort key mjs'' (mid + 1) stop)[i]? = mjs''[i]? :=
        fun i hi => hseg2.outside i (Or.inl (by omega))
      have hbelow1 : ∀ i, start ≤ i → i ≤ mid →
          keyAt key mjs'' i ≤ pivot := by
        intro i hi hle
        by_cases him : i = mid
        · rw [him, keyAt_congr (hout1 mid (Nat.le_refl _))]
          exact hbelow mid hlo (Nat.le_refl _)
        · exact hseg1.key_le (by omega)
            (fun j h1 h2 => hbelow j h1 (by omega)) i hi (by omega)
      have habove2 : ∀ i, mid < i → i ≤ stop →
          pivot ≤ keyAt key (quickSort key mjs'' (mid + 1) stop) i := by
        intro i hi hle
        refine hseg2.le_key (by omega) (fun j h1 h2 => ?_) i hi hle
        rw [keyAt_congr (hout1 j (by omega))]
        exact habove j (by omega) h2
      rw [quickSort, if_neg hgt]
      refine ⟨?_, ?_⟩
      · refine hseg.trans ((?_ : SegPerm mjs' mjs'' start stop).trans ?_)
        · exact hseg1.widen (Nat.le_refl _) (by omega)
        · exact hseg2.widen (by omega) (Nat.le_refl _)
      · intro i j hi hij hj
        by_cases hjm : j < mid
        · have h := hsort1 i j hi hij (by omega)
          show keyAt key (quickSort key mjs'' (mid + 1) stop) i
            ≤ keyAt key (quickSort key mjs'' (mid + 1) stop) j
          rw [keyAt_congr (hout2 i (by omega)), keyAt_congr (hout2 j (by omega))]
          exact h
        · by_cases him : i ≤ mid
          · have hl : keyAt key (quickSort key mjs'' (mid + 1) stop) i ≤ pivot := by
              rw [keyAt_congr (hout2 i him)]
              exact hbelow1 i hi him
            refine hl.trans ?_
            by_cases hjm' : j = mid
            · rw [hjm']
              show pivot ≤ keyAt key (quickSort key mjs'' (mid + 1) stop) mid
              rw [keyAt_congr (hout2 mid (Nat.le_refl _)),
                keyAt_congr (hout1 mid (Nat.le_refl _)), hpiv]
            · exact habove2 j (by omega) hj
          · exact hsort2 i j (by omega) hij hj

theorem quickSort_seg (key : α → Int) (mjs : List α) (start stop : Nat)
    (hlen : stop < mjs.length) :
    SegPerm mjs (quickSort key mjs start stop) start stop :=
  (quickSort_spec key mjs start stop hlen).1

/-- Sorting the first `n` slots of an array: they come out as a sorted
permutation of themselves, the rest stays. -/
theorem quickSort_prefix (key : α → Int) {h t : List α} {n : Nat}
    (hn : h.length = n + 1) :
    ∃ h', quickSort key (h ++ t) 0 n = h' ++ t ∧ h'.Perm h
      ∧ h'.Pairwise fun a b => key a ≤ key b := by
  obtain ⟨hseg, hsort⟩ := quickSort_spec key (h ++ t) 0 n
    (by rw [List.length_append]; omega)
  generalize quickSort key (h ++ t) 0 n = r at hseg hsort
  have hlen : r.length = (h ++ t).length := hseg.length_eq
  rw [List.length_append] at hlen
  have hdrop : r.drop (n + 1) = t := by
    apply List.ext_getElem?
    intro i
    rw [List.getElem?_drop, hseg.outside _ (Or.inr (by omega)),
      List.getElem?_append_right (by omega)]
    congr 1
    omega
  have hr : r.take (n + 1) ++ t = r := by
    rw [← hdrop, List.take_append_drop]
  refine ⟨r.take (n + 1), hr.symm, ?_, ?_⟩
  · have hperm := hseg.perm
    rw [← hr] at hperm
    exact (List.perm_append_right_iff t).mp hperm
  · rw [List.pairwise_iff_getElem]
    intro i j hi hj hij
    rw [List.length_take] at hi hj
    have h := hsort i j (Nat.zero_le _) (by omega) (by omega)
    rw [keyAt_of_some (List.getElem?_eq_getElem (by omega : i < r.length)),
      keyAt_of_some (List.getElem?_eq_getElem (by omega : j < r.length))] at h
    rw [List.getElem_take, List.getElem_take]
    exact h

-- ============================================================== naturality

section Naturality

variable {key : α → Int} {key' : β → Int} {f : α → β}

theorem keyAt_map (hkey : ∀ a, key' (f a) = key a) (l : List α) (i : Nat) :
    keyAt key' (l.map f) i = keyAt key l i := by
  unfold keyAt
  rw [List.getElem?_map]
  cases l[i]? with
  | none => rfl
  | some a => exact hkey a

theorem scanUp_map (hkey : ∀ a, key' (f a) = key a) (l : List α) (pivot : Int)
    (right left : Nat) :
    scanUp key' (l.map f) pivot right left = scanUp key l pivot right left := by
  induction left using scanUp.induct key l pivot right with
  | case1 left hgo ih =>
      rw [scanUp, scanUp.eq_def key, keyAt_map hkey, if_pos hgo, if_pos hgo, ih]
  | case2 left hstop =>
      rw [scanUp, scanUp.eq_def key, keyAt_map hkey, if_neg hstop, if_neg hstop]

theorem scanDown_map (hkey : ∀ a, key' (f a) = key a) (l : List α)
    (pivot : Int) (left right : Nat) :
    scanDown key' (l.map f) pivot left right
      = scanDown key l pivot left right := by
  induction right with
  | zero => rfl
  | succ right ih => rw [scanDown, scanDown, keyAt_map hkey, ih]

theorem partition_map (hkey : ∀ a, key' (f a) = key a) (pivot : Int)
    (fuel : Nat) : ∀ (l : List α) (left right : Nat),
      partition key' pivot fuel (l.map f) left right
        = ((partition key pivot fuel l left right).1.map f,
            (partition key pivot fuel l left right).2) := by
  induction fuel with
  | zero => intro l left right; rfl
  | succ fuel ih =>
      intro l left right
      simp only [partition, scanUp_map hkey, scanDown_map hkey, ← map_swap]
      split
      · split
        · exact ih _ _ _
        · rfl
      · rfl

/-- The sort looks at keys only: it commutes with any map that keeps
them. -/
theorem quickSort_map (hkey : ∀ a, key' (f a) = key a) (l : List α)
    (start stop : Nat) :
    quickSort key' (l.map f) start stop
      = (quickSort key l start stop).map f := by
  induction l, start, stop using quickSort.induct key with
  | case1 l start stop hle =>
      rw [quickSort, if_pos hle, quickSort, if_pos hle]
  | case2 l start stop hgt pivot split mid l' l'' ih1 _ ih2 =>
      rw [quickSort, if_neg hgt, quickSort.eq_def key, if_neg hgt]
      simp only [keyAt_map hkey, partition_map hkey, ← map_swap]
      refine Eq.trans ?_ ih2
      exact congrArg (fun m => quickSort key' m (mid + 1) stop) ih1

end Naturality

end QuickSort
