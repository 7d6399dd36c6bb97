/-
What the all-triplets loop of `point` counts.

The loop counts the places where three neighbouring tiles are equal, and
the places, from slots 1 and 2 on, where two neighbours are equal to the
last tile. In a sorted hand equal tiles are neighbours, so the first
count is one for every tile beyond the second of its kind (`surplus`),
the second one for every tile of the last tile's kind beyond the first,
slot 0 left out (`tripletStep_foldl`).

With the last tile in its place that is the surplus of all seventeen, but
one less if the last tile completes a triplet whose other two stand in
slots 0 and 1, and one more if it is a fourth copy from somewhere else
(`tripletCount_eq`). For five triplets and a pair that makes five, or four
in the first case (`tripletCount_of_allTriplets`). But any five kinds that
are there three times make five as well, whatever the other two tiles are
(`tripletCount_five_iff`).
-/
import Mahjong.Point

namespace Mahjong

open Packing

-- ========================================================= equal neighbours

/-- The places with three equal neighbours. -/
def threes : List Face → Nat
  | x :: y :: z :: rest => (if z = y ∧ z = x then 1 else 0) + threes (y :: z :: rest)
  | _ => 0

/-- The places with two neighbours equal to `l`. -/
def twos (l : Face) : List Face → Nat
  | y :: z :: rest => (if z = y ∧ z = l then 1 else 0) + twos l (z :: rest)
  | _ => 0

/-- The tiles beyond the second of their kind. -/
def surplus (M : Multiset Face) : Nat := ∑ f ∈ M.toFinset, (M.count f - 2)

/-- One tile more is a surplus if there are two already. -/
theorem surplus_cons (x : Face) (M : Multiset Face) :
    surplus (x ::ₘ M) = (if 2 ≤ M.count x then 1 else 0) + surplus M := by
  have hsame : ∀ f ∈ (insert x M.toFinset).erase x,
      (x ::ₘ M).count f - 2 = M.count f - 2 := by
    intro f hf
    rw [Multiset.count_cons_of_ne (Finset.ne_of_mem_erase hf)]
  have hwide : surplus M = ∑ f ∈ insert x M.toFinset, (M.count f - 2) := by
    apply Finset.sum_subset (Finset.subset_insert x M.toFinset)
    intro f _ hf
    rw [Multiset.mem_toFinset] at hf
    rw [Multiset.count_eq_zero_of_notMem hf, Nat.zero_sub]
  have hx := Finset.mem_insert_self x M.toFinset
  rw [hwide]
  unfold surplus
  rw [Multiset.toFinset_cons, ← Finset.add_sum_erase _ _ hx, ← Finset.add_sum_erase _ _ hx,
    Finset.sum_congr rfl hsame, Multiset.count_cons_self]
  split <;> omega

/-- What comes first and again later comes next. -/
theorem next_eq {x y : Face} {rest : List Face}
    (h : (x :: y :: rest).Pairwise FaceLe) (hx : x ∈ y :: rest) : y = x := by
  obtain ⟨hfirst, htail⟩ := List.pairwise_cons.mp h
  cases List.mem_cons.mp hx with
  | inl heq => exact heq.symm
  | inr hmem =>
      exact ((List.pairwise_cons.mp htail).1 x hmem).antisymm
        (hfirst y (List.mem_cons_self ..))

theorem twos_eq (l : Face) : ∀ {fs : List Face}, fs.Pairwise FaceLe →
    twos l fs = (fs : Multiset Face).count l - 1
  | [], _ => rfl
  | [x], _ => by
      have hle := Multiset.count_le_card l ([x] : List Face)
      rw [Multiset.coe_card, List.length_singleton] at hle
      unfold twos
      omega
  | x :: y :: rest, h => by
      have ih := twos_eq l (List.pairwise_cons.mp h).2
      rw [twos, ih, ← Multiset.cons_coe x, Multiset.count_cons]
      by_cases hx : l = x
      case pos =>
        subst hx
        rw [if_pos rfl]
        by_cases hmem : l ∈ y :: rest
        · have hy := next_eq h hmem
          have hpos := Multiset.count_pos.mpr (Multiset.mem_coe.mpr hmem)
          rw [if_pos ⟨hy, hy⟩]
          omega
        · have hy : ¬ y = l := fun he => hmem (he ▸ List.mem_cons_self ..)
          rw [Multiset.count_eq_zero.mpr hmem, if_neg fun he => hy he.1]
      case neg =>
        have hno : ¬ (y = x ∧ y = l) := fun he => hx (he.2.symm.trans he.1)
        rw [if_neg hno, if_neg hx, Nat.zero_add, Nat.add_zero]

theorem threes_eq : ∀ {fs : List Face}, fs.Pairwise FaceLe →
    threes fs = surplus (fs : Multiset Face)
  | [], _ => rfl
  | [x], _ => by
      rw [← Multiset.cons_coe, surplus_cons]
      rfl
  | [x, y], _ => by
      have hle := Multiset.count_le_card x ([y] : List Face)
      rw [Multiset.coe_card, List.length_singleton] at hle
      rw [← Multiset.cons_coe, surplus_cons, if_neg (by omega), ← Multiset.cons_coe,
        surplus_cons]
      rfl
  | x :: y :: z :: rest, h => by
      have htail := (List.pairwise_cons.mp h).2
      have ih := threes_eq htail
      rw [threes, ih, ← Multiset.cons_coe x, surplus_cons]
      congr 1
      by_cases htwo : 2 ≤ ((y :: z :: rest : List Face) : Multiset Face).count x
      · have hy := next_eq h (Multiset.mem_coe.mp (Multiset.count_pos.mp (by omega)))
        subst hy
        have hz : z = y := by
          apply next_eq htail
          rw [← Multiset.mem_coe, ← Multiset.count_pos]
          rw [← Multiset.cons_coe y, Multiset.count_cons_self] at htwo
          omega
        rw [if_pos ⟨hz, hz⟩, if_pos htwo]
      · rw [if_neg htwo, if_neg]
        intro he
        obtain ⟨hzy, hzx⟩ := he
        apply htwo
        rw [← hzy, ← hzx, ← Multiset.cons_coe, ← Multiset.cons_coe,
          Multiset.count_cons_self, Multiset.count_cons_self]
        omega

-- ================================================================== the loop

theorem mjsame_iff {a b : Mj} : mjsame a b = true ↔ a.face = b.face := by
  unfold mjsame
  rw [Bool.and_eq_true, beq_iff_eq, beq_iff_eq, Mj.face_eq_iff]

/-- One turn of the loop. -/
theorem tripletStep_eq (decks : List Mj) (last : Mj) (t k : Nat) :
    tripletStep decks last t (k + 2)
      = t + (if (decks.getD (k + 2) Mj.null).face = (decks.getD (k + 1) Mj.null).face
            ∧ (decks.getD (k + 2) Mj.null).face = (decks.getD k Mj.null).face then 1 else 0)
        + (if (decks.getD (k + 2) Mj.null).face = (decks.getD (k + 1) Mj.null).face
            ∧ (decks.getD (k + 2) Mj.null).face = last.face then 1 else 0) := by
  unfold tripletStep
  rw [show k + 2 - 1 = k + 1 by omega, show k + 2 - 2 = k by omega]
  simp only [Bool.and_eq_true, mjsame_iff]
  split <;> split <;> omega

theorem drop_faces {decks : List Mj} {k : Nat} (hk : k < decks.length) :
    (decks.map Mj.face).drop k
      = (decks.getD k Mj.null).face :: (decks.map Mj.face).drop (k + 1) := by
  have hk' : k < (decks.map Mj.face).length := by
    rw [List.length_map]
    exact hk
  rw [List.drop_eq_getElem_cons hk', List.getElem_map, List.getD_eq_getElem?_getD,
    List.getElem?_eq_getElem hk]
  rfl

/-- The loop from slot `k + 2` to the end. -/
theorem tripletStep_foldl (decks : List Mj) (last : Mj) (n : Nat) :
    ∀ k t : Nat, k + 2 + n = decks.length →
      (List.range' (k + 2) n).foldl (tripletStep decks last) t
        = t + threes ((decks.map Mj.face).drop k)
          + twos last.face ((decks.map Mj.face).drop (k + 1)) := by
  induction n with
  | zero =>
      intro k t hlen
      rw [drop_faces (by omega : k < decks.length), drop_faces (by omega : k + 1 < decks.length),
        List.drop_eq_nil_of_le (by rw [List.length_map]; omega)]
      rfl
  | succ n ih =>
      intro k t hlen
      have h := ih (k + 1) (tripletStep decks last t (k + 2)) (by omega)
      rw [show k + 1 + 1 = k + 2 from rfl] at h
      rw [List.range'_succ, List.foldl_cons, h, tripletStep_eq,
        drop_faces (by omega : k < decks.length),
        drop_faces (by omega : k + 1 < decks.length),
        drop_faces (by omega : k + 2 < decks.length), threes, twos]
      omega

/-- What the loop counts: the surplus of the hand, and the tiles of the last
tile's kind after slot 0, beyond the first. -/
def tripletCount (decks : List Mj) (last : Mj) : Nat :=
  surplus (faces decks) + ((faces (decks.drop 1)).count last.face - 1)

theorem tripletLoop_eq {decks : List Mj} (h : SortedHand decks) (last : Mj) (count : Int) :
    tripletLoop decks last count
      = if tripletCount decks last = 5 then count + 4 else count := by
  have hloop := tripletStep_foldl decks last 14 0 0 h.length.symm
  rw [List.drop_zero, threes_eq h.faces,
    twos_eq last.face (h.faces.sublist (List.drop_sublist _ _)), Nat.zero_add] at hloop
  unfold tripletLoop tripletCount
  rw [hloop, ← List.map_drop, Nat.zero_add]
  rfl

-- ============================================================ all triplets

/-- Five triplets and a pair. -/
def AllTriplets (T : Multiset Face) : Prop :=
  ∃ (pair : Face) (melds : Multiset Face),
    Covers (fun s => ∃ f : Face, s = {f, f, f}) 5 melds ∧ T = {pair, pair} + melds

/-- Triplets are three each of some kinds. -/
theorem covers_triplets {n : Nat} {melds : Multiset Face}
    (h : Covers (fun s => ∃ f : Face, s = {f, f, f}) n melds) :
    ∃ ts : Multiset Face, Multiset.card ts = n ∧ melds = 3 • ts := by
  obtain ⟨l, rfl, hl, rfl⟩ := h
  induction l with
  | nil => exact ⟨0, rfl, rfl⟩
  | cons s l ih =>
      obtain ⟨ts, hcard, hsum⟩ := ih fun t ht => hl t (List.mem_cons_of_mem _ ht)
      obtain ⟨f, rfl⟩ := hl s (List.mem_cons_self ..)
      refine ⟨f ::ₘ ts, by rw [Multiset.card_cons, hcard, List.length_cons], ?_⟩
      rw [List.sum_cons, hsum, ← Multiset.singleton_add, smul_add]
      rfl

/-- How many copies there are, and how large the surplus is. -/
theorem AllTriplets.counts {T : Multiset Face} (h : AllTriplets T)
    (hcopies : ∀ f, T.count f ≤ 4) :
    (∀ f ∈ T, T.count f = 2 ∨ T.count f = 3) ∧ surplus T = 5 := by
  obtain ⟨pair, melds, hmelds, rfl⟩ := h
  obtain ⟨ts, hcard, rfl⟩ := covers_triplets hmelds
  have hcount : ∀ f, ({pair, pair} + 3 • ts : Multiset Face).count f
      = (if f = pair then 2 else 0) + 3 * ts.count f := by
    intro f
    rw [Multiset.count_add, Multiset.count_nsmul]
    congr 1
    show Multiset.count f (pair ::ₘ pair ::ₘ 0) = _
    rw [Multiset.count_cons, Multiset.count_cons, Multiset.count_zero]
    split <;> rfl
  have hone : ∀ f, (if f = pair then 2 else 0) + 3 * ts.count f ≤ 4 := by
    intro f
    rw [← hcount]
    exact hcopies f
  constructor
  · intro f hf
    have hpos := Multiset.count_pos.mpr hf
    have hle := hone f
    rw [hcount] at hpos ⊢
    by_cases hpair : f = pair
    · rw [if_pos hpair] at hpos hle ⊢
      omega
    · rw [if_neg hpair] at hpos hle ⊢
      omega
  · have hsurplus : ∀ f, ({pair, pair} + 3 • ts : Multiset Face).count f - 2
        = ts.count f := by
      intro f
      have hle := hone f
      rw [hcount]
      by_cases hpair : f = pair
      · rw [if_pos hpair] at hle ⊢
        omega
      · rw [if_neg hpair] at hle ⊢
        omega
    unfold surplus
    rw [Finset.sum_congr rfl fun f _ => hsurplus f, Multiset.sum_count_eq_card, hcard]
    intro f hf
    rw [Multiset.mem_toFinset, Multiset.mem_add]
    exact Or.inr (Multiset.mem_nsmul.mpr ⟨by decide, hf⟩)

/-- The first two tiles of a hand are of the last tile's kind. -/
def BeginsWithPairOf (decks : List Mj) (last : Mj) : Prop :=
  (decks.getD 0 Mj.null).face = last.face ∧ (decks.getD 1 Mj.null).face = last.face

instance (decks : List Mj) (last : Mj) : Decidable (BeginsWithPairOf decks last) :=
  inferInstanceAs (Decidable (_ ∧ _))

/-- Slot 0 apart, the tiles of a kind. -/
theorem count_faces_drop {decks : List Mj} (h : SortedHand decks) (last : Mj) :
    (faces decks).count last.face
      = (if last.face = (decks.getD 0 Mj.null).face then 1 else 0)
        + (faces (decks.drop 1)).count last.face := by
  have hlen := h.length
  have hcons := drop_faces (by omega : 0 < decks.length)
  rw [List.drop_zero, ← List.map_drop] at hcons
  unfold faces
  rw [hcons, ← Multiset.cons_coe, Multiset.count_cons, add_comm]

/-- Slots 0 and 1 hold two of a kind if slot 0 holds one and another is
left. -/
theorem beginsWithPairOf_iff {decks : List Mj} (h : SortedHand decks) (last : Mj) :
    BeginsWithPairOf decks last
      ↔ (decks.getD 0 Mj.null).face = last.face
        ∧ 1 ≤ (faces (decks.drop 1)).count last.face := by
  have hlen := h.length
  have hfirst := drop_faces (by omega : 0 < decks.length)
  have hsecond := drop_faces (by omega : 1 < decks.length)
  have hsorted := h.faces
  rw [List.drop_zero, hsecond] at hfirst
  rw [hfirst] at hsorted
  have hmem : last.face ∈ faces (decks.drop 1)
      ↔ last.face ∈ (decks.getD 1 Mj.null).face :: (decks.map Mj.face).drop (1 + 1) := by
    unfold faces
    rw [Multiset.mem_coe, List.map_drop, hsecond]
  unfold BeginsWithPairOf
  rw [Nat.one_le_iff_ne_zero, ← Nat.pos_iff_ne_zero, Multiset.count_pos, hmem]
  constructor
  · intro hboth
    exact ⟨hboth.1, hboth.2 ▸ List.mem_cons_self ..⟩
  · intro hboth
    obtain ⟨hzero, hlater⟩ := hboth
    rw [hzero] at hsorted
    exact ⟨hzero, next_eq hsorted hlater⟩

/-- What the loop counts, told of all seventeen tiles. -/
theorem tripletCount_eq {decks : List Mj} (h : SortedHand decks) {last : Mj}
    (hcopies : (last.face ::ₘ faces decks).count last.face ≤ 4) :
    tripletCount decks last
        + (if (last.face ::ₘ faces decks).count last.face = 3 ∧ BeginsWithPairOf decks last
          then 1 else 0)
      = surplus (last.face ::ₘ faces decks)
        + (if (last.face ::ₘ faces decks).count last.face = 4 ∧ ¬ BeginsWithPairOf decks last
          then 1 else 0) := by
  have hdrop := count_faces_drop h last
  have hbegins := beginsWithPairOf_iff h last
  rw [Multiset.count_cons_self] at hcopies
  rw [surplus_cons, Multiset.count_cons_self]
  unfold tripletCount
  by_cases hzero : last.face = (decks.getD 0 Mj.null).face
  · rw [if_pos hzero] at hdrop
    by_cases hb : BeginsWithPairOf decks last
    · have hpos := (hbegins.mp hb).2
      simp only [hb, not_true_eq_false, and_true, and_false, if_false]
      split <;> split <;> omega
    · have hnone : ¬ 1 ≤ (faces (decks.drop 1)).count last.face :=
        fun hpos => hb (hbegins.mpr ⟨hzero.symm, hpos⟩)
      simp only [hb, not_false_eq_true, and_true, and_false, if_false]
      split <;> split <;> omega
  · have hb : ¬ BeginsWithPairOf decks last := fun hb => hzero hb.1.symm
    rw [if_neg hzero] at hdrop
    simp only [hb, not_false_eq_true, and_true, and_false, if_false]
    split <;> split <;> omega

/-- The last tile is there three times if there are two in front. -/
theorem three_le_of_beginsWithPairOf {decks : List Mj} (h : SortedHand decks) {last : Mj}
    (hb : BeginsWithPairOf decks last) : 3 ≤ (last.face ::ₘ faces decks).count last.face := by
  have hpos := (beginsWithPairOf_iff h last).mp hb
  have hdrop := count_faces_drop h last
  rw [if_pos hpos.1.symm] at hdrop
  rw [Multiset.count_cons_self]
  omega

/-- With at most three copies of the last tile. -/
theorem tripletCount_of_le {decks : List Mj} (h : SortedHand decks) {last : Mj}
    (hcopies : (last.face ::ₘ faces decks).count last.face ≤ 3) :
    tripletCount decks last + (if BeginsWithPairOf decks last then 1 else 0)
      = surplus (last.face ::ₘ faces decks) := by
  have hfour : (last.face ::ₘ faces decks).count last.face ≤ 4 := by omega
  have heq := tripletCount_eq h hfour
  by_cases hb : BeginsWithPairOf decks last
  · have hthree := three_le_of_beginsWithPairOf h hb
    simp only [hb, not_true_eq_false, and_true, and_false, if_false] at heq
    rw [if_pos (by omega)] at heq
    rw [if_pos hb]
    omega
  · simp only [hb, not_false_eq_true, and_true, and_false, if_false] at heq
    rw [if_neg (by omega)] at heq
    rw [if_neg hb]
    omega

/-- Five triplets and a pair make five, or four if the last tile completes
a triplet that begins the hand. -/
theorem tripletCount_of_allTriplets {decks : List Mj} (h : SortedHand decks) {last : Mj}
    (hcopies : ∀ f, (last.face ::ₘ faces decks).count f ≤ 4)
    (hall : AllTriplets (last.face ::ₘ faces decks)) :
    tripletCount decks last = if BeginsWithPairOf decks last then 4 else 5 := by
  obtain ⟨hcounts, hsurplus⟩ := hall.counts hcopies
  have hlast := hcounts last.face (Multiset.mem_cons_self ..)
  have hthree : (last.face ::ₘ faces decks).count last.face ≤ 3 := by omega
  have heq := tripletCount_of_le h hthree
  rw [hsurplus] at heq
  by_cases hb : BeginsWithPairOf decks last
  · rw [if_pos hb] at heq ⊢
    omega
  · rw [if_neg hb] at heq ⊢
    exact heq

/-- With at most three copies the surplus is the number of kinds there
three times. -/
theorem surplus_eq_card {M : Multiset Face} (h : ∀ f, M.count f ≤ 3) :
    surplus M = (M.toFinset.filter fun f => M.count f = 3).card := by
  rw [surplus, Finset.card_filter]
  refine Finset.sum_congr rfl fun f _ => ?_
  have hle := h f
  split <;> omega

/-- Three tiles of each kind in it. -/
theorem three_mul_surplus_le {M : Multiset Face} (h : ∀ f, M.count f ≤ 3) :
    3 * surplus M ≤ Multiset.card M := by
  rw [surplus, Finset.mul_sum, ← Multiset.toFinset_sum_count_eq]
  refine Finset.sum_le_sum fun f _ => ?_
  have hle := h f
  omega

/-- With at most three copies of a tile the bonus goes to any five kinds
that are there three times, if the hand does not begin with two of the
last tile's: at the two tiles left nobody looks. -/
theorem tripletCount_five_iff {decks : List Mj} (h : SortedHand decks) {last : Mj}
    (hcopies : ∀ f, (last.face ::ₘ faces decks).count f ≤ 3) :
    tripletCount decks last = 5
      ↔ ((last.face ::ₘ faces decks).toFinset.filter fun f =>
            (last.face ::ₘ faces decks).count f = 3).card = 5
        ∧ ¬ BeginsWithPairOf decks last := by
  have heq := tripletCount_of_le h (hcopies last.face)
  have hfew := three_mul_surplus_le hcopies
  have hcard : Multiset.card (last.face ::ₘ faces decks) = 17 := by
    rw [Multiset.card_cons, faces, Multiset.coe_card, List.length_map, h.length]
  rw [← surplus_eq_card hcopies]
  by_cases hb : BeginsWithPairOf decks last
  · rw [if_pos hb] at heq
    exact iff_of_false (by omega) fun hboth => hboth.2 hb
  · rw [if_neg hb] at heq
    exact ⟨fun hfive => ⟨by omega, hb⟩, fun hboth => by omega⟩

/-- The bonus is given to the hands of five triplets and a pair that do not
begin with two of the last tile's kind, and refused to the other hands
whose surplus, with the last tile's kind, does not make five. -/
theorem triplet_bonus_iff {decks : List Mj} (h : SortedHand decks) (last : Mj)
    (hcopies : ∀ f, (last.face ::ₘ faces decks).count f ≤ 4) (count : Int) :
    (tripletLoop decks last count = count + 4
        ↔ AllTriplets (last.face ::ₘ faces decks))
      ↔ (AllTriplets (last.face ::ₘ faces decks) → ¬ BeginsWithPairOf decks last)
        ∧ (¬ AllTriplets (last.face ::ₘ faces decks) →
          surplus (faces decks) + ((faces (decks.drop 1)).count last.face - 1) ≠ 5) := by
  have hbonus : tripletLoop decks last count = count + 4 ↔ tripletCount decks last = 5 := by
    rw [tripletLoop_eq h]
    by_cases hfive : tripletCount decks last = 5
    · simp [hfive]
    · rw [if_neg hfive]
      exact iff_of_false (by omega) hfive
  rw [hbonus]
  by_cases hall : AllTriplets (last.face ::ₘ faces decks)
  · have hcount := tripletCount_of_allTriplets h hcopies hall
    rw [hcount]
    by_cases hb : BeginsWithPairOf decks last
    · simp [hall, hb]
    · simp [hall, hb]
  · simp only [hall, iff_false, false_imp_iff, true_and, not_false_eq_true, true_imp_iff]
    rfl

/-- Triplets of 1, 2, 3, 7 and 9, and a 4. With a 5 for the last tile they
are four triplets, a pair of 3 and a run. -/
def fiveTriplets : List Mj :=
  [⟨1, 1, 0⟩, ⟨1, 1, 0⟩, ⟨1, 1, 0⟩, ⟨1, 2, 0⟩, ⟨1, 2, 0⟩, ⟨1, 2, 0⟩, ⟨1, 3, 0⟩, ⟨1, 3, 0⟩,
    ⟨1, 3, 0⟩, ⟨1, 4, 0⟩, ⟨1, 7, 0⟩, ⟨1, 7, 0⟩, ⟨1, 7, 0⟩, ⟨1, 9, 0⟩, ⟨1, 9, 0⟩, ⟨1, 9, 0⟩]

/-- Five triplets and half a pair get the bonus. -/
theorem triplet_bonus_iff_four :
    tripletLoop fiveTriplets ⟨1, 4, 0⟩ 0 = 4 := by
  have hall : AllTriplets ((1, 4) ::ₘ faces fiveTriplets) := by
    refine ⟨(1, 4), _, ⟨[{(1, 1), (1, 1), (1, 1)}, {(1, 2), (1, 2), (1, 2)},
      {(1, 3), (1, 3), (1, 3)}, {(1, 7), (1, 7), (1, 7)}, {(1, 9), (1, 9), (1, 9)}],
      rfl, ?_, rfl⟩, by decide +kernel⟩
    simp only [List.mem_cons, List.not_mem_nil, or_false, forall_eq_or_imp, forall_eq]
    exact ⟨⟨_, rfl⟩, ⟨_, rfl⟩, ⟨_, rfl⟩, ⟨_, rfl⟩, ⟨_, rfl⟩⟩
  have hsorted : SortedHand fiveTriplets := ⟨by decide, by decide⟩
  exact ((triplet_bonus_iff hsorted ⟨1, 4, 0⟩ (count_le_of_mem (by decide +kernel)) 0).mpr
      ⟨fun _ => by decide, fun hno => absurd hall hno⟩).mpr hall

/-- Triplets of 2, 3, 7 and 9 behind two 1, and a pair of 4. -/
def pairInFront : List Mj :=
  [⟨1, 1, 0⟩, ⟨1, 1, 0⟩, ⟨1, 2, 0⟩, ⟨1, 2, 0⟩, ⟨1, 2, 0⟩, ⟨1, 3, 0⟩, ⟨1, 3, 0⟩, ⟨1, 3, 0⟩,
    ⟨1, 4, 0⟩, ⟨1, 4, 0⟩, ⟨1, 7, 0⟩, ⟨1, 7, 0⟩, ⟨1, 7, 0⟩, ⟨1, 9, 0⟩, ⟨1, 9, 0⟩, ⟨1, 9, 0⟩]

/-- The bonus is missed when the last tile completes the triplet in front,
and given for four triplets and a run. -/
theorem triplet_bonus_wrong :
    (SortedHand pairInFront ∧ Complete 5 ((1, 1) ::ₘ faces pairInFront)
        ∧ (∀ f, ((1, 1) ::ₘ faces pairInFront).count f ≤ 4)
        ∧ AllTriplets ((1, 1) ::ₘ faces pairInFront)
        ∧ tripletLoop pairInFront ⟨1, 1, 0⟩ 0 = 0)
      ∧ SortedHand fiveTriplets ∧ Complete 5 ((1, 5) ::ₘ faces fiveTriplets)
        ∧ (∀ f, ((1, 5) ::ₘ faces fiveTriplets).count f ≤ 4)
        ∧ ¬ AllTriplets ((1, 5) ::ₘ faces fiveTriplets)
        ∧ tripletLoop fiveTriplets ⟨1, 5, 0⟩ 0 = 4 := by
  have hcopies : ∀ f, ((1, 5) ::ₘ faces fiveTriplets).count f ≤ 4 :=
    count_le_of_mem (by decide +kernel)
  refine ⟨⟨⟨by decide, by decide⟩, ?_, count_le_of_mem (by decide +kernel), ?_, by decide⟩,
    ⟨by decide, by decide⟩, ?_, hcopies, ?_, by decide⟩
  · refine ⟨(1, 4), _, ⟨[{(1, 1), (1, 1), (1, 1)}, {(1, 2), (1, 2), (1, 2)},
      {(1, 3), (1, 3), (1, 3)}, {(1, 7), (1, 7), (1, 7)}, {(1, 9), (1, 9), (1, 9)}],
      rfl, ?_, rfl⟩, by decide +kernel⟩
    simp only [List.mem_cons, List.not_mem_nil, or_false, forall_eq_or_imp, forall_eq]
    exact ⟨.triplet _, .triplet _, .triplet _, .triplet _, .triplet _⟩
  · refine ⟨(1, 4), _, ⟨[{(1, 1), (1, 1), (1, 1)}, {(1, 2), (1, 2), (1, 2)},
      {(1, 3), (1, 3), (1, 3)}, {(1, 7), (1, 7), (1, 7)}, {(1, 9), (1, 9), (1, 9)}],
      rfl, ?_, rfl⟩, by decide +kernel⟩
    simp only [List.mem_cons, List.not_mem_nil, or_false, forall_eq_or_imp, forall_eq]
    exact ⟨⟨_, rfl⟩, ⟨_, rfl⟩, ⟨_, rfl⟩, ⟨_, rfl⟩, ⟨_, rfl⟩⟩
  · refine ⟨(1, 3), _, ⟨[{(1, 1), (1, 1), (1, 1)}, {(1, 2), (1, 2), (1, 2)},
      {(1, 3), (1, 4), (1, 5)}, {(1, 7), (1, 7), (1, 7)}, {(1, 9), (1, 9), (1, 9)}],
      rfl, ?_, rfl⟩, by decide +kernel⟩
    simp only [List.mem_cons, List.not_mem_nil, or_false, forall_eq_or_imp, forall_eq]
    exact ⟨.triplet _, .triplet _, .run 1 3 (by decide) (by decide), .triplet _, .triplet _⟩
  · -- there is one 5 only
    intro hall
    have hfive := (hall.counts hcopies).1 (1, 5) (Multiset.mem_cons_self ..)
    revert hfive
    decide +kernel

end Mahjong
