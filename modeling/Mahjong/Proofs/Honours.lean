/-
What the honour loops of `point` count, and when it depends on the last
tile.

# The argument

The loops look at the faces of slots 2 to 15 only (`honourLoop_eq`), and a
tile that is not one of theirs resets their state (`runHonours_skip`).
The faces of a sorted hand are its suit tiles, then its winds, then its
dragons, each kind one block (`SortedHand.blocks`). So the dragon loop sees
the dragon blocks, and the wind loop sees the wind blocks, less as many
tiles as there are suit tiles wanting to fill slots 0 and 1.

In a complete hand of at most four copies an honour has none, two or three
copies, and only one kind has two. That leaves few cases, which are gone
through: dragons are always counted right (`dragons_table`), winds depend on
the last tile unless there is no triplet of them or a pair before all of
them (`winds_table`); when there are no suit tiles at all they do whatever
the hand (`bare_table`).
-/
import Mahjong.Point

namespace Mahjong

open Packing

-- ======================================================== the loops over faces

/-- A tile with a face; the loops look no further. -/
def tileOf (f : Face) : Mj := ⟨f.1, f.2, 0⟩

/-- An honour with a number that the loop over `lo..hi` is about. -/
def Mine (lo hi : Int) (f : Face) : Prop := f.1 = dazi ∧ f.2 ≥ lo ∧ f.2 ≤ hi

instance (lo hi : Int) (f : Face) : Decidable (Mine lo hi f) :=
  inferInstanceAs (Decidable (_ ∧ _))

/-- A loop over honours on a stretch of faces. -/
def runHonours (lo hi : Int) (two three : Int → Int) (last : Mj) (s : Int × Nat)
    (fs : List Face) : Int × Nat :=
  fs.foldl (fun s f => honourStep lo hi two three last s (tileOf f)) s

/-- A loop over the slots from `a` on is a loop over what they hold. -/
theorem foldl_slots {σ : Type} (f : σ → Mj → σ) (decks : List Mj) (a : Nat) (s : σ) :
    (List.range' a (decks.length - a)).foldl (fun s i => f s (decks.getD i Mj.null)) s
      = (decks.drop a).foldl f s := by
  have hslots : (List.range' a (decks.length - a)).map (fun i => decks.getD i Mj.null)
      = decks.drop a := by
    apply List.ext_getElem
    · simp
    · intro i hi hi'
      rw [List.length_drop] at hi'
      rw [List.getElem_map, List.getElem_range', List.getElem_drop, Nat.one_mul,
        List.getD_eq_getElem?_getD, List.getElem?_eq_getElem (by omega)]
      rfl
  rw [← hslots, List.foldl_map]

section Runs

variable {lo hi : Int} {two three : Int → Int} {last : Mj}

theorem honourLoop_eq {decks : List Mj} (hlen : decks.length = 16) (count : Int) :
    honourLoop lo hi two three decks last count
      = (runHonours lo hi two three last (count, 0) ((decks.map Mj.face).drop 2)).1 := by
  have h := foldl_slots (honourStep lo hi two three last) decks 2 (count, 0)
  rw [hlen] at h
  unfold honourLoop runHonours
  rw [h, ← List.map_drop, List.foldl_map]
  rfl

theorem runHonours_append (s : Int × Nat) (l r : List Face) :
    runHonours lo hi two three last s (l ++ r)
      = runHonours lo hi two three last (runHonours lo hi two three last s l) r :=
  List.foldl_append ..

/-- A tile of another kind resets the state. -/
theorem honourStep_other {f : Face} (h : ¬ Mine lo hi f) (s : Int × Nat) :
    honourStep lo hi two three last s (tileOf f) = (s.1, 0) := by
  have h' : ¬ ((tileOf f).type = dazi ∧ (tileOf f).number ≥ lo ∧ (tileOf f).number ≤ hi) := h
  unfold honourStep
  simp only [if_neg h', OfNat.zero_ne_ofNat, false_and, if_false]

/-- Other tiles leave the count. -/
theorem runHonours_skip {fs : List Face} (h : ∀ f ∈ fs, ¬ Mine lo hi f) :
    ∀ s : Int × Nat, (runHonours lo hi two three last s fs).1 = s.1
      ∧ (s.2 = 0 → (runHonours lo hi two three last s fs).2 = 0) := by
  induction fs with
  | nil => exact fun s => ⟨rfl, id⟩
  | cons f fs ih =>
      intro s
      have ih := ih (fun g hg => h g (List.mem_cons_of_mem _ hg)) (s.1, 0)
      have hstep : honourStep lo hi two three last s (tileOf f) = (s.1, 0) :=
        honourStep_other (h f (List.mem_cons_self ..)) s
      unfold runHonours at ih ⊢
      rw [List.foldl_cons, hstep]
      exact ⟨ih.1, fun _ => ih.2 rfl⟩

/-- What was counted before does not matter. -/
theorem honourStep_add (c k : Int) (t : Nat) (m : Mj) :
    honourStep lo hi two three last (c + k, t) m
      = ((honourStep lo hi two three last (c, t) m).1 + k,
          (honourStep lo hi two three last (c, t) m).2) := by
  unfold honourStep
  dsimp only
  generalize (if m.type = dazi ∧ m.number ≥ lo ∧ m.number ≤ hi then t + 1 else 0) = t'
  by_cases h2 : t' = 2 ∧ last.type = dazi ∧ last.number = m.number
  · rw [if_pos h2, if_pos h2]
    simp only [OfNat.zero_ne_ofNat, if_false, Prod.mk.injEq, and_true]
    ring
  · rw [if_neg h2, if_neg h2]
    dsimp only
    by_cases h3 : t' = 3
    · rw [if_pos h3, if_pos h3]
      simp only [Prod.mk.injEq, and_true]
      ring
    · rw [if_neg h3, if_neg h3]

theorem runHonours_add (k : Int) (fs : List Face) : ∀ (c : Int) (t : Nat),
    runHonours lo hi two three last (c + k, t) fs
      = ((runHonours lo hi two three last (c, t) fs).1 + k,
          (runHonours lo hi two three last (c, t) fs).2) := by
  induction fs with
  | nil => exact fun c t => rfl
  | cons f fs ih =>
      intro c t
      have hstep : honourStep lo hi two three last (c + k, t) (tileOf f) = _ :=
        honourStep_add c k t (tileOf f)
      unfold runHonours at ih ⊢
      rw [List.foldl_cons, List.foldl_cons, hstep, ih]

theorem honourLoop_add {decks : List Mj} (hlen : decks.length = 16) (count : Int) :
    honourLoop lo hi two three decks last count
      = honourLoop lo hi two three decks last 0 + count := by
  have h : runHonours lo hi two three last (0 + count, 0) ((decks.map Mj.face).drop 2)
      = _ := runHonours_add count _ 0 0
  rw [zero_add] at h
  rw [honourLoop_eq hlen, honourLoop_eq hlen, h]

/-- Only what is said about their own numbers matters to the loops. -/
theorem honourStep_congr {two' three' : Int → Int} {last' : Mj}
    (h2 : ∀ n, lo ≤ n → n ≤ hi → two n = two' n)
    (h3 : ∀ n, lo ≤ n → n ≤ hi → three n = three' n)
    (hlast : ∀ n, lo ≤ n → n ≤ hi → (last.type = dazi ∧ last.number = n
      ↔ last'.type = dazi ∧ last'.number = n)) (s : Int × Nat) (f : Face) :
    honourStep lo hi two three last s (tileOf f)
      = honourStep lo hi two' three' last' s (tileOf f) := by
  by_cases hf : Mine lo hi f
  case pos =>
    obtain ⟨htype, hlo, hhi⟩ := hf
    unfold honourStep
    simp only [tileOf, htype, hlo, hhi, and_self, if_true, h2 f.2 hlo hhi, h3 f.2 hlo hhi,
      hlast f.2 hlo hhi]
  case neg => rw [honourStep_other hf, honourStep_other hf]

theorem runHonours_congr {two' three' : Int → Int} {last' : Mj}
    (h2 : ∀ n, lo ≤ n → n ≤ hi → two n = two' n)
    (h3 : ∀ n, lo ≤ n → n ≤ hi → three n = three' n)
    (hlast : ∀ n, lo ≤ n → n ≤ hi → (last.type = dazi ∧ last.number = n
      ↔ last'.type = dazi ∧ last'.number = n)) (s : Int × Nat) (fs : List Face) :
    runHonours lo hi two three last s fs = runHonours lo hi two' three' last' s fs := by
  unfold runHonours
  congr 1
  funext s f
  exact honourStep_congr h2 h3 hlast s f

end Runs

-- ========================================================== a sorted hand's faces

abbrev winds : List Int := [1, 2, 3, 4]
abbrev dragons : List Int := [5, 6, 7]

/-- One block for each number, of as many copies as `c` says. -/
def blocks (ns : List Int) (c : Int → Nat) : List Face :=
  ns.flatMap fun n => List.replicate (c n) (dazi, n)

theorem blocks_congr {ns : List Int} {c c' : Int → Nat} (h : ∀ n ∈ ns, c n = c' n) :
    blocks ns c = blocks ns c' := by
  unfold blocks
  rw [List.flatMap_def, List.flatMap_def]
  congr 1
  apply List.map_congr_left
  intro n hn
  rw [h n hn]

theorem mem_blocks {ns : List Int} {c : Int → Nat} {f : Face} (h : f ∈ blocks ns c) :
    ∃ n ∈ ns, f = (dazi, n) := by
  obtain ⟨n, hn, hf⟩ := List.mem_flatMap.mp h
  exact ⟨n, hn, List.eq_of_mem_replicate hf⟩

theorem count_blocks {ns : List Int} (hns : ns.Nodup) (c : Int → Nat) (n : Int) :
    (blocks ns c).count (dazi, n) = if n ∈ ns then c n else 0 := by
  unfold blocks
  induction ns with
  | nil => rfl
  | cons k ns ih =>
      obtain ⟨hk, hns⟩ := List.nodup_cons.mp hns
      rw [List.flatMap_cons, List.count_append, List.count_replicate, ih hns]
      by_cases hkn : k = n
      · subst hkn
        simp [hk]
      · simp [hkn, Ne.symm hkn]

theorem length_blocks (ns : List Int) (c : Int → Nat) :
    (blocks ns c).length = (ns.map c).sum := by
  simp [blocks, List.length_flatMap]

/-- The faces of a hand that are no honours. -/
def suitFaces (decks : List Mj) : List Face :=
  (decks.map Mj.face).filter fun f => f.1 ≠ dazi

/-- How often a hand has the honour `n`. -/
def honourCount (decks : List Mj) (n : Int) : Nat :=
  (decks.map Mj.face).count (dazi, n)

/-- A sorted hand is its suits, its winds and its dragons, the honours in
blocks. -/
theorem SortedHand.blocks {decks : List Mj} (h : SortedHand decks)
    (hreal : ∀ m ∈ decks, m.Real) :
    decks.map Mj.face = suitFaces decks
      ++ (blocks winds (honourCount decks) ++ blocks dragons (honourCount decks)) := by
  have hfaces : ∀ f ∈ decks.map Mj.face, f.1 ≤ 4 ∧ (f.1 = 4 → 1 ≤ f.2 ∧ f.2 ≤ 7) := by
    intro f hf
    obtain ⟨m, hm, rfl⟩ := List.mem_map.mp hf
    have hr := hreal m hm
    unfold Mj.Real at hr
    simp only [Mj.face]
    omega
  have hsorted := h.faces
  have hall : Mahjong.blocks winds (honourCount decks)
      ++ Mahjong.blocks dragons (honourCount decks)
      = Mahjong.blocks [1, 2, 3, 4, 5, 6, 7] (honourCount decks) := by
    unfold Mahjong.blocks
    rw [← List.flatMap_append]
    rfl
  rw [hall]
  have hantisymm : ∀ a b : Face, a ∈ decks.map Mj.face →
      b ∈ suitFaces decks ++ Mahjong.blocks [1, 2, 3, 4, 5, 6, 7] (honourCount decks) →
      FaceLe a b → FaceLe b a → a = b := fun a b _ _ => FaceLe.antisymm
  apply List.Perm.eq_of_pairwise hantisymm
  · exact hsorted
  · rw [List.pairwise_append]
    refine ⟨hsorted.sublist List.filter_sublist, ?_, ?_⟩
    · unfold Mahjong.blocks
      rw [List.pairwise_flatMap]
      constructor
      · intro n _
        rw [List.pairwise_replicate]
        exact Or.inr (Or.inr ⟨rfl, le_rfl⟩)
      · have hnumbers : [(1 : Int), 2, 3, 4, 5, 6, 7].Pairwise (· < ·) := by decide
        apply hnumbers.imp
        intro n n' hlt f hf f' hf'
        rw [List.eq_of_mem_replicate hf, List.eq_of_mem_replicate hf']
        exact Or.inr ⟨rfl, hlt.le⟩
    · intro f hf f' hf'
      obtain ⟨n, -, rfl⟩ := mem_blocks hf'
      obtain ⟨hmem, hne⟩ := List.mem_filter.mp hf
      have hle := (hfaces f hmem).1
      simp only [ne_eq, decide_eq_true_eq] at hne
      exact Or.inl (lt_of_le_of_ne hle hne)
  · rw [List.perm_iff_count]
    intro f
    rw [List.count_append]
    by_cases hf : f.1 = dazi
    case pos =>
      obtain ⟨t, n⟩ := f
      obtain rfl : t = dazi := hf
      have hsuit : (suitFaces decks).count (dazi, n) = 0 := by
        rw [List.count_eq_zero]
        intro hmem
        have := (List.mem_filter.mp hmem).2
        simp at this
      rw [hsuit, zero_add, count_blocks (by decide)]
      by_cases hn : n ∈ [(1 : Int), 2, 3, 4, 5, 6, 7]
      · rw [if_pos hn]
        rfl
      · rw [if_neg hn, List.count_eq_zero]
        intro hmem
        have hrange := (hfaces _ hmem).2 rfl
        simp only [List.mem_cons, List.not_mem_nil, or_false] at hn
        omega
    case neg =>
      have hhonour : (Mahjong.blocks [1, 2, 3, 4, 5, 6, 7] (honourCount decks)).count f
          = 0 := by
        rw [List.count_eq_zero]
        intro hmem
        obtain ⟨n, -, rfl⟩ := mem_blocks hmem
        exact hf rfl
      rw [hhonour, add_zero, suitFaces, List.count_filter]
      simpa using hf

-- ================================================================ the scores

/-- The dragon loop on blocks of dragons. -/
def dragonScore (last : Face) (c : Int → Nat) : Int :=
  (runHonours 5 7 (fun _ => 1) (fun _ => 1) (tileOf last) (0, 0) (blocks dragons c)).1

/-- The wind loop on blocks of winds of which it does not see the first
`skip` tiles. -/
def windScore (doorwind : Int) (last : Face) (skip : Nat) (c : Int → Nat) : Int :=
  (runHonours 1 4 (windPoint doorwind) (fun n => windPoint doorwind n + 1) (tileOf last)
    (0, 0) ((blocks winds c).drop skip)).1

section Scores

variable {decks : List Mj} (last : Mj)

theorem not_mine_suit {lo hi : Int} {f : Face} (hf : f ∈ suitFaces decks) :
    ¬ Mine lo hi f := by
  intro hmine
  have hne := (List.mem_filter.mp hf).2
  simp only [ne_eq, decide_eq_true_eq] at hne
  exact hne hmine.1

theorem not_mine_dragon {c : Int → Nat} {f : Face} (hf : f ∈ blocks dragons c) :
    ¬ Mine 1 4 f := by
  intro hmine
  obtain ⟨n, hn, rfl⟩ := mem_blocks hf
  have hle : n ≤ 4 := hmine.2.2
  simp only [List.mem_cons, List.not_mem_nil, or_false] at hn
  omega

theorem not_mine_wind {c : Int → Nat} {f : Face} (hf : f ∈ blocks winds c) :
    ¬ Mine 5 7 f := by
  intro hmine
  obtain ⟨n, hn, rfl⟩ := mem_blocks hf
  have hle : n ≥ 5 := hmine.2.1
  simp only [List.mem_cons, List.not_mem_nil, or_false] at hn
  omega

/-- The wind loop misses the winds in slots 0 and 1. -/
theorem windLoop_eq (h : SortedHand decks) (hreal : ∀ m ∈ decks, m.Real)
    (doorwind : Int) :
    windLoop decks last doorwind 0
      = windScore doorwind last.face (2 - (suitFaces decks).length)
        (honourCount decks) := by
  unfold windLoop windScore
  rw [honourLoop_eq h.length, h.blocks hreal, List.drop_append, List.drop_append,
    runHonours_append, runHonours_append]
  have hstart : runHonours 1 4 (windPoint doorwind) (fun n => windPoint doorwind n + 1) last
      (0, 0) ((suitFaces decks).drop 2) = (0, 0) := by
    have hskip : ∀ f ∈ (suitFaces decks).drop 2, ¬ Mine 1 4 f :=
      fun f hf => not_mine_suit (List.mem_of_mem_drop hf)
    exact Prod.ext (runHonours_skip hskip _).1 ((runHonours_skip hskip _).2 rfl)
  rw [(runHonours_skip (fun f hf => not_mine_dragon (List.mem_of_mem_drop hf)) _).1, hstart]
  congr 1

/-- Dragons come late enough to be seen. -/
theorem dragonLoop_eq (h : SortedHand decks) (hreal : ∀ m ∈ decks, m.Real)
    (hfew : 2 ≤ (suitFaces decks).length
      + (blocks winds (honourCount decks)).length) :
    dragonLoop decks last 0 = dragonScore last.face (honourCount decks) := by
  have hskip : ∀ f ∈ (suitFaces decks ++ blocks winds (honourCount decks)).drop 2,
      ¬ Mine 5 7 f := by
    intro f hf
    cases List.mem_append.mp (List.mem_of_mem_drop hf) with
    | inl hs => exact not_mine_suit hs
    | inr hw => exact not_mine_wind hw
  unfold dragonLoop dragonScore
  rw [honourLoop_eq h.length, h.blocks hreal, ← List.append_assoc,
    List.drop_append_of_le_length (by rw [List.length_append]; exact hfew),
    runHonours_append]
  have hstart : runHonours 5 7 (fun _ => 1) (fun _ => 1) last (0, 0)
      ((suitFaces decks ++ blocks winds (honourCount decks)).drop 2) = (0, 0) :=
    Prod.ext (runHonours_skip hskip _).1 ((runHonours_skip hskip _).2 rfl)
  rw [hstart]
  rfl

end Scores

-- ================================================================ all the cases

/-- All lists of `k` counts of 0, 2 or 3. -/
def hands : Nat → List (List Nat)
  | 0 => [[]]
  | k + 1 => (hands k).flatMap fun v => [0 :: v, 2 :: v, 3 :: v]

theorem mem_hands {v : List Nat} (h : ∀ x ∈ v, x = 0 ∨ x = 2 ∨ x = 3) :
    v ∈ hands v.length := by
  induction v with
  | nil => exact List.mem_singleton_self _
  | cons x v ih =>
      have hx := h x (List.mem_cons_self ..)
      rw [List.length_cons, hands, List.mem_flatMap]
      refine ⟨v, ih fun y hy => h y (List.mem_cons_of_mem _ hy), ?_⟩
      simpa using hx

/-- The counts of the honours numbered from `first` on. -/
def countsFrom (first : Int) (v : List Nat) (n : Int) : Nat := v.getD (n - first).toNat 0

/-- One `n` less. -/
def less (c : Int → Nat) (n : Int) : Int → Nat := Function.update c n (c n - 1)

/-- The winds' score does not depend on the last tile: there is no triplet,
or a pair that comes before all of them. -/
def Steady (c : Int → Nat) : Prop :=
  (∀ n ∈ winds, c n ≠ 3) ∨ ∃ p ∈ winds, c p = 2 ∧ ∀ n ∈ winds, c n = 3 → p < n

instance (c : Int → Nat) : Decidable (Steady c) :=
  inferInstanceAs (Decidable (_ ∨ _))

/-- The number of triplets of dragons. -/
def dragonTriplets (c : Int → Nat) : Int := (dragons.countP fun n => c n = 3 : Nat)

/-- Dragons are counted right, whichever tile is last. -/
theorem dragons_table : ∀ v ∈ hands 3, v.count 2 ≤ 1 →
    dragonScore (0, 0) (countsFrom 5 v) = dragonTriplets (countsFrom 5 v)
      ∧ ∀ n ∈ dragons, countsFrom 5 v n ≠ 0 →
        dragonScore (dazi, n) (less (countsFrom 5 v) n) = dragonTriplets (countsFrom 5 v) := by
  decide +kernel

/-- Winds out of slots 0 and 1, the last tile one of them or not. -/
theorem winds_table : ∀ v ∈ hands 4, v.count 2 ≤ 1 → ∀ doorwind ∈ [(0 : Int), 1, 2, 3, 4],
    ((∀ n ∈ winds, countsFrom 1 v n ≠ 0 →
        windScore doorwind (dazi, n) 0 (less (countsFrom 1 v) n)
          = windScore doorwind (0, 0) 0 (countsFrom 1 v))
      ↔ Steady (countsFrom 1 v)) := by
  decide +kernel

/-- Without suit tiles two winds are not seen, and then the last tile
matters. -/
theorem bare_table : ∀ v ∈ hands 4, v.count 2 ≤ 1 → 8 ≤ v.sum →
    ∀ doorwind ∈ [(0 : Int), 1, 2, 3, 4],
      ∃ n ∈ winds, countsFrom 1 v n ≠ 0 ∧
        windScore doorwind (dazi, n) 2 (less (countsFrom 1 v) n)
          ≠ windScore doorwind (0, 0) 2 (countsFrom 1 v) := by
  decide +kernel

-- ====================================================== scores from the tables

/-- A number that is a wind's, or zero. -/
def asWind (n : Int) : Int := if 1 ≤ n ∧ n ≤ 4 then n else 0

/-- A face, if it is the loop's, or the null face. -/
def asMine (lo hi : Int) (f : Face) : Face := if Mine lo hi f then f else (0, 0)

theorem asWind_mem (n : Int) : asWind n ∈ [(0 : Int), 1, 2, 3, 4] := by
  unfold asWind
  simp only [List.mem_cons, List.not_mem_nil, or_false]
  split <;> omega

theorem asMine_last (lo hi : Int) (f : Face) (n : Int) (hlo : lo ≤ n) (hhi : n ≤ hi) :
    ((tileOf f).type = dazi ∧ (tileOf f).number = n)
      ↔ ((tileOf (asMine lo hi f)).type = dazi ∧ (tileOf (asMine lo hi f)).number = n) := by
  unfold asMine
  by_cases hf : Mine lo hi f
  · rw [if_pos hf]
  · rw [if_neg hf]
    refine iff_of_false ?_ (fun h => absurd h.1 (by decide))
    intro h
    obtain ⟨htype, rfl⟩ := h
    exact hf ⟨htype, hlo, hhi⟩

theorem counts_map_winds (c : Int → Nat) : ∀ n ∈ winds, countsFrom 1 (winds.map c) n = c n := by
  simp [countsFrom]

theorem counts_map_dragons (c : Int → Nat) :
    ∀ n ∈ dragons, countsFrom 5 (dragons.map c) n = c n := by
  simp [countsFrom]

theorem less_congr {ns : List Int} {c c' : Int → Nat} (h : ∀ n ∈ ns, c n = c' n) {k : Int}
    (hk : k ∈ ns) : ∀ n ∈ ns, less c k n = less c' k n := by
  intro n hn
  unfold less
  by_cases hnk : n = k
  · rw [hnk, Function.update_self, Function.update_self, h k hk]
  · rw [Function.update_of_ne hnk, Function.update_of_ne hnk, h n hn]

/-- The wind score depends on little. -/
theorem windScore_congr (doorwind : Int) (last : Face) (skip : Nat) {c c' : Int → Nat}
    (h : ∀ n ∈ winds, c n = c' n) :
    windScore doorwind last skip c
      = windScore (asWind doorwind) (asMine 1 4 last) skip c' := by
  have hpoint : ∀ n : Int, 1 ≤ n → n ≤ 4 →
      windPoint doorwind n = windPoint (asWind doorwind) n := by
    intro n hlo hhi
    unfold windPoint asWind
    congr 1
    by_cases hw : 1 ≤ doorwind ∧ doorwind ≤ 4
    · rw [if_pos hw]
    · rw [if_neg hw, if_neg (by omega), if_neg (by omega)]
  unfold windScore
  rw [blocks_congr h]
  congr 1
  apply runHonours_congr hpoint
  · intro n hlo hhi
    rw [hpoint n hlo hhi]
  · exact asMine_last 1 4 last

theorem dragonScore_congr (last : Face) {c c' : Int → Nat}
    (h : ∀ n ∈ dragons, c n = c' n) :
    dragonScore last c = dragonScore (asMine 5 7 last) c' := by
  unfold dragonScore
  rw [blocks_congr h]
  congr 1
  exact runHonours_congr (fun _ _ _ => rfl) (fun _ _ _ => rfl) (asMine_last 5 7 last) _ _

-- =================================================== the honours of a whole hand

/-- Honours by the numbers: each kind has none, two or three tiles, and one
kind at most has two. -/
structure Tallied (c : Int → Nat) : Prop where
  few : ∀ n, c n = 0 ∨ c n = 2 ∨ c n = 3
  pair : ∀ n n', c n = 2 → c n' = 2 → n = n'

theorem count_two_le {ns : List Int} (hns : ns.Nodup) {c : Int → Nat} (h : Tallied c) :
    (ns.map c).count 2 ≤ 1 := by
  induction ns with
  | nil => exact Nat.zero_le _
  | cons k ns ih =>
      obtain ⟨hk, hns⟩ := List.nodup_cons.mp hns
      rw [List.map_cons, List.count_cons]
      by_cases htwo : c k = 2
      · have hnone : (ns.map c).count 2 = 0 := by
          rw [List.count_eq_zero]
          intro hmem
          obtain ⟨n, hn, hc⟩ := List.mem_map.mp hmem
          exact hk (h.pair n k hc htwo ▸ hn)
        simp [hnone, htwo]
      · simpa [htwo] using ih hns

theorem mem_hands_map {c : Int → Nat} (h : Tallied c) (ns : List Int) :
    ns.map c ∈ hands ns.length := by
  have hmem := mem_hands (v := ns.map c) (by
    intro x hx
    obtain ⟨n, -, rfl⟩ := List.mem_map.mp hx
    exact h.few n)
  rwa [List.length_map] at hmem

section Tables

variable {c : Int → Nat}

theorem steady_congr {c' : Int → Nat} (h : ∀ n ∈ winds, c n = c' n) :
    Steady c ↔ Steady c' := by
  have h1 := h 1 (by decide)
  have h2 := h 2 (by decide)
  have h3 := h 3 (by decide)
  have h4 := h 4 (by decide)
  unfold Steady
  simp only [List.mem_cons, List.not_mem_nil, or_false, forall_eq_or_imp, forall_eq,
    exists_eq_or_imp, exists_eq_left, h1, h2, h3, h4]

/-- The dragon score is the number of triplets: the last tile is none of
them. -/
theorem dragonScore_other (h : Tallied c) {last : Face} (hlast : ¬ Mine 5 7 last) :
    dragonScore last c = dragonTriplets c := by
  have hcounts := counts_map_dragons c
  have htable := (dragons_table _ (mem_hands_map h dragons)
    (count_two_le (by decide) h)).1
  rw [dragonScore_congr last fun n hn => (hcounts n hn).symm, asMine, if_neg hlast, htable]
  unfold dragonTriplets
  rw [List.countP_congr fun n hn => by rw [hcounts n hn]]

/-- And when it is one of them. -/
theorem dragonScore_mine (h : Tallied c) {n : Int} (hn : n ∈ dragons) (hc : c n ≠ 0) :
    dragonScore (dazi, n) (less c n) = dragonTriplets c := by
  have hcounts := counts_map_dragons c
  have htable := (dragons_table _ (mem_hands_map h dragons)
    (count_two_le (by decide) h)).2 n hn (by rw [hcounts n hn]; exact hc)
  have hmine : Mine 5 7 (dazi, n) := by
    simp only [List.mem_cons, List.not_mem_nil, or_false] at hn
    exact ⟨rfl, by simp only; omega, by simp only; omega⟩
  rw [dragonScore_congr (dazi, n)
    (less_congr (fun m hm => (hcounts m hm).symm) hn), asMine, if_pos hmine, htable]
  unfold dragonTriplets
  rw [List.countP_congr fun m hm => by rw [hcounts m hm]]

/-- A last tile that is no wind leaves the winds' score what it is. -/
theorem windScore_other (doorwind : Int) {last : Face} (hlast : ¬ Mine 1 4 last)
    (skip : Nat) (c : Int → Nat) :
    windScore doorwind last skip c = windScore doorwind (0, 0) skip c := by
  have hnull : ¬ Mine 1 4 (0, 0) := by decide
  rw [windScore_congr doorwind last skip fun n _ => rfl,
    windScore_congr doorwind (0, 0) skip fun n _ => rfl, asMine, asMine, if_neg hlast,
    if_neg hnull]

/-- A wind that comes last, in terms of the tables. -/
theorem windScore_mine (doorwind : Int) {n : Int} (hn : n ∈ winds) (skip : Nat)
    (c : Int → Nat) :
    windScore doorwind (dazi, n) skip (less c n)
      = windScore (asWind doorwind) (dazi, n) skip (less (countsFrom 1 (winds.map c)) n) := by
  have hcounts := counts_map_winds c
  have hmine : Mine 1 4 (dazi, n) := by
    simp only [List.mem_cons, List.not_mem_nil, or_false] at hn
    exact ⟨rfl, by simp only; omega, by simp only; omega⟩
  rw [windScore_congr doorwind (dazi, n) skip
    (less_congr (fun m hm => (hcounts m hm).symm) hn), asMine, if_pos hmine]

theorem windScore_none (doorwind : Int) (skip : Nat) (c : Int → Nat) :
    windScore doorwind (0, 0) skip c
      = windScore (asWind doorwind) (0, 0) skip (countsFrom 1 (winds.map c)) :=
  windScore_congr doorwind (0, 0) skip fun n hn => (counts_map_winds c n hn).symm

theorem windScore_steady (h : Tallied c) (doorwind : Int) :
    (∀ n ∈ winds, c n ≠ 0 →
        windScore doorwind (dazi, n) 0 (less c n) = windScore doorwind (0, 0) 0 c)
      ↔ Steady c := by
  have hcounts := counts_map_winds c
  rw [← steady_congr hcounts, ← winds_table _ (mem_hands_map h winds)
    (count_two_le (by decide) h) (asWind doorwind) (asWind_mem doorwind)]
  constructor
  · intro hall n hn hc
    rw [← windScore_mine doorwind hn, ← windScore_none]
    exact hall n hn (by rwa [hcounts n hn] at hc)
  · intro hall n hn hc
    rw [windScore_mine doorwind hn, windScore_none]
    exact hall n hn (by rwa [hcounts n hn])

theorem windScore_bare (h : Tallied c) (doorwind : Int) (hsum : 8 ≤ (winds.map c).sum) :
    ∃ n ∈ winds, c n ≠ 0 ∧
      windScore doorwind (dazi, n) 2 (less c n) ≠ windScore doorwind (0, 0) 2 c := by
  obtain ⟨n, hn, hc, hne⟩ := bare_table _ (mem_hands_map h winds)
    (count_two_le (by decide) h) hsum (asWind doorwind) (asWind_mem doorwind)
  rw [counts_map_winds c n hn] at hc
  rw [← windScore_mine doorwind hn, ← windScore_none] at hne
  exact ⟨n, hn, hc, hne⟩

end Tables

-- ============================================================ the whole hand

/-- How often the honour `n` is among the tiles. -/
def honourTally (T : Multiset Face) (n : Int) : Nat := T.count (dazi, n)

/-- How many of the tiles are no honours. -/
def suits (T : Multiset Face) : Nat := T.countP fun f => f.1 ≠ dazi

/-- Every piece has three or none of a property, so they together have a
multiple of three. -/
theorem dvd_countP {n : Nat} {T : Multiset Face} (p : Face → Prop) [DecidablePred p]
    (hp : ∀ s, IsMeld s → 3 ∣ s.countP p) (h : Covers IsMeld n T) : 3 ∣ T.countP p := by
  obtain ⟨l, -, hl, rfl⟩ := h
  induction l with
  | nil => simp
  | cons s l ih =>
      rw [List.sum_cons, Multiset.countP_add]
      exact Nat.dvd_add (hp s (hl s (List.mem_cons_self ..)))
        (ih fun t ht => hl t (List.mem_cons_of_mem _ ht))

/-- The tiles of a meld have one type, and honours are equal. -/
theorem IsMeld.alike {s : Multiset Face} (h : IsMeld s) {f g : Face} (hf : f ∈ s)
    (hg : g ∈ s) : f.1 = g.1 ∧ (f.1 = dazi → f = g) := by
  cases h with
  | triplet k =>
      simp only [Multiset.insert_eq_cons, Multiset.mem_cons, Multiset.mem_singleton,
        or_self] at hf hg
      rw [hf, hg]
      exact ⟨rfl, fun _ => rfl⟩
  | run t n hlo hhi =>
      have ht : t ≠ dazi := by
        unfold dazi
        omega
      have htype : ∀ k : Face, k ∈ ({(t, n), (t, n + 1), (t, n + 2)} : Multiset Face) →
          k.1 = t := by
        intro k hk
        simp only [Multiset.insert_eq_cons, Multiset.mem_cons,
          Multiset.mem_singleton] at hk
        obtain rfl | rfl | rfl := hk <;> rfl
      rw [htype f hf, htype g hg]
      exact ⟨rfl, fun h => absurd h ht⟩

/-- A property that the tiles of a meld have together or not at all. -/
theorem IsMeld.dvd {s : Multiset Face} (h : IsMeld s) (p : Face → Prop)
    [DecidablePred p] (hp : ∀ f ∈ s, ∀ g ∈ s, p f → p g) : 3 ∣ s.countP p := by
  by_cases hsome : ∃ f ∈ s, p f
  · obtain ⟨f, hf, hpf⟩ := hsome
    have hall : s.countP p = Multiset.card s :=
      Multiset.countP_eq_card.mpr fun g hg => hp f hf g hg hpf
    rw [hall, h.card]
  · have hnone : s.countP p = 0 :=
      Multiset.countP_eq_zero.mpr fun f hf hpf => hsome ⟨f, hf, hpf⟩
    rw [hnone]
    exact Nat.dvd_zero 3

theorem IsMeld.dvd_honour {s : Multiset Face} (h : IsMeld s) (n : Int) :
    3 ∣ s.countP fun f => (dazi, n) = f := by
  apply h.dvd
  intro f hf g hg hfn
  have hdazi : f.1 = dazi := (congrArg Prod.fst hfn).symm
  rw [hfn]
  exact (h.alike hf hg).2 hdazi

theorem IsMeld.dvd_suits {s : Multiset Face} (h : IsMeld s) :
    3 ∣ s.countP fun f => f.1 ≠ dazi := by
  apply h.dvd
  intro f hf g hg hne
  rw [← (h.alike hf hg).1]
  exact hne

section Whole

variable {T : Multiset Face}

/-- Two of an honour are the pair of the hand. -/
theorem Complete.tallied {k : Nat} (h : Complete k T) (hcopies : ∀ f, T.count f ≤ 4) :
    Tallied (honourTally T) ∧ (suits T % 3 = 0 ∨ suits T % 3 = 2 ∧ ∀ n, honourTally T n ≠ 2) := by
  obtain ⟨pair, melds, hmelds, rfl⟩ := h
  have hhonour : ∀ n, ∃ m, honourTally ({pair, pair} + melds) n
      = (if pair = (dazi, n) then 2 else 0) + 3 * m := by
    intro n
    obtain ⟨m, hm⟩ := dvd_countP _ (fun s hs => hs.dvd_honour n) hmelds
    refine ⟨m, ?_⟩
    have hcount : melds.count (dazi, n) = 3 * m := hm
    unfold honourTally
    rw [Multiset.count_add, hcount]
    by_cases hpair : pair = (dazi, n)
    · rw [if_pos hpair, hpair]
      simp
    · rw [if_neg hpair]
      simp [Ne.symm hpair]
  have hle : ∀ n, honourTally ({pair, pair} + melds) n ≤ 4 := fun n => hcopies (dazi, n)
  have hpair : ∀ n, honourTally ({pair, pair} + melds) n = 2 → pair = (dazi, n) := by
    intro n hn
    obtain ⟨m, hm⟩ := hhonour n
    by_contra hne
    rw [if_neg hne] at hm
    omega
  constructor
  · constructor
    case few =>
      intro n
      obtain ⟨m, hm⟩ := hhonour n
      have := hle n
      split at hm <;> omega
    case pair =>
      intro n n' hn hn'
      have heq := (hpair n hn).symm.trans (hpair n' hn')
      exact (Prod.mk.injEq .. ▸ heq).2
  · obtain ⟨m, hm⟩ := dvd_countP _ (fun s hs => hs.dvd_suits) hmelds
    unfold suits
    have hpairs : Multiset.countP (fun f => f.1 ≠ dazi) {pair, pair}
        = if pair.1 ≠ dazi then 2 else 0 := by
      show Multiset.countP _ (pair ::ₘ pair ::ₘ 0) = _
      rw [Multiset.countP_cons, Multiset.countP_cons, Multiset.countP_zero]
      split <;> rfl
    rw [Multiset.countP_add, hm, hpairs]
    by_cases hsuit : pair.1 = dazi
    · left
      rw [if_neg (not_not_intro hsuit)]
      omega
    · right
      refine ⟨?_, ?_⟩
      · rw [if_pos hsuit]
        omega
      · intro n hn
        exact hsuit (congrArg Prod.fst (hpair n hn))

/-- All tiles are suits, winds or dragons. -/
theorem card_tally (hreal : ∀ f ∈ T, f.1 = dazi → 1 ≤ f.2 ∧ f.2 ≤ 7) :
    Multiset.card T
      = suits T + ((winds.map (honourTally T)).sum + (dragons.map (honourTally T)).sum) := by
  induction T using Multiset.induction with
  | empty => rfl
  | cons f T ih =>
      have ih := ih fun g hg => hreal g (Multiset.mem_cons_of_mem hg)
      have hf := hreal f (Multiset.mem_cons_self f T)
      obtain ⟨t, n⟩ := f
      unfold suits honourTally at ih ⊢
      rw [Multiset.card_cons, ih, Multiset.countP_cons]
      by_cases ht : t = dazi
      · obtain ⟨hlo, hhi⟩ := hf ht
        simp only at hlo hhi
        subst ht
        interval_cases n <;> simp [Multiset.count_cons] <;> omega
      · simp [Ne.symm ht, ht]
        omega

end Whole

-- ====================================================== a hand and a last tile

/-- `decks`, sorted, and `last` are the tiles `T`. -/
structure Holding (T : Multiset Face) (decks : List Mj) (last : Mj) : Prop where
  hand : SortedHand decks
  tiles : last.face ::ₘ faces decks = T

instance : Std.Total FaceLe := ⟨fun a b => by unfold FaceLe; omega⟩

instance : IsTrans Face FaceLe := ⟨fun a b c => by unfold FaceLe; omega⟩

/-- Any of seventeen tiles can come last. -/
theorem exists_holding {T : Multiset Face} (hcard : Multiset.card T = 17) {f : Face}
    (hf : f ∈ T) : ∃ decks, Holding T decks (tileOf f) := by
  have hface : ∀ l : List Face, (l.map tileOf).map Mj.face = l := by
    intro l
    rw [List.map_map]
    exact List.map_id l
  have hperm := List.perm_insertionSort FaceLe (T.erase f).toList
  have hrest : (((T.erase f).toList.insertionSort FaceLe : List Face) : Multiset Face)
      = T.erase f := by
    rw [Multiset.coe_eq_coe.mpr hperm, Multiset.coe_toList]
  refine ⟨((T.erase f).toList.insertionSort FaceLe).map tileOf, ⟨?_, ?_⟩, ?_⟩
  · rw [List.length_map, hperm.length_eq, Multiset.length_toList,
      Multiset.card_erase_of_mem hf, hcard]
    rfl
  · rw [List.pairwise_map]
    exact List.pairwise_insertionSort FaceLe _
  · unfold faces
    rw [hface, hrest]
    exact Multiset.cons_erase hf

section Holdings

variable {T : Multiset Face} {decks : List Mj} {last : Mj}

theorem Holding.real (h : Holding T decks last) (hreal : ∀ m : Mj, m.face ∈ T → m.Real) :
    ∀ m ∈ decks, m.Real := by
  intro m hm
  apply hreal
  rw [← h.tiles]
  exact Multiset.mem_cons_of_mem (mem_faces.mpr ⟨m, hm, rfl⟩)

theorem Holding.last_mem (h : Holding T decks last) : last.face ∈ T := by
  rw [← h.tiles]
  exact Multiset.mem_cons_self _ _

theorem count_faces (decks : List Mj) (n : Int) :
    (faces decks).count (dazi, n) = honourCount decks n := by
  unfold faces honourCount
  rw [Multiset.coe_count]
  apply List.countP_congr
  intro f _
  simp

/-- The hand has the honours of the tiles, less the last one. -/
theorem Holding.honour (h : Holding T decks last) {n : Int}
    (hlast : last.face = (dazi, n)) : honourCount decks = less (honourTally T) n := by
  funext k
  unfold less honourTally
  rw [← h.tiles, hlast, Multiset.count_cons_self, count_faces]
  by_cases hk : k = n
  · rw [hk, Function.update_self, Nat.add_sub_cancel]
  · rw [Function.update_of_ne hk, Multiset.count_cons_of_ne (by simp [hk]), count_faces]

theorem Holding.suit (h : Holding T decks last) (hlast : last.face.1 ≠ dazi) :
    honourCount decks = honourTally T := by
  funext k
  unfold honourTally
  rw [← h.tiles, Multiset.count_cons_of_ne, count_faces]
  intro hk
  exact hlast (congrArg Prod.fst hk).symm

theorem Holding.suits (h : Holding T decks last) :
    suits T = (suitFaces decks).length + if last.face.1 = dazi then 0 else 1 := by
  have hlen : (suitFaces decks).length
      = Multiset.countP (fun f => f.1 ≠ dazi) (faces decks) := by
    unfold suitFaces faces
    rw [← List.countP_eq_length_filter, Multiset.coe_countP]
  unfold Mahjong.suits
  rw [← h.tiles, Multiset.countP_cons, hlen]
  by_cases hlast : last.face.1 = dazi
  · rw [if_pos hlast, if_neg (not_not_intro hlast)]
  · rw [if_neg hlast, if_pos hlast]

end Holdings

-- ==================================================== when the last tile matters

/-- What the dragon loop and the wind loop add. -/
def honourPoints (decks : List Mj) (last : Mj) (doorwind : Int) : Int :=
  windLoop decks last doorwind (dragonLoop decks last 0)

section Points

variable {T : Multiset Face}

/-- The numbers of seventeen tiles that make a complete hand. -/
structure Whole (T : Multiset Face) : Prop where
  tallied : Tallied (honourTally T)
  card : suits T + ((winds.map (honourTally T)).sum + (dragons.map (honourTally T)).sum) = 17
  mod : suits T % 3 = 0 ∨ suits T % 3 = 2 ∧ ∀ n, honourTally T n ≠ 2

theorem sum_le {ns : List Int} {c : Int → Nat} (h : Tallied c) :
    (ns.map c).sum ≤ 3 * ns.length := by
  induction ns with
  | nil => exact Nat.le_refl _
  | cons n ns ih =>
      have hn := h.few n
      rw [List.map_cons, List.sum_cons, List.length_cons]
      omega

/-- Dragons are worth their triplets, winds what the wind loop sees. -/
theorem honourPoints_eq (hw : Whole T) {decks : List Mj} {last : Mj}
    (hreal : ∀ m : Mj, m.face ∈ T → m.Real) (h : Holding T decks last)
    (doorwind : Int) :
    honourPoints decks last doorwind
      = windScore doorwind last.face (2 - (suitFaces decks).length) (honourCount decks)
        + dragonTriplets (honourTally T) := by
  have hdecks := h.real hreal
  have hsuits := h.suits
  have hsum := hw.card
  have hdragons : (dragons.map (honourTally T)).sum ≤ 9 := sum_le hw.tallied
  -- the dragons, at most nine, leave room for two other tiles before them
  have hfew : 2 ≤ (suitFaces decks).length
      + (Mahjong.blocks winds (honourCount decks)).length := by
    have hlen := congrArg List.length (h.hand.blocks hdecks)
    rw [List.length_map, h.hand.length, List.length_append, List.length_append] at hlen
    have hle : (Mahjong.blocks dragons (honourCount decks)).length ≤ 9 := by
      rw [length_blocks]
      refine le_trans ?_ hdragons
      apply List.sum_le_sum
      intro n _
      unfold honourTally
      rw [← h.tiles, ← count_faces]
      exact Multiset.count_le_of_le _ (Multiset.le_cons_self _ _)
    omega
  have hdragon : dragonScore last.face (honourCount decks) = dragonTriplets (honourTally T) := by
    by_cases hmine : Mine 5 7 last.face
    case pos =>
      have hface : last.face = (dazi, last.face.2) := Prod.ext hmine.1 rfl
      have hn : last.face.2 ∈ dragons := by
        have hlo : last.face.2 ≥ 5 := hmine.2.1
        have hhi : last.face.2 ≤ 7 := hmine.2.2
        simp only [List.mem_cons, List.not_mem_nil, or_false]
        omega
      have hc : honourTally T last.face.2 ≠ 0 := by
        unfold honourTally
        rw [← hface]
        exact (Multiset.count_pos.mpr h.last_mem).ne'
      rw [h.honour hface, hface]
      exact dragonScore_mine hw.tallied hn hc
    case neg =>
      by_cases hlast : last.face.1 = dazi
      · -- a wind: the dragons are all in the hand
        have hface : last.face = (dazi, last.face.2) := Prod.ext hlast rfl
        have hsame : ∀ n ∈ dragons, honourCount decks n = honourTally T n := by
          intro n hn
          rw [h.honour hface]
          apply Function.update_of_ne
          intro heq
          simp only [List.mem_cons, List.not_mem_nil, or_false] at hn
          exact hmine ⟨hlast, by omega, by omega⟩
        rw [dragonScore_congr last.face hsame, ← dragonScore_congr last.face fun n _ => rfl]
        exact dragonScore_other hw.tallied hmine
      · rw [h.suit hlast]
        exact dragonScore_other hw.tallied hmine
  unfold honourPoints
  rw [windLoop, honourLoop_add h.hand.length, ← windLoop,
    windLoop_eq last h.hand hdecks, dragonLoop_eq last h.hand hdecks hfew, hdragon]

/-- A wind that comes last, out of slots 0 and 1 or not. -/
theorem windScore_wind {decks : List Mj} {last : Mj} (h : Holding T decks last)
    {n : Int} (hlast : last.face = (dazi, n)) (doorwind : Int) (skip : Nat) :
    windScore doorwind last.face skip (honourCount decks)
      = windScore doorwind (dazi, n) skip (less (honourTally T) n) := by
  rw [h.honour hlast, hlast]

/-- Another tile that comes last. -/
theorem windScore_rest {decks : List Mj} {last : Mj} (h : Holding T decks last)
    (hlast : ¬ Mine 1 4 last.face) (doorwind : Int) (skip : Nat) :
    windScore doorwind last.face skip (honourCount decks)
      = windScore doorwind (0, 0) skip (honourTally T) := by
  have hsame : ∀ n ∈ winds, honourCount decks n = honourTally T n := by
    intro n hn
    by_cases hd : last.face.1 = dazi
    · rw [h.honour (n := last.face.2) (Prod.ext hd rfl)]
      apply Function.update_of_ne
      intro heq
      simp only [List.mem_cons, List.not_mem_nil, or_false] at hn
      exact hlast ⟨hd, by omega, by omega⟩
    · rw [h.suit hd]
  rw [windScore_other doorwind hlast]
  unfold windScore
  rw [blocks_congr hsame]

theorem whole_of_complete (hcomplete : Complete 5 T) (hcopies : ∀ f, T.count f ≤ 4)
    (hreal : ∀ m : Mj, m.face ∈ T → m.Real) : Whole T ∧ Multiset.card T = 17 := by
  obtain ⟨htallied, hmod⟩ := hcomplete.tallied hcopies
  have hcard : Multiset.card T = 17 := by
    obtain ⟨pair, melds, ⟨l, hlen, hl, rfl⟩, rfl⟩ := hcomplete
    rw [Multiset.card_add, card_sum (fun s => IsMeld.card) l hl, hlen]
    rfl
  refine ⟨⟨htallied, ?_, hmod⟩, hcard⟩
  rw [← hcard]
  symm
  apply card_tally
  intro f hf hd
  have hr := hreal (tileOf f) hf
  unfold Mj.Real tileOf at hr
  unfold dazi at hd
  simp only at hr
  omega

/-- Some honour among the numbers, if there is any at all. -/
theorem exists_of_sum_pos (ns : List Int) (c : Int → Nat) (h : 0 < (ns.map c).sum) :
    ∃ n ∈ ns, c n ≠ 0 := by
  by_contra hnone
  have hzero : (ns.map c).sum = 0 := by
    apply List.sum_eq_zero
    intro x hx
    obtain ⟨n, hn, rfl⟩ := List.mem_map.mp hx
    by_contra hc
    exact hnone ⟨n, hn, hc⟩
  omega

theorem mem_of_tally {n : Int} (h : honourTally T n ≠ 0) : (dazi, n) ∈ T :=
  Multiset.count_pos.mp (Nat.pos_of_ne_zero h)

/-- A dragon is no wind. -/
theorem not_mine_of_dragon {n : Int} (hn : n ∈ dragons) : ¬ Mine 1 4 (dazi, n) := by
  intro hmine
  have hle : n ≤ 4 := hmine.2.2
  simp only [List.mem_cons, List.not_mem_nil, or_false] at hn
  omega

/-- A tile that is no wind, and leaves two suit tiles in the hand. -/
theorem exists_rest (hw : Whole T) (hsome : suits T ≠ 0) :
    ∃ f ∈ T, ¬ Mine 1 4 f ∧ 2 ≤ suits T - if f.1 = dazi then 0 else 1 := by
  have hmod := hw.mod
  by_cases hmany : 3 ≤ suits T
  · obtain ⟨f, hf, hne⟩ := Multiset.countP_pos.mp (Nat.pos_of_ne_zero hsome)
    refine ⟨f, hf, fun hmine => hne hmine.1, ?_⟩
    rw [if_neg hne]
    omega
  · have hcard := hw.card
    have hwinds : (winds.map (honourTally T)).sum ≤ 12 := sum_le hw.tallied
    obtain ⟨n, hn, hc⟩ := exists_of_sum_pos dragons (honourTally T) (by omega)
    refine ⟨(dazi, n), mem_of_tally hc, not_mine_of_dragon hn, ?_⟩
    rw [if_pos rfl]
    omega

/-- If the honour points do not depend on the last tile, the winds are
steady and there is a suit tile, or there is no triplet of winds. -/
theorem steady_of_independent (hw : Whole T) (hcard : Multiset.card T = 17)
    (hreal : ∀ m : Mj, m.face ∈ T → m.Real) (doorwind : Int)
    (hall : ∀ decks last decks' last', Holding T decks last → Holding T decks' last' →
      honourPoints decks last doorwind = honourPoints decks' last' doorwind) :
    suits T ≠ 0 ∧ Steady (honourTally T) := by
  have heq : ∀ {decks decks' : List Mj} {last last' : Mj}, Holding T decks last →
      Holding T decks' last' →
      windScore doorwind last.face (2 - (suitFaces decks).length) (honourCount decks)
        = windScore doorwind last'.face (2 - (suitFaces decks').length)
          (honourCount decks') := by
    intro decks decks' last last' h h'
    have hsame := hall decks last decks' last' h h'
    rw [honourPoints_eq hw hreal h, honourPoints_eq hw hreal h'] at hsame
    exact add_right_cancel hsame
  have hsum := hw.card
  have hdragons : (dragons.map (honourTally T)).sum ≤ 9 := sum_le hw.tallied
  have hwinds : (winds.map (honourTally T)).sum ≤ 12 := sum_le hw.tallied
  have hsome : suits T ≠ 0 := by
    intro hzero
    obtain ⟨n, hn, hc, hne⟩ := windScore_bare hw.tallied doorwind (by omega)
    obtain ⟨d, hd, hcd⟩ := exists_of_sum_pos dragons (honourTally T) (by omega)
    obtain ⟨decks, h⟩ := exists_holding hcard (mem_of_tally hc)
    obtain ⟨decks', h'⟩ := exists_holding hcard (mem_of_tally hcd)
    have hskip := h.suits
    have hskip' := h'.suits
    have hsame := heq h h'
    rw [windScore_wind h rfl, windScore_rest h' (not_mine_of_dragon hd),
      show (suitFaces decks).length = 0 by omega,
      show (suitFaces decks').length = 0 by omega] at hsame
    exact hne hsame
  refine ⟨hsome, ?_⟩
  rw [← windScore_steady hw.tallied doorwind]
  intro n hn hc
  obtain ⟨f, hf, hrest, htwo⟩ := exists_rest hw hsome
  obtain ⟨decks, h⟩ := exists_holding hcard (mem_of_tally hc)
  obtain ⟨decks', h'⟩ := exists_holding hcard hf
  have hmod := hw.mod
  have hskip : suits T = (suitFaces decks).length + 0 := h.suits
  have hskip' : suits T = (suitFaces decks').length + if f.1 = dazi then 0 else 1 :=
    h'.suits
  have hsame := heq h h'
  rw [windScore_wind h rfl, windScore_rest h' hrest,
    show 2 - (suitFaces decks).length = 0 by omega,
    show 2 - (suitFaces decks').length = 0 by omega] at hsame
  exact hsame

/-- With three suit tiles and steady winds every last tile gives the same
points. -/
theorem honourPoints_steady (hw : Whole T) (hreal : ∀ m : Mj, m.face ∈ T → m.Real)
    (doorwind : Int) (hmany : 3 ≤ suits T) (hsteady : Steady (honourTally T))
    {decks : List Mj} {last : Mj} (h : Holding T decks last) :
    honourPoints decks last doorwind
      = windScore doorwind (0, 0) 0 (honourTally T) + dragonTriplets (honourTally T) := by
  have hskip : 2 - (suitFaces decks).length = 0 := by
    have hsuits := h.suits
    split at hsuits <;> omega
  rw [honourPoints_eq hw hreal h, hskip]
  congr 1
  by_cases hmine : Mine 1 4 last.face
  · have hface : last.face = (dazi, last.face.2) := Prod.ext hmine.1 rfl
    have hn : last.face.2 ∈ winds := by
      have hlo : last.face.2 ≥ 1 := hmine.2.1
      have hhi : last.face.2 ≤ 4 := hmine.2.2
      simp only [List.mem_cons, List.not_mem_nil, or_false]
      omega
    have hc : honourTally T last.face.2 ≠ 0 := by
      unfold honourTally
      rw [← hface]
      exact (Multiset.count_pos.mpr h.last_mem).ne'
    rw [windScore_wind h hface]
    exact (windScore_steady hw.tallied doorwind).mpr hsteady _ hn hc
  · exact windScore_rest h hmine doorwind 0

/-- Hands whose honour points do not depend on which tile came last: they
have no triplet of winds, or a suit tile and a pair of winds that comes
before every triplet of them. -/
theorem honours_independent_iff (hcomplete : Complete 5 T)
    (hcopies : ∀ f, T.count f ≤ 4) (hreal : ∀ m : Mj, m.face ∈ T → m.Real)
    (doorwind : Int) :
    (∀ decks last decks' last', Holding T decks last → Holding T decks' last' →
        honourPoints decks last doorwind = honourPoints decks' last' doorwind)
      ↔ (∀ n ∈ winds, T.count (dazi, n) ≠ 3)
        ∨ (∃ f ∈ T, f.1 ≠ dazi) ∧ ∃ p ∈ winds, T.count (dazi, p) = 2
          ∧ ∀ n ∈ winds, T.count (dazi, n) = 3 → p < n := by
  obtain ⟨hw, hcard⟩ := whole_of_complete hcomplete hcopies hreal
  constructor
  · intro hall
    obtain ⟨hsome, hsteady⟩ := steady_of_independent hw hcard hreal doorwind hall
    cases hsteady with
    | inl hnone => exact Or.inl hnone
    | inr hpair =>
        exact Or.inr ⟨Multiset.countP_pos.mp (Nat.pos_of_ne_zero hsome), hpair⟩
  · intro hcond decks last decks' last' h h'
    have hsum := hw.card
    have hdragons : (dragons.map (honourTally T)).sum ≤ 9 := sum_le hw.tallied
    have hmod := hw.mod
    have hmany : 3 ≤ suits T := by
      cases hcond with
      | inl hnone =>
          -- at most one pair of winds
          have hfew : ∀ n ∈ winds, honourTally T n = 0 ∨ honourTally T n = 2 := by
            intro n hn
            have hne : honourTally T n ≠ 3 := hnone n hn
            have := hw.tallied.few n
            omega
          have hone : ∀ n n' : Int, n ≠ n' → ¬ (honourTally T n = 2 ∧ honourTally T n' = 2) :=
            fun n n' hne hboth => hne (hw.tallied.pair n n' hboth.1 hboth.2)
          have hwinds : (winds.map (honourTally T)).sum ≤ 2 := by
            have h1 := hfew 1 (by decide)
            have h2 := hfew 2 (by decide)
            have h3 := hfew 3 (by decide)
            have h4 := hfew 4 (by decide)
            have h12 := hone 1 2 (by decide)
            have h13 := hone 1 3 (by decide)
            have h14 := hone 1 4 (by decide)
            have h23 := hone 2 3 (by decide)
            have h24 := hone 2 4 (by decide)
            have h34 := hone 3 4 (by decide)
            simp only [List.map_cons, List.map_nil, List.sum_cons, List.sum_nil]
            omega
          omega
      | inr hpair =>
          obtain ⟨hsuit, p, -, hp, -⟩ := hpair
          have hsome : 0 < suits T := Multiset.countP_pos.mpr hsuit
          have hthree := hmod.resolve_right fun hno => hno.2 p hp
          omega
    have hsteady : Steady (honourTally T) := hcond.imp id fun hpair => hpair.2
    rw [honourPoints_steady hw hreal doorwind hmany hsteady h,
      honourPoints_steady hw hreal doorwind hmany hsteady h']

end Points

/-- Five runs less a tile and a pair of east winds, or less a wind. -/
def windPairHand (tiles : List Mj) : List Mj :=
  [⟨1, 1, 0⟩, ⟨1, 2, 0⟩, ⟨1, 3, 0⟩, ⟨1, 4, 0⟩, ⟨1, 5, 0⟩, ⟨1, 6, 0⟩, ⟨1, 7, 0⟩, ⟨1, 8, 0⟩,
    ⟨1, 9, 0⟩, ⟨2, 1, 0⟩, ⟨2, 2, 0⟩, ⟨2, 3, 0⟩, ⟨2, 4, 0⟩, ⟨2, 5, 0⟩] ++ tiles

/-- A tile of seventeen known ones is real if they are. -/
theorem real_of_faces {T : Multiset Face} (h : ∀ f ∈ T, (tileOf f).Real) :
    ∀ m : Mj, m.face ∈ T → m.Real :=
  fun m hm => Mj.Real.congr rfl (h m.face hm)

/-- Four runs, a pair of east winds and three south winds, without their
last tile: a 3, or a south wind. -/
def southHand (tiles : List Mj) : List Mj :=
  [⟨1, 1, 0⟩, ⟨1, 2, 0⟩, ⟨1, 3, 0⟩, ⟨1, 4, 0⟩, ⟨1, 5, 0⟩, ⟨1, 6, 0⟩, ⟨1, 7, 0⟩, ⟨1, 8, 0⟩,
    ⟨1, 9, 0⟩, ⟨2, 1, 0⟩, ⟨2, 2, 0⟩] ++ tiles

/-- A pair of winds is worth the same whether a wind or a 6 came last, and
so are three winds behind it. -/
theorem honours_independent_windPair :
    honourPoints (windPairHand [⟨4, 1, 0⟩, ⟨4, 1, 0⟩]) ⟨2, 6, 0⟩ 1
        = honourPoints (windPairHand [⟨2, 6, 0⟩, ⟨4, 1, 0⟩]) ⟨4, 1, 0⟩ 1
      ∧ honourPoints (southHand [⟨4, 1, 0⟩, ⟨4, 1, 0⟩, ⟨4, 2, 0⟩, ⟨4, 2, 0⟩, ⟨4, 2, 0⟩])
          ⟨2, 3, 0⟩ 2
        = honourPoints (southHand [⟨2, 3, 0⟩, ⟨4, 1, 0⟩, ⟨4, 1, 0⟩, ⟨4, 2, 0⟩, ⟨4, 2, 0⟩])
          ⟨4, 2, 0⟩ 2 := by
  constructor
  · have hcomplete :
        Complete 5 ((2, 6) ::ₘ faces (windPairHand [⟨4, 1, 0⟩, ⟨4, 1, 0⟩])) := by
      refine ⟨(4, 1), _, ⟨[{(1, 1), (1, 2), (1, 3)}, {(1, 4), (1, 5), (1, 6)},
        {(1, 7), (1, 8), (1, 9)}, {(2, 1), (2, 2), (2, 3)}, {(2, 4), (2, 5), (2, 6)}],
        rfl, ?_, rfl⟩, by decide +kernel⟩
      simp only [List.mem_cons, List.not_mem_nil, or_false, forall_eq_or_imp, forall_eq]
      exact ⟨.run 1 1 (by decide) (by decide), .run 1 4 (by decide) (by decide),
        .run 1 7 (by decide) (by decide), .run 2 1 (by decide) (by decide),
        .run 2 4 (by decide) (by decide)⟩
    exact (honours_independent_iff hcomplete (count_le_of_mem (by decide +kernel))
      (real_of_faces (by decide +kernel)) 1).mpr (Or.inl (by decide +kernel)) _ _ _ _
      ⟨⟨by decide, by decide⟩, rfl⟩ ⟨⟨by decide, by decide⟩, by decide +kernel⟩
  · have hcomplete : Complete 5 ((2, 3) ::ₘ faces
        (southHand [⟨4, 1, 0⟩, ⟨4, 1, 0⟩, ⟨4, 2, 0⟩, ⟨4, 2, 0⟩, ⟨4, 2, 0⟩])) := by
      refine ⟨(4, 1), _, ⟨[{(1, 1), (1, 2), (1, 3)}, {(1, 4), (1, 5), (1, 6)},
        {(1, 7), (1, 8), (1, 9)}, {(2, 1), (2, 2), (2, 3)}, {(4, 2), (4, 2), (4, 2)}],
        rfl, ?_, rfl⟩, by decide +kernel⟩
      simp only [List.mem_cons, List.not_mem_nil, or_false, forall_eq_or_imp, forall_eq]
      exact ⟨.run 1 1 (by decide) (by decide), .run 1 4 (by decide) (by decide),
        .run 1 7 (by decide) (by decide), .run 2 1 (by decide) (by decide), .triplet (4, 2)⟩
    have hbehind : (∃ f ∈ (2, 3) ::ₘ faces
          (southHand [⟨4, 1, 0⟩, ⟨4, 1, 0⟩, ⟨4, 2, 0⟩, ⟨4, 2, 0⟩, ⟨4, 2, 0⟩]), f.1 ≠ dazi)
        ∧ ∃ p ∈ winds, ((2, 3) ::ₘ faces
            (southHand [⟨4, 1, 0⟩, ⟨4, 1, 0⟩, ⟨4, 2, 0⟩, ⟨4, 2, 0⟩, ⟨4, 2, 0⟩])).count
              (dazi, p) = 2
          ∧ ∀ n ∈ winds, ((2, 3) ::ₘ faces
            (southHand [⟨4, 1, 0⟩, ⟨4, 1, 0⟩, ⟨4, 2, 0⟩, ⟨4, 2, 0⟩, ⟨4, 2, 0⟩])).count
              (dazi, n) = 3 → p < n :=
      ⟨⟨(2, 3), Multiset.mem_cons_self .., by decide⟩, 1, by decide, by decide +kernel,
        by decide +kernel⟩
    exact (honours_independent_iff hcomplete (count_le_of_mem (by decide +kernel))
      (real_of_faces (by decide +kernel)) 2).mpr (Or.inr hbehind) _ _ _ _
      ⟨⟨by decide, by decide⟩, rfl⟩ ⟨⟨by decide, by decide⟩, by decide +kernel⟩

/-- Four runs, three east winds and a pair of red dragons, without their
last tile: a 9, or an east wind. -/
def eastHand (tiles : List Mj) : List Mj :=
  [⟨1, 1, 0⟩, ⟨1, 2, 0⟩, ⟨1, 3, 0⟩, ⟨1, 4, 0⟩, ⟨1, 5, 0⟩, ⟨1, 6, 0⟩, ⟨1, 7, 0⟩,
    ⟨1, 8, 0⟩] ++ tiles ++ [⟨4, 1, 0⟩, ⟨4, 1, 0⟩, ⟨4, 5, 0⟩, ⟨4, 5, 0⟩]

/-- Three east winds are worth a point more when another tile came last. -/
theorem honours_depend :
    ∃ (T : Multiset Face) (decks decks' : List Mj),
      Complete 5 T ∧ (∀ f, T.count f ≤ 4) ∧ (∀ m : Mj, m.face ∈ T → m.Real)
        ∧ Holding T decks ⟨1, 9, 0⟩ ∧ Holding T decks' ⟨4, 1, 0⟩
        ∧ honourPoints decks ⟨1, 9, 0⟩ 2 = 2 ∧ honourPoints decks' ⟨4, 1, 0⟩ 2 = 1 := by
  refine ⟨(1, 9) ::ₘ faces (eastHand [⟨2, 1, 0⟩, ⟨2, 2, 0⟩, ⟨2, 3, 0⟩, ⟨4, 1, 0⟩]),
    eastHand [⟨2, 1, 0⟩, ⟨2, 2, 0⟩, ⟨2, 3, 0⟩, ⟨4, 1, 0⟩],
    eastHand [⟨1, 9, 0⟩, ⟨2, 1, 0⟩, ⟨2, 2, 0⟩, ⟨2, 3, 0⟩], ?_,
    count_le_of_mem (by decide +kernel), real_of_faces (by decide +kernel),
    ⟨⟨by decide, by decide⟩, rfl⟩, ⟨⟨by decide, by decide⟩, by decide +kernel⟩,
    by decide, by decide⟩
  refine ⟨(4, 5), _, ⟨[{(1, 1), (1, 2), (1, 3)}, {(1, 4), (1, 5), (1, 6)},
    {(1, 7), (1, 8), (1, 9)}, {(2, 1), (2, 2), (2, 3)}, {(4, 1), (4, 1), (4, 1)}],
    rfl, ?_, rfl⟩, by decide +kernel⟩
  simp only [List.mem_cons, List.not_mem_nil, or_false, forall_eq_or_imp, forall_eq]
  exact ⟨.run 1 1 (by decide) (by decide), .run 1 4 (by decide) (by decide),
    .run 1 7 (by decide) (by decide), .run 2 1 (by decide) (by decide), .triplet (4, 1)⟩

end Mahjong
