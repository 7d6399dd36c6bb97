/-
Packing pieces into a multiset: `Packs piece n T` says that `n` pieces
fit into `T` side by side, `Covers piece n T` that they fill it. A
search that takes out one piece after another decides `Packs`
(`packs_succ`); when all pieces have one size, counting tells filling
from fitting (`packs_iff_covers`).
-/
import Mathlib.Algebra.BigOperators.Group.Multiset.Basic
import Mathlib.Algebra.Order.Group.Multiset
import Mathlib.Tactic

namespace Packing

variable {α : Type*} {piece : Multiset α → Prop} {n : ℕ} {T : Multiset α}

/-- `n` pieces fit into `T` side by side. -/
def Packs (piece : Multiset α → Prop) (n : ℕ) (T : Multiset α) : Prop :=
  ∃ l : List (Multiset α), l.length = n ∧ (∀ s ∈ l, piece s) ∧ l.sum ≤ T

/-- `n` pieces fill `T`. -/
def Covers (piece : Multiset α → Prop) (n : ℕ) (T : Multiset α) : Prop :=
  ∃ l : List (Multiset α), l.length = n ∧ (∀ s ∈ l, piece s) ∧ l.sum = T

theorem packs_zero : Packs piece 0 T :=
  ⟨[], rfl, by simp, Multiset.zero_le T⟩

/-- Fitting `n + 1` pieces is taking one out and fitting the others into
what is left. -/
theorem packs_succ [DecidableEq α] :
    Packs piece (n + 1) T ↔ ∃ s, piece s ∧ s ≤ T ∧ Packs piece n (T - s) := by
  constructor
  · rintro ⟨l, hlen, hl, hsum⟩
    cases l with
    | nil => exact absurd hlen (by simp)
    | cons s l =>
        rw [List.sum_cons] at hsum
        refine ⟨s, hl s (List.mem_cons_self ..), ?_, l, ?_, ?_, ?_⟩
        · exact (Multiset.le_add_right s _).trans hsum
        · exact Nat.succ.inj hlen
        · exact fun t ht => hl t (List.mem_cons_of_mem _ ht)
        · exact le_tsub_of_add_le_left hsum
  · rintro ⟨s, hs, hle, l, hlen, hl, hsum⟩
    refine ⟨s :: l, congrArg Nat.succ hlen, ?_, ?_⟩
    · intro t ht
      rcases List.mem_cons.mp ht with rfl | ht
      · exact hs
      · exact hl t ht
    · rw [List.sum_cons]
      calc s + l.sum ≤ s + (T - s) := by gcongr
        _ = T := add_tsub_cancel_of_le hle

/-- `n` pieces of size `k` have `n * k` elements. -/
theorem card_sum {k : ℕ} (hk : ∀ s, piece s → Multiset.card s = k) :
    ∀ l : List (Multiset α), (∀ s ∈ l, piece s) →
      Multiset.card l.sum = l.length * k := by
  intro l
  induction l with
  | nil => intro _; simp
  | cons s l ih =>
      intro hl
      rw [List.sum_cons, Multiset.card_add, hk s (hl s (List.mem_cons_self ..)),
        ih fun t ht => hl t (List.mem_cons_of_mem _ ht), List.length_cons]
      ring

/-- Pieces that fit and are enough fill. -/
theorem packs_iff_covers {k : ℕ} (hk : ∀ s, piece s → Multiset.card s = k)
    (hT : Multiset.card T = n * k) : Packs piece n T ↔ Covers piece n T := by
  constructor
  · rintro ⟨l, hlen, hl, hsum⟩
    refine ⟨l, hlen, hl, Multiset.eq_of_le_of_card_le hsum ?_⟩
    rw [hT, card_sum hk l hl, hlen]
  · rintro ⟨l, hlen, hl, hsum⟩
    exact ⟨l, hlen, hl, hsum.le⟩

theorem Packs.covers {k : ℕ} (h : Packs piece n T)
    (hk : ∀ s, piece s → Multiset.card s = k)
    (hT : Multiset.card T = n * k) : Covers piece n T :=
  (packs_iff_covers hk hT).mp h

/-- What fills an image comes from what fills the original, when every
piece in the image is the image of a piece. -/
theorem Covers.of_map {β : Type*} {f : α → β} {piece' : Multiset β → Prop}
    (hpiece : ∀ s, piece' s → s ≤ T.map f → ∃ t, piece t ∧ t.map f = s)
    (hf : Function.Injective f) (h : Covers piece' n (T.map f)) : Covers piece n T := by
  obtain ⟨l, hlen, hl, hsum⟩ := h
  have hback : ∀ (l : List (Multiset β)) (U : Multiset α), U ≤ T → (∀ s ∈ l, piece' s) →
      l.sum = U.map f → Covers piece l.length U := by
    intro l
    induction l with
    | nil =>
        intro U _ _ hsum
        rw [List.sum_nil] at hsum
        exact ⟨[], rfl, by simp, (Multiset.map_eq_zero.mp hsum.symm).symm⟩
    | cons s l ih =>
        intro U hU hl hsum
        rw [List.sum_cons] at hsum
        have hsU : s ≤ U.map f := hsum ▸ Multiset.le_add_right s _
        obtain ⟨t, ht, rfl⟩ := hpiece s (hl s (List.mem_cons_self ..))
          (hsU.trans (Multiset.map_le_map hU))
        obtain ⟨V, rfl⟩ := Multiset.le_iff_exists_add.mp
          ((Multiset.map_le_map_iff hf).mp hsU)
        rw [Multiset.map_add] at hsum
        obtain ⟨l', hlen', hl', hsum'⟩ := ih V ((Multiset.le_add_left V t).trans hU)
          (fun s hs => hl s (List.mem_cons_of_mem _ hs)) (add_left_cancel hsum)
        refine ⟨t :: l', congrArg Nat.succ hlen', ?_, ?_⟩
        · intro s hs
          cases List.mem_cons.mp hs with
          | inl hs => exact hs ▸ ht
          | inr hs => exact hl' s hs
        · rw [List.sum_cons, hsum']
  exact hlen ▸ hback l T le_rfl hl hsum

/-- The image of what fills is filled by the images of the pieces. -/
theorem Covers.map {β : Type*} {f : α → β} {piece' : Multiset β → Prop}
    (hpiece : ∀ s, piece s → piece' (s.map f)) (h : Covers piece n T) :
    Covers piece' n (T.map f) := by
  obtain ⟨l, hlen, hl, rfl⟩ := h
  refine ⟨l.map (Multiset.map f), (List.length_map _).trans hlen, ?_, ?_⟩
  · intro s hs
    obtain ⟨t, ht, rfl⟩ := List.mem_map.mp hs
    exact hpiece t (hl t ht)
  · exact (map_list_sum (Multiset.mapAddMonoidHom f) l).symm

end Packing
