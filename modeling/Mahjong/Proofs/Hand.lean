/-
What the pieces that rearrange one player's tiles do to a hand.

A hand at rest is a sorted block of real tiles at the front of the
array, empty slots behind it. Equal tiles of a sorted hand are
contiguous (`copies_split`), so the holes a claim makes are one block
(`removeLoop_spec`) and the compaction moves that block behind the hand
(`compactLoop_spec`). Statements are about faces, since the priority of
a tile means nothing after the shuffle.
-/
import Mahjong.Server.State
import Mahjong.Meld

namespace Mahjong

open QuickSort

-- ================================================================ empty slots

/-- Every slot is empty. -/
def Nulls (l : List Mj) : Prop := ∀ m ∈ l, m.isNull = true

theorem Nulls.append {l r : List Mj} (hl : Nulls l) (hr : Nulls r) :
    Nulls (l ++ r) := by
  intro m hm
  rcases List.mem_append.mp hm with h | h
  · exact hl m h
  · exact hr m h

theorem Nulls.cons {m : Mj} {l : List Mj} (hm : m.isNull = true) (hl : Nulls l) :
    Nulls (m :: l) := by
  intro x hx
  rcases List.mem_cons.mp hx with rfl | h
  · exact hm
  · exact hl x h

theorem Nulls.perm {l r : List Mj} (hl : Nulls l) (h : r.Perm l) : Nulls r :=
  fun m hm => hl m (h.mem_iff.mp hm)

theorem nulls_replicate (n : Nat) : Nulls (List.replicate n Mj.null) := by
  intro m hm
  rw [List.eq_of_mem_replicate hm]
  rfl

theorem Nulls.faces {l : List Mj} (h : Nulls l) :
    faces l = Multiset.replicate l.length (0, 0) := by
  refine Multiset.eq_replicate.mpr ⟨card_faces l, fun f hf => ?_⟩
  obtain ⟨m, hm, rfl⟩ := mem_faces.mp hf
  exact Mj.isNull_iff.mp (h m hm)

-- =============================================================== sorted hands

/-- A hand: real tiles in the order of the sort. -/
structure Hand (h : List Mj) : Prop where
  real : ∀ m ∈ h, m.Real
  sorted : h.Pairwise fun a b => a.key ≤ b.key

/-- Tiles with the same sort key have the same face. -/
theorem Mj.Real.key_inj {a b : Mj} (ha : a.Real) (hb : b.Real)
    (h : a.key = b.key) : a.face = b.face := by
  rw [Mj.face_eq_iff]
  unfold Mj.Real at ha hb
  unfold Mj.key at h
  omega

theorem Mj.key_congr {a b : Mj} (h : a.face = b.face) : a.key = b.key := by
  obtain ⟨ht, hn⟩ := Mj.face_eq_iff.mp h
  rw [Mj.key, Mj.key, ht, hn]

theorem Hand.tail {m : Mj} {h : List Mj} (hh : Hand (m :: h)) : Hand h :=
  ⟨fun x hx => hh.real x (List.mem_cons_of_mem _ hx), hh.sorted.of_cons⟩

/-- Copies of the least tile of a sorted hand stand at its front. -/
theorem copies_front {t : Mj} (ht : t.Real) (k : Nat) : ∀ {h : List Mj}, Hand h →
    (∀ m ∈ h, t.key ≤ m.key) → k ≤ (faces h).count t.face →
    ∃ c b, h = c ++ b ∧ c.length = k ∧ ∀ m ∈ c, m.face = t.face := by
  induction k with
  | zero => exact fun {h} _ _ _ => ⟨[], h, rfl, rfl, fun _ hm => nomatch hm⟩
  | succ k ih =>
      intro h hh hle hcount
      cases h with
      | nil => exact absurd hcount (by simp)
      | cons m h =>
          by_cases hm : m.face = t.face
          · rw [faces_cons, hm, Multiset.count_cons_self] at hcount
            obtain ⟨c, b, rfl, hlen, hc⟩ := ih hh.tail
              (fun x hx => hle x (List.mem_cons_of_mem _ hx)) (by omega)
            refine ⟨m :: c, b, rfl, congrArg Nat.succ hlen, fun x hx => ?_⟩
            rcases List.mem_cons.mp hx with rfl | hx
            · exact hm
            · exact hc x hx
          · -- every tile is greater than `t`, so there is no copy
            exfalso
            have hlt : t.key < m.key := by
              refine lt_of_le_of_ne (hle m (List.mem_cons_self ..)) fun he => hm ?_
              exact (ht.key_inj (hh.real m (List.mem_cons_self ..)) he).symm
            have hmem : t.face ∈ faces (m :: h) := by
              rw [← Multiset.one_le_count_iff_mem]
              omega
            obtain ⟨x, hx, hface⟩ := mem_faces.mp hmem
            have hkey := Mj.key_congr hface
            rcases List.mem_cons.mp hx with rfl | hx
            · exact hm hface
            · have := List.rel_of_pairwise_cons hh.sorted hx
              omega

/-- Equal tiles of a sorted hand are contiguous: the first `k` copies
of `t` are one block, with no copy before it. -/
theorem copies_split {t : Mj} (ht : t.Real) {k : Nat} : ∀ {h : List Mj}, Hand h →
    k ≤ (faces h).count t.face →
    ∃ a c b, h = a ++ c ++ b ∧ c.length = k ∧ (∀ m ∈ a, m.face ≠ t.face)
      ∧ ∀ m ∈ c, m.face = t.face := by
  intro h
  induction h with
  | nil =>
      intro _ hcount
      rw [faces_nil, Multiset.count_zero] at hcount
      exact ⟨[], [], [], rfl, (Nat.le_zero.mp hcount).symm, by simp, by simp⟩
  | cons m h ih =>
      intro hh hcount
      by_cases hm : m.face = t.face
      · have hle : ∀ x ∈ m :: h, t.key ≤ x.key := by
          intro x hx
          rw [← Mj.key_congr hm]
          rcases List.mem_cons.mp hx with rfl | hx
          · exact Int.le_refl _
          · exact List.rel_of_pairwise_cons hh.sorted hx
        obtain ⟨c, b, he, hlen, hc⟩ := copies_front ht k hh hle hcount
        exact ⟨[], c, b, he, hlen, by simp, hc⟩
      · rw [faces_cons, Multiset.count_cons_of_ne (Ne.symm hm)] at hcount
        obtain ⟨a, c, b, rfl, hlen, ha, hc⟩ := ih hh.tail hcount
        refine ⟨m :: a, c, b, rfl, hlen, fun x hx => ?_, hc⟩
        rcases List.mem_cons.mp hx with rfl | hx
        · exact hm
        · exact ha x hx

-- =================================================================== the door

namespace Player

/-- `door[door_index++] = m` for one tile after another. -/
def pushDoors (p : Player) (ts : List Mj) : Player := ts.foldl pushDoor p

/-- The tiles laid down: `door[0..door_index-1]`. -/
def doorTiles (p : Player) : List Mj := p.door.take p.doorIndex

@[simp] theorem pushDoors_nil (p : Player) : p.pushDoors [] = p := rfl

@[simp] theorem pushDoors_cons (p : Player) (m : Mj) (ts : List Mj) :
    p.pushDoors (m :: ts) = (p.pushDoor m).pushDoors ts := rfl

end Player

/-- Appending to an array with a cursor. -/
theorem take_set_succ {l : List Mj} {n : Nat} (h : n < l.length) (m : Mj) :
    (l.set n m).take (n + 1) = l.take n ++ [m] := by
  rw [List.take_succ_eq_append_getElem (by rw [List.length_set]; exact h),
    List.getElem_set_self, List.take_set_of_le (Nat.le_refl n)]

theorem Player.pushDoors_fields (ts : List Mj) : ∀ p : Player,
    (p.pushDoors ts).flowerIndex = p.flowerIndex
      ∧ (p.pushDoors ts).flowers = p.flowers
      ∧ (p.pushDoors ts).seaIndex = p.seaIndex ∧ (p.pushDoors ts).sea = p.sea
      ∧ (p.pushDoors ts).normalCapacity = p.normalCapacity
      ∧ (p.pushDoors ts).decks = p.decks
      ∧ (p.pushDoors ts).doorIndex = p.doorIndex + ts.length
      ∧ (p.pushDoors ts).door.length = p.door.length := by
  induction ts with
  | nil => intro p; simp
  | cons m ts ih =>
      intro p
      obtain ⟨h1, h2, h3, h4, h5, h6, h7, h8⟩ := ih (p.pushDoor m)
      refine ⟨h1, h2, h3, h4, h5, h6, ?_, ?_⟩
      · rw [Player.pushDoors_cons, h7, List.length_cons]
        show p.doorIndex + 1 + ts.length = _
        omega
      · rw [Player.pushDoors_cons, h8]
        exact List.length_set

/-- Laying tiles down does not look at the hand. -/
theorem Player.pushDoors_setDecks (d : List Mj) (ts : List Mj) : ∀ p : Player,
    ({ p with decks := d } : Player).pushDoors ts
      = { p.pushDoors ts with decks := d } := by
  induction ts with
  | nil => intro p; rfl
  | cons m ts ih => intro p; exact ih (p.pushDoor m)

/-- The door gains the tiles while there is room. -/
theorem Player.doorTiles_pushDoors (ts : List Mj) : ∀ {p : Player},
    p.doorIndex + ts.length ≤ p.door.length →
      (p.pushDoors ts).doorTiles = p.doorTiles ++ ts := by
  induction ts with
  | nil => intro p _; simp
  | cons m ts ih =>
      intro p hroom
      rw [List.length_cons] at hroom
      have hdoor : (p.pushDoor m).doorTiles = p.doorTiles ++ [m] :=
        take_set_succ (by omega) m
      rw [Player.pushDoors_cons, ih, hdoor, List.append_assoc]
      · rfl
      · show p.doorIndex + 1 + ts.length ≤ (p.door.set _ m).length
        rw [List.length_set]
        omega

-- ======================================================== removing the copies

theorem getD_append_length (a b : List Mj) (x : Mj) :
    (a ++ x :: b).getD a.length Mj.null = x := by
  simp [List.getD_eq_getElem?_getD]

/-- The removal loop walks past tiles of another face. -/
theorem removeLoop_skip {t : Mj} {need : Nat} {p : Player} (is : List Nat)
    (b : List Mj) : ∀ a a' : List Mj, p.decks = a' ++ a ++ b →
      (∀ m ∈ a, m.face ≠ t.face) →
      removeLoop t need (List.range' a'.length a.length ++ is) p
        = removeLoop t need is p := by
  intro a
  induction a with
  | nil => intro a' _ _; rfl
  | cons m a ih =>
      intro a' hd hne
      have hdeck : p.deck a'.length = m := by
        rw [Player.deck, hd, List.append_assoc]
        exact getD_append_length a' (a ++ b) m
      rw [List.length_cons, List.range'_succ, List.cons_append, removeLoop,
        if_neg]
      · have h := ih (a' ++ [m]) (by rw [hd]; simp)
          fun x hx => hne x (List.mem_cons_of_mem _ hx)
        rwa [List.length_append] at h
      · rw [hdeck, mjCompare_eq_zero]
        exact Ne.symm (hne m (List.mem_cons_self ..))

/-- At a block of copies the removal loop lays one tile down for each
and empties its slot. -/
theorem removeLoop_block {t : Mj} (b : List Mj) (is : List Nat) :
    ∀ (c a : List Mj) (p : Player), p.decks = a ++ c ++ b → c ≠ [] →
      (∀ m ∈ c, m.face = t.face) →
      removeLoop t c.length (List.range' a.length c.length ++ is) p
        = { p.pushDoors (List.replicate c.length t) with
            decks := a ++ c.map Mj.zero ++ b } := by
  intro c
  induction c with
  | nil => intro a p _ hne; exact absurd rfl hne
  | cons m c ih =>
      intro a p hd _ hc
      have hdeck : p.deck a.length = m := by
        rw [Player.deck, hd, List.append_assoc]
        exact getD_append_length a (c ++ b) m
      have hset : p.decks.set a.length m.zero = a ++ [m.zero] ++ c ++ b := by
        rw [hd, List.append_assoc, List.set_append_right _ _ (Nat.le_refl _),
          Nat.sub_self]
        simp
      have heq : mjCompare t (p.deck a.length) = 0 := by
        rw [mjCompare_eq_zero, hdeck]
        exact (hc m (List.mem_cons_self ..)).symm
      have hstep : (p.pushDoor t).setDeck a.length m.zero
          = { p.pushDoor t with decks := a ++ [m.zero] ++ c ++ b } := by
        rw [← hset]
        rfl
      rw [List.length_cons, List.range'_succ, List.cons_append, removeLoop,
        if_pos heq]
      simp only [Nat.add_sub_cancel, hdeck, hstep]
      cases c with
      | nil =>
          rw [List.length_nil, if_pos rfl, List.append_nil]
          rfl
      | cons m' c =>
          rw [if_neg (by simp)]
          have h := ih (a ++ [m.zero])
            { p.pushDoor t with decks := a ++ [m.zero] ++ (m' :: c) ++ b } rfl
            (by simp) fun x hx => hc x (List.mem_cons_of_mem _ hx)
          rw [List.length_append, Player.pushDoors_setDecks] at h
          refine h.trans ?_
          simp only [List.map_cons, List.append_assoc, List.cons_append,
            List.nil_append, List.length_cons, List.replicate_succ,
            Player.pushDoors_cons]

-- ========================================================= closing the ranks

/-- The compaction loop walks past tiles. -/
theorem compactLoop_skip {nc k need : Nat} (is : List Nat) (b : List Mj) :
    ∀ a a' : List Mj, (∀ m ∈ a, m.isNull = false) →
      compactLoop nc k need (List.range' a'.length a.length ++ is) (a' ++ a ++ b)
        = compactLoop nc k need is (a' ++ a ++ b) := by
  intro a
  induction a with
  | nil => intro a' _; rfl
  | cons m a ih =>
      intro a' hne
      have hslot : (a' ++ m :: a ++ b).getD a'.length Mj.null = m := by
        rw [List.append_assoc]
        exact getD_append_length a' (a ++ b) m
      rw [List.length_cons, List.range'_succ, List.cons_append, compactLoop, hslot,
        hne m (List.mem_cons_self ..), if_neg Bool.false_ne_true]
      have h := ih (a' ++ [m]) fun x hx => hne x (List.mem_cons_of_mem _ hx)
      rw [List.length_append] at h
      simpa using h

theorem getD_middle {a z t : List Mj} {i : Nat} (hi : i < z.length) :
    (a ++ z ++ t).getD (a.length + i) Mj.null = z[i] := by
  rw [List.append_assoc, List.getD_eq_getElem?_getD,
    List.getElem?_append_right (by omega), Nat.add_sub_cancel_left,
    List.getElem?_append_left hi, List.getElem?_eq_getElem hi, Option.getD_some]

/-- Within a block of empty slots the loop only exchanges empty
slots. -/
theorem compactLoop_nulls {k : Nat} (a t : List Mj) (is : List Nat) (need : Nat) :
    ∀ (i : Nat) (z : List Mj), Nulls z → i + (need + 1) ≤ z.length →
      ∃ z', compactLoop (a.length + k) k (need + 1)
            (List.range' (a.length + i) (need + 1) ++ is) (a ++ z ++ t)
          = a ++ z' ++ t ∧ z'.length = z.length ∧ Nulls z' := by
  induction need with
  | zero =>
      intro i z hz hi
      rw [List.range'_succ, List.cons_append, compactLoop, getD_middle (by omega),
        hz _ (List.getElem_mem _), if_pos rfl,
        show a.length + k + (0 + 1) - (k + 1) = a.length + 0 by omega,
        swap_middle a z t (by omega) (by omega)]
      exact ⟨swap z i 0, rfl, length_swap z i 0, hz.perm (swap_perm z i 0)⟩
  | succ need ih =>
      intro i z hz hi
      rw [List.range'_succ, List.cons_append, compactLoop, getD_middle (by omega),
        hz _ (List.getElem_mem _), if_pos rfl,
        show a.length + k + (need + 1 + 1) - (k + 1) = a.length + (need + 1) by omega,
        swap_middle a z t (by omega) (by omega)]
      obtain ⟨z', he, hlen, hnull⟩ := ih (i + 1) (swap z i (need + 1))
        (hz.perm (swap_perm z i _)) (by rw [length_swap]; omega)
      exact ⟨z', he, by rw [hlen, length_swap], hnull⟩

/-- A block of empty slots goes behind the tiles that follow it. -/
theorem compactLoop_spec {nc k : Nat} (is : List Nat) (z : List Mj) :
    ∀ a b t : List Mj, Nulls z → z ≠ [] → nc = a.length + b.length + k →
      ∃ d z', compactLoop nc k z.length (List.range' a.length z.length ++ is)
            (a ++ z ++ b ++ t) = d ++ z' ++ t
          ∧ d.Perm (a ++ b) ∧ z'.length = z.length ∧ Nulls z' := by
  induction z with
  | nil => exact fun a b t _ h => absurd rfl h
  | cons x z ih =>
      intro a b t hz _ hnc
      rcases List.eq_nil_or_concat b with rfl | ⟨b, y, rfl⟩
      · -- nothing behind the block
        obtain ⟨z', he, hlen, hnull⟩ := compactLoop_nulls (k := k) a t is z.length 0
          (x :: z) hz (by simp)
        refine ⟨a, z', ?_, by simp, hlen, hnull⟩
        rw [List.append_nil]
        rw [← he, hnc]
        rfl
      · -- the last tile comes forward into the first empty slot
        have hx : x.isNull = true := hz x (List.mem_cons_self ..)
        have hz' : Nulls z := fun m hm => hz m (List.mem_cons_of_mem _ hm)
        have hdecks : a ++ x :: z ++ (b ++ [y]) ++ t
            = a ++ x :: ((z ++ b) ++ y :: t) := by simp
        rw [List.concat_eq_append] at hnc ⊢
        have htarget : nc + (z.length + 1) - (k + 1)
            = a.length + ((z ++ b).length + 1) := by
          rw [List.length_append] at hnc ⊢
          rw [List.length_singleton] at hnc
          omega
        rw [hdecks, List.length_cons, List.range'_succ, List.cons_append,
          compactLoop, getD_append_length, hx, if_pos rfl, htarget, swap_append,
          Nat.add_sub_cancel]
        cases z with
        | nil =>
            refine ⟨a ++ y :: b, [x], by simp, ?_, rfl, Nulls.cons hx hz'⟩
            exact (List.perm_append_singleton y b).symm.append_left a
        | cons w z =>
            rw [if_neg (by simp)]
            obtain ⟨d, z', he, hperm, hlen, hnull⟩ := ih (a ++ [y]) b (x :: t) hz'
              (by simp) (by simp at hnc ⊢; omega)
            rw [List.length_append] at he
            refine ⟨d, z' ++ [x], ?_, ?_, by simp [hlen], hnull.append
              (Nulls.cons hx fun m hm => nomatch hm)⟩
            · refine Eq.trans ?_ (he.trans ?_)
              · simp
              · simp
            · refine hperm.trans ?_
              rw [List.append_assoc]
              exact (List.perm_append_singleton y b).symm.append_left a

-- ============================================================= laying copies

theorem range_split (x y z : Nat) : List.range (x + y + z)
    = List.range' 0 x ++ (List.range' x y ++ List.range' (x + y) z) := by
  have h1 := @List.range'_append_1 0 x (y + z)
  have h2 := @List.range'_append_1 x y z
  rw [Nat.zero_add] at h1
  rw [h2, h1, List.range_eq_range', Nat.add_assoc]

theorem nulls_zero (c : List Mj) : Nulls (c.map Mj.zero) := by
  intro m hm
  obtain ⟨x, _, rfl⟩ := List.mem_map.mp hm
  rfl

theorem faces_eq_replicate {c : List Mj} {f : Face} (h : ∀ m ∈ c, m.face = f) :
    faces c = Multiset.replicate c.length f := by
  refine Multiset.eq_replicate.mpr ⟨card_faces c, fun g hg => ?_⟩
  obtain ⟨m, hm, rfl⟩ := mem_faces.mp hg
  exact h m hm

/-- Laying down `t` with `k` copies from a hand that has them: the hand
keeps the other tiles, in some order, and `k` empty slots behind. -/
theorem layCopies_spec {k : Nat} (hk : 1 ≤ k) {t : Mj} (ht : t.Real)
    {h rest : List Mj} (hh : Hand h) (hcount : k ≤ (faces h).count t.face)
    {p : Player} (hd : p.decks = h ++ rest) (hnc : p.normalCapacity = h.length) :
    ∃ d z, layCopies k t p
        = { p.pushDoors (List.replicate (k + 1) t) with
            decks := d ++ z ++ rest, normalCapacity := p.normalCapacity - 3 }
      ∧ z.length = k ∧ Nulls z ∧ (∀ m ∈ d, m.Real)
      ∧ faces d + Multiset.replicate k t.face = faces h := by
  obtain ⟨a, c, b, rfl, hlen, ha, hc⟩ := copies_split ht hh hcount
  have hcne : c ≠ [] := by
    rintro rfl
    rw [List.length_nil] at hlen
    omega
  have hreal : ∀ m ∈ a ++ b, m.isNull = false := by
    intro m hm
    refine (hh.real m ?_).not_null
    rcases List.mem_append.mp hm with hm | hm <;> simp [hm]
  have hrange : List.range (a ++ c ++ b).length
      = List.range' ([] : List Mj).length a.length
        ++ (List.range' a.length c.length
          ++ List.range' (a.length + c.length) b.length) := by
    rw [List.length_append, List.length_append]
    exact range_split _ _ _
  -- the removal loop
  have hremove : removeLoop t k (List.range (p.pushDoor t).normalCapacity)
      (p.pushDoor t) = { p.pushDoors (List.replicate (k + 1) t) with
        decks := a ++ c.map Mj.zero ++ (b ++ rest) } := by
    show removeLoop t k (List.range p.normalCapacity) (p.pushDoor t) = _
    rw [hnc, hrange, removeLoop_skip _ (c ++ b ++ rest) a [] _ ha, ← hlen,
      removeLoop_block (b ++ rest) _ c a (p.pushDoor t) _ hcne hc]
    · rfl
    · show p.decks = _
      rw [hd]
      simp
    · show p.decks = _
      rw [hd]
      simp
  -- the compaction loop
  have hzlen : (c.map Mj.zero).length = c.length := List.length_map _
  obtain ⟨d, z, hcompact, hperm, hzl, hznull⟩ :=
    @compactLoop_spec p.normalCapacity k
      (List.range' (a.length + c.length) b.length) (c.map Mj.zero) a b rest
      (nulls_zero c) (by simpa using hcne) (by rw [hnc]; simp; omega)
  rw [hzlen] at hcompact hzl
  refine ⟨d, z, ?_, hzl.trans hlen, hznull, ?_, ?_⟩
  · have hnc' : (p.pushDoors (List.replicate (k + 1) t)).normalCapacity
        = p.normalCapacity := (Player.pushDoors_fields _ p).2.2.2.2.1
    unfold layCopies
    simp only [hremove, hnc']
    have hskip := @compactLoop_skip p.normalCapacity k k
      (List.range' a.length c.length ++ List.range' (a.length + c.length) b.length)
      (c.map Mj.zero ++ b ++ rest) a []
      fun m hm => hreal m (List.mem_append_left b hm)
    have hloop : compactLoop p.normalCapacity k k (List.range p.normalCapacity)
        (a ++ c.map Mj.zero ++ (b ++ rest)) = d ++ z ++ rest := by
      rw [← hcompact, hlen]
      refine Eq.trans ?_ (hskip.trans ?_)
      · rw [hnc, hrange]
        simp
      · rw [hlen]
        simp
    rw [hloop]
  · intro m hm
    refine hh.real m ?_
    rcases List.mem_append.mp (hperm.mem_iff.mp hm) with hm | hm <;> simp [hm]
  · rw [faces_perm hperm, ← hlen, ← faces_eq_replicate hc]
    simp only [faces_append]
    exact add_right_comm _ _ _

/-- Sorting the first slots makes a hand of the tiles in them. -/
theorem sort_hand {d r : List Mj} {n : Nat} (hreal : ∀ m ∈ d, m.Real)
    (hlen : d.length = n + 1) :
    ∃ d', decksQuickSort (d ++ r) 0 n = d' ++ r ∧ Hand d' ∧ faces d' = faces d
      ∧ d'.length = d.length := by
  obtain ⟨d', he, hperm, hsort⟩ := quickSort_prefix Mj.key (t := r) hlen
  exact ⟨d', he, ⟨fun m hm => hreal m (hperm.mem_iff.mp hm), hsort⟩,
    faces_perm hperm, hperm.length_eq⟩

/-- The whole of a hand, which may be empty, is sorted. -/
theorem sort_whole {d r : List Mj} (hreal : ∀ m ∈ d, m.Real) :
    ∃ d', decksQuickSort (d ++ r) 0 (d.length - 1) = d' ++ r ∧ Hand d'
      ∧ faces d' = faces d ∧ d'.length = d.length := by
  cases d with
  | nil =>
      refine ⟨[], ?_, ⟨(fun m hm => nomatch hm), List.Pairwise.nil⟩, rfl, rfl⟩
      rw [decksQuickSort, quickSort, if_pos]
      exact Nat.le_refl 0
  | cons x d => exact sort_hand hreal rfl

-- ============================================================ gang and pong

/-- Gang: three copies go, the rest stays a hand, with `rest` three
slots further behind it. -/
theorem gangTiles_spec {t : Mj} (ht : t.Real) {h rest : List Mj} (hh : Hand h)
    (hcount : 3 ≤ (faces h).count t.face) {p : Player} (hd : p.decks = h ++ rest)
    (hnc : p.normalCapacity = h.length) (hpos : 4 ≤ h.length) :
    ∃ d z, gangTiles t p = { p.pushDoors (List.replicate 4 t) with
          decks := d ++ (z ++ rest), normalCapacity := p.normalCapacity - 3 }
      ∧ d.length = p.normalCapacity - 3 ∧ z.length = 3 ∧ Nulls z ∧ Hand d
      ∧ faces d + Multiset.replicate 3 t.face = faces h := by
  obtain ⟨d, z, he, hzl, hz, hreal, hfaces⟩ :=
    layCopies_spec (by decide) ht hh hcount hd hnc
  have hcard := congrArg Multiset.card hfaces
  rw [Multiset.card_add, card_faces, card_faces, Multiset.card_replicate] at hcard
  obtain ⟨d', hs, hd', hf', hl'⟩ := sort_hand (n := p.normalCapacity - 3 - 1)
    (r := z ++ rest) hreal (by omega)
  refine ⟨d', z, ?_, by omega, hzl, hz, hd', by rw [hf', hfaces]⟩
  rw [gangTiles, he, Player.sortDecks]
  simp only [List.append_assoc, hs]

/-- Pong: two copies go, the rest is a hand one tile longer than the
capacity. -/
theorem pongTiles_spec {t : Mj} (ht : t.Real) {h rest : List Mj} (hh : Hand h)
    (hcount : 2 ≤ (faces h).count t.face) {p : Player} (hd : p.decks = h ++ rest)
    (hnc : p.normalCapacity = h.length) (hpos : 4 ≤ h.length) :
    ∃ d z, pongTiles t p = { p.pushDoors (List.replicate 3 t) with
          decks := d ++ (z ++ rest), normalCapacity := p.normalCapacity - 3 }
      ∧ d.length = p.normalCapacity - 3 + 1 ∧ z.length = 2 ∧ Nulls z ∧ Hand d
      ∧ faces d + Multiset.replicate 2 t.face = faces h := by
  obtain ⟨d, z, he, hzl, hz, hreal, hfaces⟩ :=
    layCopies_spec (by decide) ht hh hcount hd hnc
  have hcard := congrArg Multiset.card hfaces
  rw [Multiset.card_add, card_faces, card_faces, Multiset.card_replicate] at hcard
  obtain ⟨d', hs, hd', hf', hl'⟩ := sort_hand (n := p.normalCapacity - 3)
    (r := z ++ rest) hreal (by omega)
  refine ⟨d', z, ?_, by omega, hzl, hz, hd', by rw [hf', hfaces]⟩
  rw [pongTiles, he, Player.sortDecks]
  simp only [List.append_assoc, hs]

-- ================================================================ discarding

theorem slotIndex_natCast (i : Nat) : slotIndex (i : Int) = i := by
  rw [slotIndex, if_neg (by omega), Int.toNat_natCast]

/-- Exchanging a slot with the last of a block, then emptying it. -/
theorem swap_last {h : List Mj} {x : Mj} {rest : List Mj} {i : Nat}
    (hi : i ≤ h.length) :
    ∃ h' y, swap (h ++ x :: rest) h.length i = h' ++ y :: rest
      ∧ (h ++ x :: rest).getD i Mj.null = y
      ∧ (h' ++ [y]).Perm (h ++ [x]) ∧ h'.length = h.length := by
  rcases Nat.lt_or_eq_of_le hi with hlt | heq
  · refine ⟨h.set i x, h[i], ?_, ?_, ?_, List.length_set⟩
    · have hx : (h ++ x :: rest)[h.length]? = some x := by simp
      have hy : (h ++ x :: rest)[i]? = some h[i] := by
        rw [List.getElem?_append_left hlt, List.getElem?_eq_getElem hlt]
      rw [swap, hx, hy]
      show ((h ++ x :: rest).set h.length h[i]).set i x = _
      rw [List.set_append_right _ _ (Nat.le_refl _), Nat.sub_self,
        List.set_cons_zero, List.set_append_left _ _ hlt]
    · rw [List.getD_eq_getElem?_getD, List.getElem?_append_left hlt,
        List.getElem?_eq_getElem hlt, Option.getD_some]
    · have hp := swap_perm (h ++ [x]) h.length i
      have hx : (h ++ [x])[h.length]? = some x := by simp
      have hy : (h ++ [x])[i]? = some h[i] := by
        rw [List.getElem?_append_left hlt, List.getElem?_eq_getElem hlt]
      rw [swap, hx, hy] at hp
      refine (List.Perm.of_eq ?_).trans hp
      show _ = ((h ++ [x]).set h.length h[i]).set i x
      rw [List.set_append_right _ _ (Nat.le_refl _), Nat.sub_self,
        List.set_cons_zero, List.set_append_left _ _ hlt]
  · subst heq
    refine ⟨h, x, ?_, getD_append_length h rest x, List.Perm.refl _, rfl⟩
    have hx : (h ++ x :: rest)[h.length]? = some x := by simp
    rw [swap, hx]
    show ((h ++ x :: rest).set h.length x).set h.length x = _
    rw [List.set_set, List.set_append_right _ _ (Nat.le_refl _), Nat.sub_self,
      List.set_cons_zero]

theorem discardTile_eq (i : Int) (p : Player) : discardTile i p
    = { p with
        decks := decksQuickSort
          ((swap p.decks p.normalCapacity (slotIndex i)).set p.normalCapacity
            ((swap p.decks p.normalCapacity (slotIndex i)).getD p.normalCapacity
              Mj.null).zero)
          0 (p.normalCapacity - 1) } := rfl

/-- A discard out of a hand with an extra tile: the slot chosen leaves,
the others are a hand again. -/
theorem discardTile_spec {h rest : List Mj} {x : Mj} (hh : ∀ m ∈ h, m.Real)
    (hx : x.Real) {p : Player} (hd : p.decks = h ++ x :: rest)
    (hnc : p.normalCapacity = h.length) {i : Nat} (hi : i ≤ p.normalCapacity) :
    ∃ h' z, discardTile (i : Int) p = { p with decks := h' ++ z :: rest }
      ∧ h'.length = h.length ∧ z.isNull = true ∧ Hand h' ∧ (p.deck i).Real
      ∧ (p.deck i).face ::ₘ faces h' = faces (h ++ [x]) := by
  obtain ⟨h', y, hswap, hget, hperm, hlen⟩ :=
    swap_last (x := x) (hnc ▸ hi)
  have hreal : ∀ m ∈ h' ++ [y], m.Real := by
    intro m hm
    rcases List.mem_append.mp (hperm.mem_iff.mp hm) with hm | hm
    · exact hh m hm
    · rw [List.mem_singleton.mp hm]
      exact hx
  obtain ⟨d, hs, hdh, hf, hl⟩ := sort_whole (d := h')
    (r := y.zero :: rest) fun m hm => hreal m (List.mem_append_left _ hm)
  rw [hlen, ← hnc] at hs
  have hdeck : p.deck i = y := by rw [Player.deck, hd, hget]
  refine ⟨d, y.zero, ?_, hl.trans hlen, rfl, hdh, ?_, ?_⟩
  · unfold discardTile
    simp only [slotIndex_natCast, Player.setDeck, Player.deck, Player.sortDecks]
    have hset : ((h' ++ y :: rest).set p.normalCapacity y.zero)
        = h' ++ y.zero :: rest := by
      rw [hnc, ← hlen, List.set_append_right _ _ (Nat.le_refl _), Nat.sub_self,
        List.set_cons_zero]
    have hlast : (h' ++ y :: rest).getD p.normalCapacity Mj.null = y := by
      rw [hnc, ← hlen]
      exact getD_append_length h' rest y
    rw [hd, hnc, hswap, ← hnc, hlast, hset, hs]
  · rw [hdeck]
    exact hreal y (by simp)
  · rw [hdeck, hf, ← faces_perm hperm, faces_append, faces_cons, faces_nil,
      Multiset.add_cons, add_zero]

-- ==================================================================== eating

theorem faces_set {l : List Mj} {i : Nat} (hi : i < l.length) (x : Mj) :
    l[i].face ::ₘ faces (l.set i x) = x.face ::ₘ faces l := by
  induction l generalizing i with
  | nil => exact absurd hi (by simp)
  | cons m l ih =>
      cases i with
      | zero =>
          rw [List.set_cons_zero, faces_cons, faces_cons, List.getElem_cons_zero]
          exact Multiset.cons_swap _ _ _
      | succ i =>
          have hi' : i < l.length := by simpa using hi
          rw [List.set_cons_succ, faces_cons, faces_cons, List.getElem_cons_succ,
            Multiset.cons_swap, ih hi', Multiset.cons_swap]

/-- The hand after an eat with slots `i` and `j`: both emptied, then
exchanged with the last two slots. -/
def eatHand (h : List Mj) (i j : Nat) : List Mj :=
  swap (swap ((h.set i (h.getD i Mj.null).zero).set j (h.getD j Mj.null).zero)
    i (h.length - 1)) j (h.length - 2)

section EatHand

variable {h : List Mj} {i j : Nat}

theorem eatHand_length : (eatHand h i j).length = h.length := by
  simp [eatHand]

theorem eatHand_perm : (eatHand h i j).Perm
    ((h.set i (h.getD i Mj.null).zero).set j (h.getD j Mj.null).zero) :=
  (swap_perm _ _ _).trans (swap_perm _ _ _)

/-- Up to the two empty slots the hand is as before. -/
theorem faces_eatHand (hi : i < h.length) (hj : j < h.length) (hij : i ≠ j) :
    h[i].face ::ₘ h[j].face ::ₘ faces (eatHand h i j)
      = (0, 0) ::ₘ (0, 0) ::ₘ faces h := by
  have hj' : j < (h.set i (h.getD i Mj.null).zero).length := by simpa using hj
  have hji : (h.set i (h.getD i Mj.null).zero)[j] = h[j] := List.getElem_set_ne hij _
  have h1 := faces_set hi (h.getD i Mj.null).zero
  have h2 := faces_set hj' (h.getD j Mj.null).zero
  rw [hji, Mj.face_zero] at h2
  rw [Mj.face_zero] at h1
  rw [faces_perm eatHand_perm, h2, Multiset.cons_swap, h1]

/-- Every slot of the hand after an eat, over the hand `g` with the two
slots emptied. -/
theorem eatHand_getElem? {g : List Mj}
    (hg : g = (h.set i (h.getD i Mj.null).zero).set j (h.getD j Mj.null).zero)
    (hi : i < h.length) (hj : j < h.length) (hij : i ≠ j) (k : Nat) :
    (eatHand h i j)[k]?
      = if k = h.length - 2 then
          if j = h.length - 1 then g[i]? else g[j]?
        else if k = j then
          if h.length - 2 = i then g[h.length - 1]? else g[h.length - 2]?
        else if k = h.length - 1 then g[i]?
        else if k = i then g[h.length - 1]? else g[k]? := by
  have hlen : g.length = h.length := by simp [hg]
  rw [eatHand, ← hg, swap_getElem? (by rw [length_swap, hlen]; exact hj)
    (by rw [length_swap, hlen]; omega)]
  have hinner : ∀ l, (swap g i (h.length - 1))[l]?
      = if l = h.length - 1 then g[i]? else if l = i then g[h.length - 1]?
        else g[l]? :=
    swap_getElem? (by rw [hlen]; exact hi) (by rw [hlen]; omega)
  rw [hinner, hinner, hinner, if_neg (Ne.symm hij),
    if_neg (by omega : ¬ h.length - 2 = h.length - 1)]

theorem emptied (hi : i < h.length) (hj : j < h.length) (hij : i ≠ j) :
    ((h.set i (h.getD i Mj.null).zero).set j (h.getD j Mj.null).zero)[i]?
        = some (h.getD i Mj.null).zero
      ∧ ((h.set i (h.getD i Mj.null).zero).set j (h.getD j Mj.null).zero)[j]?
        = some (h.getD j Mj.null).zero := by
  constructor
  · rw [List.getElem?_set_ne (Ne.symm hij), List.getElem?_set_self hi]
  · exact List.getElem?_set_self (by rw [List.length_set]; exact hj)

/-- The last two slots are empty, but for the bad case: the last slot is
given second and the first index is not the slot before. -/
theorem eatHand_last (hi : i < h.length) (hj : j < h.length) (hij : i ≠ j)
    (hgood : ¬ (j = h.length - 1 ∧ i ≠ h.length - 2)) :
    ((eatHand h i j).getD (h.length - 2) Mj.null).isNull = true
      ∧ ((eatHand h i j).getD (h.length - 1) Mj.null).isNull = true := by
  obtain ⟨hgi, hgj⟩ := emptied hi hj hij
  constructor
  · rw [List.getD_eq_getElem?_getD, eatHand_getElem? rfl hi hj hij, if_pos rfl,
      hgi, hgj]
    split <;> rfl
  · rw [List.getD_eq_getElem?_getD, eatHand_getElem? rfl hi hj hij,
      if_neg (by omega : ¬ h.length - 1 = h.length - 2), hgi]
    by_cases hj' : h.length - 1 = j
    · -- then `i` is the slot before
      have hi' : h.length - 2 = i := by
        by_contra hne
        exact hgood ⟨hj'.symm, Ne.symm hne⟩
      rw [if_pos hj', if_pos hi', hj', hgj]
      rfl
    · rw [if_neg hj', if_pos rfl]
      rfl

/-- In the bad case slot `i` stays empty, and the tile before the last
slot moves behind it. -/
theorem eatHand_hole (hi : i < h.length - 2) (hj : j = h.length - 1) :
    ((eatHand h i j).getD i Mj.null).isNull = true
      ∧ (eatHand h i j)[j]? = h[h.length - 2]? := by
  obtain ⟨hgi, hgj⟩ := emptied (h := h) (i := i) (j := j) (by omega) (by omega)
    (by omega)
  rw [List.getD_eq_getElem?_getD,
    eatHand_getElem? rfl (by omega) (by omega) (by omega),
    eatHand_getElem? rfl (by omega) (by omega) (by omega), if_neg (by omega),
    if_neg (by omega), if_neg (by omega), if_pos rfl, ← hj, hgj,
    if_neg (by omega), if_pos rfl, if_neg (by omega),
    List.getElem?_set_ne (by omega), List.getElem?_set_ne (by omega)]
  exact ⟨rfl, rfl⟩

end EatHand

/-- Three tiles the eat loop accepts are a run, in order. -/
theorem eatable_faces {temp : List Mj} (hlen : temp.length = 3)
    (h : eatable temp = true) :
    ∃ ty n, temp.map Mj.face = [(ty, n), (ty, n + 1), (ty, n + 2)] := by
  match temp, hlen with
  | [a, b, c], _ =>
      simp only [eatable, List.getD_cons_zero, List.getD_cons_succ,
        decide_eq_true_eq] at h
      obtain ⟨hab, hbc, hn1, hn2⟩ := h
      refine ⟨a.type, a.number, ?_⟩
      simp only [List.map_cons, List.map_nil, Mj.face, List.cons.injEq, Prod.mk.injEq,
        true_and, and_true]
      omega

theorem eatTemp_perm (p : Player) (discarded : Mj) (i j : Int) :
    (eatTemp p discarded i j).Perm
      [p.deck (slotIndex i), p.deck (slotIndex j), discarded] :=
  (quickSort_seg Mj.key _ 0 2 (by simp)).perm

/-- What an accepted pair of indices is: two different slots of the
hand, which form a run with the discard. -/
structure EatPair (p : Player) (h : List Mj) (discarded : Mj) (i j : Int)
    (a b : Nat) : Prop where
  fst : i = (a : Int)
  snd : j = (b : Int)
  lt_fst : a < h.length
  lt_snd : b < h.length
  ne : a ≠ b
  run : ∃ n, (eatTemp p discarded i j).map Mj.face
    = [(discarded.type, n), (discarded.type, n + 1), (discarded.type, n + 2)]

theorem eatable_pair {p : Player} {h rest : List Mj} (hd : p.decks = h ++ rest)
    (hrest : Nulls rest) (hlen : p.decks.length = 20) {discarded : Mj}
    (hreal : discarded.Real) {i j : Int}
    (hok : eatable (eatTemp p discarded i j) = true) :
    ∃ a b, EatPair p h discarded i j a b := by
  have hperm := eatTemp_perm p discarded i j
  obtain ⟨t, n, hrun⟩ := eatable_faces hperm.length_eq hok
  have hfaces := faces_perm hperm
  rw [faces, hrun] at hfaces
  have htype : ∀ f ∈ faces [p.deck (slotIndex i), p.deck (slotIndex j), discarded],
      f.1 = t := by
    rw [← hfaces]
    simp only [Multiset.mem_coe, List.mem_cons, List.not_mem_nil, or_false]
    rintro f (rfl | rfl | rfl) <;> rfl
  have ht : discarded.type = t := htype discarded.face (by simp)
  -- a slot with that type is in the hand
  have hslot : ∀ l : Int, (p.deck (slotIndex l)).type = t →
      ∃ a : Nat, l = (a : Int) ∧ a < h.length ∧ slotIndex l = a := by
    intro l hl
    have hnull : (p.deck (slotIndex l)).isNull = false := by
      unfold Mj.Real at hreal
      simp only [Mj.isNull, Bool.and_eq_false_iff, beq_eq_false_iff_ne]
      omega
    have hlt : slotIndex l < h.length := by
      by_contra hge
      rw [Player.deck, List.getD_eq_getElem?_getD, hd,
        List.getElem?_append_right (by omega)] at hnull
      cases hr : rest[slotIndex l - h.length]? with
      | none => rw [hr] at hnull; exact absurd hnull (by decide)
      | some m =>
          rw [hr, Option.getD_some, hrest m (List.mem_of_getElem? hr)] at hnull
          exact absurd hnull Bool.false_ne_true.symm
    have hpos : 0 ≤ l := by
      by_contra hneg
      have hle : h.length ≤ 20 := by
        rw [← hlen, hd, List.length_append]
        omega
      rw [slotIndex, if_pos (by omega)] at hlt
      omega
    rw [slotIndex, if_neg (by omega)] at hlt ⊢
    exact ⟨l.toNat, by omega, hlt, rfl⟩
  obtain ⟨a, rfl, ha, hai⟩ := hslot i (htype (p.deck (slotIndex i)).face (by simp))
  obtain ⟨b, rfl, hb, hbj⟩ := hslot j (htype (p.deck (slotIndex j)).face (by simp))
  rw [← ht] at hrun hfaces
  refine ⟨a, b, rfl, rfl, ha, hb, ?_, n, hrun⟩
  rintro rfl
  -- one slot twice is no run
  have hnodup : (([(discarded.type, n), (discarded.type, n + 1), (discarded.type, n + 2)] :
      List Face) : Multiset Face).Nodup := by
    simp
  rw [hfaces] at hnodup
  simp at hnodup

/-- What an eat does to a player, whatever the pair. -/
theorem eatTiles_eq {p : Player} {h rest : List Mj} (hd : p.decks = h ++ rest)
    (hnc : p.normalCapacity = h.length) {discarded : Mj} {i j : Int} {a b : Nat}
    (hpair : EatPair p h discarded i j a b) :
    eatTiles (eatTemp p discarded i j) i j p
      = { p.pushDoors (eatTemp p discarded i j) with
          decks := decksQuickSort (eatHand h a b ++ rest) 0 (p.normalCapacity - 3),
          normalCapacity := p.normalCapacity - 3 } := by
  obtain ⟨rfl, rfl, ha, hb, hne, -⟩ := hpair
  have hlen : (eatTemp p discarded a b).length = 3 :=
    (eatTemp_perm p discarded a b).length_eq
  generalize eatTemp p discarded a b = temp at hlen ⊢
  match temp, hlen with
  | [x, y, z], _ =>
      have hset : ∀ (l : List Mj) (k : Nat) (m : Mj), k < l.length →
          (l ++ rest).set k m = l.set k m ++ rest :=
        fun l k m hk => List.set_append_left _ _ hk
      have hget : ∀ (l : List Mj) (k : Nat), k < l.length →
          (l ++ rest).getD k Mj.null = l.getD k Mj.null := by
        intro l k hk
        rw [List.getD_eq_getElem?_getD, List.getD_eq_getElem?_getD,
          List.getElem?_append_left hk]
      have hswap : ∀ (l : List Mj) (k k' : Nat), k < l.length → k' < l.length →
          swap (l ++ rest) k k' = swap l k k' ++ rest := by
        intro l k k' hk hk'
        have hm := swap_middle [] l rest hk hk'
        simpa using hm
      have hgb : (h.set a (h.getD a Mj.null).zero).getD b Mj.null
          = h.getD b Mj.null := by
        simp only [List.getD_eq_getElem?_getD, List.getElem?_set_ne hne]
      simp only [eatTiles, slotIndex_natCast, Player.setDeck, Player.deck,
        Player.pushDoor, Player.sortDecks, Player.pushDoors_cons,
        Player.pushDoors_nil, List.getD_cons_zero, List.getD_cons_succ, hd]
      rw [hget h a ha, hset h a _ ha, hget _ b (by rw [List.length_set]; exact hb),
        hgb, hset _ b _ (by rw [List.length_set]; exact hb),
        hswap _ a _ (by simpa using ha) (by simp; omega),
        hswap _ b _ (by simpa using hb) (by simp; omega), hnc]
      rfl

/-- A good eat: the two tiles go, the rest is a hand one tile longer
than the capacity. -/
theorem eatTiles_spec {p : Player} {h rest : List Mj} (hh : Hand h)
    (hd : p.decks = h ++ rest) (hnc : p.normalCapacity = h.length)
    (hpos : 4 ≤ h.length) {discarded : Mj} {i j : Int} {a b : Nat}
    (hpair : EatPair p h discarded i j a b)
    (hgood : ¬ (b = h.length - 1 ∧ a ≠ h.length - 2)) :
    ∃ d z, eatTiles (eatTemp p discarded i j) i j p
        = { p.pushDoors (eatTemp p discarded i j) with
            decks := d ++ (z ++ rest), normalCapacity := p.normalCapacity - 3 }
      ∧ d.length = p.normalCapacity - 3 + 1 ∧ z.length = 2 ∧ Nulls z ∧ Hand d
      ∧ faces d + faces (eatTemp p discarded i j) = discarded.face ::ₘ faces h := by
  have ha := hpair.lt_fst
  have hb := hpair.lt_snd
  have hlen : (eatHand h a b).length = h.length := eatHand_length
  obtain ⟨hn2, hn1⟩ := eatHand_last ha hb hpair.ne hgood
  -- the hand before the sort: `d`, then two empty slots
  obtain ⟨d, z, hdz, hdlen, hzlen⟩ : ∃ d z, eatHand h a b = d ++ z
      ∧ d.length = h.length - 2 ∧ z.length = 2 :=
    ⟨(eatHand h a b).take (h.length - 2), (eatHand h a b).drop (h.length - 2),
      (List.take_append_drop _ _).symm, by rw [List.length_take]; omega,
      by rw [List.length_drop]; omega⟩
  have hz : Nulls z := by
    match z, hzlen with
    | [x, y], _ =>
        have hx : (eatHand h a b).getD (h.length - 2) Mj.null = x := by
          rw [hdz, ← hdlen]
          exact getD_append_length d [y] x
        have hy : (eatHand h a b).getD (h.length - 1) Mj.null = y := by
          have hlast : h.length - 1 = (d ++ [x]).length := by
            rw [List.length_append, List.length_singleton]
            omega
          rw [hdz, hlast, List.append_cons]
          exact getD_append_length (d ++ [x]) [] y
        rw [← hx, ← hy]
        exact Nulls.cons hn2 (Nulls.cons hn1 fun m hm => nomatch hm)
  have hfaces := faces_eatHand ha hb hpair.ne
  rw [hdz, faces_append, hz.faces, hzlen] at hfaces
  have hkeep : h[a].face ::ₘ h[b].face ::ₘ faces d = faces h := by
    have h2 : Multiset.replicate 2 ((0, 0) : Face) = {(0, 0), (0, 0)} := rfl
    rw [h2] at hfaces
    have hswap : h[a].face ::ₘ h[b].face ::ₘ (faces d + {(0, 0), (0, 0)})
        = (0, 0) ::ₘ (0, 0) ::ₘ (h[a].face ::ₘ h[b].face ::ₘ faces d) := by
      rw [← Multiset.cons_add, ← Multiset.cons_add, add_comm]
      rfl
    rw [hswap] at hfaces
    exact (Multiset.cons_inj_right _).mp ((Multiset.cons_inj_right _).mp hfaces)
  have hreal : ∀ m ∈ d, m.Real := by
    intro m hm
    have hmem : m.face ∈ faces h := by
      rw [← hkeep]
      exact Multiset.mem_cons_of_mem (Multiset.mem_cons_of_mem
        (mem_faces.mpr ⟨m, hm, rfl⟩))
    obtain ⟨x, hx, hface⟩ := mem_faces.mp hmem
    exact Mj.Real.congr hface (hh.real x hx)
  obtain ⟨d', hs, hd', hf', hl'⟩ := sort_hand (n := p.normalCapacity - 3)
    (r := z ++ rest) hreal (by omega)
  refine ⟨d', z, ?_, by omega, hzlen, hz, hd', ?_⟩
  · rw [eatTiles_eq hd hnc hpair, hdz, List.append_assoc, hs]
  · have htemp := faces_perm (eatTemp_perm p discarded i j)
    have hdeck : ∀ k : Nat, (hk : k < h.length) → p.deck k = h[k] := by
      intro k hk
      rw [Player.deck, hd, List.getD_eq_getElem?_getD, List.getElem?_append_left hk,
        List.getElem?_eq_getElem hk, Option.getD_some]
    rw [hpair.fst, hpair.snd, slotIndex_natCast, slotIndex_natCast, hdeck a ha,
      hdeck b hb] at htemp
    rw [hf', ← hkeep, hpair.fst, hpair.snd, htemp]
    simp only [faces_cons, faces_nil, Multiset.add_cons, add_zero]
    rw [Multiset.cons_swap (h[b].face), Multiset.cons_swap (h[a].face)]

/-- The bad case of an eat: an empty slot inside the hand. -/
theorem eatTiles_hole {p : Player} {h rest : List Mj}
    (hd : p.decks = h ++ rest) (hnc : p.normalCapacity = h.length)
    (hpos : 4 ≤ h.length) {discarded : Mj} {i j : Int} {a b : Nat}
    (hpair : EatPair p h discarded i j a b)
    (hbad : b = h.length - 1 ∧ a ≠ h.length - 2) :
    ∃ d, eatTiles (eatTemp p discarded i j) i j p
        = { p.pushDoors (eatTemp p discarded i j) with
            decks := d, normalCapacity := p.normalCapacity - 3 }
      ∧ d.length = p.decks.length
      ∧ ∃ m ∈ d.take (p.normalCapacity - 3 + 1), m.isNull = true := by
  have ha := hpair.lt_fst
  have hne := hpair.ne
  have hlen : (eatHand h a b).length = h.length := eatHand_length
  have hhole := (eatHand_hole (h := h) (i := a) (j := b) (by omega) hbad.1).1
  have hseg := quickSort_seg Mj.key (eatHand h a b ++ rest) 0 (p.normalCapacity - 3)
    (by rw [List.length_append]; omega)
  refine ⟨_, eatTiles_eq hd hnc hpair, ?_, ?_⟩
  · rw [decksQuickSort, hseg.length_eq, List.length_append, hlen, ← List.length_append,
      ← hd]
  · have hslot : (eatHand h a b).getD a Mj.null
        ∈ (eatHand h a b ++ rest).take (p.normalCapacity - 3 + 1) := by
      rw [List.getD_eq_getElem?_getD, List.getElem?_eq_getElem (by omega),
        Option.getD_some, List.mem_take_iff_getElem]
      refine ⟨a, by rw [List.length_append]; omega, ?_⟩
      rw [List.getElem_append_left (by omega)]
    exact ⟨_, hseg.take_perm.mem_iff.mpr hslot, hhole⟩

end Mahjong
