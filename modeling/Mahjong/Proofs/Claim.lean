/-
What laying down a set leaves of a hand, and when a discard can be
eaten.

Pong, gang and a good eat leave a hand without gaps (`LaidDown`). An eat
whose second index is the last slot while the first is not the slot
before leaves a gap (`eat_compact_iff`): its two swaps get in each
other's way. The offer to eat agrees with the test of the eat loop
(`eat_offer_exact`).
-/
import Mahjong.Proofs.WinTest
import Mahjong.Proofs.Hand
import Mahjong.Lib.CString

namespace Mahjong

open QuickSort

-- ============================================================ hands in an array

/-- The slots of a player hold the hand `h` and nothing else. For every
set on the door the hand is three tiles shorter. -/
structure InHand (p : Player) (h : List Mj) : Prop where
  hand : Hand h
  capacity : p.normalCapacity = h.length
  slots : ∃ rest, p.decks = h ++ rest ∧ Nulls rest
  length : p.decks.length = 20
  sets : ∃ k, h.length + 3 * k = 16 ∧ p.doorIndex ≤ 4 * k
  door_length : p.door.length = 20

/-- Between `p` with hand `h` and `p'` the set `ts` was laid down, for
which the tiles `used` left the hand: the others are still a hand, with
`extra` tiles more than the capacity, and every slot behind is empty. -/
structure LaidDown (p p' : Player) (h ts : List Mj) (used : Multiset Face)
    (extra : Nat) : Prop where
  capacity : p'.normalCapacity + 3 = p.normalCapacity
  slots : ∃ d rest, p'.decks = d ++ rest ∧ Hand d ∧ Nulls rest
    ∧ d.length = p'.normalCapacity + extra ∧ used + faces d = faces h
  length : p'.decks.length = 20
  door : p'.doorTiles = p.doorTiles ++ ts
  flowers : p'.flowers = p.flowers ∧ p'.flowerIndex = p.flowerIndex
  sea : p'.sea = p.sea ∧ p'.seaIndex = p.seaIndex

/-- Whoever has two tiles has four, and room on the door for a set. -/
theorem InHand.room {p : Player} {h : List Mj} (hp : InHand p h) (hl : 2 ≤ h.length) :
    4 ≤ h.length ∧ p.doorIndex + 4 ≤ p.door.length := by
  obtain ⟨k, hk, hdoor⟩ := hp.sets
  rw [hp.door_length]
  omega

theorem count_le_length {h : List Mj} {f : Face} {n : Nat}
    (hc : n ≤ (faces h).count f) : n ≤ h.length := by
  rw [← card_faces]
  exact hc.trans (Multiset.count_le_card _ _)

theorem InHand.deck {p : Player} {h : List Mj} (hp : InHand p h) {i : Nat}
    (hi : i < h.length) : p.deck i = h[i] := by
  obtain ⟨rest, hd, -⟩ := hp.slots
  rw [Player.deck, hd, List.getD_eq_getElem?_getD, List.getElem?_append_left hi,
    List.getElem?_eq_getElem hi, Option.getD_some]

/-- The rows of a player who has laid down `ts`, with slots `d`. -/
theorem laidDown {p : Player} {h d z rest ts : List Mj} {used : Multiset Face}
    {extra : Nat} (hnc : 3 ≤ p.normalCapacity) (hlen : (d ++ (z ++ rest)).length = 20)
    (hdoor : p.doorIndex + ts.length ≤ p.door.length) (hd : Hand d)
    (hz : Nulls (z ++ rest)) (hdl : d.length = p.normalCapacity - 3 + extra)
    (hfaces : used + faces d = faces h) :
    LaidDown p { p.pushDoors ts with
      decks := d ++ (z ++ rest), normalCapacity := p.normalCapacity - 3 } h ts used
      extra := by
  obtain ⟨f1, f2, f3, f4, -⟩ := Player.pushDoors_fields ts p
  refine ⟨Nat.sub_add_cancel hnc, ⟨d, z ++ rest, rfl, hd, hz, hdl, hfaces⟩, hlen, ?_,
    ⟨f2, f1⟩, f4, f3⟩
  exact Player.doorTiles_pushDoors ts hdoor

section Copies

variable {p : Player} {h : List Mj} {t : Mj}

/-- Gang: three copies leave the hand. -/
theorem InHand.gangTiles (hp : InHand p h) (ht : t.Real)
    (hcount : 3 ≤ (faces h).count t.face) :
    LaidDown p (gangTiles t p) h [t, t, t, t] {t.face, t.face, t.face} 0 := by
  obtain ⟨rest, hd, hrest⟩ := hp.slots
  have hle := count_le_length hcount
  obtain ⟨hpos, hdoor⟩ := hp.room (by omega)
  have hnc := hp.capacity
  obtain ⟨d, z, he, hdl, hzl, hz, hdh, hfaces⟩ :=
    gangTiles_spec ht hp.hand hcount hd hnc hpos
  rw [he]
  refine laidDown (by omega) ?_ ?_ hdh (hz.append hrest) hdl ?_
  · have h20 := hp.length
    rw [hd] at h20
    simp only [List.length_append] at h20 ⊢
    omega
  · simp only [List.length_replicate]
    omega
  · rw [← hfaces, add_comm]
    rfl

/-- Pong: two copies leave the hand, however many it holds. -/
theorem InHand.pongTiles (hp : InHand p h) (ht : t.Real)
    (hcount : 2 ≤ (faces h).count t.face) :
    LaidDown p (pongTiles t p) h [t, t, t] {t.face, t.face} 1 := by
  obtain ⟨rest, hd, hrest⟩ := hp.slots
  have hle := count_le_length hcount
  obtain ⟨hpos, hdoor⟩ := hp.room (by omega)
  have hnc := hp.capacity
  obtain ⟨d, z, he, hdl, hzl, hz, hdh, hfaces⟩ :=
    pongTiles_spec ht hp.hand hcount hd hnc hpos
  rw [he]
  refine laidDown (by omega) ?_ ?_ hdh (hz.append hrest) hdl ?_
  · have h20 := hp.length
    rw [hd] at h20
    simp only [List.length_append] at h20 ⊢
    omega
  · simp only [List.length_replicate]
    omega
  · rw [← hfaces, add_comm]
    rfl

end Copies

-- ==================================================================== eating

/-- What an eat of `t` with the slots `a` and `b` should do: the run goes
to the door in order, the rest stays a hand without gaps. -/
def EatenWell (p p' : Player) (h : List Mj) (t : Mj) (a b : Nat) : Prop :=
  ∃ run : List Mj,
    (∃ n, run.map Mj.face = [(t.type, n), (t.type, n + 1), (t.type, n + 2)])
      ∧ faces run = {(p.deck a).face, (p.deck b).face, t.face}
      ∧ LaidDown p p' h run {(p.deck a).face, (p.deck b).face} 1

section Eaten

variable {p : Player} {h : List Mj} {t : Mj} {a b : Nat}

/-- The pair of an accepted eat, and the room there is. -/
theorem InHand.eatPair (hp : InHand p h) (ht : t.Real)
    (hok : eatable (eatTemp p t a b) = true) :
    EatPair p h t a b a b ∧ 4 ≤ h.length ∧ p.doorIndex + 4 ≤ p.door.length := by
  obtain ⟨rest, hd, hrest⟩ := hp.slots
  obtain ⟨a', b', hpair⟩ := eatable_pair hd hrest hp.length ht hok
  obtain rfl : a = a' := Int.ofNat_inj.mp hpair.fst
  obtain rfl : b = b' := Int.ofNat_inj.mp hpair.snd
  have ha := hpair.lt_fst
  have hb := hpair.lt_snd
  have hne := hpair.ne
  exact ⟨hpair, hp.room (by omega)⟩

/-- With the last slot second, and the slot before not first, a gap stays
in the hand. -/
theorem not_eatenWell (hp : InHand p h) (ht : t.Real)
    (hok : eatable (eatTemp p t a b) = true)
    (hbad : b = p.normalCapacity - 1 ∧ a ≠ p.normalCapacity - 2) :
    ¬ EatenWell p (eatTiles (eatTemp p t a b) a b p) h t a b := by
  rintro ⟨run, -, -, hl⟩
  obtain ⟨hpair, hpos, -⟩ := hp.eatPair ht hok
  obtain ⟨rest, hd, -⟩ := hp.slots
  have hnc := hp.capacity
  rw [hnc] at hbad
  obtain ⟨d, he, -, m, hm, hnull⟩ := eatTiles_hole hd hnc hpos hpair hbad
  obtain ⟨d', rest', hd', hhand, -, hlen, -⟩ := hl.slots
  rw [he] at hd' hlen
  have hd'' : d = d' ++ rest' := hd'
  have hlen' : d'.length = p.normalCapacity - 3 + 1 := hlen
  rw [hd'', ← hlen', List.take_left] at hm
  rw [(hhand.real m hm).not_null] at hnull
  exact nomatch hnull

/-- In all other cases the two swaps close the hand. -/
theorem eatenWell (hp : InHand p h) (ht : t.Real)
    (hok : eatable (eatTemp p t a b) = true)
    (hgood : ¬ (b = p.normalCapacity - 1 ∧ a ≠ p.normalCapacity - 2)) :
    EatenWell p (eatTiles (eatTemp p t a b) a b p) h t a b := by
  obtain ⟨hpair, hpos, hdoor⟩ := hp.eatPair ht hok
  obtain ⟨rest, hd, hrest⟩ := hp.slots
  have hnc := hp.capacity
  rw [hnc] at hgood
  obtain ⟨d, z, he, hdl, hzl, hz, hdh, hfaces⟩ :=
    eatTiles_spec hp.hand hd hnc hpos hpair hgood
  have hperm := eatTemp_perm p t a b
  have htemp : faces (eatTemp p t a b)
      = {(p.deck a).face, (p.deck b).face, t.face} := by
    rw [faces_perm hperm, slotIndex_natCast, slotIndex_natCast]
    rfl
  refine ⟨_, hpair.run, htemp, ?_⟩
  rw [he]
  refine laidDown (by omega) ?_ ?_ hdh (hz.append hrest) hdl ?_
  · have h20 := hp.length
    rw [hd] at h20
    simp only [List.length_append] at h20 ⊢
    omega
  · rw [hperm.length_eq, List.length_cons, List.length_cons, List.length_singleton]
    omega
  · rw [htemp] at hfaces
    refine (Multiset.cons_inj_right t.face).mp ?_
    rw [← hfaces, add_comm, ← Multiset.add_cons]
    congr 1
    exact Multiset.coe_eq_coe.mpr
      (List.perm_append_comm : ([t.face] ++ [(p.deck a).face, (p.deck b).face]).Perm _)

end Eaten

/-- An accepted eat leaves a compact hand if and only if it is not the
case that the second index is the last slot of the hand and the first is
another than the slot before. -/
theorem eat_compact_iff {p : Player} {h : List Mj} (hp : InHand p h) {t : Mj}
    (ht : t.Real) {a b : Nat} (hok : eatable (eatTemp p t a b) = true) :
    EatenWell p (eatTiles (eatTemp p t a b) a b p) h t a b
      ↔ ¬ (b = p.normalCapacity - 1 ∧ a ≠ p.normalCapacity - 2) :=
  ⟨fun he hbad => not_eatenWell hp ht hok hbad he, eatenWell hp ht hok⟩

/-- A player with sets on the door and four tiles in hand. -/
def fourTiles (m₀ m₁ m₂ m₃ : Mj) : Player :=
  { Player.gameinfoInit with
    decks := [m₀, m₁, m₂, m₃] ++ List.replicate 16 Mj.null,
    normalCapacity := 4, doorIndex := 12 }

theorem fourTiles_inHand {m₀ m₁ m₂ m₃ : Mj} (hh : Hand [m₀, m₁, m₂, m₃]) :
    InHand (fourTiles m₀ m₁ m₂ m₃) [m₀, m₁, m₂, m₃] :=
  ⟨hh, rfl, ⟨_, rfl, nulls_replicate 16⟩, rfl, ⟨4, rfl, (by decide : 12 ≤ 16)⟩, rfl⟩

/-- The seven eaten with the eight and the nine given in this order: the
nine is the last slot. -/
theorem eat_hole_at_the_end :
    ¬ ∀ (p : Player) (h : List Mj) (t : Mj) (a b : Nat), InHand p h → t.Real →
      t.type ≠ dazi → a < p.normalCapacity → b < p.normalCapacity →
      eatable (eatTemp p t a b) = true →
      EatenWell p (eatTiles (eatTemp p t a b) a b p) h t a b := by
  intro hall
  have hp : InHand (fourTiles ⟨1, 1, 0⟩ ⟨3, 8, 0⟩ ⟨3, 8, 0⟩ ⟨3, 9, 0⟩) _ :=
    fourTiles_inHand ⟨by decide, by decide⟩
  have hok : eatable (eatTemp (fourTiles ⟨1, 1, 0⟩ ⟨3, 8, 0⟩ ⟨3, 8, 0⟩ ⟨3, 9, 0⟩)
      ⟨3, 7, 0⟩ (1 : Nat) (3 : Nat)) = true := by decide +kernel
  exact not_eatenWell hp (by decide) hok ⟨by decide, by decide⟩
    (hall _ _ _ _ _ hp (by decide) (by decide) (by decide) (by decide) hok)

/-- The same two tiles given the other way round. -/
theorem eat_compact_reversed :
    EatenWell (fourTiles ⟨1, 1, 0⟩ ⟨3, 8, 0⟩ ⟨3, 8, 0⟩ ⟨3, 9, 0⟩)
      (eatTiles (eatTemp (fourTiles ⟨1, 1, 0⟩ ⟨3, 8, 0⟩ ⟨3, 8, 0⟩ ⟨3, 9, 0⟩)
        ⟨3, 7, 0⟩ (3 : Nat) (1 : Nat)) (3 : Nat) (1 : Nat) (fourTiles ⟨1, 1, 0⟩ ⟨3, 8, 0⟩ ⟨3, 8, 0⟩ ⟨3, 9, 0⟩))
      [⟨1, 1, 0⟩, ⟨3, 8, 0⟩, ⟨3, 8, 0⟩, ⟨3, 9, 0⟩] ⟨3, 7, 0⟩ 3 1 :=
  (eat_compact_iff (fourTiles_inHand ⟨by decide, by decide⟩) (by decide)
    (by decide +kernel)).mpr (by decide)

-- ============================================================ the offer to eat

/-- A discard with face `t` completes a run with two tiles of the
hand. -/
def CanEat (hand : Multiset Face) (t : Face) : Prop :=
  ∃ n f g, f ∈ hand ∧ g ∈ hand
    ∧ ({(t.1, n), (t.1, n + 1), (t.1, n + 2)} : Multiset Face) = {f, g, t}

/-- A run that holds `t` has two more tiles, which stand to `t` in one of
three ways. -/
theorem canEat_iff {hand : Multiset Face} {ty m : Int} :
    CanEat hand (ty, m) ↔ ((ty, m + 1) ∈ hand ∧ (ty, m + 2) ∈ hand)
      ∨ ((ty, m - 1) ∈ hand ∧ (ty, m + 1) ∈ hand)
      ∨ ((ty, m - 2) ∈ hand ∧ (ty, m - 1) ∈ hand) := by
  constructor
  · rintro ⟨n, f, g, hf, hg, he⟩
    simp only at he
    -- a tile of the run other than the discard is one of the two
    have hother : ∀ x ∈ ({(ty, n), (ty, n + 1), (ty, n + 2)} : Multiset Face),
        x ≠ (ty, m) → x ∈ hand := by
      intro x hx hne
      rw [he] at hx
      simp only [Multiset.insert_eq_cons, Multiset.mem_cons, Multiset.mem_singleton] at hx
      rcases hx with rfl | rfl | rfl
      · exact hf
      · exact hg
      · exact absurd rfl hne
    have hne : ∀ {a b : Int}, a ≠ b → ((ty, a) : Face) ≠ (ty, b) :=
      fun hab hx => hab (congrArg Prod.snd hx)
    have hmem : ((ty, m) : Face) ∈ ({(ty, n), (ty, n + 1), (ty, n + 2)} : Multiset Face) := by
      rw [he]
      simp
    simp only [Multiset.insert_eq_cons, Multiset.mem_cons, Multiset.mem_singleton,
      Prod.mk.injEq, true_and] at hmem
    rcases hmem with rfl | rfl | rfl
    · exact Or.inl ⟨hother _ (by simp) (hne (by omega)),
        hother _ (by simp) (hne (by omega))⟩
    · refine Or.inr (Or.inl ⟨?_, ?_⟩)
      · rw [Int.add_sub_cancel]
        exact hother _ (by simp) (hne (by omega))
      · rw [Int.add_assoc]
        exact hother _ (by simp) (hne (by omega))
    · refine Or.inr (Or.inr ⟨?_, ?_⟩)
      · rw [Int.add_sub_cancel]
        exact hother _ (by simp) (hne (by omega))
      · rw [show n + 2 - 1 = n + 1 by omega]
        exact hother _ (by simp) (hne (by omega))
  · rintro (⟨h1, h2⟩ | ⟨h1, h2⟩ | ⟨h1, h2⟩)
    · refine ⟨m, _, _, h1, h2, ?_⟩
      exact Multiset.coe_eq_coe.mpr
        (List.perm_append_comm : ([((ty, m) : Face)] ++ [(ty, m + 1), (ty, m + 2)]).Perm _)
    · refine ⟨m - 1, _, _, h1, h2, ?_⟩
      rw [show m - 1 + 1 = m by omega, show m - 1 + 2 = m + 1 by omega]
      exact Multiset.coe_eq_coe.mpr (List.Perm.cons _ (List.Perm.swap _ _ _))
    · refine ⟨m - 2, _, _, h1, h2, ?_⟩
      rw [show m - 2 + 1 = m - 1 by omega, show m - 2 + 2 = m by omega]

/-- The three cases of `is_eat_possible`, on the table of real tiles: the
division tests keep to one suit. -/
theorem isEatPossible_iff {deck : List Mj} {nc : Nat}
    (hreal : ∀ m ∈ deck.take nc, m.Real) {t : Mj} (ht : t.Real)
    (hsuit : t.type ≠ dazi) :
    isEatPossible deck nc t = true ↔ CanEat (faces (deck.take nc)) t.face := by
  have htable := countTable_table hreal
  obtain ⟨i, hi, hidx, hface⟩ := ht.index
  have hty : t.face = (t.type, t.number) := rfl
  have hfi : faceOf i = (t.type, t.number) := by rw [← hface, hty]
  have ht' := ht
  unfold Mj.Real at ht'
  unfold dazi at hsuit
  have hti := hfi
  simp only [faceOf, Prod.mk.injEq] at hti
  have htdiv : ∀ n : Nat, (n : Int).tdiv 9 = ((n / 9 : Nat) : Int) := fun n => rfl
  -- an entry next to the discard's, and the face next to its
  have hnext : ∀ d : Nat, d ≤ 2 → ((t.type, t.number + (d : Int)) ∈ faces (deck.take nc) ↔
      ((i : Int) + (d : Int) < 34 ∧ countAt (countTable (deck.take nc)) (i + d) ≥ 1)
        ∧ (i : Int).tdiv 9 = ((i : Int) + d).tdiv 9) := by
    intro d hd
    have hcast : ((i : Int) + (d : Int)) = ((i + d : Nat) : Int) := by push_cast; rfl
    rw [hcast, countAt, if_pos (Int.natCast_nonneg _), Int.toNat_natCast, htdiv, htdiv]
    constructor
    · intro hmem
      obtain ⟨j, hj, hfj⟩ := htable.kinds _ hmem
      have ej := hfj
      simp only [faceOf, Prod.mk.injEq] at ej
      obtain rfl : j = i + d := by omega
      rw [hfj] at hmem
      exact ⟨⟨by omega, (htable.mem_iff hj).mp hmem⟩, by omega⟩
    · rintro ⟨⟨hlt, hc⟩, hrow⟩
      have hmem := (htable.mem_iff (by omega)).mpr hc
      have hf : faceOf (i + d) = (t.type, t.number + (d : Int)) := by
        simp only [faceOf, Prod.mk.injEq]
        omega
      rwa [hf] at hmem
  have hprev : ∀ d : Nat, d ≤ 2 → ((t.type, t.number - (d : Int)) ∈ faces (deck.take nc) ↔
      ((i : Int) - (d : Int) ≥ 0 ∧ countAt (countTable (deck.take nc)) (i - d) ≥ 1)
        ∧ (i : Int).tdiv 9 = ((i : Int) - d).tdiv 9) := by
    intro d hd
    constructor
    · intro hmem
      obtain ⟨j, hj, hfj⟩ := htable.kinds _ hmem
      have ej := hfj
      simp only [faceOf, Prod.mk.injEq] at ej
      have hji : ((i : Int) - (d : Int)) = (j : Int) := by omega
      rw [hji, countAt, if_pos (Int.natCast_nonneg _), Int.toNat_natCast, htdiv, htdiv]
      rw [hfj] at hmem
      exact ⟨⟨by omega, (htable.mem_iff hj).mp hmem⟩, by omega⟩
    · rintro ⟨⟨hge, hc⟩, hrow⟩
      obtain ⟨j, hji⟩ : ∃ j : Nat, (i : Int) - d = (j : Int) := ⟨i - d, by omega⟩
      rw [hji] at hc hrow
      rw [htdiv, htdiv] at hrow
      rw [countAt, if_pos (Int.natCast_nonneg _), Int.toNat_natCast] at hc
      have hmem := (htable.mem_iff (by omega)).mpr hc
      have hf : faceOf j = (t.type, t.number - (d : Int)) := by
        simp only [faceOf, Prod.mk.injEq]
        omega
      rwa [hf] at hmem
  have n1 := hnext 1 (by decide)
  have n2 := hnext 2 (by decide)
  have p1 := hprev 1 (by decide)
  have p2 := hprev 2 (by decide)
  simp only [Nat.cast_one, Nat.cast_ofNat] at n1 n2 p1 p2
  rw [hty, canEat_iff, n1, n2, p1, p2]
  unfold isEatPossible
  rw [if_neg hsuit, hidx]
  dsimp only
  split
  next h => exact iff_of_true rfl (Or.inl ⟨⟨⟨h.1, h.2.1⟩, h.2.2.2.2.1⟩,
    ⟨⟨h.2.2.1, h.2.2.2.1⟩, h.2.2.2.2.2⟩⟩)
  next h =>
    split
    next h' => exact iff_of_true rfl (Or.inr (Or.inl ⟨⟨⟨h'.2.2.1, h'.2.2.2.1⟩,
      h'.2.2.2.2.2⟩, ⟨⟨h'.1, h'.2.1⟩, h'.2.2.2.2.1⟩⟩))
    next h' =>
      split
      next h'' => exact iff_of_true rfl (Or.inr (Or.inr ⟨⟨⟨h''.1, h''.2.1⟩,
        h''.2.2.2.2.1⟩, ⟨⟨h''.2.2.1, h''.2.2.2.1⟩, h''.2.2.2.2.2⟩⟩))
      next h'' =>
        refine iff_of_false (by decide) ?_
        rintro (⟨⟨⟨a1, a2⟩, a3⟩, ⟨b1, b2⟩, b3⟩ | ⟨⟨⟨a1, a2⟩, a3⟩, ⟨b1, b2⟩, b3⟩
          | ⟨⟨⟨a1, a2⟩, a3⟩, ⟨b1, b2⟩, b3⟩)
        · exact h ⟨a1, a2, b1, b2, a3, b3⟩
        · exact h' ⟨b1, b2, a1, a2, b3, a3⟩
        · exact h'' ⟨a1, a2, b1, b2, a3, b3⟩

/-- Three tiles that make a run with the right faces are accepted by the
eat loop, in whatever order they are given. -/
theorem eatable_of_run {p : Player} {t : Mj} {i j : Nat} {ty n : Int}
    (hrun : ({(ty, n), (ty, n + 1), (ty, n + 2)} : Multiset Face)
      = {(p.deck i).face, (p.deck j).face, t.face}) :
    eatable (eatTemp p t i j) = true := by
  obtain ⟨temp, he, hperm, hsort⟩ := quickSort_prefix Mj.key (t := []) (n := 2)
    (h := [p.deck i, p.deck j, t]) rfl
  have htemp : eatTemp p t i j = temp := by
    rw [eatTemp, slotIndex_natCast, slotIndex_natCast, decksQuickSort]
    rw [List.append_nil, List.append_nil] at he
    exact he
  rw [htemp]
  have hfaces : (temp.map Mj.face).Perm [(ty, n), (ty, n + 1), (ty, n + 2)] := by
    refine (hperm.map _).trans ?_
    exact Multiset.coe_eq_coe.mp hrun.symm
  -- both are in the order of the sort
  have hlist : temp.map Mj.face = [(ty, n), (ty, n + 1), (ty, n + 2)] := by
    refine @List.Perm.eq_of_pairwise _
      (fun f g : Face => f.1 * 10 + f.2 ≤ g.1 * 10 + g.2) _ _ ?_ ?_ ?_ hfaces
    · intro f g hf hg h1 h2
      have hf' := hfaces.mem_iff.mp hf
      simp only [List.mem_cons, List.not_mem_nil, or_false] at hf' hg
      rcases hf' with rfl | rfl | rfl <;> rcases hg with rfl | rfl | rfl <;>
        simp only [Prod.mk.injEq, true_and] at h1 h2 ⊢ <;> omega
    · rw [List.pairwise_map]
      exact hsort
    · simp
  obtain ⟨a, b, c, rfl⟩ := List.length_eq_three.mp hperm.length_eq
  simp only [List.map_cons, List.map_nil, Mj.face, List.cons.injEq, Prod.mk.injEq,
    and_true] at hlist
  simp only [eatable, List.getD_cons_zero, List.getD_cons_succ, decide_eq_true_eq]
  omega

/-- `is_eat_possible` says yes to a suited discard if and only if some two
slots of the hand pass the test of the eat loop, and then a line can
name them, as it can any two `int`s; it says no to every honour. -/
theorem eat_offer_exact {p : Player} (hlen : p.normalCapacity ≤ p.decks.length)
    (hreal : ∀ m ∈ p.decks.take p.normalCapacity, m.Real) {t : Mj} (ht : t.Real) :
    (t.type ≠ dazi → (isEatPossible p.decks p.normalCapacity t = true ↔
        ∃ i j : Nat, i < p.normalCapacity ∧ j < p.normalCapacity
          ∧ eatable (eatTemp p t i j) = true))
      ∧ (∀ i j : Nat, CString.IsInt i → CString.IsInt j →
          CString.sscanf2 (CString.decimal i ++ ' ' :: (CString.decimal j ++ ['\n']))
            = (some (i : Int), some (j : Int)))
      ∧ (t.type = dazi → isEatPossible p.decks p.normalCapacity t = false) := by
  have hslot : ∀ f ∈ faces (p.decks.take p.normalCapacity),
      ∃ i < p.normalCapacity, (p.deck i).face = f := by
    intro f hf
    obtain ⟨m, hm, rfl⟩ := mem_faces.mp hf
    obtain ⟨i, hi, he⟩ := List.mem_take_iff_getElem.mp hm
    refine ⟨i, by omega, ?_⟩
    rw [Player.deck, List.getD_eq_getElem?_getD,
      List.getElem?_eq_getElem (by omega : i < p.decks.length), Option.getD_some, he]
  have hmem : ∀ i < p.normalCapacity,
      (p.deck i).face ∈ faces (p.decks.take p.normalCapacity) := by
    intro i hi
    refine mem_faces.mpr ⟨p.deck i, ?_, rfl⟩
    rw [Player.deck, List.getD_eq_getElem?_getD,
      List.getElem?_eq_getElem (by omega : i < p.decks.length), Option.getD_some]
    exact List.mem_take_iff_getElem.mpr ⟨i, by omega, rfl⟩
  refine ⟨fun hsuit => ?_, fun i j hi hj => ?_, fun hsuit => ?_⟩
  · rw [isEatPossible_iff hreal ht hsuit]
    constructor
    · rintro ⟨n, f, g, hf, hg, hrun⟩
      obtain ⟨i, hi, rfl⟩ := hslot f hf
      obtain ⟨j, hj, rfl⟩ := hslot g hg
      exact ⟨i, j, hi, hj, eatable_of_run hrun⟩
    · rintro ⟨i, j, hi, hj, hok⟩
      have hperm := eatTemp_perm p t i j
      obtain ⟨ty, n, htiles⟩ := eatable_faces hperm.length_eq hok
      have hrun : faces (eatTemp p t i j) = {(ty, n), (ty, n + 1), (ty, n + 2)} := by
        rw [faces, htiles]
        rfl
      have htemp : faces (eatTemp p t i j)
          = {(p.deck i).face, (p.deck j).face, t.face} := by
        rw [faces_perm hperm, slotIndex_natCast, slotIndex_natCast]
        rfl
      rw [htemp] at hrun
      have hty : t.face ∈ ({(ty, n), (ty, n + 1), (ty, n + 2)} : Multiset Face) := by
        rw [← hrun]
        simp
      have hty' : t.face.1 = ty := by
        simp only [Multiset.insert_eq_cons, Multiset.mem_cons,
          Multiset.mem_singleton] at hty
        rcases hty with h | h | h <;> rw [h]
      exact ⟨n, _, _, hmem i hi, hmem j hj, hty' ▸ hrun.symm⟩
  · exact CString.sscanf2_decimal hi hj (by rintro c ⟨⟩; rfl)
  · rw [isEatPossible, if_pos hsuit]

/-- At the upper end of a suit, with honours behind it in the hand. -/
theorem eat_offer_exact_edge :
    isEatPossible (fourTiles ⟨3, 8, 0⟩ ⟨3, 9, 0⟩ ⟨4, 1, 0⟩ ⟨4, 2, 0⟩).decks 4 ⟨3, 7, 0⟩
        = true
      ∧ CString.sscanf2 (CString.decimal 0 ++ ' ' :: (CString.decimal 1 ++ ['\n']))
        = (some 0, some 1) := by
  have h := eat_offer_exact (p := fourTiles ⟨3, 8, 0⟩ ⟨3, 9, 0⟩ ⟨4, 1, 0⟩ ⟨4, 2, 0⟩)
    (t := ⟨3, 7, 0⟩) (by decide) (by decide) (by decide)
  exact ⟨(h.1 (by decide)).mpr ⟨0, 1, by decide, by decide, by decide +kernel⟩,
    h.2.1 0 1 (by decide) (by decide)⟩

end Mahjong
