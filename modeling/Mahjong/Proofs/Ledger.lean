/-
The counters of a round: where the cursor of the wall is, how many
flowers and discards have been laid out, how long the hands are.

# What is counted

Nothing is asked of the hands here, so a hand may have holes. Every tile
drawn that is a flower is laid out before anything else happens, and a
sea gains a tile only for a tile that was drawn before: `Ledger` counts
the tiles that are still on their way, `n` of them to a sea and `f` of
them to a row of flowers.

# What follows

There are eight flowers and 144 tiles, so neither `flowers` nor `sea`
overflows, and as no capacity is above 16, no index of a hand is.

# Behind the hand

Claims and discards exchange slots up to the one behind the hand, and an
eat those that are typed. If these are of the first `reach` slots nothing
is ever put behind them: where a player eats from the hand nothing is put
into the slots `decks[17..19]`, and `print_deck`, which looks one slot
beyond the last tile, looks at `decks[17]` at most.
-/
import Mahjong.Proofs.Exact
import Mahjong.Proofs.Deal

namespace Mahjong

open QuickSort

-- ==================================================================== behind the hand

theorem drop_swap {decks : List Mj} {a b n : Nat} (ha : a < n) (hb : b < n) :
    (swap decks a b).drop n = decks.drop n := by
  unfold swap
  split
  · rw [List.drop_set_of_lt hb, List.drop_set_of_lt ha]
  · rfl

theorem drop_decksQuickSort {decks : List Mj} {stop n : Nat} (hstop : stop < n)
    (hlen : stop < decks.length) : (decksQuickSort decks 0 stop).drop n = decks.drop n := by
  apply List.ext_getElem?
  intro i
  rw [List.getElem?_drop, List.getElem?_drop]
  exact (quickSort_seg Mj.key decks 0 stop hlen).outside (n + i) (Or.inr (by omega))

theorem drop_removeLoop (t : Mj) {n : Nat} : ∀ {is : List Nat}, (∀ i ∈ is, i < n) →
    ∀ (need : Nat) (p : Player), (removeLoop t need is p).decks.drop n = p.decks.drop n := by
  intro is
  induction is with
  | nil => exact fun _ _ _ => rfl
  | cons i is ih =>
      intro his need p
      have hi := his i (List.mem_cons_self ..)
      have hrest := ih fun j hj => his j (List.mem_cons_of_mem _ hj)
      have hset : ((p.pushDoor t).setDeck i (p.deck i).zero).decks.drop n = p.decks.drop n :=
        List.drop_set_of_lt hi
      rw [removeLoop]
      split
      · dsimp only
        split
        · exact hset
        · exact (hrest _ _).trans hset
      · exact hrest _ _

theorem drop_compactLoop {nc n k : Nat} (hnc : nc ≤ n) : ∀ {is : List Nat},
    (∀ i ∈ is, i < nc) → ∀ (need : Nat) (decks : List Mj), need ≤ k →
      (compactLoop nc k need is decks).drop n = decks.drop n := by
  intro is
  induction is with
  | nil => exact fun _ _ _ _ => rfl
  | cons i is ih =>
      intro his need decks hneed
      have hi := his i (List.mem_cons_self ..)
      have hrest := ih fun j hj => his j (List.mem_cons_of_mem _ hj)
      have hswap : (swap decks i (nc + need - (k + 1))).drop n = decks.drop n :=
        drop_swap (by omega) (by omega)
      rw [compactLoop]
      split
      · dsimp only
        split
        · exact hswap
        · exact (hrest _ _ (by omega)).trans hswap
      · exact hrest _ _ hneed

theorem drop_layCopies (k : Nat) (t : Mj) {p : Player} {n : Nat}
    (hcap : p.normalCapacity ≤ n) : (layCopies k t p).decks.drop n = p.decks.drop n := by
  have hremove : (removeLoop t k (List.range p.normalCapacity) (p.pushDoor t)).normalCapacity
      = p.normalCapacity := (removeLoop_reshaped t _ k (p.pushDoor t)).capacity
  have hslots : ∀ i ∈ List.range p.normalCapacity, i < n := fun i hi =>
    (List.mem_range.mp hi).trans_le hcap
  refine Eq.trans ?_ (drop_removeLoop t hslots k (p.pushDoor t))
  refine drop_compactLoop (hremove.symm ▸ hcap) (fun i hi => ?_) _ _ (Nat.le_refl k)
  exact List.mem_range.mp hi

theorem slotIndex_lt {i : Int} {n : Nat} (hi : 0 ≤ i ∧ i < n) : slotIndex i < n := by
  unfold slotIndex
  split <;> omega

section Behind

variable {p : Player} {reach : Nat} (hreach : 17 ≤ reach) (hlen : p.decks.length = 20)
  (hcap : p.normalCapacity ≤ 16)
include hreach hlen hcap

/-- A set of copies is taken from the hand. -/
theorem drop_gangTiles (t : Mj) : (gangTiles t p).decks.drop reach = p.decks.drop reach := by
  have h := layCopies_reshaped 3 t p
  have hnc := h.capacity
  have hl := h.length
  exact (drop_decksQuickSort (by omega) (by omega)).trans (drop_layCopies 3 t (by omega))

theorem drop_pongTiles (t : Mj) : (pongTiles t p).decks.drop reach = p.decks.drop reach := by
  have h := layCopies_reshaped 2 t p
  have hnc := h.capacity
  have hl := h.length
  exact (drop_decksQuickSort (by omega) (by omega)).trans (drop_layCopies 2 t (by omega))

/-- A pair is taken from the first `reach` slots. -/
theorem drop_eatTiles (temp : List Mj) {i j : Int} (hi : 0 ≤ i ∧ i < reach)
    (hj : 0 ≤ j ∧ j < reach) :
    (eatTiles temp i j p).decks.drop reach = p.decks.drop reach := by
  have hi' : slotIndex i < reach := slotIndex_lt (by omega)
  have hj' : slotIndex j < reach := slotIndex_lt (by omega)
  refine (drop_decksQuickSort ?_ ?_).trans ?_
  · show p.normalCapacity - 3 < reach
    omega
  · show p.normalCapacity - 3 < _
    simp only [length_swap, Player.setDeck, List.length_set, Player.pushDoor]
    omega
  · refine (drop_swap hj' ?_).trans ((drop_swap hi' ?_).trans ?_)
    · show p.normalCapacity - 2 < reach
      omega
    · show p.normalCapacity - 1 < reach
      omega
    · exact (List.drop_set_of_lt hj').trans (List.drop_set_of_lt hi')

/-- A tile of the hand, or the one behind it, is discarded. -/
theorem drop_discardTile {i : Int} (hi : 0 ≤ i ∧ i ≤ p.normalCapacity) :
    (discardTile i p).decks.drop reach = p.decks.drop reach := by
  have hi' : slotIndex i < reach := slotIndex_lt (by omega)
  refine (drop_decksQuickSort ?_ ?_).trans ?_
  · show p.normalCapacity - 1 < reach
    omega
  · show p.normalCapacity - 1 < _
    simp only [Player.setDeck, List.length_set, length_swap]
    omega
  · exact (List.drop_set_of_lt (by show p.normalCapacity < reach; omega)).trans
      (drop_swap (by omega) hi')

end Behind

-- ===================================================================== the ledger

/-- The flowers laid out are those the cursor has passed. -/
def Balanced (s : Game) : Prop :=
  ∑ q, (s.players q).flowerIndex
    = flowerCount (faces (s.shuffledMjs.take s.takeIndex))

/-- The counters of a round, while `n` tiles are on their way to a sea and
`f` to a row of flowers. -/
structure Ledger (wall : Wall) (reach n f : Nat) (s : Game) : Prop where
  wall_eq : s.shuffledMjs = wall.tiles
  takeIndex_le : s.takeIndex ≤ 144
  decks : ∀ q, (s.players q).decks.length = 20
  behind : ∀ q, Nulls ((s.players q).decks.drop reach)
  capacity : ∀ q, (s.players q).normalCapacity ≤ 16
  flowers : ∑ q, (s.players q).flowerIndex + f
    = flowerCount (faces (wall.tiles.take s.takeIndex))
  sea : ∑ q, (s.players q).seaIndex + n + 64 ≤ s.takeIndex

namespace Ledger

variable {wall : Wall} {reach n f : Nat} {s : Game}

theorem balanced (h : Ledger wall reach n 0 s) : Balanced s := by
  have hflowers := h.flowers
  rw [Balanced, h.wall_eq]
  exact hflowers

/-- A tile need not go to a sea. -/
theorem le {m : Nat} (h : Ledger wall reach n f s) (hmn : m ≤ n) : Ledger wall reach m f s := by
  have hsea := h.sea
  exact { h with sea := by omega }

/-- While a flower is to be laid out, there is room for it. -/
theorem flowers_lt (h : Ledger wall reach n 1 s) (p : Seat) : (s.players p).flowerIndex < 8 := by
  have hp : (s.players p).flowerIndex ≤ ∑ q, (s.players q).flowerIndex :=
    Finset.single_le_sum (f := fun q => (s.players q).flowerIndex)
      (fun _ _ => Nat.zero_le _) (Finset.mem_univ p)
  have hall : flowerCount (faces (wall.tiles.take s.takeIndex)) ≤ 8 := by
    have hsplit : faces wall.tiles = faces (wall.tiles.take s.takeIndex)
        + faces (wall.tiles.drop s.takeIndex) := by
      rw [← faces_append, List.take_append_drop]
    have hwall : faces wall.tiles = (tileSet : Multiset Face) :=
      Multiset.coe_eq_coe.mpr wall.perm
    rw [← flowerCount_tileSet, ← hwall, hsplit, flowerCount_add]
    exact Nat.le_add_right _ _
  have hflowers := h.flowers
  omega

/-- While a tile is on its way, no sea is full. -/
theorem sea_lt (h : Ledger wall reach 1 f s) (p : Seat) : (s.players p).seaIndex < 150 := by
  have hp : (s.players p).seaIndex ≤ ∑ q, (s.players q).seaIndex :=
    Finset.single_le_sum (f := fun q => (s.players q).seaIndex)
      (fun _ _ => Nat.zero_le _) (Finset.mem_univ p)
  have hsea := h.sea
  have htake := h.takeIndex_le
  omega

/-- A change of one player's part that leaves wall and cursor alone. -/
theorem change {s' : Game} {p : Seat} {g : Player → Player} {m e : Nat}
    (h : Ledger wall reach n f s) (hwall : s'.shuffledMjs = s.shuffledMjs)
    (htake : s'.takeIndex = s.takeIndex) (hplayers : s'.players = (s.update p g).players)
    (hlen : (g (s.players p)).decks.length = 20)
    (hbehind : (g (s.players p)).decks.drop reach = (s.players p).decks.drop reach)
    (hcap : (g (s.players p)).normalCapacity ≤ 16)
    (hflowers : (g (s.players p)).flowerIndex + e = (s.players p).flowerIndex + f)
    (hsea : (g (s.players p)).seaIndex + m ≤ (s.players p).seaIndex + n) :
    Ledger wall reach m e s' := by
  have hf := Game.sum_update (f := Player.flowerIndex) s p g
  have hs := Game.sum_update (f := Player.seaIndex) s p g
  have hflowers' := h.flowers
  have hsea' := h.sea
  refine ⟨hwall.trans h.wall_eq, htake ▸ h.takeIndex_le, fun q => ?_, fun q => ?_,
    fun q => ?_, ?_, ?_⟩
  · rw [hplayers]
    by_cases hq : q = p
    · rw [hq, Game.update_players_self]
      exact hlen
    · rw [Game.update_players_ne _ _ _ _ hq]
      exact h.decks q
  · rw [hplayers]
    by_cases hq : q = p
    · rw [hq, Game.update_players_self, hbehind]
      exact h.behind p
    · rw [Game.update_players_ne _ _ _ _ hq]
      exact h.behind q
  · rw [hplayers]
    by_cases hq : q = p
    · rw [hq, Game.update_players_self]
      exact hcap
    · rw [Game.update_players_ne _ _ _ _ hq]
      exact h.capacity q
  · rw [hplayers, htake]
    omega
  · rw [hplayers, htake]
    omega

/-- A claim or a discard. -/
theorem reshape {s' : Game} {p : Seat} {g : Player → Player} {m : Nat}
    (h : Ledger wall reach n f s) (hg : Reshaped (s.players p) (g (s.players p)) m)
    (hbehind : (g (s.players p)).decks.drop reach = (s.players p).decks.drop reach)
    (hwall : s'.shuffledMjs = s.shuffledMjs) (htake : s'.takeIndex = s.takeIndex)
    (hplayers : s'.players = (s.update p g).players) : Ledger wall reach n f s' := by
  apply h.change hwall htake hplayers
  · exact hg.length.trans (h.decks p)
  · exact hbehind
  · exact hg.capacity_le.trans (h.capacity p)
  · rw [hg.flowerIndex]
  · rw [hg.seaIndex]

/-- Is the tile a flower to be laid out? -/
def due (m : Mj) : Nat := if m.type = flower then 1 else 0

/-- A tile of the wall in a slot. -/
theorem take (h : Ledger wall reach n 0 s) (hreach : 17 ≤ reach) (hlt : s.takeIndex < 144) (p : Seat) {i : Nat}
    (hi : i ≤ 16) : Ledger wall reach (n + 1) (due s.next) (s.takeInto p i) := by
  have hcount : flowerCount (faces (wall.tiles.take (s.takeIndex + 1)))
      = flowerCount (faces (wall.tiles.take s.takeIndex)) + due s.next := by
    have hlt' : s.takeIndex < wall.tiles.length := by
      rw [wall.length]
      exact hlt
    have hnext : s.next = wall.tiles[s.takeIndex] := by
      rw [Game.next, h.wall_eq, List.getD_eq_getElem?_getD, List.getElem?_eq_getElem hlt',
        Option.getD_some]
    rw [List.take_succ_eq_append_getElem hlt', ← hnext, faces_append, flowerCount_add]
    congr 1
    unfold due flowerCount
    split
    · exact Multiset.countP_cons_of_pos (p := fun f : Face => f.1 = flower) 0 ‹_›
    · exact Multiset.countP_cons_of_neg (p := fun f : Face => f.1 = flower) 0 ‹_›
  have hset : Ledger wall reach n 0 (s.update p fun pl => pl.setDeck i s.next) := by
    refine h.change rfl rfl rfl ?_ (List.drop_set_of_lt (by omega)) (h.capacity p) rfl le_rfl
    show ((s.players p).decks.set i s.next).length = 20
    rw [List.length_set]
    exact h.decks p
  have hflowers := hset.flowers
  have hsea := hset.sea
  refine ⟨hset.wall_eq, hlt, hset.decks, hset.behind, hset.capacity, ?_, ?_⟩
  · show ∑ q, ((s.update p fun pl => pl.setDeck i s.next).players q).flowerIndex + _
      = flowerCount (faces (wall.tiles.take (s.takeIndex + 1)))
    rw [hcount]
    exact congrArg (· + due s.next) hflowers
  · show ∑ q, ((s.update p fun pl => pl.setDeck i s.next).players q).seaIndex
      + (n + 1) + 64 ≤ s.takeIndex + 1
    have htake : (s.update p fun pl => pl.setDeck i s.next).takeIndex = s.takeIndex := rfl
    omega

/-- The tile just taken is what the ledger says. -/
theorem due_taken (h : Ledger wall reach n f s) {p : Seat} {i : Nat}
    (hi : (s.players p).normalCapacity = i) :
    due (((s.takeInto p i).players p).deck ((s.takeInto p i).players p).normalCapacity)
      = due s.next := by
  have hcap := h.capacity p
  have hdeck : ((s.players p).setDeck i s.next).deck i = s.next :=
    Player.deck_setDeck (by rw [h.decks p]; omega) s.next
  rw [Game.takeInto_players_self]
  show due (((s.players p).setDeck i s.next).deck (s.players p).normalCapacity) = _
  rw [hi, hdeck]

theorem layFlower (h : Ledger wall reach n 1 s) (p : Seat) (m : Mj) :
    Ledger wall reach n 0 (s.update p fun pl => pl.pushFlower m) :=
  h.change rfl rfl rfl (h.decks p) rfl (h.capacity p) rfl le_rfl

theorem pushSea (h : Ledger wall reach 1 0 s) (d : Seat) (m : Mj) :
    Ledger wall reach 0 0 (s.update d fun pl => pl.pushSea m) :=
  h.change rfl rfl rfl (h.decks d) rfl (h.capacity d) rfl le_rfl

end Ledger

-- ==================================================================== the slots printed

/-- `print_deck` stops at the first slot behind the hand. -/
theorem handSlots_le {hands : List Mj} {reach : Nat} (h : Nulls (hands.drop reach)) (n : Nat) :
    ∀ {i : Nat}, i ≤ reach →
      ∀ j ∈ Server.handSlots hands (List.range' i n), j ≤ reach := by
  have hbehind : (hands.getD reach Mj.null).isNull = true := by
    rw [List.getD_eq_getElem?_getD]
    cases hget : hands[reach]? with
    | none => rfl
    | some m =>
        refine h m (List.mem_of_getElem? (i := 0) ?_)
        rw [List.getElem?_drop]
        exact hget
  induction n with
  | zero => exact fun _ j hj => nomatch hj
  | succ n ih =>
      intro i hi j hj
      rw [List.range'_succ, Server.handSlots] at hj
      split at hj
      next => exact (List.mem_singleton.mp hj).trans_le hi
      next hnull =>
        have hne : i ≠ reach := by
          rintro rfl
          exact hnull hbehind
        rcases List.mem_cons.mp hj with rfl | hj
        · exact hi
        rcases List.mem_cons.mp hj with rfl | hj
        · omega
        · exact ih (by omega) j hj

/-- Of the door it looks at the slots its loop counts. -/
theorem doorSlots_subset (doors : List Mj) : ∀ is, Server.doorSlots doors is ⊆ is := by
  intro is
  induction is with
  | nil => exact fun _ h => h
  | cons i is ih =>
      rw [Server.doorSlots]
      split
      · exact List.cons_subset_cons _ (List.nil_subset _)
      · exact List.cons_subset_cons _ ih

theorem Ledger.printed {wall : Wall} {reach n f : Nat} {s : Game} (h : Ledger wall reach n f s)
    (p : Seat) : (∀ i ∈ Server.handSlots (s.players p).decks (List.range 20), i ≤ reach)
      ∧ ∀ i ∈ Server.doorSlots (s.players p).door (List.range 20), i < 20 := by
  constructor
  · rw [List.range_eq_range']
    exact handSlots_le (h.behind p) 20 (Nat.zero_le reach)
  · exact fun i hi => List.mem_range.mp (doorSlots_subset _ _ hi)

namespace Server

open Process CString

-- ============================================================== careful runs

/-- A run without an access out of range so far: the wall is not
over-read, and the tiles counted have an entry in the count table. And
the players choose from their hands. -/
def Careful : SOp → Game → Prop
  | .note (.access .shuffledMjs i), _ => i < 144
  | .note (.counts tiles), _ => ∀ m ∈ tiles, 0 ≤ tileIndex m ∧ tileIndex m < 34
  | .note (.discard p i), s => 0 ≤ i ∧ i ≤ (s.players p).normalCapacity
  | .note (.eatindex p i j), s => (0 ≤ i ∧ i < (s.players p).normalCapacity)
      ∧ 0 ≤ j ∧ j < (s.players p).normalCapacity
  | _, _ => True

instance : (o : SOp) → (s : Game) → Decidable (Careful o s)
  | .note (.access .shuffledMjs i), _ => inferInstanceAs (Decidable (i < 144))
  | .note (.counts tiles), _ =>
      inferInstanceAs (Decidable (∀ m ∈ tiles, 0 ≤ tileIndex m ∧ tileIndex m < 34))
  | .note (.discard p i), s =>
      inferInstanceAs (Decidable (0 ≤ i ∧ i ≤ (s.players p).normalCapacity))
  | .note (.eatindex p i j), s =>
      inferInstanceAs (Decidable ((0 ≤ i ∧ i < (s.players p).normalCapacity)
        ∧ 0 ≤ j ∧ j < (s.players p).normalCapacity))
  | .note (.access .decks _), _ | .note (.access .flowers _), _
  | .note (.access .door _), _ | .note (.access .sea _), _ | .note (.scan _ _), _
  | .note (.print _ _ _), _ | .note (.draw _), _ | .note (.othersreaction _), _ | .note (.accept _ _), _
  | .note (.eat _ _ _), _ | .note (.invalid _), _ | .note (.win _), _ | .note .gameSet, _
  | .write _ _, _ | .readline _ _, _ | .select _, _ | .scanf, _ | .indeterminate, _
  | .exit, _ =>
      .isTrue trivial

/-- What the books need to be assumed of a run: the wall is not over-read,
the tiles counted have an entry in the count table, a discard is of the
hand, and the pair read at the eat prompt is of the first `reach` slots. -/
structure Heeds (A : SOp → Game → Prop) (reach : Nat) : Prop where
  reach_ge : 17 ≤ reach
  reach_le : reach ≤ 20
  wall : ∀ i s, A (.note (.access .shuffledMjs i)) s → i < 144
  counts : ∀ tiles s, A (.note (.counts tiles)) s →
    ∀ m ∈ tiles, 0 ≤ tileIndex m ∧ tileIndex m < 34
  discard : ∀ p i s, A (.note (.discard p i)) s → 0 ≤ i ∧ i ≤ (s.players p).normalCapacity
  eat : ∀ p i j s, (s.players p).normalCapacity ≤ 16 → A (.note (.eatindex p i j)) s →
    (0 ≤ i ∧ i < reach) ∧ 0 ≤ j ∧ j < reach

theorem careful_heeds : Heeds Careful 17 where
  reach_ge := Nat.le_refl 17
  reach_le := by decide
  wall := fun _ _ h => h
  counts := fun _ _ h => h
  discard := fun _ _ _ h => h
  eat := by
    intro p i j s hcap h
    obtain ⟨⟨hi, hi'⟩, hj, hj'⟩ := h
    exact ⟨⟨hi, by omega⟩, hj, by omega⟩

/-- What the ledger shows of such a run: the indices are in range, and
the flowers balance when a turn begins, when tiles are counted, when the
others react, and when the round is over. -/
def Accounted (reach : Nat) : SOp → Game → Log → Prop
  | .note (.access .decks i), _, _ => 0 ≤ i ∧ i < reach
  | .note (.access .flowers i), _, _ => 0 ≤ i ∧ i < 8
  | .note (.access .sea i), _, _ => 0 ≤ i ∧ i < 150
  | .note (.scan _ i), _, _ => i < 20
  | .note (.print _ hands doors), _, _ => (∀ i ∈ hands, i ≤ reach) ∧ ∀ i ∈ doors, i < 20
  | .note (.counts _), s, _ => Balanced s
  | .note (.othersreaction _), s, _ => Balanced s
  | .note .gameSet, s, _ => Balanced s
  | .write _ l, s, _ => l = str "your turn\n" → Balanced s
  | _, _, _ => True

theorem accounted_quiet {reach : Nat} {U : Game → Log → Prop}
    (hlog : ∀ (o : SOp) (r : o.Res) s w, U s w → ¬ IsWin o → U s (⟨o, r⟩ :: w)) :
    Quiet Plain (Accounted reach) U := by
  constructor
  · decide
  · exact hlog
  · intro p l s w hl _ he
    rw [he] at hl
    exact absurd hl (by decide)
  · intro e s w he _
    cases e with
    | access a i => exact absurd he Bool.false_ne_true
    | scan p i => exact absurd he Bool.false_ne_true
    | print p hands doors => exact absurd he Bool.false_ne_true
    | counts tiles => exact absurd he Bool.false_ne_true
    | othersreaction d => exact absurd he Bool.false_ne_true
    | gameSet => exact absurd he Bool.false_ne_true
    | _ => trivial
  all_goals
    intros
    trivial

theorem accounted_fair {reach : Nat} (hreach : 17 ≤ reach) : FairAccess (Accounted reach) := by
  constructor
  · intro a i s w hpos hlt hdecks _
    cases a with
    | shuffledMjs => trivial
    | decks =>
        have hle := hdecks rfl
        exact ⟨hpos, by omega⟩
    | flowers => exact ⟨hpos, hlt⟩
    | door => trivial
    | sea => exact ⟨hpos, hlt⟩
  · exact fun p i s w hi _ => hi

section Moves

variable {A : SOp → Game → Prop} {reach : Nat} {wall : Wall} {s : Game} {w : Log} {p : Seat}
  (hA : Heeds A reach)

/-- Lines and plain marks ask nothing. -/
theorem quiet_account : Quiet Plain (Accounted reach) fun _ _ => True :=
  accounted_quiet fun _ _ _ _ _ _ => trivial

theorem ledger_toOthers {l : Line} (hl : Plain l) {Q : Unit → Game → Log → Prop}
    (hQ : ∀ w, Q () s w) : wp anyone A (Accounted reach) (toOthers p l s) Q w := by
  refine wp_seq (wp_writeMessageWaitAck quiet_account trivial hl fun _ => ?_)
  refine wp_seq (wp_writeMessageWaitAck quiet_account trivial hl fun _ => ?_)
  exact wp_writeMessageWaitAck quiet_account trivial hl fun _ => hQ _

theorem ledger_accessDoor {n : Nat} {Q : Unit → Game → Log → Prop} (hQ : ∀ w, Q () s w) :
    wp anyone A (Accounted reach) (accessDoor p n s) Q w := by
  refine wp_player_seq ((wp_forM_range (fun _ s' _ => s' = s) ?_ rfl).mono ?_)
  · rintro j s' w' - rfl
    exact wp_note fun _ => ⟨trivial, rfl⟩
  · rintro _ _ w' rfl
    exact hQ w'

include hA in
/-- A draw: one tile more on its way. -/
theorem ledger_draw (h : Ledger wall reach 0 0 s) :
    wp anyone A (Accounted reach) (draw p s) (fun _ s' _ => Ledger wall reach 1 0 s') w := by
  have hreach := hA.reach_ge
  have hslot : ∀ {n f s}, Ledger wall reach n f s →
      0 ≤ ((s.players p).normalCapacity : Int) ∧ ((s.players p).normalCapacity : Int) < reach := by
    intro n f s h
    have hcap := h.capacity p
    omega
  refine wp_seq (wp_note fun _ => ⟨trivial, ?_⟩)
  refine wp_player_seq (wp_seq (wp_takeInto fun hlt => ⟨trivial, fun _ => ⟨hslot h, ?_⟩⟩))
  have hlt : s.takeIndex < 144 := Int.ofNat_lt.mp (hA.wall _ _ hlt)
  have h1 := h.take hreach hlt p (h.capacity p)
  rw [← h.due_taken rfl] at h1
  refine wp_seq (wp_player_seq (wp_writeMessageWaitAck quiet_account trivial
    (plain_tileLine _) fun _ => ?_))
  refine wp_forever (fun s _ => Ledger wall reach 1
    (Ledger.due ((s.players p).deck (s.players p).normalCapacity)) s) ?_ h1
  intro s w h
  refine wp_player_seq ?_
  split
  next hflower =>
    rw [Ledger.due, if_pos hflower] at h
    have hroom := h.flowers_lt p
    refine wp_seq (wp_layFlower fun _ => ⟨⟨by omega, by omega⟩, ?_⟩)
    have h2 := (h.layFlower p ((s.players p).deck (s.players p).normalCapacity)).le
      (Nat.zero_le 1)
    have hcap : ((s.update p fun pl => pl.pushFlower
        ((s.players p).deck (s.players p).normalCapacity)).players p).normalCapacity
        = (s.players p).normalCapacity := by
      rw [Game.update_players_self]
      rfl
    refine wp_seq (wp_takeInto fun hlt => ⟨trivial, fun _ => ⟨hslot h, ?_⟩⟩)
    have hlt : s.takeIndex < 144 := Int.ofNat_lt.mp (hA.wall _ _ hlt)
    have h3 := h2.take hreach hlt p (h.capacity p)
    rw [← h2.due_taken hcap] at h3
    refine wp_seq (wp_player_seq (wp_writeMessageWaitAck quiet_account trivial
      (plain_tileLine _) fun _ => ?_))
    exact wp_pure h3
  next hno =>
    rw [Ledger.due, if_neg hno] at h
    exact wp_pure h

/-- `is_hu` leaves the counters alone. -/
theorem ledger_isHu (h : Ledger wall reach 1 0 s) :
    wp anyone A (Accounted reach) (isHu p s) (fun _ s' _ => Ledger wall reach 1 0 s') w := by
  refine wp_player_seq (wp_seq (wp_note fun _ => ⟨h.balanced, ?_⟩))
  split
  next =>
    refine wp_seq (wp_ask quiet_account trivial (by decide) fun _ _ => ?_)
    split
    next =>
      refine wp_seq (wp_note fun _ => ⟨trivial, wp_modify_seq (wp_pure ?_)⟩)
      exact ⟨h.wall_eq, h.takeIndex_le, h.decks, h.behind, h.capacity, h.flowers, h.sea⟩
    next => exact wp_pure h
  next =>
    refine wp_seq (wp_writeMessageWaitAck quiet_account trivial (by decide) fun _ => ?_)
    exact wp_pure h

include hA in
theorem ledger_quietGang (h : Ledger wall reach 1 0 s) :
    wp anyone A (Accounted reach) (quietGang p s) (fun _ s' _ => Ledger wall reach 1 0 s') w := by
  refine wp_player_seq (wp_seq (wp_note fun _ => ⟨h.balanced, ?_⟩))
  split
  next =>
    refine wp_seq (wp_ask quiet_account trivial (by decide) fun _ _ => ?_)
    split
    next =>
      refine wp_seq (wp_note fun _ => ⟨trivial, ?_⟩)
      refine wp_seq (ledger_accessDoor fun _ => wp_modify_seq ?_)
      refine wp_seq (ledger_toOthers (plain_announce _ _) fun _ => ?_)
      refine wp_modify_seq (wp_pure ?_)
      exact h.reshape (g := quietGangTiles)
        (gangTiles_reshaped (h.decks p) (h.capacity p) _)
        (drop_gangTiles hA.reach_ge (h.decks p) (h.capacity p) _) rfl rfl rfl
    next => exact wp_pure h
  next =>
    refine wp_seq (wp_writeMessageWaitAck quiet_account trivial (by decide) fun _ => ?_)
    exact wp_pure h

include hA in
theorem ledger_discard (h : Ledger wall reach 1 0 s) :
    wp anyone A (Accounted reach) (discard p s) (fun _ s' _ => Ledger wall reach 1 0 s') w := by
  have hcap := h.capacity p
  have hreach := hA.reach_ge
  -- once there is an index
  have hrest : ∀ (index : Int) (w : Log), wp anyone A (Accounted reach) ((do
        Io.note (.discard p index)
        let pl ← player p
        access .decks index
        access .decks pl.normalCapacity
        Prog.modify fun s => s.setDiscarded ((s.players p).deck (slotIndex index))
        update p (discardTile index)
        broadcastDiscardMj p : Server Unit) s) (fun _ s' _ => Ledger wall reach 1 0 s') w := by
    intro index w
    refine wp_seq (wp_note fun hindex => ⟨trivial, ?_⟩)
    obtain ⟨hlo, hhi⟩ := hA.discard p index s hindex
    refine wp_player_seq (wp_seq (wp_note fun _ => ⟨⟨hlo, by omega⟩, ?_⟩))
    refine wp_seq (wp_note fun _ => ⟨⟨by omega, by omega⟩, ?_⟩)
    refine wp_modify_seq (wp_modify_seq (wp_get_seq ?_))
    have h1 : Ledger wall reach 1 0 ((s.setDiscarded ((s.players p).deck (slotIndex index))).update
        p (discardTile index)) :=
      h.reshape (g := discardTile index)
        (discardTile_reshaped (h.decks p) (h.capacity p) index)
        (drop_discardTile hA.reach_ge (h.decks p) (h.capacity p) ⟨hlo, hhi⟩) rfl rfl rfl
    cases hl : discardLine p ((s.setDiscarded ((s.players p).deck (slotIndex index))).update
        p (discardTile index)).discardedMj with
    | some l => exact ledger_toOthers (plain_discardLine hl) fun _ => h1
    | none => exact wp_pure h1
  refine wp_seq (wp_readAndAck quiet_account trivial fun line _ => ?_)
  cases sscanf1 line with
  | some i => exact wp_seq (wp_pure (hrest i _))
  | none => exact wp_seq (wp_indeterminate trivial fun i => hrest i _)

include hA in
/-- A turn: the tile drawn ends on the table, or in a winner's hand. -/
theorem ledger_drawNDiscard (h : Ledger wall reach 0 0 s) :
    wp anyone A (Accounted reach) (drawNDiscard p s) (fun _ s' _ => Ledger wall reach 1 0 s') w := by
  refine wp_seq (wp_writeMessageWaitAck' quiet_account trivial (fun _ => h.balanced)
    fun _ => ?_)
  refine wp_seq ((ledger_draw hA h).mono fun _ s w h => ?_)
  refine wp_seq ((ledger_isHu h).mono fun r s w h => ?_)
  show wp _ _ _ ((if r = 1 then _ else _ : Server Int) s) _ _
  split
  next => exact wp_pure h
  next =>
    refine wp_seq (wp_printDeck fun _ => ⟨h.printed p, ?_⟩)
    refine wp_seq ((wp_forever (Q := fun _ s _ => Ledger wall reach 1 0 s)
      (fun s _ => Ledger wall reach 1 0 s) ?_ h).mono ?_)
    · intro s w h
      refine wp_seq ((ledger_quietGang hA h).mono fun r s w h => ?_)
      show wp _ _ _ ((if r = 1 then _ else _ : Server (Option Bool)) s) _ _
      split
      next =>
        refine wp_seq ((ledger_draw hA (h.le (Nat.zero_le 1))).mono fun _ s w h => ?_)
        refine wp_seq ((ledger_isHu h).mono fun r s w h => ?_)
        show wp _ _ _ ((if r = 1 then _ else _ : Server (Option Bool)) s) _ _
        split
        next => exact wp_pure h
        next => exact wp_pure h
      next => exact wp_pure h
    · intro won s w h
      show wp _ _ _ ((if won = true then _ else _ : Server Int) s) _ _
      split
      next => exact wp_pure h
      next =>
        refine wp_seq ((ledger_discard hA h).mono fun _ s w h => ?_)
        exact wp_seq (wp_printDeck fun _ => ⟨h.printed p, wp_pure h⟩)

-- ==================================================================== the claims

include hA in
theorem ledger_huOrDiscard (h : Ledger wall reach 1 0 s) :
    wp anyone A (Accounted reach) (huOrDiscard p s) (fun _ s' _ => Ledger wall reach 1 0 s') w := by
  refine wp_seq ((ledger_isHu h).mono fun r s w h => ?_)
  show wp _ _ _ ((if r = 1 then _ else _ : Server (Option Outcome)) s) _ _
  split
  next => exact wp_pure h
  next => exact wp_seq ((ledger_discard hA h).mono fun _ _ _ h => wp_pure h)

/-- A claim on the discard: the tile on the table changes hands. -/
theorem ledger_taken {c : Claim} {k : Seat} {n m : Nat} {g : Player → Player} {what : String}
    {rest : Server (Option Outcome)} (h : Ledger wall reach 1 0 s)
    (hg : Reshaped (s.players k) (g (s.players k)) m)
    (hbehind : (g (s.players k)).decks.drop reach = (s.players k).decks.drop reach)
    (hrest : ∀ s w, Ledger wall reach 1 0 s →
      wp anyone A (Accounted reach) (rest s) (fun _ s' _ => Ledger wall reach 1 0 s') w) :
    wp anyone A (Accounted reach) ((do
      Io.note (.accept c k)
      accessDoor k n
      update k g
      toOthers k (announce k what)
      Prog.modify Game.clearDiscarded
      rest : Server (Option Outcome)) s) (fun _ s' _ => Ledger wall reach 1 0 s') w := by
  refine wp_seq (wp_note fun _ => ⟨trivial, ?_⟩)
  refine wp_seq (ledger_accessDoor fun _ => wp_modify_seq ?_)
  refine wp_seq (ledger_toOthers (plain_announce _ _) fun _ => wp_modify_seq ?_)
  exact hrest _ _ (h.reshape (g := g) hg hbehind rfl rfl rfl)

theorem ledger_huClaim {d k : Seat} (h : Ledger wall reach 1 0 s) :
    wp anyone A (Accounted reach) (huClaim d k s) (fun _ s' _ => Ledger wall reach 1 0 s') w := by
  refine wp_get_seq (wp_player_seq (wp_seq (wp_note fun _ => ⟨h.balanced, ?_⟩)))
  split
  next =>
    refine wp_seq (wp_ask quiet_account trivial (by decide) fun _ _ => ?_)
    split
    next =>
      refine wp_seq (wp_note fun _ => ⟨trivial, wp_modify_seq (wp_pure ?_)⟩)
      exact ⟨h.wall_eq, h.takeIndex_le, h.decks, h.behind, h.capacity, h.flowers, h.sea⟩
    next => exact wp_pure h
  next => exact wp_pure h

include hA in
theorem ledger_gangClaim {d k : Seat} (h : Ledger wall reach 1 0 s) :
    wp anyone A (Accounted reach) (gangClaim d k s) (fun _ s' _ => Ledger wall reach 1 0 s') w := by
  refine wp_get_seq (wp_player_seq (wp_seq (wp_note fun _ => ⟨h.balanced, ?_⟩)))
  split
  next =>
    refine wp_seq (wp_ask quiet_account trivial (by decide) fun _ _ => ?_)
    split
    next =>
      apply ledger_taken h (gangTiles_reshaped (h.decks _) (h.capacity _) _)
        (drop_gangTiles hA.reach_ge (h.decks _) (h.capacity _) _)
      intro s w h
      -- the replacement is drawn
      exact wp_seq ((ledger_draw hA (h.le (Nat.zero_le 1))).mono fun _ _ _ h =>
        ledger_huOrDiscard hA h)
    next => exact wp_pure h
  next => exact wp_pure h

include hA in
theorem ledger_pongClaim {d k : Seat} (h : Ledger wall reach 1 0 s) :
    wp anyone A (Accounted reach) (pongClaim d k s) (fun _ s' _ => Ledger wall reach 1 0 s') w := by
  refine wp_get_seq (wp_player_seq (wp_seq (wp_note fun _ => ⟨h.balanced, ?_⟩)))
  split
  next =>
    refine wp_seq (wp_ask quiet_account trivial (by decide) fun _ _ => ?_)
    split
    next =>
      apply ledger_taken h (pongTiles_reshaped (h.decks _) (h.capacity _) _)
        (drop_pongTiles hA.reach_ge (h.decks _) (h.capacity _) _)
      intro s w h
      exact ledger_huOrDiscard hA h
    next => exact wp_pure h
  next => exact wp_pure h

include hA in
/-- The pair is chosen from the hand, so its slots are. -/
theorem ledger_eatLoop (h : Ledger wall reach 1 0 s) :
    wp anyone A (Accounted reach) (eatLoop p s) (fun _ s' _ => Ledger wall reach 1 0 s') w := by
  refine wp_forever (fun s _ => Ledger wall reach 1 0 s) ?_ h
  intro s w h
  have hcap := h.capacity p
  refine wp_seq (wp_writeMessageWaitAck quiet_account trivial (by decide) fun _ => ?_)
  refine wp_seq (wp_readAndAck quiet_account trivial fun line _ => ?_)
  generalize (sscanf2 line).1.getD (-1) = i
  generalize (sscanf2 line).2.getD (-1) = j
  refine wp_seq (wp_note fun hpair => ⟨trivial, ?_⟩)
  obtain ⟨hi, hj⟩ := hA.eat p i j s hcap hpair
  refine wp_seq (wp_note fun _ => ⟨hi, ?_⟩)
  refine wp_seq (wp_note fun _ => ⟨hj, wp_get_seq ?_⟩)
  show wp _ _ _ ((if eatable _ = true then _ else _ : Server (Option Unit)) s) _ _
  split
  next =>
    refine wp_seq (wp_writeMessageWaitAck quiet_account trivial (by decide) fun _ => ?_)
    refine wp_seq (wp_note fun _ => ⟨trivial, ?_⟩)
    refine wp_seq (ledger_accessDoor fun _ => wp_modify_seq (wp_pure ?_))
    exact h.reshape (g := eatTiles (eatTemp (s.players p) s.discardedMj i j) i j)
      (eatTiles_reshaped (h.decks p) (h.capacity p) _ i j)
      (drop_eatTiles hA.reach_ge (h.decks p) (h.capacity p) _ hi hj) rfl rfl rfl
  next =>
    refine wp_seq (wp_writeMessageWaitAck quiet_account trivial (by decide) fun _ => ?_)
    exact wp_seq (wp_note fun _ => ⟨trivial, wp_pure h⟩)

include hA in
theorem ledger_eatClaim {d : Seat} (h : Ledger wall reach 1 0 s) :
    wp anyone A (Accounted reach) (eatClaim d s) (fun _ s' _ => Ledger wall reach 1 0 s') w := by
  refine wp_get_seq (wp_player_seq (wp_seq (wp_note fun _ => ⟨h.balanced, ?_⟩)))
  split
  next =>
    refine wp_seq (wp_ask quiet_account trivial (by decide) fun _ _ => ?_)
    split
    next =>
      refine wp_seq (wp_note fun _ => ⟨trivial, ?_⟩)
      refine wp_seq ((ledger_eatLoop hA h).mono fun _ s w h => ?_)
      refine wp_seq (ledger_toOthers (plain_announce _ _) fun _ => wp_modify_seq ?_)
      apply ledger_huOrDiscard hA
      exact ⟨h.wall_eq, h.takeIndex_le, h.decks, h.behind, h.capacity, h.flowers, h.sea⟩
    next => exact wp_pure h
  next => exact wp_pure h

/-- After a pass of `othersreaction` the tile is on its way still, in the
next discard, or in its sea. -/
def Accounts (reach : Nat) (wall : Wall) : Outcome → Game → Prop
  | .recurse _, s => Ledger wall reach 1 0 s
  | .done _ _, s => Ledger wall reach 0 0 s

theorem Accounts.of_ledger (h : Ledger wall reach 1 0 s) (o : Outcome) : Accounts reach wall o s := by
  cases o with
  | recurse d => exact h
  | done r d => exact h.le (Nat.zero_le 1)

/-- The tile gets to its sea. -/
theorem ledger_noOneWantsIt {d : Seat} (h : Ledger wall reach 1 0 s) :
    wp anyone A (Accounted reach) (noOneWantsIt d s) (fun o s' _ => Accounts reach wall o s') w := by
  have hroom := h.sea_lt d
  refine wp_seq (wp_writeMessageWaitAck quiet_account trivial (by decide) fun _ => ?_)
  refine wp_get_seq (wp_seq (wp_note fun _ => ⟨⟨by omega, by omega⟩, ?_⟩))
  have h1 := h.pushSea d s.discardedMj
  refine wp_modify_seq (wp_modify_seq (wp_pure ?_))
  exact ⟨h1.wall_eq, h1.takeIndex_le, h1.decks, h1.behind, h1.capacity, h1.flowers, h1.sea⟩

theorem ledger_firstOf {d : Seat} {blocks : List (Server (Option Outcome))}
    (hblocks : ∀ b ∈ blocks, ∀ s w, Ledger wall reach 1 0 s →
      wp anyone A (Accounted reach) (b s) (fun _ s' _ => Ledger wall reach 1 0 s') w)
    (h : Ledger wall reach 1 0 s) :
    wp anyone A (Accounted reach) (firstOf blocks (noOneWantsIt d) s)
      (fun o s' _ => Accounts reach wall o s') w := by
  induction blocks generalizing s w with
  | nil => exact ledger_noOneWantsIt h
  | cons b blocks ih =>
      refine wp_seq ((hblocks b (List.mem_cons_self ..) s w h).mono fun r s w h => ?_)
      cases r with
      | none => exact ih (fun b hb => hblocks b (List.mem_cons_of_mem _ hb)) h
      | some o => exact wp_pure (.of_ledger h o)

include hA in
theorem ledger_reaction {d : Seat} (h : Ledger wall reach 1 0 s) :
    wp anyone A (Accounted reach) (reaction d s) (fun o s' _ => Accounts reach wall o s') w := by
  refine wp_seq (wp_note fun _ => ⟨h.balanced, ?_⟩)
  apply ledger_firstOf _ h
  intro b hb s w h
  simp only [List.mem_cons, List.not_mem_nil, or_false] at hb
  rcases hb with rfl | rfl | rfl | rfl | rfl | rfl | rfl | rfl | rfl | rfl
  · exact ledger_huClaim h
  · exact ledger_huClaim h
  · exact ledger_huClaim h
  · exact ledger_gangClaim hA h
  · exact ledger_gangClaim hA h
  · exact ledger_gangClaim hA h
  · exact ledger_pongClaim hA h
  · exact ledger_pongClaim hA h
  · exact ledger_pongClaim hA h
  · exact ledger_eatClaim hA h

include hA in
theorem ledger_othersreaction {d : Seat} (h : Ledger wall reach 1 0 s) :
    wp anyone A (Accounted reach) (othersreaction d s) (fun _ s' _ => Ledger wall reach 0 0 s') w := by
  refine wp_iterate (fun _ s _ => Ledger wall reach 1 0 s) ?_ h
  intro x s w h
  refine wp_seq ((ledger_reaction hA h).mono fun o s w h => ?_)
  cases o with
  | recurse d' => exact wp_pure h
  | done r d' => exact wp_pure h

-- ===================================================================== the round

include hA in
theorem ledger_turns (h : Ledger wall reach 0 0 s) :
    wp anyone A (Accounted reach) (turns p s) (fun _ s' _ => Ledger wall reach 0 0 s') w := by
  refine wp_iterate (fun _ s _ => Ledger wall reach 0 0 s) ?_ h
  intro p s w h
  refine wp_get_seq ?_
  split
  next =>
    refine wp_seq ((ledger_drawNDiscard hA h).mono fun r s w h => ?_)
    split
    next => exact wp_pure (h.le (Nat.zero_le 1))
    next =>
      refine wp_seq ((ledger_othersreaction hA h).mono fun r s w h => ?_)
      split
      next => exact wp_pure h
      next =>
        refine wp_get_seq ?_
        split
        next => exact wp_pure h
        next => exact wp_pure h
  next => exact wp_pure h

/-- After the deal only flowers are laid out. -/
theorem flowerCount_real {l : List Mj} (h : ∀ m ∈ l, m.Real) : flowerCount (faces l) = 0 := by
  apply Multiset.countP_eq_zero.mpr
  intro f hf
  obtain ⟨m, hm, rfl⟩ := mem_faces.mp hf
  have hreal := h m hm
  unfold Mj.Real at hreal
  unfold Mj.face flower
  omega

theorem AfterDeal.ledger (h : AfterDeal wall s w) (hreach : 17 ≤ reach) :
    Ledger wall reach 0 0 s := by
  have hseas : ∑ q, (s.players q).seaIndex = 0 := Finset.sum_eq_zero fun q _ => h.seaIndex q
  have htake := h.takeIndex_eq
  have hle := h.takeIndex_le
  refine ⟨h.wall_eq, by omega, fun q => (h.books q).decks_length, fun q => ?_, fun q => ?_, ?_,
    by omega⟩
  · -- a dealt hand fills sixteen slots
    obtain ⟨hand, rest, hd, hrest, -, hlen⟩ := h.rests q
    have hcap := (h.books q).capacity
    have h16 : hand.length ≤ reach := by omega
    intro m hm
    rw [hd, List.drop_append, List.drop_eq_nil_of_le h16, List.nil_append] at hm
    exact hrest m (List.mem_of_mem_drop hm)
  · have hcap := (h.books q).capacity
    omega
  · rw [← h.used, flowerCount_sum, add_zero]
    refine Finset.sum_congr rfl fun q _ => ?_
    have hhand : flowerCount (faces ((s.players q).decks.take 16)) = 0 := by
      have hcap : (s.players q).normalCapacity = 16 := (h.books q).capacity
      have hreal := Rests.real (h.rests q)
      rw [hcap] at hreal
      exact flowerCount_real hreal
    rw [Rests.stock_dealt (h.rests q) (h.books q) (h.seaIndex q), flowerCount_add, hhand,
      zero_add]
    exact (h.books q).flowerIndex_eq.symm

include hA in
theorem ledger_playRound {start : Seat} {s₀ : Game} :
    wp anyone A (Accounted reach) (playRound wall.tiles start s₀) (fun _ _ _ => True) [] := by
  have hquiet : Quiet Plain (Accounted reach) Undecided := accounted_quiet fun _ _ _ _ h ho => h.log ho
  have hdeal : wp anyone A (Accounted reach) (deal start (Game.init wall.tiles))
      (fun _ s w => AfterDeal wall s w) [] := wp_deal (accounted_fair hA.reach_ge) hquiet Declares.nil
  refine wp_modify_seq (wp_seq (hdeal.mono fun _ s w h => ?_))
  refine wp_seq ((ledger_turns hA (h.ledger hA.reach_ge)).mono fun _ s w h => ?_)
  exact wp_note fun _ => ⟨h.balanced, trivial⟩

end Moves

end Server

end Mahjong
