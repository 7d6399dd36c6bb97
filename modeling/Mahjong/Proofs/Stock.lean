/-
The tiles on the table, and the bookkeeping of a player.

`Game.tiles` is what should be conserved: the undrawn wall, every
player's live hand, flowers, door and sea, and the discard on the table.
The proofs carry `Game.stock` instead, where a hand counts with all its
slots that are not empty: it does not depend on how far the hand goes,
so drawing, dealing and replacing flowers keep it one step after the
other. At rest the two agree (`Game.tiles_eq_stock`).
-/
import Mahjong.Proofs.Hand

namespace Mahjong

open Packing

-- ======================================================= what is on the table

namespace Player

/-- The live hand: `decks[0..normal_capacity-1]`, and
`decks[normal_capacity]` while it holds a drawn or claimed tile. -/
def liveHand (p : Player) : List Mj :=
  p.decks.take p.normalCapacity
    ++ if (p.deck p.normalCapacity).isNull then [] else [p.deck p.normalCapacity]

/-- `flowers[0..flower_index-1]`. -/
def flowerTiles (p : Player) : List Mj := p.flowers.take p.flowerIndex

/-- `sea[0..sea_index-1]`. -/
def seaTiles (p : Player) : List Mj := p.sea.take p.seaIndex

/-- The rows of a player, the hand apart. -/
def rows (p : Player) : Multiset Face :=
  faces p.flowerTiles + faces p.doorTiles + faces p.seaTiles

end Player

namespace Game

/-- `shuffled_mjs[take_index..143]`. -/
def undrawn (s : Game) : List Mj := s.shuffledMjs.drop s.takeIndex

/-- The discard, unless it is the null tile. -/
def onTable (s : Game) : List Mj :=
  if s.discardedMj.isNull then [] else [s.discardedMj]

/-- All tiles: the undrawn wall, the players' live hands and rows, the
discard. -/
def tiles (s : Game) : Multiset Face :=
  faces s.undrawn
    + ∑ p, (faces (s.players p).liveHand + (s.players p).rows)
    + faces s.onTable

end Game

/-- No tile is lost and none is duplicated. -/
def Conserved (s : Game) : Prop := s.tiles = (tileSet : Multiset Face)

-- ================================================================= the stock

/-- The tiles in slots that are not empty. -/
def filled (l : List Mj) : Multiset Face := faces (l.filter fun m => !m.isNull)

@[simp] theorem filled_append (l r : List Mj) :
    filled (l ++ r) = filled l + filled r := by
  simp [filled]

theorem filled_nulls {l : List Mj} (h : Nulls l) : filled l = 0 := by
  rw [filled, List.filter_eq_nil_iff.mpr, faces_nil]
  intro m hm
  simp [h m hm]

theorem filled_of_not_null {l : List Mj} (h : ∀ m ∈ l, m.isNull = false) :
    filled l = faces l := by
  rw [filled, List.filter_eq_self.mpr]
  intro m hm
  simp [h m hm]

theorem filled_real {l : List Mj} (h : ∀ m ∈ l, m.Real) : filled l = faces l :=
  filled_of_not_null fun m hm => (h m hm).not_null

theorem filled_cons (m : Mj) (l : List Mj) :
    filled (m :: l) = filled [m] + filled l := filled_append [m] l

/-- Writing a slot exchanges its old content for the new. -/
theorem filled_set {l : List Mj} {i : Nat} (hi : i < l.length) (m : Mj) :
    filled [l.getD i Mj.null] + filled (l.set i m) = filled [m] + filled l := by
  induction l generalizing i with
  | nil => exact absurd hi (by simp)
  | cons x l ih =>
      cases i with
      | zero =>
          rw [List.set_cons_zero, filled_cons m l, filled_cons x l,
            List.getD_cons_zero]
          exact add_left_comm (filled [x]) (filled [m]) (filled l)
      | succ i =>
          have hi' : i < l.length := by simpa using hi
          rw [List.set_cons_succ, List.getD_cons_succ, filled_cons x (l.set i m),
            filled_cons x l, add_left_comm, ih hi', add_left_comm]

/-- A player's share: filled slots and rows. -/
def Player.stock (p : Player) : Multiset Face := filled p.decks + p.rows

namespace Game

def stock (s : Game) : Multiset Face :=
  faces s.undrawn + ∑ p, (s.players p).stock + faces s.onTable

/-- Only the changed player's share changes. -/
theorem sum_update {M : Type} [AddCommMonoid M] {f : Player → M} (s : Game) (p : Seat)
    (g : Player → Player) :
    (∑ q, f ((s.update p g).players q)) + f (s.players p)
      = (∑ q, f (s.players q)) + f (g (s.players p)) := by
  have h := Finset.sum_erase_add Finset.univ (fun q => f (s.players q))
    (Finset.mem_univ p)
  have h' := Finset.sum_erase_add Finset.univ
    (fun q => f ((s.update p g).players q)) (Finset.mem_univ p)
  have hrest : ∑ q ∈ Finset.univ.erase p, f ((s.update p g).players q)
      = ∑ q ∈ Finset.univ.erase p, f (s.players q) := by
    refine Finset.sum_congr rfl fun q hq => ?_
    rw [update_players_ne s p q g (Finset.ne_of_mem_erase hq)]
  simp only [update_players_self] at h'
  rw [← h, ← h', hrest]
  exact add_right_comm _ _ _

theorem undrawn_cons {s : Game} (h : s.takeIndex < s.shuffledMjs.length) :
    s.undrawn = s.shuffledMjs.getD s.takeIndex Mj.null
      :: s.shuffledMjs.drop (s.takeIndex + 1) := by
  rw [undrawn, List.drop_eq_getElem_cons h, List.getD_eq_getElem?_getD,
    List.getElem?_eq_getElem h, Option.getD_some]

end Game

-- ========================================================== a player's books

/-- The cursors and rows of a player with `k` sets laid down. -/
structure Books (p : Player) (k : Nat) : Prop where
  capacity : p.normalCapacity + 3 * k = 16
  decks_length : p.decks.length = 20
  flowers_length : p.flowers.length = 8
  door_length : p.door.length = 20
  sea_length : p.sea.length = 150
  flowerIndex_le : p.flowerIndex ≤ 8
  doorIndex_le : p.doorIndex ≤ 4 * k
  seaIndex_le : p.seaIndex ≤ 150
  flowerTiles : ∀ m ∈ p.flowerTiles, m.type = flower
  doorGroups : ∃ gs : List (List Face), gs.length = k ∧ (∀ g ∈ gs, Group g)
    ∧ p.doorTiles.map Mj.face = gs.flatten

theorem Books.doorSets {p : Player} {k : Nat} (hb : Books p k) :
    Covers IsSet k (faces p.doorTiles) := by
  obtain ⟨gs, hlen, hgs, hdoor⟩ := hb.doorGroups
  rw [faces, hdoor, ← hlen]
  exact Group.covers hgs

/-- At least three tiles lie on the door for every set. -/
theorem Books.doorIndex_ge {p : Player} {k : Nat} (hb : Books p k) :
    3 * k ≤ p.doorIndex := by
  obtain ⟨gs, hlen, hgs, hdoor⟩ := hb.doorGroups
  have hlo := (Group.flatten_length hgs).1
  have htiles := congrArg List.length hdoor
  rw [List.length_map, Player.doorTiles, List.length_take] at htiles
  omega

theorem Books.pushFlower {pl : Player} {k : Nat} (hb : Books pl k) {m : Mj}
    (hm : m.type = flower) (hroom : pl.flowerIndex < 8) :
    Books (pl.pushFlower m) k := by
  obtain ⟨h1, h2, h3, h4, h5, h6, h7, h8, h9, h10⟩ := hb
  refine ⟨h1, h2, ?_, h4, h5, hroom, h7, h8, ?_, h10⟩
  · show (pl.flowers.set _ _).length = 8
    rw [List.length_set]
    exact h3
  · intro x hx
    have hrow : (pl.pushFlower m).flowerTiles = pl.flowerTiles ++ [m] :=
      take_set_succ (by rw [h3]; exact hroom) m
    rw [hrow] at hx
    rcases List.mem_append.mp hx with hx | hx
    · exact h9 x hx
    · rw [List.mem_singleton.mp hx]
      exact hm

/-- A player between turns: the hand fills the capacity. -/
def Rests (p : Player) : Prop :=
  ∃ h rest, p.decks = h ++ rest ∧ Nulls rest ∧ Hand h
    ∧ h.length = p.normalCapacity

/-- A player with an extra tile `x` behind the hand. -/
def Holds (p : Player) : Prop :=
  ∃ h x rest, p.decks = h ++ x :: rest ∧ Nulls rest ∧ Hand h ∧ x.Real
    ∧ h.length = p.normalCapacity

theorem Rests.real {p : Player} (h : Rests p) :
    ∀ m ∈ p.decks.take p.normalCapacity, m.Real := by
  obtain ⟨hand, rest, hd, hrest, hh, hlen⟩ := h
  rw [hd, ← hlen, List.take_left]
  exact hh.real

theorem Rests.deck_null {p : Player} (hr : Rests p) :
    (p.deck p.normalCapacity).isNull = true := by
  obtain ⟨h, rest, hd, hrest, -, hlen⟩ := hr
  rw [Player.deck, hd, ← hlen, List.getD_eq_getElem?_getD,
    List.getElem?_append_right (Nat.le_refl _), Nat.sub_self]
  cases rest with
  | nil => rfl
  | cons m rest => exact hrest m (List.mem_cons_self ..)

theorem Rests.liveHand {p : Player} (hr : Rests p) :
    faces p.liveHand = filled p.decks := by
  have hnull := hr.deck_null
  obtain ⟨h, rest, hd, hrest, hh, hlen⟩ := hr
  rw [Player.liveHand, hnull, if_pos rfl, List.append_nil, hd, ← hlen,
    List.take_left, filled_append, filled_nulls hrest, add_zero,
    filled_real hh.real]

theorem Holds.liveHand {p : Player} (hp : Holds p) :
    faces p.liveHand = filled p.decks := by
  obtain ⟨h, x, rest, hd, hrest, hh, hx, hlen⟩ := hp
  have hdeck : p.deck p.normalCapacity = x := by
    rw [Player.deck, hd, ← hlen]
    exact getD_append_length h rest x
  rw [Player.liveHand, hdeck, hx.not_null, if_neg Bool.false_ne_true, hd, ← hlen,
    List.take_left, filled_append, filled_cons, filled_nulls hrest, add_zero,
    faces_append, filled_real hh.real,
    filled_real fun m hm => List.mem_singleton.mp hm ▸ hx]

/-- At rest the stock is the tiles on the table. -/
theorem Game.tiles_eq_stock {s : Game}
    (h : ∀ p, Rests (s.players p) ∨ Holds (s.players p)) : s.tiles = s.stock := by
  rw [tiles, stock]
  congr 2
  refine Finset.sum_congr rfl fun p _ => ?_
  rw [Player.stock]
  rcases h p with h | h
  · rw [h.liveHand]
  · rw [h.liveHand]

-- ======================================================= moves of the stock

theorem filled_singleton {m : Mj} (h : m.isNull = false) :
    filled [m] = {m.face} := by
  rw [filled_of_not_null fun _ hx => List.mem_singleton.mp hx ▸ h]
  rfl

theorem filled_null {m : Mj} (h : m.isNull = true) : filled [m] = 0 :=
  filled_nulls fun _ hx => List.mem_singleton.mp hx ▸ h

theorem Wall.not_null (wall : Wall) {m : Mj} (hm : m ∈ wall.tiles) :
    m.isNull = false := by
  rcases wall.real_or_flower hm with h | h
  · exact h.not_null
  · simp [Mj.isNull, h]

/-- The tile the cursor is at. -/
def Game.next (s : Game) : Mj := s.shuffledMjs.getD s.takeIndex Mj.null

theorem Game.takeInto_players_self (s : Game) (p : Seat) (i : Nat) :
    (s.takeInto p i).players p = (s.players p).setDeck i s.next :=
  Game.update_players_self s p fun pl => pl.setDeck i s.next

theorem Game.takeInto_players_ne (s : Game) {p q : Seat} (i : Nat) (h : q ≠ p) :
    (s.takeInto p i).players q = s.players q :=
  Game.update_players_ne s p q (fun pl => pl.setDeck i s.next) h

theorem Game.next_mem {s : Game} {wall : Wall} (hw : s.shuffledMjs = wall.tiles)
    (hlt : s.takeIndex < 144) : s.next ∈ wall.tiles := by
  have hlt' : s.takeIndex < wall.tiles.length := by rw [wall.length]; exact hlt
  rw [Game.next, hw, List.getD_eq_getElem?_getD, List.getElem?_eq_getElem hlt',
    Option.getD_some]
  exact List.getElem_mem hlt'

/-- Taking a tile into a slot adds it to the stock of the hand and takes
it off the wall; what was in the slot is gone. -/
theorem Game.stock_takeInto {s : Game} {wall : Wall}
    (hw : s.shuffledMjs = wall.tiles) (hlt : s.takeIndex < 144) {p : Seat} {i : Nat}
    (hi : i < (s.players p).decks.length) :
    (s.takeInto p i).stock + filled [(s.players p).deck i] = s.stock := by
  have hnext := wall.not_null (Game.next_mem hw hlt)
  have hset := filled_set hi s.next
  rw [filled_singleton hnext] at hset
  have hcons : s.undrawn = s.next :: (s.takeInto p i).undrawn :=
    Game.undrawn_cons (by rw [hw, wall.length]; exact hlt)
  have hsum := sum_update (f := Player.stock) s p fun pl => pl.setDeck i s.next
  have hplayer : ((s.players p).setDeck i s.next).stock
        + filled [(s.players p).deck i] = {s.next.face} + (s.players p).stock := by
    show filled ((s.players p).decks.set i s.next) + (s.players p).rows
        + filled [(s.players p).decks.getD i Mj.null] = _
    rw [Player.stock, ← add_assoc, ← hset]
    abel
  have hstock : (s.takeInto p i).stock = faces (s.takeInto p i).undrawn
      + ∑ q, ((s.update p fun pl => pl.setDeck i s.next).players q).stock
      + faces s.onTable := rfl
  refine add_right_cancel (b := (s.players p).stock) ?_
  calc (s.takeInto p i).stock + filled [(s.players p).deck i] + (s.players p).stock
      = faces (s.takeInto p i).undrawn
        + (∑ q, ((s.update p fun pl => pl.setDeck i s.next).players q).stock
            + (s.players p).stock)
        + faces s.onTable + filled [(s.players p).deck i] := by
        rw [hstock]
        abel
    _ = faces (s.takeInto p i).undrawn + ∑ q, (s.players q).stock
        + (((s.players p).setDeck i s.next).stock + filled [(s.players p).deck i])
        + faces s.onTable := by
        rw [hsum]
        abel
    _ = s.stock + (s.players p).stock := by
        rw [hplayer, Game.stock, hcons, faces_cons, ← Multiset.singleton_add]
        abel

/-- Laying a flower adds it to the stock of the row. -/
theorem Game.stock_pushFlower {s : Game} {p : Seat} (m : Mj)
    (hroom : (s.players p).flowerIndex < (s.players p).flowers.length) :
    (s.update p fun pl => pl.pushFlower m).stock = m.face ::ₘ s.stock := by
  have hsum := sum_update (f := Player.stock) s p fun pl => pl.pushFlower m
  have hplayer : ((s.players p).pushFlower m).stock
      = {m.face} + (s.players p).stock := by
    have hrow : ((s.players p).pushFlower m).flowerTiles
        = (s.players p).flowerTiles ++ [m] := take_set_succ hroom m
    show filled (s.players p).decks + ((s.players p).pushFlower m).rows = _
    rw [Player.rows, hrow, faces_append, faces_cons, faces_nil, Player.stock,
      Player.rows]
    show _ + (_ + m.face ::ₘ 0 + faces (s.players p).doorTiles
      + faces (s.players p).seaTiles) = _
    rw [← Multiset.singleton_add, add_zero]
    abel
  refine add_right_cancel (b := (s.players p).stock) ?_
  rw [Game.stock, Game.stock, ← Multiset.singleton_add]
  show faces s.undrawn
      + ∑ q, ((s.update p fun pl => pl.pushFlower m).players q).stock
      + faces s.onTable + (s.players p).stock = _
  rw [add_right_comm, add_assoc (faces s.undrawn), hsum, hplayer]
  abel

/-- Changing one player only: the stock changes by that player's. -/
theorem Game.stock_update {s : Game} {p : Seat} {g : Player → Player} :
    (s.update p g).stock + (s.players p).stock
      = s.stock + (g (s.players p)).stock := by
  have hsum := sum_update (f := Player.stock) s p g
  rw [Game.stock, Game.stock]
  show faces s.undrawn + ∑ q, ((s.update p g).players q).stock + faces s.onTable
      + (s.players p).stock = _
  rw [add_right_comm, add_assoc (faces s.undrawn), hsum]
  abel

/-- A tile put on the empty table. -/
theorem Game.stock_setDiscarded {s : Game} (h : s.discardedMj.isNull = true) {m : Mj}
    (hm : m.isNull = false) : (s.setDiscarded m).stock = m.face ::ₘ s.stock := by
  have hnew : (s.setDiscarded m).onTable = [(s.setDiscarded m).discardedMj] :=
    if_neg (by rw [show (s.setDiscarded m).discardedMj.isNull = m.isNull from rfl, hm];
               exact Bool.false_ne_true)
  have hold : s.onTable = [] := if_pos h
  rw [Game.stock, Game.stock, hnew, hold, faces_nil, add_zero]
  show faces s.undrawn + ∑ p, (s.players p).stock + {m.face} = _
  rw [add_comm, Multiset.singleton_add]

/-- The tile on the table removed. -/
theorem Game.stock_clearDiscarded {s : Game} (h : s.discardedMj.isNull = false) :
    s.discardedMj.face ::ₘ s.clearDiscarded.stock = s.stock := by
  have hnew : s.clearDiscarded.onTable = [] := rfl
  have hold : s.onTable = [s.discardedMj] := if_neg (by rw [h]; exact Bool.false_ne_true)
  rw [Game.stock, Game.stock, hnew, hold, faces_nil, add_zero]
  show s.discardedMj.face ::ₘ (faces s.undrawn + ∑ p, (s.players p).stock)
    = faces s.undrawn + ∑ p, (s.players p).stock + {s.discardedMj.face}
  rw [← Multiset.singleton_add, add_comm]

theorem Game.stock_cleared {s : Game} (h : s.discardedMj.isNull = true) :
    s.clearDiscarded.stock = s.stock := by
  have hold : s.onTable = [] := if_pos h
  rw [Game.stock, Game.stock, hold]
  rfl

-- =============================================================== the flowers

/-- How many of the tiles are flowers. -/
def flowerCount (T : Multiset Face) : Nat := T.countP fun f => f.1 = flower

theorem flowerCount_tileSet : flowerCount (tileSet : Multiset Face) = 8 := by
  rw [flowerCount, Multiset.coe_countP]
  decide +kernel

theorem flowerCount_add (S T : Multiset Face) :
    flowerCount (S + T) = flowerCount S + flowerCount T :=
  Multiset.countP_add _ _ _

theorem flowerCount_sum (f : Seat → Multiset Face) :
    flowerCount (∑ p, f p) = ∑ p, flowerCount (f p) := by
  have h := map_sum (Multiset.countPAddMonoidHom fun g : Face => g.1 = flower) f
    Finset.univ
  exact h

theorem Books.flowerIndex_eq {p : Player} {k : Nat} (hb : Books p k) :
    flowerCount (faces p.flowerTiles) = p.flowerIndex := by
  have hlen : p.flowerTiles.length = p.flowerIndex := by
    rw [Player.flowerTiles, List.length_take, hb.flowers_length,
      Nat.min_eq_left hb.flowerIndex_le]
  rw [← hlen, flowerCount, ← card_faces, Multiset.countP_eq_card]
  intro f hf
  obtain ⟨m, hm, rfl⟩ := mem_faces.mp hf
  exact hb.flowerTiles m hm

/-- While a flower is in a hand, there is room for it in the rows. -/
theorem flower_room {s : Game} (hs : s.stock = (tileSet : Multiset Face))
    (hb : ∀ q, ∃ k, Books (s.players q) k) {p : Seat} {i : Nat}
    (hi : ((s.players p).deck i).type = flower) :
    ∑ q, (s.players q).flowerIndex < 8 := by
  have hrow : ∀ q, (s.players q).flowerIndex ≤ flowerCount (s.players q).stock := by
    intro q
    obtain ⟨k, hk⟩ := hb q
    rw [Player.stock, Player.rows, flowerCount_add, flowerCount_add,
      flowerCount_add, hk.flowerIndex_eq]
    omega
  have hp : (s.players p).flowerIndex < flowerCount (s.players p).stock := by
    obtain ⟨k, hk⟩ := hb p
    have hslot : i < (s.players p).decks.length := by
      by_contra hge
      rw [Player.deck, List.getD_eq_getElem?_getD,
        List.getElem?_eq_none (by omega)] at hi
      exact absurd hi (by decide)
    have hmem : ((s.players p).deck i).face ∈ filled (s.players p).decks := by
      refine mem_faces.mpr ⟨_, List.mem_filter.mpr ⟨?_, ?_⟩, rfl⟩
      · rw [Player.deck, List.getD_eq_getElem?_getD, List.getElem?_eq_getElem hslot]
        exact List.getElem_mem hslot
      · simp [Mj.isNull, hi]
    have hpos : 0 < flowerCount (filled (s.players p).decks) :=
      Multiset.countP_pos.mpr ⟨_, hmem, hi⟩
    rw [Player.stock, Player.rows, flowerCount_add, flowerCount_add,
      flowerCount_add, hk.flowerIndex_eq]
    omega
  calc ∑ q, (s.players q).flowerIndex
      < ∑ q, flowerCount (s.players q).stock :=
        Finset.sum_lt_sum (fun q _ => hrow q) ⟨p, Finset.mem_univ p, hp⟩
    _ = flowerCount (∑ q, (s.players q).stock) := (flowerCount_sum _).symm
    _ ≤ flowerCount s.stock := by
        rw [Game.stock, flowerCount_add, flowerCount_add]
        omega
    _ = 8 := by rw [hs, flowerCount_tileSet]

end Mahjong
