/-
What holds at the table while a round is played.

# Two ways to look at a run

A run is looked at under one of two assumptions (`Mode`). Strict: the
wall is not over-read, discards name a slot of the hand, no quiet gang
is accepted and no eat leaves a hole; then every hand stays whole and
the stock is conserved. Lax: no array is indexed out of its range; then
a hand may have a hole (`Cracked`), but such a hand cannot be counted
any more, since an empty slot has no entry in a count table. Either way
a hand that is counted is whole, and this is what the win test needs.

# The states

Between turns everybody is at rest (`AtRest`). A player who has drawn or
claimed is the active one (`Active`), the others stay at rest. After a
discard the tile is on the table (`Tabled`), after a win nothing moves
any more (`Won`).
-/
import Mahjong.Proofs.Deal
import Mahjong.Proofs.WinTest

namespace Mahjong.Server

open Process CString Packing

-- =============================================================== the two modes

/-- What a run is assumed to do, and what not. -/
structure Mode (strict : Prop) (A : SOp → Game → Prop) : Prop where
  wall : ∀ i s, A (.note (.access .shuffledMjs i)) s → i < 144
  decks : ∀ i s, A (.note (.access .decks i)) s → 0 ≤ i ∧ i < 20
  rows : ∀ a i s, ¬ strict → a ≠ .door → A (.note (.access a i)) s → i < (a.size : Int)
  counts : ∀ tiles s, ¬ strict → A (.note (.counts tiles)) s →
    ∀ m ∈ tiles, m.isNull = false
  quietGang : ∀ p s, strict → ¬ A (.note (.accept .quietGang p)) s
  eat : ∀ p i j s, strict → A (.note (.eat p i j)) s →
    ¬ (j = (s.players p).normalCapacity - 1
      ∧ i ≠ (s.players p).normalCapacity - 2)
  discard : ∀ p i s, strict → A (.note (.discard p i)) s →
    0 ≤ i ∧ i ≤ (s.players p).normalCapacity

/-- The mark of a win stands right behind an offer to that player which
was answered with yes, and the tiles win: with the tile just drawn or
claimed, or with the discard. -/
def WonProperly (p : Seat) (s : Game) (w : Log) : Prop :=
  (∃ answer ack w', w = asked p (str "can hu\n") answer ack w'
      ∧ isYes answer = true
      ∧ Winning (faces ((s.players p).decks.take ((s.players p).normalCapacity + 1)))
        (faces (s.players p).doorTiles))
    ∨ (∃ answer ack w', w = asked p huOffer answer ack w'
      ∧ isYes answer = true
      ∧ Winning (faces ((s.players p).decks.take (s.players p).normalCapacity
          ++ [s.discardedMj])) (faces (s.players p).doorTiles))

/-- What is to be shown along a run. -/
structure Obliged (strict : Prop) (P : SOp → Game → Log → Prop) : Prop where
  quiet : Quiet Plain P Undecided
  access : ∀ a i s w, 0 ≤ i → i < (a.size : Int) → Undecided s w →
    P (.note (.access a i)) s w
  scan : ∀ p i s w, i < 20 → Undecided s w → P (.note (.scan p i)) s w
  counts : ∀ tiles s w, (∀ m ∈ tiles, m.Real) → Undecided s w →
    P (.note (.counts tiles)) s w
  yourTurn : ∀ p s w, (strict → Conserved s) → Undecided s w →
    P (.write p (str "your turn\n")) s w
  othersreaction : ∀ d s w, (strict → Conserved s) → Undecided s w →
    P (.note (.othersreaction d)) s w
  win : ∀ p s w, Undecided s w → WonProperly p s w → P (.note (.win p)) s w
  print : ∀ p hands doors s w, Undecided s w → P (.note (.print p hands doors)) s w

theorem Obliged.fairAccess {strict : Prop} {P : SOp → Game → Log → Prop}
    (hP : Obliged strict P) : FairAccess P :=
  ⟨fun a i s w hpos hlt _ hu => hP.access a i s w hpos hlt hu, hP.scan⟩

-- ============================================================= players' states

/-- An empty slot within the first `n` slots. -/
def Hole (p : Player) (n : Nat) : Prop := ∃ m ∈ p.decks.take n, m.isNull = true

/-- A hand with a hole, between turns. -/
def Cracked (p : Player) : Prop := Hole p p.normalCapacity

/-- A player with a tile in hand that may be a flower. -/
def Drawing (p : Player) : Prop :=
  ∃ h x rest, p.decks = h ++ x :: rest ∧ Nulls rest ∧ Hand h
    ∧ (x.Real ∨ x.type = flower) ∧ h.length = p.normalCapacity

/-- A player right after a quiet gang: the hand is three tiles shorter,
three empty slots and the fourth tile behind it. -/
def Ganged (p : Player) : Prop :=
  ∃ d z x rest, p.decks = d ++ (z ++ x :: rest) ∧ Hand d
    ∧ d.length = p.normalCapacity ∧ z.length = 3 ∧ Nulls z ∧ x.Real ∧ Nulls rest

theorem Hole.mono {p : Player} {n m : Nat} (h : Hole p n) (hnm : n ≤ m) :
    Hole p m := by
  obtain ⟨x, hx, hnull⟩ := h
  exact ⟨x, List.take_subset_take_left p.decks hnm hx, hnull⟩

theorem Drawing.holds {p : Player} (h : Drawing p)
    (hx : (p.deck p.normalCapacity).type ≠ flower) : Holds p := by
  obtain ⟨hand, x, rest, hd, hrest, hh, hor, hlen⟩ := h
  have hdeck : p.deck p.normalCapacity = x := by
    rw [Player.deck, hd, ← hlen]
    exact getD_append_length hand rest x
  rw [hdeck] at hx
  exact ⟨hand, x, rest, hd, hrest, hh, hor.resolve_right hx, hlen⟩

/-- The tiles counted for the win test are real. -/
theorem Holds.real {p : Player} (h : Holds p) :
    ∀ m ∈ p.decks.take (p.normalCapacity + 1), m.Real := by
  obtain ⟨hand, x, rest, hd, hrest, hh, hx, hlen⟩ := h
  have htake : p.decks.take (p.normalCapacity + 1) = hand ++ [x] := by
    rw [hd, List.append_cons, ← hlen]
    exact List.take_left' (by simp)
  rw [htake]
  intro m hm
  rcases List.mem_append.mp hm with hm | hm
  · exact hh.real m hm
  · rw [List.mem_singleton.mp hm]
    exact hx

/-- A hand one tile longer than the capacity. -/
theorem Hand.holds {p : Player} {d rest : List Mj} (hd : p.decks = d ++ rest)
    (hrest : Nulls rest) (hh : Hand d) (hlen : d.length = p.normalCapacity + 1) :
    Holds p := by
  rcases List.eq_nil_or_concat d with rfl | ⟨h, x, rfl⟩
  · exact absurd hlen (by simp)
  · rw [List.concat_eq_append] at hd hh hlen
    refine ⟨h, x, rest, by rw [hd]; simp, hrest, ⟨fun m hm => hh.real m ?_, ?_⟩,
      hh.real x (by simp), by simpa using hlen⟩
    · exact List.mem_append_left _ hm
    · exact (List.pairwise_append.mp hh.sorted).1

-- =============================================================== books kept

/-- A claim that lays down a set leaves the books in order. -/
theorem Books.claim {p : Player} {k : Nat} (hb : Books p k) (hk : k ≤ 4)
    {ts : List Mj} (hset : Group (ts.map Mj.face)) (hlo : 3 ≤ ts.length)
    (hhi : ts.length ≤ 4) {d : List Mj} (hd : d.length = 20) :
    Books { p.pushDoors ts with
      decks := d, normalCapacity := p.normalCapacity - 3 } (k + 1)
      ∧ (p.pushDoors ts).rows = p.rows + faces ts := by
  obtain ⟨f1, f2, f3, f4, f5, f6, f7, f8⟩ := Player.pushDoors_fields ts p
  obtain ⟨h1, h2, h3, h4, h5, h6, h7, h8, h9, h10⟩ := hb
  have hdoor : (p.pushDoors ts).doorTiles = p.doorTiles ++ ts :=
    Player.doorTiles_pushDoors ts (by omega)
  have hflower : (p.pushDoors ts).flowerTiles = p.flowerTiles := by
    rw [Player.flowerTiles, f1, f2, Player.flowerTiles]
  have hsea : (p.pushDoors ts).seaTiles = p.seaTiles := by
    rw [Player.seaTiles, f3, f4, Player.seaTiles]
  constructor
  · refine ⟨?_, hd, ?_, ?_, ?_, ?_, ?_, ?_, ?_, ?_⟩
    · show p.normalCapacity - 3 + 3 * (k + 1) = 16
      omega
    · exact (congrArg List.length f2).trans h3
    · exact f8.trans h4
    · exact (congrArg List.length f4).trans h5
    · show (p.pushDoors ts).flowerIndex ≤ 8
      omega
    · show (p.pushDoors ts).doorIndex ≤ 4 * (k + 1)
      omega
    · show (p.pushDoors ts).seaIndex ≤ 150
      omega
    · intro m hm
      refine h9 m ?_
      rw [← hflower]
      exact hm
    · obtain ⟨gs, hlen, hgs, htiles⟩ := h10
      refine ⟨gs ++ [ts.map Mj.face], by rw [List.length_append, hlen]; rfl, ?_, ?_⟩
      · intro g hg
        rcases List.mem_append.mp hg with hg | hg
        · exact hgs g hg
        · rw [List.mem_singleton.mp hg]
          exact hset
      · show (p.pushDoors ts).doorTiles.map Mj.face = _
        rw [hdoor, List.map_append, htiles, List.flatten_append, List.flatten_singleton]
  · rw [Player.rows, hdoor, hflower, hsea, faces_append, Player.rows]
    abel

theorem Books.setDecks {p : Player} {k : Nat} (hb : Books p k) {d : List Mj}
    (hd : d.length = 20) : Books { p with decks := d } k := by
  obtain ⟨h1, h2, h3, h4, h5, h6, h7, h8, h9, h10⟩ := hb
  exact ⟨h1, hd, h3, h4, h5, h6, h7, h8, h9, h10⟩

-- ============================================================ tables in play

/-- The part of the table's state nobody's move touches: the wall, no
winner, and in strict mode the stock. -/
structure Common (strict : Prop) (wall : Wall) (s : Game) (w : Log) : Prop where
  wall_eq : s.shuffledMjs = wall.tiles
  winner : s.winner = -1
  stock : strict → s.stock = (tileSet : Multiset Face)
  books : ∀ q, ∃ k, Books (s.players q) k
  declares : Declares w (-1)

/-- A player who is not active. -/
def Idle (strict : Prop) (p : Player) : Prop := Rests p ∨ (¬ strict ∧ Cracked p)

/-- Everybody is between turns. -/
structure AtRest (strict : Prop) (wall : Wall) (s : Game) (w : Log) : Prop extends
    Common strict wall s w where
  idle : ∀ q, Idle strict (s.players q)

/-- `p` is in the middle of a move, in the state `X`; nothing is on the
table. -/
structure Active (strict : Prop) (wall : Wall) (p : Seat) (X : Player → Prop)
    (s : Game) (w : Log) : Prop extends Common strict wall s w where
  noDiscard : s.discardedMj.isNull = true
  idle : ∀ q, q ≠ p → Idle strict (s.players q)
  active : X (s.players p)

/-- There is a discard on the table; a null tile, which only a lax run
can discard, makes the next count go wrong. -/
def Tabled (strict : Prop) (wall : Wall) (s : Game) (w : Log) : Prop :=
  (AtRest strict wall s w ∧ s.discardedMj.Real)
    ∨ (¬ strict ∧ s.discardedMj.isNull = true ∧ Undecided s w)

/-- Nothing is on the table and somebody's turn begins. -/
def Cleared (strict : Prop) (wall : Wall) (s : Game) (w : Log) : Prop :=
  AtRest strict wall s w ∧ s.discardedMj.isNull = true

/-- The round is won. -/
structure Won (strict : Prop) (s : Game) (w : Log) : Prop where
  winner : ∃ p : Seat, s.winner = (p.val : Int)
  declares : Declares w s.winner
  conserved : strict → Conserved s
  books : ∀ q, ∃ k, Books (s.players q) k

section Log

variable {strict : Prop} {wall : Wall} {s : Game} {w : Log} {o : SOp} {r : o.Res}

theorem Common.undecided (h : Common strict wall s w) : Undecided s w :=
  ⟨h.winner, h.declares, h.books⟩

theorem Common.log (h : Common strict wall s w) (ho : ¬ IsWin o) :
    Common strict wall s (⟨o, r⟩ :: w) :=
  ⟨h.wall_eq, h.winner, h.stock, h.books, h.declares.cons ho⟩

theorem AtRest.log (h : AtRest strict wall s w) (ho : ¬ IsWin o) :
    AtRest strict wall s (⟨o, r⟩ :: w) :=
  ⟨h.toCommon.log ho, h.idle⟩

theorem Active.log {p : Seat} {X : Player → Prop} (h : Active strict wall p X s w)
    (ho : ¬ IsWin o) : Active strict wall p X s (⟨o, r⟩ :: w) :=
  ⟨h.toCommon.log ho, h.noDiscard, h.idle, h.active⟩

theorem Tabled.log (h : Tabled strict wall s w) (ho : ¬ IsWin o) :
    Tabled strict wall s (⟨o, r⟩ :: w) :=
  h.imp (fun h => ⟨h.1.log ho, h.2⟩) fun h => ⟨h.1, h.2.1, h.2.2.log ho⟩

end Log

section Moves

variable {strict : Prop} {wall : Wall} {s : Game} {w : Log} {p : Seat}

/-- At rest with nothing on the table, a strict run has all its tiles. -/
theorem Cleared.conserved (h : Cleared strict wall s w) (hs : strict) :
    Conserved s := by
  rw [Conserved, Game.tiles_eq_stock, h.1.stock hs]
  exact fun q => Or.inl ((h.1.idle q).resolve_right fun hc => hc.1 hs)

theorem Tabled.conserved (h : Tabled strict wall s w) (hs : strict) :
    Conserved s := by
  rcases h with h | h
  · rw [Conserved, Game.tiles_eq_stock, h.1.stock hs]
    exact fun q => Or.inl ((h.1.idle q).resolve_right fun hc => hc.1 hs)
  · exact absurd hs h.1

theorem Active.conserved (h : Active strict wall p Holds s w) (hs : strict) :
    Conserved s := by
  rw [Conserved, Game.tiles_eq_stock, h.stock hs]
  intro q
  by_cases hq : q = p
  · exact Or.inr (hq ▸ h.active)
  · exact Or.inl ((h.idle q hq).resolve_right fun hc => hc.1 hs)

theorem Tabled.undecided (h : Tabled strict wall s w) : Undecided s w := by
  rcases h with h | h
  · exact h.1.undecided
  · exact h.2.2

/-- A move that changes one player's part and the table. -/
theorem Common.update (h : Common strict wall s w) {g : Player → Player}
    {s' : Game} (hplayers : s'.players = (s.update p g).players)
    (hwall : s'.shuffledMjs = s.shuffledMjs) (hwin : s'.winner = s.winner)
    (hstock : strict → s'.stock = s.stock)
    (hb : ∀ k, Books (s.players p) k → ∃ k', Books (g (s.players p)) k') :
    Common strict wall s' w := by
  refine ⟨hwall.trans h.wall_eq, hwin.trans h.winner,
    fun hs => (hstock hs).trans (h.stock hs), fun q => ?_, h.declares⟩
  rw [hplayers]
  by_cases hq : q = p
  · rw [hq, Game.update_players_self]
    obtain ⟨k, hk⟩ := h.books p
    exact hb k hk
  · rw [Game.update_players_ne _ _ _ _ hq]
    exact h.books q

end Moves

end Mahjong.Server
