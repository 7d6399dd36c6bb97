/-
The server's table: a player's four tile arrays with their cursors
(`struct player`, game part), the globals of a round, and the pieces of
C that rearrange one player's tiles without talking to anyone.

Arrays are lists of their C length: `decks[20]`, `flowers[8]`,
`door[20]`, `sea[150]`, `shuffled_mjs[144]`. A read beyond the end
yields the null tile and a write beyond the end is lost; the program
reports every computed index (`Note.access`), so a statement about runs
can exclude or detect such accesses.

The ten claim blocks of `othersreaction` and the accepted branch of
`quiet_gang` share one shape, `takeCopies`: lay the tile down, remove
`k` copies from the hand, swap the holes behind the hand, shrink the
hand by three and sort it.
-/
import Mahjong.Server.Check
import Mahjong.Lib.QuickSort
import Mathlib

namespace Mahjong

open QuickSort

-- =================================================================== sorts

/-- 理牌: sort a segment by `type * 10 + number`. -/
def decksQuickSort (mjs : List Mj) (start stop : Nat) : List Mj :=
  quickSort Mj.key mjs start stop

/-- 堆牌山: sort a segment by priority. -/
def priorityQuickSort (mjs : List Mj) (start stop : Nat) : List Mj :=
  quickSort Mj.priority mjs start stop

/-- 洗牌: `shuffle()`, the k-th call of `rand()` giving `rand k`. -/
def shuffle (rand : Nat → Int) : List Mj :=
  priorityQuickSort (tileSet.zipIdx.map fun x => ⟨x.1.1, x.1.2, rand x.2⟩) 0 143

-- ================================================================== players

/-- A seat at the table, which is also the index into `players` and the
name of the player's descriptor; seats add modulo 4. -/
abbrev Seat := Fin 4

/-- So that seats are written as numerals. -/
instance seat_neZero : NeZero 4 := ⟨by decide⟩

/-- The game part of `struct player`. -/
structure Player where
  flowerIndex : Nat
  doorIndex : Nat
  seaIndex : Nat
  normalCapacity : Nat
  decks : List Mj
  flowers : List Mj
  door : List Mj
  sea : List Mj
deriving DecidableEq

/-- The globals of a round. -/
structure Game where
  winner : Int
  shuffledMjs : List Mj
  discardedMj : Mj
  takeIndex : Nat
  players : Seat → Player

namespace Player

/-- `player_gameinfo_init`. -/
def gameinfoInit : Player where
  flowerIndex := 0
  doorIndex := 0
  seaIndex := 0
  normalCapacity := 16
  decks := List.replicate 20 Mj.null
  flowers := List.replicate 8 Mj.null
  door := List.replicate 20 Mj.null
  sea := List.replicate 150 Mj.null

/-- `decks[i]`. -/
def deck (p : Player) (i : Nat) : Mj := p.decks.getD i Mj.null

/-- `decks[i] = m`. -/
def setDeck (p : Player) (i : Nat) (m : Mj) : Player :=
  { p with decks := p.decks.set i m }

/-- `door[door_index++] = m`. -/
def pushDoor (p : Player) (m : Mj) : Player :=
  { p with door := p.door.set p.doorIndex m, doorIndex := p.doorIndex + 1 }

/-- `flowers[flower_index++] = m`. -/
def pushFlower (p : Player) (m : Mj) : Player :=
  { p with flowers := p.flowers.set p.flowerIndex m,
           flowerIndex := p.flowerIndex + 1 }

/-- `sea[sea_index++] = m`. -/
def pushSea (p : Player) (m : Mj) : Player :=
  { p with sea := p.sea.set p.seaIndex m, seaIndex := p.seaIndex + 1 }

end Player

/-- An `int` as an index of a tile array: a negative one lies outside
of it like one past its end. -/
def slotIndex (i : Int) : Nat := if i < 0 then 20 else i.toNat

-- ======================================================== laying copies down

/-- The removal loop of a claim: lay down `t` for each of the first
`need` slots that hold it, emptying them. -/
def removeLoop (t : Mj) : Nat → List Nat → Player → Player
  | _, [], p => p
  | need, i :: is, p =>
      if mjCompare t (p.deck i) = 0 then
        let p := (p.pushDoor t).setDeck i (p.deck i).zero
        if need - 1 = 0 then p else removeLoop t (need - 1) is p
      else removeLoop t need is p

/-- The compaction loop: swap each empty slot it meets with the target
`normal_capacity - (k + 1) + need`, which counts down from the end. -/
def compactLoop (nc k : Nat) : Nat → List Nat → List Mj → List Mj
  | _, [], decks => decks
  | need, i :: is, decks =>
      if (decks.getD i Mj.null).isNull then
        let decks := swap decks i (nc + need - (k + 1))
        if need - 1 = 0 then decks else compactLoop nc k (need - 1) is decks
      else compactLoop nc k need is decks

/-- A claim of tile `t` with `k` copies from the hand, up to the sort:
the door gains `t` and the copies, the holes go behind the hand, the
capacity drops by three. -/
def layCopies (k : Nat) (t : Mj) (p : Player) : Player :=
  let p := p.pushDoor t
  let p := removeLoop t k (List.range p.normalCapacity) p
  let p := { p with
    decks := compactLoop p.normalCapacity k k (List.range p.normalCapacity) p.decks }
  { p with normalCapacity := p.normalCapacity - 3 }

/-- `decks_quick_sort(decks, 0, stop)`. -/
def Player.sortDecks (p : Player) (stop : Nat) : Player :=
  { p with decks := decksQuickSort p.decks 0 stop }

/-- Gang (槓) on tile `t`: three copies, the sort stops before the slot
the replacement will be drawn into. -/
def gangTiles (t : Mj) (p : Player) : Player :=
  let p := layCopies 3 t p
  p.sortDecks (p.normalCapacity - 1)

/-- Pong (碰) on tile `t`: two copies, the sort takes in the extra
tile. -/
def pongTiles (t : Mj) (p : Player) : Player :=
  let p := layCopies 2 t p
  p.sortDecks p.normalCapacity

/-- Quiet gang: `decks[normal_capacity]` with three copies; that slot is
left as it is. -/
def quietGangTiles (p : Player) : Player :=
  gangTiles (p.deck p.normalCapacity) p

-- ==================================================================== eating

/-- The two chosen tiles and the discard, sorted (`eat_temp`). -/
def eatTemp (p : Player) (discarded : Mj) (i j : Int) : List Mj :=
  decksQuickSort [p.deck (slotIndex i), p.deck (slotIndex j), discarded] 0 2

/-- The acceptance test of the eat loop. -/
def eatable (temp : List Mj) : Bool :=
  let a := temp.getD 0 Mj.null
  let b := temp.getD 1 Mj.null
  let c := temp.getD 2 Mj.null
  a.type = b.type ∧ b.type = c.type ∧ a.number = b.number - 1
    ∧ b.number = c.number - 1

/-- An accepted eat: three tiles to the door, two slots emptied and
swapped with the last two of the hand, capacity down by three, sort. -/
def eatTiles (temp : List Mj) (i j : Int) (p : Player) : Player :=
  let i := slotIndex i
  let j := slotIndex j
  let p := p.pushDoor (temp.getD 0 Mj.null)
  let p := p.pushDoor (temp.getD 1 Mj.null)
  let p := p.pushDoor (temp.getD 2 Mj.null)
  let p := p.setDeck i (p.deck i).zero
  let p := p.setDeck j (p.deck j).zero
  let p := { p with decks := swap p.decks i (p.normalCapacity - 1) }
  let p := { p with decks := swap p.decks j (p.normalCapacity - 2) }
  let p := { p with normalCapacity := p.normalCapacity - 3 }
  p.sortDecks p.normalCapacity

-- ================================================================ discarding

/-- The discard of slot `index`: it changes places with
`decks[normal_capacity]`, which is then emptied; sort the hand. -/
def discardTile (index : Int) (p : Player) : Player :=
  let p := { p with decks := swap p.decks p.normalCapacity (slotIndex index) }
  let p := p.setDeck p.normalCapacity (p.deck p.normalCapacity).zero
  p.sortDecks (p.normalCapacity - 1)

-- ==================================================================== tables

namespace Game

/-- Change one player. -/
def update (s : Game) (p : Seat) (f : Player → Player) : Game :=
  { s with players := Function.update s.players p (f (s.players p)) }

/-- `decks[i] = shuffled_mjs[take_index++]` for one player. -/
def takeInto (s : Game) (p : Seat) (i : Nat) : Game :=
  { s.update p fun pl => pl.setDeck i (s.shuffledMjs.getD s.takeIndex Mj.null) with
    takeIndex := s.takeIndex + 1 }

/-- `discarded_mj.type = 0; discarded_mj.number = 0`. -/
def clearDiscarded (s : Game) : Game :=
  { s with discardedMj := s.discardedMj.zero }

/-- `discarded_mj.type = m.type; discarded_mj.number = m.number`. -/
def setDiscarded (s : Game) (m : Mj) : Game :=
  { s with discardedMj := { s.discardedMj with type := m.type, number := m.number } }

/-- `game_init`, with the wall as `shuffle` leaves it. -/
def init (wall : List Mj) : Game where
  winner := -1
  shuffledMjs := wall
  discardedMj := Mj.null
  takeIndex := 0
  players := fun _ => Player.gameinfoInit

section Update

variable (s : Game) (p q : Seat) (f : Player → Player)

@[simp] theorem update_winner : (s.update p f).winner = s.winner := rfl
@[simp] theorem update_shuffledMjs :
    (s.update p f).shuffledMjs = s.shuffledMjs := rfl
@[simp] theorem update_discardedMj :
    (s.update p f).discardedMj = s.discardedMj := rfl
@[simp] theorem update_takeIndex : (s.update p f).takeIndex = s.takeIndex := rfl

@[simp] theorem update_players_self :
    (s.update p f).players p = f (s.players p) := by
  simp [update]

theorem update_players_ne (h : q ≠ p) :
    (s.update p f).players q = s.players q := by
  simp [update, h]

end Update

end Game

end Mahjong
