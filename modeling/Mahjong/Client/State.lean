/-
The client's table: the game variables of `UIED_Mahjong_client.c`, and
the pieces of C that rearrange its tiles.

The client has one player's arrays, with the names and sizes they have on
the server, so they are a `Player` here too; the tile on the table and the
client's number go with them. The removal loop of a claim is the client's
own: it lays the copies down before it, and not one by one in it. The
compaction loop, the sort, the eat block and the discard are the same C in
both programs.
-/
import Mahjong.Server.State
import Mahjong.Lib.CString

namespace Mahjong.Client

open CString

/-- The globals of the client. -/
structure Table where
  idNum : Int
  player : Player
  discardedMj : Mj

namespace Table

/-- Change the tiles. -/
def update (s : Table) (f : Player → Player) : Table := { s with player := f s.player }

/-- `client_game_init`. -/
def gameInit (s : Table) : Table where
  idNum := s.idNum
  player := Player.gameinfoInit
  discardedMj := s.discardedMj.zero

/-- `discarded_mj.type = 0; discarded_mj.number = 0`. -/
def clearDiscarded (s : Table) : Table := { s with discardedMj := s.discardedMj.zero }

/-- `discarded_mj.type = m.type; discarded_mj.number = m.number`. -/
def setDiscarded (s : Table) (m : Mj) : Table :=
  { s with discardedMj := { s.discardedMj with type := m.type, number := m.number } }

end Table

-- ===================================================================== reading tiles

/-- `sscanf(l, "%d %d", &m.type, &m.number)`. -/
def scanTile (l : Line) (m : Mj) : Mj :=
  { m with type := (sscanf2 l).1.getD m.type, number := (sscanf2 l).2.getD m.number }

/-- `decks[i].type = t; decks[i].number = n`. -/
def putTile (i : Nat) (t n : Int) (p : Player) : Player :=
  p.setDeck i { p.deck i with type := t, number := n }

/-- `flowers[flower_index].type = FLOWER; flowers[flower_index++].number
= n`. -/
def putFlower (n : Int) (p : Player) : Player :=
  p.pushFlower { p.flowers.getD p.flowerIndex Mj.null with type := flower, number := n }

/-- The tile of a `"(Discard) "` line, by the characters at 29, 31 and 32;
what no branch sets stays as it is. -/
def scanDiscard (l : Line) (m : Mj) : Mj :=
  let c := l.getD 29 '\x00'
  if 'A' ≤ c ∧ c ≤ 'Z' then
    { m with
      type := dazi
      number :=
        if c = 'E' then 1
        else if c = 'S' then 2
        else if c = 'W' then 3
        else if c = 'N' then 4
        else if c = 'Z' then 5
        else if c = 'F' then 6
        else if c = 'B' then 7
        else m.number }
  else
    { m with
      number := (c.toNat : Int) - '0'.toNat
      type :=
        if l.getD 31 '\x00' = 'W' then wan
        else if l.getD 32 '\x00' = 'O' then tong
        else tiao }

-- ======================================================== laying copies down

/-- The removal loop of a claim: empty the first `need` slots that hold
`t`. -/
def removeLoop (t : Mj) : Nat → List Nat → Player → Player
  | _, [], p => p
  | need, i :: is, p =>
      if mjCompare t (p.deck i) = 0 then
        let p := p.setDeck i (p.deck i).zero
        if need - 1 = 0 then p else removeLoop t (need - 1) is p
      else removeLoop t need is p

/-- `door[door_index++] = m`, so many times. -/
def pushCopies (m : Mj) : Nat → Player → Player
  | 0, p => p
  | n + 1, p => pushCopies m n (p.pushDoor m)

/-- A claim of tile `t` with `k` copies from the hand, up to the sort. -/
def layCopies (k : Nat) (t : Mj) (p : Player) : Player :=
  let p := pushCopies t (k + 1) p
  let p := removeLoop t k (List.range p.normalCapacity) p
  let p := { p with
    decks := compactLoop p.normalCapacity k k (List.range p.normalCapacity) p.decks }
  { p with normalCapacity := p.normalCapacity - 3 }

/-- The accepted gang. -/
def gangTiles (t : Mj) (p : Player) : Player :=
  let p := layCopies 3 t p
  p.sortDecks (p.normalCapacity - 1)

/-- The accepted pong. -/
def pongTiles (t : Mj) (p : Player) : Player :=
  let p := layCopies 2 t p
  p.sortDecks p.normalCapacity

/-- The accepted quiet gang. -/
def quietGangTiles (p : Player) : Player :=
  gangTiles (p.deck p.normalCapacity) p

end Mahjong.Client
