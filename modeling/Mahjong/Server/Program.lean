/-
The server's child process: the functions of `UIED_Mahjong_server.c`
that talk to the players, from `write_message_wait_ack` up to `game`.

What the server prints on its own terminal is left out, up to the slots of
a player's arrays that `print_deck` looks at. The global `recvline` is the value `read_and_ack` returns; nothing reads it except right after
such a call. The value-result argument `int *playernowp` of
`othersreaction` is its argument and part of its result.

`othersreaction` calls itself after a claim and drops what the call
returns; it is the loop `othersreaction` over one pass `reaction`, whose
blocks are tried in the order of the source.

Marks (`Note`) say where the program is and what it indexes: they do
nothing.
-/
import Mahjong.Server.State
import Mahjong.Lib.Io

namespace Mahjong

open Process CString

-- =================================================================== marks

/-- The arrays of fixed size that are indexed by a computed value. -/
inductive Arr
  | shuffledMjs | decks | flowers | door | sea
deriving DecidableEq

def Arr.size : Arr → Nat
  | .shuffledMjs => 144
  | .decks => 20
  | .flowers => 8
  | .door => 20
  | .sea => 150

/-- The ways a player can take a tile, or win. -/
inductive Claim
  | hu | gang | pong | eat | quietGang
deriving DecidableEq

/-- Marks of the server: an index used, a slot `has_flower` looks at, the
slots of `decks` and `door` the loops of `print_deck` look at, the tiles
counted or looked up in a count table, a call of `draw`, the entry of
`othersreaction`, a claim accepted, the pair read at the eat prompt, the
pair an eat was accepted with, a pair that was not accepted, the index of
a discard, the winner set, the round over. -/
inductive Note
  | access (a : Arr) (i : Int)
  | scan (p : Seat) (i : Nat)
  | print (p : Seat) (hands doors : List Nat)
  | counts (tiles : List Mj)
  | draw (p : Seat)
  | othersreaction (d : Seat)
  | accept (c : Claim) (p : Seat)
  | eatindex (p : Seat) (i j : Int)
  | eat (p : Seat) (i j : Int)
  | invalid (p : Seat)
  | discard (p : Seat) (i : Int)
  | win (p : Seat)
  | gameSet

/-- A server function. -/
abbrev Server (α : Type) : Type 1 := Io Seat Note Game α

def maxline : Nat := 4096

namespace Server

/-- Text of a message. -/
abbrev str (s : String) : Line := s.toList

def yes : Line := str "YES!\n"

/-- Was the answer just read `YES!`? -/
def isYes (recvline : Line) : Bool := strncmpEq recvline yes 5

/-- One player's part of the table. -/
def player (p : Seat) : Server Player := do
  let s ← Prog.get
  pure (s.players p)

/-- Change one player's part of the table. -/
def update (p : Seat) (f : Player → Player) : Server Unit :=
  Prog.modify fun s => s.update p f

def access (a : Arr) (i : Int) : Server Unit := Io.note (.access a i)

-- =================================================================== lines

/-- `write_message_wait_ack`. -/
def writeMessageWaitAck (fd : Seat) (message : Line) : Server Unit := do
  Io.write fd message
  let recvline ← Io.readline fd maxline
  if recvline.length > 0 then
    if strncmpEq recvline (str "ACK\n") 4 then pure ()
    else Io.exit
  else Io.exit

/-- `read_and_ack`, returning `recvline`. -/
def readAndAck (fd : Seat) : Server Line := do
  let recvline ← Io.readline fd maxline
  if recvline.length > 0 then do
    Io.write fd (str "ACK\n")
    pure recvline
  else Io.exit

/-- A message to the three other players, in the order of the source. -/
def toOthers (p : Seat) (message : Line) : Server Unit := do
  writeMessageWaitAck (p + 1) message
  writeMessageWaitAck (p + 2) message
  writeMessageWaitAck (p + 3) message

/-- A message to all players. -/
def toAll (message : Line) : Server Unit := do
  writeMessageWaitAck 0 message
  writeMessageWaitAck 1 message
  writeMessageWaitAck 2 message
  writeMessageWaitAck 3 message

/-- Ask a player, and read the answer. -/
def ask (p : Seat) (prompt : Line) : Server Bool := do
  writeMessageWaitAck p prompt
  let recvline ← readAndAck p
  pure (isYes recvline)

-- ================================================================ printing

/-- The slots of `hands` that a loop of `print_deck` looks at: it stops at
the first null tile, and looks behind every other (`hands[i + 1]`). -/
def handSlots (hands : List Mj) : List Nat → List Nat
  | [] => []
  | i :: is =>
      if (hands.getD i Mj.null).isNull then [i]
      else i :: (i + 1) :: handSlots hands is

/-- The slots of `doors` that a loop of `print_deck` looks at. -/
def doorSlots (doors : List Mj) : List Nat → List Nat
  | [] => []
  | i :: is =>
      if (doors.getD i Mj.null).isNull then [i]
      else i :: doorSlots doors is

/-- `print_deck(players[p]->decks, players[p]->door, ...)`; its loops over
one array look at the same slots. -/
def printDeck (p : Seat) : Server Unit := do
  let pl ← player p
  Io.note (.print p (handSlots pl.decks (List.range 20))
    (doorSlots pl.door (List.range 20)))

-- ================================================================= drawing

/-- `decks[i] = shuffled_mjs[take_index++]`. -/
def takeInto (p : Seat) (i : Nat) : Server Unit := do
  let s ← Prog.get
  access .shuffledMjs s.takeIndex
  access .decks i
  Prog.modify fun s => s.takeInto p i

/-- `flowers[flower_index++] = decks[i]`. -/
def layFlower (p : Seat) (i : Nat) : Server Unit := do
  let pl ← player p
  access .flowers pl.flowerIndex
  update p fun pl => pl.pushFlower (pl.deck i)

/-- `"%d %d\n"`. -/
def tileLine (m : Mj) : Line := decimal m.type ++ ' ' :: (decimal m.number ++ ['\n'])

/-- Tell the player the tile in `decks[normal_capacity]`. -/
def tellDrawn (p : Seat) : Server Unit := do
  let pl ← player p
  writeMessageWaitAck p (tileLine (pl.deck pl.normalCapacity))

/-- `draw`. -/
def draw (p : Seat) : Server Unit := do
  Io.note (.draw p)
  let pl ← player p
  takeInto p pl.normalCapacity
  tellDrawn p
  Prog.forever do
    let pl ← player p
    if (pl.deck pl.normalCapacity).type = flower then do
      layFlower p pl.normalCapacity
      takeInto p pl.normalCapacity
      tellDrawn p
      pure none
    else pure (some ())

/-- `has_flower`. -/
def hasFlower (p : Seat) : Server Nat :=
  (List.range 20).foldlM (fun flowercount i => do
    Io.note (.scan p i)
    let pl ← player p
    if (pl.deck i).type = flower then do
      layFlower p i
      takeInto p i
      pure (flowercount + 1)
    else pure flowercount) 0

/-- The flower-replacement loop of `deal`: until four players in a row
had no flower. -/
def regrab (playernow : Seat) : Server Unit :=
  Prog.iterate (fun (x : Nat × Seat) =>
    if x.1 < 4 then do
      let n ← hasFlower (playernow + x.2)
      if n > 0 then pure (.inl (0, x.2 + 1))
      else pure (.inl (x.1 + 1, x.2 + 1))
    else pure (.inr ())) (0, 0)

/-- Send a player the dealt hand and flowers. -/
def transfer (p : Seat) : Server Unit := do
  (List.range 16).forM fun j => do
    let pl ← player p
    writeMessageWaitAck p (tileLine (pl.deck j))
  let pl ← player p
  (List.range pl.flowerIndex).forM fun j => do
    let pl ← player p
    writeMessageWaitAck p (decimal (pl.flowers.getD j Mj.null).number ++ ['\n'])
  writeMessageWaitAck p (str "transfer complete\n")

/-- The grabs of `deal`: four rounds of four tiles for each player. -/
def grabs (playernow : Seat) : Server Unit :=
  (List.range 4).forM fun time =>
    (List.range 4).forM fun playeradd =>
      (List.range 4).forM fun grab =>
        takeInto (playernow + Fin.ofNat 4 playeradd) (time * 4 + grab)

/-- `deal`: grab, replace flowers, sort, send. -/
def deal (playernow : Seat) : Server Unit := do
  grabs playernow
  regrab playernow
  update 0 fun pl => pl.sortDecks 15
  update 1 fun pl => pl.sortDecks 15
  update 2 fun pl => pl.sortDecks 15
  update 3 fun pl => pl.sortDecks 15
  transfer 0
  transfer 1
  transfer 2
  transfer 3

-- ================================================================= winning

/-- `is_hu`. -/
def isHu (p : Seat) : Server Int := do
  let pl ← player p
  Io.note (.counts (pl.decks.take (pl.normalCapacity + 1)))
  if huCheck pl.decks pl.normalCapacity then do
    if ← ask p (str "can hu\n") then do
      Io.note (.win p)
      Prog.modify fun s => { s with winner := (p.val : Int) }
      pure 1
    else pure 0
  else do
    writeMessageWaitAck p (str "cannot hu\n")
    pure 0

-- ============================================================== discarding

/-- The broadcast's text for a tile, `none` for a tile of no known
kind. -/
def discardLine (p : Seat) (m : Mj) : Option Line :=
  let head := str "(Discard) Player " ++ decimal (p.val : Int) ++ str " discarded "
  if m.type = tong then some (head ++ decimal m.number ++ str " TONG.\n")
  else if m.type = tiao then some (head ++ decimal m.number ++ str " TIAO.\n")
  else if m.type = wan then some (head ++ decimal m.number ++ str " WAN.\n")
  else if m.type = dazi then
    if m.number = 1 then some (head ++ str "EAST.\n")
    else if m.number = 2 then some (head ++ str "SOUTH.\n")
    else if m.number = 3 then some (head ++ str "WEST.\n")
    else if m.number = 4 then some (head ++ str "NORTH.\n")
    else if m.number = 5 then some (head ++ str "ZHONG.\n")
    else if m.number = 6 then some (head ++ str "FA.\n")
    else if m.number = 7 then some (head ++ str "BAI.\n")
    else none
  else none

/-- `broadcast_discard_mj`. -/
def broadcastDiscardMj (p : Seat) : Server Unit := do
  let s ← Prog.get
  match discardLine p s.discardedMj with
  | some message => toOthers p message
  | none => pure ()

/-- `discard`. `index` is not initialised: when `sscanf` matches nothing
it can be anything. -/
def discard (p : Seat) : Server Unit := do
  let recvline ← readAndAck p
  let index ← match sscanf1 recvline with
    | some i => pure i
    | none => Io.indeterminate
  Io.note (.discard p index)
  let pl ← player p
  access .decks index
  access .decks pl.normalCapacity
  Prog.modify fun s => s.setDiscarded ((s.players p).deck (slotIndex index))
  update p (discardTile index)
  broadcastDiscardMj p

-- ================================================================== claims

/-- The writes `door[door_index++]` of a claim, `n` of them. -/
def accessDoor (p : Seat) (n : Nat) : Server Unit := do
  let pl ← player p
  (List.range n).forM fun j => access .door (pl.doorIndex + j : Nat)

/-- `"(Announce) player %d ...\n"`. -/
def announce (p : Seat) (what : String) : Line :=
  str "(Announce) player " ++ decimal (p.val : Int) ++ str what

/-- `quiet_gang`; it returns 0 on every path. -/
def quietGang (p : Seat) : Server Int := do
  let pl ← player p
  Io.note (.counts (pl.decks.take (pl.normalCapacity + 1)))
  if countAt (countTable (pl.decks.take pl.normalCapacity))
      (tileIndex (pl.deck pl.normalCapacity)) ≥ 3 then do
    if ← ask p (str "You can quietly-gang.\n") then do
      Io.note (.accept .quietGang p)
      accessDoor p 4
      update p quietGangTiles
      toOthers p (announce p " quietly-ganged something...\n")
      Prog.modify Game.clearDiscarded
      pure 0
    else pure 0
  else do
    writeMessageWaitAck p (str "You cannot quietly-gang.\n")
    pure 0

/-- `draw_n_discard`: 1 when the player has won. -/
def drawNDiscard (p : Seat) : Server Int := do
  writeMessageWaitAck p (str "your turn\n")
  draw p
  if (← isHu p) = 1 then pure 1
  else do
    printDeck p
    -- while (quiet_gang(p) == 1)
    let won ← Prog.forever do
      if (← quietGang p) = 1 then do
        draw p
        if (← isHu p) = 1 then pure (some true) else pure none
      else pure (some false)
    if won then pure 1
    else do
      discard p
      printDeck p
      pure 0

/-- How one pass of `othersreaction` ends: with a nested call for the
new discarder, or with a return value and the seat left in
`*playernowp`. -/
inductive Outcome
  | recurse (d : Seat)
  | done (r : Int) (d : Seat)
deriving DecidableEq

/-- The tail of every claim: a win ends the pass, otherwise the claimant
discards and the others react to that. -/
def huOrDiscard (p : Seat) : Server (Option Outcome) := do
  if (← isHu p) = 1 then pure (some (.done 1 p))
  else do
    discard p
    pure (some (.recurse p))

/-- The tiles a claim test counts: a player's hand and the discard. -/
def claimTiles (pl : Player) (s : Game) : List Mj :=
  pl.decks.take pl.normalCapacity ++ [s.discardedMj]

/-- A block of Case 0 for the player `k` seats on. -/
def huClaim (d : Seat) (k : Seat) : Server (Option Outcome) := do
  let p := d + k
  let s ← Prog.get
  let pl ← player p
  Io.note (.counts (claimTiles pl s))
  if isAddHuPossible pl.decks pl.normalCapacity s.discardedMj then do
    if ← ask p (str "(Hu) You actually can hu already, proceed? [Y/n]\n") then do
      Io.note (.win p)
      Prog.modify fun s => { s with winner := (p.val : Int) }
      pure (some (.done 1 d))
    else pure none
  else pure none

/-- A block of Case 1 (槓) for the player `k` seats on. -/
def gangClaim (d : Seat) (k : Seat) : Server (Option Outcome) := do
  let p := d + k
  let s ← Prog.get
  let pl ← player p
  Io.note (.counts (claimTiles pl s))
  if isGangPossible pl.decks pl.normalCapacity s.discardedMj then do
    if ← ask p (str "You can gang.\n") then do
      Io.note (.accept .gang p)
      accessDoor p 4
      update p (gangTiles s.discardedMj)
      toOthers p (announce p " ganged it\n")
      Prog.modify Game.clearDiscarded
      draw p
      huOrDiscard p
    else pure none
  else pure none

/-- A block of Case 2 (碰) for the player `k` seats on. -/
def pongClaim (d : Seat) (k : Seat) : Server (Option Outcome) := do
  let p := d + k
  let s ← Prog.get
  let pl ← player p
  Io.note (.counts (claimTiles pl s))
  if isPongPossible pl.decks pl.normalCapacity s.discardedMj then do
    if ← ask p (str "You can pong.\n") then do
      Io.note (.accept .pong p)
      accessDoor p 3
      update p (pongTiles s.discardedMj)
      toOthers p (announce p " ponged it\n")
      Prog.modify Game.clearDiscarded
      huOrDiscard p
    else pure none
  else pure none

/-- The loop of the eat block: ask for two indices until they make a run
with the discard. -/
def eatLoop (p : Seat) : Server Unit :=
  Prog.forever do
    writeMessageWaitAck p (str "Type which 2 of the mjs you want to eat with: \n")
    let recvline ← readAndAck p
    let eatindex := sscanf2 recvline
    let i := eatindex.1.getD (-1)
    let j := eatindex.2.getD (-1)
    Io.note (.eatindex p i j)
    access .decks i
    access .decks j
    let s ← Prog.get
    let temp := eatTemp (s.players p) s.discardedMj i j
    if eatable temp then do
      writeMessageWaitAck p (str "eatable.\n")
      Io.note (.eat p i j)
      accessDoor p 3
      update p (eatTiles temp i j)
      pure (some ())
    else do
      writeMessageWaitAck p (str "invalid choice.\n")
      Io.note (.invalid p)
      pure none

/-- The block of Case 3: the next player may be able to eat (吃). -/
def eatClaim (d : Seat) : Server (Option Outcome) := do
  let p := d + 1
  let s ← Prog.get
  let pl ← player p
  Io.note (.counts (claimTiles pl s))
  if isEatPossible pl.decks pl.normalCapacity s.discardedMj then do
    if ← ask p (str "You can eat.\n") then do
      Io.note (.accept .eat p)
      eatLoop p
      toOthers p (announce p " ate it\n")
      Prog.modify Game.clearDiscarded
      huOrDiscard p
    else pure none
  else pure none

/-- Case 4: nobody wants the tile, it goes to the discarder's sea. -/
def noOneWantsIt (d : Seat) : Server Outcome := do
  writeMessageWaitAck d (str "no one wants it.\n")
  let s ← Prog.get
  access .sea (s.players d).seaIndex
  update d fun pl => pl.pushSea s.discardedMj
  Prog.modify Game.clearDiscarded
  pure (.done 0 d)

/-- Try blocks in order until one ends the pass. -/
def firstOf : List (Server (Option Outcome)) → Server Outcome → Server Outcome
  | [], last => last
  | block :: blocks, last => do
      match ← block with
      | some r => pure r
      | none => firstOf blocks last

/-- One pass of `othersreaction` after a discard of player `d`. -/
def reaction (d : Seat) : Server Outcome := do
  Io.note (.othersreaction d)
  firstOf
    [huClaim d 1, huClaim d 2, huClaim d 3,
      gangClaim d 1, gangClaim d 2, gangClaim d 3,
      pongClaim d 1, pongClaim d 2, pongClaim d 3,
      eatClaim d]
    (noOneWantsIt d)

/-- `othersreaction`: the return value and the final `*playernowp`. The
calls nested in a claim return 0 to their caller's caller whatever they
return themselves. -/
def othersreaction (d : Seat) : Server (Int × Seat) :=
  Prog.iterate (fun (x : Bool × Seat) => do
    match ← reaction x.2 with
    | .recurse d' => pure (.inl (true, d'))
    | .done r d' => pure (.inr (if x.1 then 0 else r, d'))) (false, d)

-- ================================================================ the round

/-- The announcement that ends a round. -/
def endLine (winner : Int) : Line :=
  if winner = -1 then
    str "(End) No more mjs can be draw, game is finished. Continue for next round? [Y/n]\n"
  else
    str "(Game) The game is set and we have a winner: " ++ decimal winner
      ++ str "!!! Continue for next round? [Y/n]\n"

/-- Read one player's answer about a next round if its descriptor is
ready: the counts and the descriptors still waited for. -/
def readAnswer (testset : Seat → Bool) (x : Nat × Nat × List Seat) (p : Seat) :
    Server (Nat × Nat × List Seat) :=
  if testset p then do
    let recvline ← readAndAck p
    pure (x.1 + (if isYes recvline then 1 else 0), x.2.1 + 1,
      x.2.2.filter (· ≠ p))
  else pure x

/-- The answers of the four players, in any order: how many said yes. -/
def collectAnswers : Server Nat :=
  Prog.iterate (fun (x : Nat × Nat × List Seat) =>
    if x.2.1 = 4 then pure (.inr x.1)
    else do
      let ready ← Io.select x.2.2
      let testset := fun p => x.2.2.contains p && ready p
      let x ← readAnswer testset x 0
      let x ← readAnswer testset x 1
      let x ← readAnswer testset x 2
      let x ← readAnswer testset x 3
      pure (.inl x)) (0, 0, [0, 1, 2, 3])

/-- `game_set_display`: 1 to go on with the next round. -/
def gameSetDisplay : Server Int := do
  let s ← Prog.get
  toAll (endLine s.winner)
  let newgameCount ← collectAnswers
  if newgameCount = 4 then do
    toAll (str "start!\n")
    pure 1
  else do
    toAll (str "Some players don't want to play, no more game!\n")
    pure 0

/-- The turns of a round, from `playernow` on, until somebody has won or
the wall is used up. -/
def turns (playernow : Seat) : Server Unit :=
  Prog.iterate (fun (p : Seat) => do
    let s ← Prog.get
    if s.winner = -1 then do
      if (← drawNDiscard p) = 1 then pure (.inr ())
      else do
        let r ← othersreaction p
        if r.1 = 1 then pure (.inr ())
        else do
          let s ← Prog.get
          if s.takeIndex = 144 then pure (.inr ())
          else pure (.inl (r.2 + 1))
    else pure (.inr ())) playernow

/-- A round up to its end: `game_init`, `shuffle_n_deal` and the turns.
The wall is what `shuffle` leaves. -/
def playRound (wall : List Mj) (startplayer : Seat) : Server Unit := do
  Prog.modify fun _ => Game.init wall
  deal startplayer
  turns startplayer
  Io.note .gameSet

/-- `game`: the child process, with the wall of each round. -/
def game (wall : Nat → Wall) : Server Unit := do
  (List.range 4).forM fun i =>
    writeMessageWaitAck (Fin.ofNat 4 i) (decimal (i : Int) ++ str "-th\n")
  Prog.iterate (fun (startplayer : Nat) =>
    if startplayer < 4 then do
      playRound (wall startplayer).tiles (Fin.ofNat 4 startplayer)
      if (← gameSetDisplay) = 1 then pure (.inl (startplayer + 1))
      else pure (.inr ())
    else pure (.inr ())) 0

end Server

end Mahjong
