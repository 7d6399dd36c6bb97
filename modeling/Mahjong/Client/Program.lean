/-
The client from `receive_id` on: the functions of `UIED_Mahjong_client.c`
that talk to the server and to the user.

What is printed on the user's screen is left out, and with it the global
`message`, which is only printed. The global `recvline` is the value
`readAndAck` returns. `expand` is what `vsnprintf` makes of a format that
has a `%` and no arguments; the only such format is what the user typed at
the eat prompt.
-/
import Mahjong.Client.State
import Mahjong.Lib.Io

namespace Mahjong.Client

open Process CString

/-- The descriptors of the client. -/
inductive Fd
  | server
  | stdin
deriving DecidableEq

/-- The mark of the client: what was typed at the eat prompt. -/
inductive Note
  | eat (answer : Line)

/-- A client function. -/
abbrev Client (α : Type) : Type 1 := Io Fd Note Table α

def maxline : Nat := 4096

/-- The size of `answer`. -/
def answerSize : Nat := 64

/-- Text of a message. -/
abbrev str (s : String) : Line := s.toList

/-- Change the tiles. -/
def update (f : Player → Player) : Client Unit := Prog.modify fun s => s.update f

-- ============================================================================ lines

/-- `write_message_wait_ack`. -/
def writeMessageWaitAck (message : Line) : Client Unit := do
  Io.write .server message
  let recvline ← Io.readline .server maxline
  if recvline.length > 0 then
    if strncmpEq recvline (str "ACK\n") 4 then pure ()
    else Io.exit
  else Io.exit

/-- `read_and_ack`, returning `recvline`. -/
def readAndAck : Client Line := do
  let recvline ← Io.readline .server maxline
  if recvline.length > 0 then do
    Io.write .server (str "ACK\n")
    pure recvline
  else Io.exit

/-- `readline(STDIN_FILENO, answer, 64)`; the client leaves at the end of
file. -/
def readAnswer : Client Line := do
  let answer ← Io.readline .stdin answerSize
  if answer.length = 0 then Io.exit
  else pure answer

/-- Ask the user until the answer is yes or no, and pass it on. -/
def proceed : Client Bool :=
  Prog.forever do
    let answer ← readAnswer
    if strncmpEq answer (str "Y\n") 2 || strncmpEq answer (str "\n") 1 then do
      writeMessageWaitAck (str "YES!\n")
      pure (some true)
    else if strncmpEq answer (str "n\n") 2 then do
      writeMessageWaitAck (str "NO!\n")
      pure (some false)
    else pure none

-- ====================================================================== one's own turn

/-- `sscanf(recvline, "%d %d", &decks[normal_capacity])`. -/
def scanDrawn (recvline : Line) (p : Player) : Player :=
  p.setDeck p.normalCapacity (scanTile recvline (p.deck p.normalCapacity))

/-- `client_draw`. -/
def clientDraw : Client Unit := do
  let recvline ← readAndAck
  update (scanDrawn recvline)
  Prog.forever do
    let s ← Prog.get
    if (s.player.deck s.player.normalCapacity).type = flower then do
      update fun p => p.pushFlower (p.deck p.normalCapacity)
      let recvline ← readAndAck
      update (scanDrawn recvline)
      pure none
    else pure (some ())

/-- `client_is_hu`. -/
def clientIsHu : Client Int := do
  let recvline ← readAndAck
  if strncmpEq recvline (str "can hu\n") 7 then do
    if ← proceed then pure 1 else pure 0
  else pure 0

/-- The loop of `client_discard`: a number typed, until it is an index. A
mismatch leaves `index` at -1. -/
def chooseIndex : Client Int :=
  Prog.forever do
    let scanned ← Io.scanf
    let s ← Prog.get
    match scanned with
    | .eof => Io.exit
    | .mismatch => pure none
    | .number index =>
        if 0 ≤ index ∧ index < s.player.normalCapacity + 1 then pure (some index)
        else pure none

/-- `client_discard`. -/
def clientDiscard : Client Unit := do
  let index ← chooseIndex
  Prog.modify fun s => s.setDiscarded (s.player.deck (slotIndex index))
  writeMessageWaitAck (decimal index ++ ['\n'])
  update (discardTile index)

/-- `client_quiet_gang`: 1 when the tiles were laid down. -/
def clientQuietGang : Client Int := do
  let recvline ← readAndAck
  if strncmpEq recvline (str "You can quietly-gang.\n") 22 then do
    if ← proceed then do
      update quietGangTiles
      Prog.modify Table.clearDiscarded
      pure 1
    else pure 0
  else pure 0

-- ============================================================== what the server sends

/-- What becomes of the loop of `game` behind a line. -/
inductive Next
  | continue
  | break
  | return (r : Int)

/-- The tail of a claim: `client_is_hu`, and a discard unless it is a
win. -/
def huOrDiscard : Client Next := do
  if (← clientIsHu) = 1 then pure .continue
  else do
    clientDiscard
    pure .continue

/-- `"your turn\n"`. -/
def yourTurn : Client Next := do
  clientDraw
  if (← clientIsHu) = 1 then pure .continue
  else do
    -- while (client_quiet_gang() == 1)
    let won ← Prog.forever do
      if (← clientQuietGang) = 1 then do
        clientDraw
        if (← clientIsHu) = 1 then pure (some true) else pure none
      else pure (some false)
    if won then pure (.return 1)
    else do
      clientDiscard
      pure .continue

/-- `"You can pong.\n"`. -/
def pongOffer : Client Next := do
  if ← proceed then do
    let s ← Prog.get
    update (pongTiles s.discardedMj)
    Prog.modify Table.clearDiscarded
    huOrDiscard
  else pure .continue

/-- `"You can gang.\n"`. -/
def gangOffer : Client Next := do
  if ← proceed then do
    let s ← Prog.get
    update (gangTiles s.discardedMj)
    Prog.modify Table.clearDiscarded
    clientDraw
    huOrDiscard
  else pure .continue

/-- The text `write_message_wait_ack(fd, answer)` sends: `answer` is the
format. -/
def formatted (expand : Line → Line) (answer : Line) : Line :=
  if '%' ∈ answer then expand answer else answer

/-- The loop of the eat branch. A number that does not match leaves its
index as the line before has set it. -/
def eatLoop (expand : Line → Line) : Client Unit :=
  Prog.iterate (fun (x : Int × Int) => do
    let recvline ← readAndAck
    if strncmpEq recvline (str "Type which 2 of the mjs you want to eat with: \n") 47 then do
      let answer ← readAnswer
      Io.note (.eat answer)
      let i := (sscanf2 answer).1.getD x.1
      let j := (sscanf2 answer).2.getD x.2
      writeMessageWaitAck (formatted expand answer)
      let recvline ← readAndAck
      if strncmpEq recvline (str "eatable.\n") 10 then do
        let s ← Prog.get
        update (eatTiles (eatTemp s.player s.discardedMj i j) i j)
        pure (.inr ())
      else pure (.inl (i, j))
    else pure (.inl x)) (-1, -1)

/-- `"You can eat.\n"`. -/
def eatOffer (expand : Line → Line) : Client Next := do
  if ← proceed then do
    eatLoop expand
    huOrDiscard
  else pure .continue

/-- `"(Hu) "`. -/
def huOffer : Client Next := do
  let _ ← proceed
  pure .continue

/-- The branches of `game` on a line of the server. -/
def react (expand : Line → Line) (recvline : Line) : Client Next :=
  if strncmpEq recvline (str "your turn\n") 10 then yourTurn
  else if strncmpEq recvline (str "(Discard) ") 6 then do
    Prog.modify fun s => { s with discardedMj := scanDiscard recvline s.discardedMj }
    pure .continue
  else if strncmpEq recvline (str "(Announce) ") 11 then pure .continue
  else if strncmpEq recvline (str "You can pong.\n") 15 then pongOffer
  else if strncmpEq recvline (str "You can gang.\n") 15 then gangOffer
  else if strncmpEq recvline (str "You can eat.\n") 13 then eatOffer expand
  else if strncmpEq recvline (str "no one wants it.\n") 17 then do
    Prog.modify fun s => s.update fun p => p.pushSea s.discardedMj
    pure .continue
  else if strncmpEq recvline (str "(Game) ") 7 then pure .break
  else if strncmpEq recvline (str "(Hu) ") 5 then huOffer
  else if strncmpEq recvline (str "(End) ") 6 then pure .break
  else pure .continue

-- ======================================================================== the rounds

/-- `receive_id`. -/
def receiveId : Client Unit := do
  let recvline ← readAndAck
  Prog.modify fun s => { s with idNum := ((recvline.getD 0 '\x00').toNat : Int) - '0'.toNat }

/-- `get_decks`: sixteen tiles, then the flowers. `t` and `n` are not
initialised. -/
def getDecks : Client Unit := do
  let t ← Io.indeterminate
  let n ← Io.indeterminate
  let x ← (List.range 16).foldlM (fun (x : Int × Int) i => do
    let recvline ← readAndAck
    let t := (sscanf2 recvline).1.getD x.1
    let n := (sscanf2 recvline).2.getD x.2
    update (putTile i t n)
    pure (t, n)) (t, n)
  Prog.iterate (fun (n : Int) => do
    let recvline ← readAndAck
    if strncmpEq recvline (str "transfer complete\n") 18 then pure (.inr ())
    else do
      let n := (sscanf1 recvline).getD n
      update (putFlower n)
      pure (.inl n)) x.2

/-- The loop of `game` over the lines of a round: what the function
returns, if it does. -/
def lines (expand : Line → Line) : Client (Option Int) :=
  Prog.forever do
    let testset ← Io.select [.server, .stdin]
    -- what is typed here is thrown away
    if testset .stdin then do
      let _garbage ← Io.readline .stdin maxline
      pure ()
    if testset .server then do
      let recvline ← readAndAck
      match ← react expand recvline with
      | .continue => pure none
      | .break => pure (some none)
      | .return r => pure (some (some r))
    else pure none

/-- `client_game_set`: 1 to go on. -/
def clientGameSet : Client Int := do
  let _ ← proceed
  let recvline ← readAndAck
  if strncmpEq recvline (str "start!\n") 8 then pure 1
  else pure 0

/-- `game`. -/
def game (expand : Line → Line) : Client Int := do
  receiveId
  Prog.iterate (fun (startplayer : Nat) =>
    if startplayer < 4 then do
      Prog.modify Table.gameInit
      getDecks
      match ← lines expand with
      | some r => pure (.inr r)
      | none =>
          if (← clientGameSet) = 1 then pure (.inl (startplayer + 1))
          else pure (.inr 0)
    else pure (.inr 0)) 0

end Mahjong.Client
