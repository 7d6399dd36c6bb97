/-
The conversation of the server with one player: what either may say, and
what it makes of the player's tiles.

A `View` is what both know of one player: how far the round is, the
player's tiles and the tile on the table, all without priorities. It
belongs to nobody; that the server's arrays and the client's are the view
of the player is what is proved about the two programs.

A line is read in the light of the phase (`Phase.read`), and a message
makes another view of a view (`View.after`). Every line is acknowledged
(`talk`), and the tiles are those of the view as far as it is.

After an accepted quiet gang nobody is to speak (`Phase.ganged`): the
client waits for the tile it would draw, the server for a discard.
-/
import Mahjong.Server.Program
import Mahjong.Client.Program
import Mahjong.Lib.Dialogue

namespace Mahjong

open Process CString

-- ======================================================================= bare tiles

/-- The tile without its priority. -/
def Mj.bare (m : Mj) : Mj := { m with priority := 0 }

/-- The tiles without their priorities. -/
def Player.bare (p : Player) : Player :=
  { p with
    decks := p.decks.map Mj.bare
    flowers := p.flowers.map Mj.bare
    door := p.door.map Mj.bare
    sea := p.sea.map Mj.bare }

namespace Talk

open Server (str tileLine discardLine announce)

-- ========================================================================= messages

/-- The claims a player is asked about on a discard. -/
inductive Offer
  | hu | gang | pong | eat
deriving DecidableEq

/-- How far the conversation of a player is. `own` is said of a tile drawn
in one's own turn, not after a claim. -/
inductive Phase
  | greeting
  | dealing (i : Nat)
  | flowers
  | round
  | drawing (own : Bool)
  | verdict (own : Bool)
  | huAnswer (own : Bool)
  | quietVerdict
  | quietAnswer
  | ganged
  | discarding
  | offered (c : Offer)
  | eating
  | eatAnswer
  | eatVerdict (answer : Option Int × Option Int)
  | setAnswer
  | setVerdict
  | over
deriving DecidableEq

/-- What a line says. -/
inductive Message
  | id (p : Seat)
  | tile (t n : Int)
  | flower (n : Int)
  | transferComplete
  | yourTurn
  | canHu
  | cannotHu
  | canQuietGang
  | cannotQuietGang
  | discarded (m : Mj)
  | announced
  | offer (c : Offer)
  | typeWhich
  | eatable
  | invalid
  | noOneWantsIt
  | gameSet
  | start
  | noMoreGame
  | yes
  | no
  | index (i : Int)
  | pair (answer : Option Int × Option Int)
deriving DecidableEq

/-- The tiles that can be discarded. -/
def realTiles : List Mj :=
  (row tong 9 1 ++ row tiao 9 1 ++ row wan 9 1 ++ row dazi 7 1).map fun f => ⟨f.1, f.2, 0⟩

/-- The tile of a broadcast. -/
def discardOf (l : Line) : Option Mj :=
  realTiles.find? fun m => decide (∃ p : Seat, discardLine p m = some l)

/-- An answer to a question. -/
def answerOf (l : Line) : Option Message :=
  if l = str "YES!\n" then some .yes
  else if l = str "NO!\n" then some .no
  else none

/-- The line that offers a claim. -/
def Offer.line : Offer → Line
  | .hu => str "(Hu) You actually can hu already, proceed? [Y/n]\n"
  | .gang => str "You can gang.\n"
  | .pong => str "You can pong.\n"
  | .eat => str "You can eat.\n"

/-- The lines between two turns of the player. -/
def roundOf (l : Line) : Option Message :=
  if l = str "your turn\n" then some .yourTurn
  else if l = str "no one wants it.\n" then some .noOneWantsIt
  else if l = Offer.line .hu then some (.offer .hu)
  else if l = Offer.line .gang then some (.offer .gang)
  else if l = Offer.line .pong then some (.offer .pong)
  else if l = Offer.line .eat then some (.offer .eat)
  else if l.take 18 = str "(Announce) player " then some .announced
  else if l.take 7 = str "(Game) " ∨ l.take 6 = str "(End) " then some .gameSet
  else (discardOf l).map .discarded

namespace Phase

/-- What a line says in a phase. -/
def read : Phase → Line → Option Message
  | .greeting, l =>
      (List.finRange 4).findSome? fun p : Seat =>
        if l = decimal (p.val : Int) ++ str "-th\n" then some (.id p) else none
  | .dealing _, l | .drawing _, l =>
      match sscanf2 l with
      | (some t, some n) => some (.tile t n)
      | _ => none
  | .flowers, l =>
      if l = str "transfer complete\n" then some .transferComplete
      else (sscanf1 l).map .flower
  | .round, l => roundOf l
  | .verdict _, l =>
      if l = str "can hu\n" then some .canHu
      else if l = str "cannot hu\n" then some .cannotHu
      else none
  | .quietVerdict, l =>
      if l = str "You can quietly-gang.\n" then some .canQuietGang
      else if l = str "You cannot quietly-gang.\n" then some .cannotQuietGang
      else none
  | .huAnswer _, l | .quietAnswer, l | .offered _, l | .setAnswer, l => answerOf l
  | .discarding, l => (sscanf1 l).map .index
  | .eating, l =>
      if l = str "Type which 2 of the mjs you want to eat with: \n" then some .typeWhich
      else none
  | .eatAnswer, l => some (.pair (sscanf2 l))
  | .eatVerdict _, l =>
      if l = str "eatable.\n" then some .eatable
      else if l = str "invalid choice.\n" then some .invalid
      else none
  | .setVerdict, l =>
      if l = str "start!\n" then some .start
      else if l = str "Some players don't want to play, no more game!\n" then some .noMoreGame
      else none
  | .ganged, _ | .over, _ => none

/-- Who speaks. -/
def speaker : Phase → Option Side
  | .greeting | .dealing _ | .flowers | .round | .drawing _ | .verdict _ | .quietVerdict
  | .eating | .eatVerdict _ | .setVerdict => some .hub
  | .huAnswer _ | .quietAnswer | .discarding | .offered _ | .eatAnswer | .setAnswer => some .peer
  | .ganged | .over => none

/-- The tiles are the player's: neither dealt nor drawn just now. -/
def settled : Phase → Bool
  | .greeting | .dealing _ | .flowers | .drawing _ => false
  | _ => true

end Phase

-- ============================================================================ views

/-- What is known of a player: how many rounds are over, the phase, the
tiles and the tile on the table. -/
structure View where
  round : Nat
  phase : Phase
  hand : Player
  table : Mj

namespace View

/-- The beginning of a round. -/
def deal (v : View) : View :=
  { v with phase := .dealing 0, hand := Player.gameinfoInit, table := Mj.null }

/-- A drawn tile comes behind the hand. -/
def put (v : View) (t n : Int) : View :=
  { v with hand := Client.putTile v.hand.normalCapacity t n v.hand }

/-- A drawn flower is laid down, and another tile is to come. -/
def drawn (v : View) (own : Bool) : View :=
  if (v.hand.deck v.hand.normalCapacity).type = flower then
    { v with phase := .drawing own, hand := v.hand.pushFlower (v.hand.deck v.hand.normalCapacity) }
  else { v with phase := .verdict own }

/-- An accepted claim. -/
def claim (v : View) : Offer → View
  | .hu => { v with phase := .round }
  | .gang =>
      { v with phase := .drawing false, hand := Client.gangTiles v.table v.hand, table := Mj.null }
  | .pong =>
      { v with phase := .verdict false, hand := Client.pongTiles v.table v.hand, table := Mj.null }
  | .eat => { v with phase := .eating }

/-- An accepted eat. -/
def eat (v : View) (i j : Int) : View :=
  { v with phase := .verdict false, hand := eatTiles (eatTemp v.hand v.table i j) i j v.hand }

/-- A discard. -/
def discard (v : View) (i : Int) : View :=
  { v with phase := .round, hand := discardTile i v.hand, table := v.hand.deck i.toNat }

/-- Where a player goes on who does not win on the tile drawn. -/
def goOn (own : Bool) : Phase := if own then .quietVerdict else .discarding

/-- What a message makes of a view. -/
def after (v : View) (m : Message) : Option View :=
  match v.phase, m with
  | .greeting, .id _ => some v.deal
  | .dealing i, .tile t n =>
      some { v with phase := if i + 1 < 16 then .dealing (i + 1) else .flowers,
                    hand := Client.putTile i t n v.hand }
  | .flowers, .flower n => some { v with hand := Client.putFlower n v.hand }
  | .flowers, .transferComplete => some { v with phase := .round }
  | .round, .yourTurn => some { v with phase := .drawing true }
  | .round, .discarded m => some { v with table := m }
  | .round, .announced => some v
  | .round, .offer c => some { v with phase := .offered c }
  | .round, .noOneWantsIt => some { v with hand := v.hand.pushSea v.table }
  | .round, .gameSet => some { v with phase := .setAnswer }
  | .drawing own, .tile t n => some ((v.put t n).drawn own)
  | .verdict own, .canHu => some { v with phase := .huAnswer own }
  | .verdict own, .cannotHu => some { v with phase := goOn own }
  | .huAnswer _, .yes => some { v with phase := .round }
  | .huAnswer own, .no => some { v with phase := goOn own }
  | .quietVerdict, .canQuietGang => some { v with phase := .quietAnswer }
  | .quietVerdict, .cannotQuietGang => some { v with phase := .discarding }
  | .quietAnswer, .yes =>
      some { v with phase := .ganged, hand := Client.quietGangTiles v.hand, table := Mj.null }
  | .quietAnswer, .no => some { v with phase := .discarding }
  | .discarding, .index i =>
      if 0 ≤ i ∧ i < v.hand.normalCapacity + 1 then some (v.discard i) else none
  | .offered c, .yes => some (v.claim c)
  | .offered _, .no => some { v with phase := .round }
  | .eating, .typeWhich => some { v with phase := .eatAnswer }
  | .eatAnswer, .pair answer => some { v with phase := .eatVerdict answer }
  | .eatVerdict (some i, some j), .eatable => some (v.eat i j)
  | .eatVerdict _, .invalid => some { v with phase := .eating }
  | .setAnswer, .yes | .setAnswer, .no => some { v with phase := .setVerdict }
  | .setVerdict, .start =>
      some (if v.round + 1 < 4 then { v.deal with round := v.round + 1 }
        else { v with phase := .over })
  | .setVerdict, .noMoreGame => some { v with phase := .over }
  | _, _ => none

end View

/-- Lines are shorter than this. -/
def limit : Nat := 100

/-- The conversation of the server with a player. -/
def plain : Protocol where
  State := View
  limit := limit
  speaker v := v.phase.speaker
  next v l := (v.phase.read l).bind v.after
  Final v := v.phase = .over
  silent v l h := by
    show (v.phase.read l).bind v.after = none
    rw [h]
    rfl

/-- The same with its acknowledgements. -/
abbrev talk : Protocol := plain.acked (str "ACK\n")

/-- The view of a player before the first line. -/
def greeting : View where
  round := 0
  phase := .greeting
  hand := Player.gameinfoInit
  table := Mj.null

/-- All conversations at their beginning. -/
def beginning (Fd : Type) : Protocol.Standing Fd talk.State where
  state _ := .turn greeting
  lost := false
  left := false

end Talk

end Mahjong
