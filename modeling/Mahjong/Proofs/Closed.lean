/-
Classes of programs that are closed under what the server's functions are
made of: sequences, loops, the state, marks, and the two exchanges with a
player. Whatever holds of these holds of every function of the server;
those that can set the winner ask for the mark of a win as well, those
that wait for the four answers for the wait.

# The two exchanges

A player is told a line and acknowledges it (`tell`), or is heard and the
server acknowledges (`hear`). The server never tells anybody a line that
looks like its own acknowledgement, so a class need only have the
exchanges with other lines (`l ≠ "ACK\n"`); which line it is, is decided
by its first character.

# What it is good for

A statement about all programs of the server that is no statement about
what they do to the table: that the mark of a win is the last of its kind
(`Victory.lean`), that every line is read from its sender
(`Senders.lean`), that no exchange breaks off (`Polite.lean`). Each is
one instance of `Closed`, and the walk through the functions below is
made once.
-/
import Mahjong.Proofs.Rules

namespace Mahjong.Server

open Process CString

/-- A mark of a win. -/
def winMark : Note → Bool
  | .win _ => true
  | _ => false

/-- A class of programs with the exchanges and all marks but that of a
win, closed under sequences and loops. -/
structure Closed (K : (α : Type) → Server α → Prop) : Prop where
  pure : ∀ {α : Type} (a : α), K α (Pure.pure a)
  bind : ∀ {α β : Type} {m : Server α} {f : α → Server β}, K α m → (∀ a, K β (f a)) →
    K β (m >>= f)
  get : K Game Prog.get
  modify : ∀ f : Game → Game, K Unit (Prog.modify f)
  iterate : ∀ {β γ : Type} {body : β → Server (β ⊕ γ)}, (∀ b, K _ (body b)) → ∀ b,
    K γ (Prog.iterate body b)
  mark : ∀ e, winMark e = false → K Unit (Io.note e)
  indeterminate : K Int Io.indeterminate
  tell : ∀ p l, l ≠ str "ACK\n" → K Unit (writeMessageWaitAck p l)
  hear : ∀ p, K Line (readAndAck p)

namespace Closed

variable {K : (α : Type) → Server α → Prop} (h : Closed K)
include h

/-- A loop without a value. -/
theorem forever {γ : Type} {body : Server (Option γ)} (hbody : K _ body) :
    K γ (Prog.forever body) := by
  refine h.iterate (fun _ => h.bind hbody fun r => ?_) ()
  cases r with
  | none => exact h.pure _
  | some c => exact h.pure _

/-- A loop over a list. -/
theorem forM {β : Type} {f : β → Server PUnit} (hf : ∀ x, K _ (f x)) (xs : List β) :
    K _ (xs.forM f) := by
  induction xs with
  | nil => exact h.pure _
  | cons x xs ih => exact h.bind (hf x) fun _ => ih

/-- A loop over a list that carries a value. -/
theorem foldlM {β γ : Type} {f : γ → β → Server γ} (hf : ∀ c x, K _ (f c x)) (xs : List β) :
    ∀ c, K _ (xs.foldlM f c) := by
  induction xs with
  | nil => exact fun _ => h.pure _
  | cons x xs ih =>
      intro c
      rw [List.foldlM_cons]
      exact h.bind (hf c x) ih

variable (p : Seat)

theorem player : K _ (Server.player p) := h.bind h.get fun _ => h.pure _

theorem update (f : Player → Player) : K _ (Server.update p f) := h.modify _

theorem access (a : Arr) (i : Int) : K _ (Server.access a i) := h.mark _ rfl

-- ====================================================================== exchanges

section Lines

variable {l : Line} (hl : l ≠ str "ACK\n")
include hl

/-- The other three are told in turn. -/
theorem toOthers : K _ (Server.toOthers p l) := by
  apply h.bind (h.tell _ _ hl)
  intro _
  exact h.bind (h.tell _ _ hl) fun _ => h.tell _ _ hl

/-- All four are told in turn. -/
theorem toAll : K _ (Server.toAll l) := by
  apply h.bind (h.tell _ _ hl)
  intro _
  apply h.bind (h.tell _ _ hl)
  intro _
  exact h.bind (h.tell _ _ hl) fun _ => h.tell _ _ hl

/-- A question is told, and its answer heard. -/
theorem ask : K _ (Server.ask p l) := by
  apply h.bind (h.tell _ _ hl)
  intro _
  exact h.bind (h.hear _) fun _ => h.pure _

end Lines

-- ======================================================================= printing

/-- Printing only leaves a mark. -/
theorem printDeck : K _ (Server.printDeck p) :=
  h.bind (h.player p) fun _ => h.mark _ rfl

-- ======================================================================== drawing

/-- A tile goes from the wall to a slot. -/
theorem takeInto (i : Nat) : K _ (Server.takeInto p i) := by
  apply h.bind h.get
  intro s
  apply h.bind (h.access _ _)
  intro _
  exact h.bind (h.access _ _) fun _ => h.modify _

/-- A flower goes from a slot to the row. -/
theorem layFlower (i : Nat) : K _ (Server.layFlower p i) := by
  apply h.bind (h.player p)
  intro pl
  exact h.bind (h.access _ _) fun _ => h.update _ _

/-- The player is told a tile. -/
theorem tellDrawn : K _ (Server.tellDrawn p) :=
  h.bind (h.player p) fun _ => h.tell _ _ (tileLine_ne_ack _)

/-- `draw`: a tile, and another for every flower. -/
theorem draw : K _ (Server.draw p) := by
  apply h.bind (h.mark _ rfl)
  intro _
  apply h.bind (h.player p)
  intro pl
  apply h.bind (h.takeInto p _)
  intro _
  apply h.bind (h.tellDrawn p)
  intro _
  apply h.forever
  apply h.bind (h.player p)
  intro pl
  split
  · apply h.bind (h.layFlower p _)
    intro _
    apply h.bind (h.takeInto p _)
    intro _
    exact h.bind (h.tellDrawn p) fun _ => h.pure _
  · exact h.pure _

-- ======================================================================== dealing

/-- `has_flower` goes through the twenty slots. -/
theorem hasFlower : K _ (Server.hasFlower p) := by
  apply h.foldlM
  intro count i
  apply h.bind (h.mark _ rfl)
  intro _
  apply h.bind (h.player p)
  intro pl
  split
  · apply h.bind (h.layFlower p _)
    intro _
    exact h.bind (h.takeInto p _) fun _ => h.pure _
  · exact h.pure _

/-- The flowers are replaced round the table until nobody has one. -/
theorem regrab : K _ (Server.regrab p) := by
  apply h.iterate
  intro x
  split
  · apply h.bind (h.hasFlower _)
    intro n
    split
    · exact h.pure _
    · exact h.pure _
  · exact h.pure _

/-- A player is told the hand tile by tile, and the flowers. -/
theorem transfer : K _ (Server.transfer p) := by
  have htell : ∀ f : Player → Line, (∀ pl, f pl ≠ str "ACK\n") → K _ (do
      let pl ← Server.player p
      writeMessageWaitAck p (f pl)) :=
    fun f hf => h.bind (h.player p) fun _ => h.tell _ _ (hf _)
  apply h.bind (h.forM (fun j => htell (fun pl => tileLine (pl.deck j))
    fun _ => tileLine_ne_ack _) _)
  intro _
  apply h.bind (h.player p)
  intro pl
  apply h.bind (h.forM (fun j => htell (fun pl =>
    decimal (pl.flowers.getD j Mj.null).number ++ ['\n']) fun _ => decimal_ne_ack _ _) _)
  intro _
  exact h.tell _ _ (by decide)

/-- Four rounds of four tiles for each player. -/
theorem grabs : K _ (Server.grabs p) := by
  apply h.forM
  intro time
  apply h.forM
  intro playeradd
  exact h.forM (fun grab => h.takeInto _ _) _

/-- `deal`: the tiles are grabbed, the flowers replaced, the hands sorted
and sent. -/
theorem deal : K _ (Server.deal p) := by
  apply h.bind (h.grabs p)
  intro _
  apply h.bind (h.regrab p)
  intro _
  apply h.bind (h.update _ _)
  intro _
  apply h.bind (h.update _ _)
  intro _
  apply h.bind (h.update _ _)
  intro _
  apply h.bind (h.update _ _)
  intro _
  apply h.bind (h.transfer _)
  intro _
  apply h.bind (h.transfer _)
  intro _
  exact h.bind (h.transfer _) fun _ => h.transfer _

-- ==================================================================== one's own turn

/-- The door's slots are only marked. -/
theorem accessDoor (n : Nat) : K _ (Server.accessDoor p n) :=
  h.bind (h.player p) fun _ => h.forM (fun _ => h.access _ _) _

/-- `quiet_gang`, whether it is offered and taken or not. -/
theorem quietGang : K _ (Server.quietGang p) := by
  apply h.bind (h.player p)
  intro pl
  apply h.bind (h.mark _ rfl)
  intro _
  split
  · apply h.bind (h.ask p (by decide))
    intro yes
    split
    · apply h.bind (h.mark _ rfl)
      intro _
      apply h.bind (h.accessDoor p _)
      intro _
      apply h.bind (h.update _ _)
      intro _
      apply h.bind (h.toOthers p (announce_ne_ack _ _))
      intro _
      exact h.bind (h.modify _) fun _ => h.pure _
    · exact h.pure _
  · exact h.bind (h.tell _ _ (by decide)) fun _ => h.pure _

/-- A tile of a known kind is announced. -/
theorem broadcastDiscardMj : K _ (Server.broadcastDiscardMj p) := by
  apply h.bind h.get
  intro s
  split
  next hline => exact h.toOthers p (discardLine_ne_ack hline)
  next => exact h.pure _

/-- `discard`: the index is read, or left as it is. -/
theorem discard : K _ (Server.discard p) := by
  have hrest : ∀ index : Int, K _ (do
      Io.note (.discard p index)
      let pl ← Server.player p
      Server.access .decks index
      Server.access .decks pl.normalCapacity
      Prog.modify fun s => s.setDiscarded ((s.players p).deck (slotIndex index))
      Server.update p (discardTile index)
      Server.broadcastDiscardMj p) := by
    intro index
    apply h.bind (h.mark _ rfl)
    intro _
    apply h.bind (h.player p)
    intro pl
    apply h.bind (h.access _ _)
    intro _
    apply h.bind (h.access _ _)
    intro _
    apply h.bind (h.modify _)
    intro _
    exact h.bind (h.update _ _) fun _ => h.broadcastDiscardMj p
  apply h.bind (h.hear p)
  intro recvline
  cases sscanf1 recvline with
  | some i => exact h.bind (h.pure i) hrest
  | none => exact h.bind h.indeterminate hrest

-- ========================================================================== claims

/-- The prompt of an eat, until a pair fits. -/
theorem eatLoop : K _ (Server.eatLoop p) := by
  apply h.forever
  apply h.bind (h.tell _ _ (by decide))
  intro _
  apply h.bind (h.hear p)
  intro recvline
  apply h.bind (h.mark _ rfl)
  intro _
  apply h.bind (h.access _ _)
  intro _
  apply h.bind (h.access _ _)
  intro _
  apply h.bind h.get
  intro s
  dsimp only
  split
  · apply h.bind (h.tell _ _ (by decide))
    intro _
    apply h.bind (h.mark _ rfl)
    intro _
    apply h.bind (h.accessDoor p _)
    intro _
    exact h.bind (h.update _ _) fun _ => h.pure _
  · apply h.bind (h.tell _ _ (by decide))
    intro _
    exact h.bind (h.mark _ rfl) fun _ => h.pure _

/-- The discarder is told, and the tile goes to the sea. -/
theorem noOneWantsIt : K _ (Server.noOneWantsIt p) := by
  apply h.bind (h.tell _ _ (by decide))
  intro _
  apply h.bind h.get
  intro s
  apply h.bind (h.access _ _)
  intro _
  apply h.bind (h.update _ _)
  intro _
  exact h.bind (h.modify _) fun _ => h.pure _

-- ================================================================ the end of a round

section Answers

variable (hselect : ∀ fds, K _ (Io.select fds))
include hselect

/-- The four answers, in the order in which they come. -/
theorem collectAnswers : K _ Server.collectAnswers := by
  have hread : ∀ (testset : Seat → Bool) (x : Nat × Nat × List Seat) (q : Seat),
      K _ (readAnswer testset x q) := by
    intro testset x q
    rw [readAnswer]
    split
    · exact h.bind (h.hear q) fun _ => h.pure _
    · exact h.pure _
  apply h.iterate
  intro x
  split
  · exact h.pure _
  · apply h.bind (hselect _)
    intro ready
    apply h.bind (hread _ _ _)
    intro x
    apply h.bind (hread _ _ _)
    intro x
    apply h.bind (hread _ _ _)
    intro x
    exact h.bind (hread _ _ _) fun x => h.pure _

/-- `game_set_display`: the announcement, the answers, the decision. -/
theorem gameSetDisplay : K _ Server.gameSetDisplay := by
  apply h.bind h.get
  intro s
  apply h.bind (h.toAll (endLine_ne_ack _))
  intro _
  apply h.bind (h.collectAnswers hselect)
  intro n
  split
  · exact h.bind (h.toAll (by decide)) fun _ => h.pure _
  · exact h.bind (h.toAll (by decide)) fun _ => h.pure _

end Answers

-- ========================================================================= winning

variable (hwin : ∀ q, K _ (Io.note (.win q)))
include hwin

/-- `is_hu`, whether it is offered and taken or not. -/
theorem isHu : K _ (Server.isHu p) := by
  apply h.bind (h.player p)
  intro pl
  apply h.bind (h.mark _ rfl)
  intro _
  split
  · apply h.bind (h.ask p (by decide))
    intro yes
    split
    · apply h.bind (hwin p)
      intro _
      exact h.bind (h.modify _) fun _ => h.pure _
    · exact h.pure _
  · exact h.bind (h.tell _ _ (by decide)) fun _ => h.pure _

/-- `draw_n_discard`, with the loop around the quiet gang. -/
theorem drawNDiscard : K _ (Server.drawNDiscard p) := by
  apply h.bind (h.tell _ _ (by decide))
  intro _
  apply h.bind (h.draw p)
  intro _
  apply h.bind (h.isHu p hwin)
  intro r
  split
  · exact h.pure _
  apply h.bind (h.printDeck p)
  intro _
  refine h.bind (h.forever (h.bind (h.quietGang p) fun r => ?_)) fun won => ?_
  · split
    · apply h.bind (h.draw p)
      intro _
      apply h.bind (h.isHu p hwin)
      intro r
      split
      · exact h.pure _
      · exact h.pure _
    · exact h.pure _
  · split
    · exact h.pure _
    · apply h.bind (h.discard p)
      intro _
      exact h.bind (h.printDeck p) fun _ => h.pure _

/-- The tail of a claim. -/
theorem huOrDiscard : K _ (Server.huOrDiscard p) := by
  apply h.bind (h.isHu p hwin)
  intro r
  split
  · exact h.pure _
  · exact h.bind (h.discard p) fun _ => h.pure _

section Blocks

variable (d k : Seat)

/-- A block of Case 0. -/
theorem huClaim : K _ (Server.huClaim d k) := by
  apply h.bind h.get
  intro s
  apply h.bind (h.player _)
  intro pl
  apply h.bind (h.mark _ rfl)
  intro _
  split
  · apply h.bind (h.ask _ (by decide))
    intro yes
    split
    · apply h.bind (hwin _)
      intro _
      exact h.bind (h.modify _) fun _ => h.pure _
    · exact h.pure _
  · exact h.pure _

omit hwin in
/-- A claim that lays tiles down. -/
theorem claimed {c : Claim} {q : Seat} {n : Nat} {f : Player → Player} {l : Line}
    {rest : Server (Option Outcome)} (hl : l ≠ str "ACK\n") (hrest : K _ rest) : K _ (do
      Io.note (.accept c q)
      Server.accessDoor q n
      Server.update q f
      Server.toOthers q l
      Prog.modify Game.clearDiscarded
      rest) := by
  apply h.bind (h.mark _ rfl)
  intro _
  apply h.bind (h.accessDoor q n)
  intro _
  apply h.bind (h.update q f)
  intro _
  apply h.bind (h.toOthers q hl)
  intro _
  exact h.bind (h.modify _) fun _ => hrest

/-- A block of Case 1. -/
theorem gangClaim : K _ (Server.gangClaim d k) := by
  apply h.bind h.get
  intro s
  apply h.bind (h.player _)
  intro pl
  apply h.bind (h.mark _ rfl)
  intro _
  split
  · apply h.bind (h.ask _ (by decide))
    intro yes
    split
    · exact h.claimed (announce_ne_ack _ _) (h.bind (h.draw _) fun _ => h.huOrDiscard _ hwin)
    · exact h.pure _
  · exact h.pure _

/-- A block of Case 2. -/
theorem pongClaim : K _ (Server.pongClaim d k) := by
  apply h.bind h.get
  intro s
  apply h.bind (h.player _)
  intro pl
  apply h.bind (h.mark _ rfl)
  intro _
  split
  · apply h.bind (h.ask _ (by decide))
    intro yes
    split
    · exact h.claimed (announce_ne_ack _ _) (h.huOrDiscard _ hwin)
    · exact h.pure _
  · exact h.pure _

/-- The block of Case 3. -/
theorem eatClaim : K _ (Server.eatClaim d) := by
  apply h.bind h.get
  intro s
  apply h.bind (h.player _)
  intro pl
  apply h.bind (h.mark _ rfl)
  intro _
  split
  · apply h.bind (h.ask _ (by decide))
    intro yes
    split
    · apply h.bind (h.mark _ rfl)
      intro _
      apply h.bind (h.eatLoop _)
      intro _
      apply h.bind (h.toOthers _ (announce_ne_ack _ _))
      intro _
      exact h.bind (h.modify _) fun _ => h.huOrDiscard _ hwin
    · exact h.pure _
  · exact h.pure _

end Blocks

omit hwin in
/-- Blocks in order, until one ends the pass. -/
theorem firstOf {last : Server Outcome} (hlast : K _ last) :
    ∀ {blocks : List (Server (Option Outcome))}, (∀ b ∈ blocks, K _ b) →
      K _ (Server.firstOf blocks last) := by
  intro blocks
  induction blocks with
  | nil => exact fun _ => hlast
  | cons b blocks ih =>
      intro hb
      apply h.bind (hb b (List.mem_cons_self ..))
      intro r
      cases r with
      | none => exact ih fun b hmem => hb b (List.mem_cons_of_mem _ hmem)
      | some o => exact h.pure _

/-- A pass of `othersreaction`. -/
theorem reaction (d : Seat) : K _ (Server.reaction d) := by
  apply h.bind (h.mark _ rfl)
  intro _
  apply h.firstOf (h.noOneWantsIt d)
  intro b hb
  simp only [List.mem_cons, List.not_mem_nil, or_false] at hb
  rcases hb with rfl | rfl | rfl | rfl | rfl | rfl | rfl | rfl | rfl | rfl
  · exact h.huClaim hwin _ _
  · exact h.huClaim hwin _ _
  · exact h.huClaim hwin _ _
  · exact h.gangClaim hwin _ _
  · exact h.gangClaim hwin _ _
  · exact h.gangClaim hwin _ _
  · exact h.pongClaim hwin _ _
  · exact h.pongClaim hwin _ _
  · exact h.pongClaim hwin _ _
  · exact h.eatClaim hwin _

/-- `othersreaction`, pass after pass. -/
theorem othersreaction (d : Seat) : K _ (Server.othersreaction d) := by
  apply h.iterate
  intro x
  apply h.bind (h.reaction hwin _)
  intro o
  cases o with
  | recurse q => exact h.pure _
  | done r q => exact h.pure _

/-- The turns of a round. -/
theorem turns : K _ (Server.turns p) := by
  apply h.iterate
  intro q
  apply h.bind h.get
  intro s
  split
  · apply h.bind (h.drawNDiscard q hwin)
    intro r
    split
    · exact h.pure _
    · apply h.bind (h.othersreaction hwin q)
      intro r
      split
      · exact h.pure _
      · apply h.bind h.get
        intro s
        split
        · exact h.pure _
        · exact h.pure _
  · exact h.pure _

/-- A round up to its end. -/
theorem playRound (wall : List Mj) : K _ (Server.playRound wall p) := by
  apply h.bind (h.modify _)
  intro _
  apply h.bind (h.deal p)
  intro _
  exact h.bind (h.turns p hwin) fun _ => h.mark _ rfl

/-- A whole game, given what ends a round. -/
theorem game (hset : K _ Server.gameSetDisplay) (wall : Nat → Wall) :
    K _ (Server.game wall) := by
  apply h.bind (h.forM (fun i => h.tell _ _ (decimal_ne_ack _ _)) _)
  intro _
  apply h.iterate
  intro startplayer
  split
  · apply h.bind (h.playRound _ hwin _)
    intro _
    apply h.bind hset
    intro r
    split
    · exact h.pure _
    · exact h.pure _
  · exact h.pure _

end Closed

end Mahjong.Server
