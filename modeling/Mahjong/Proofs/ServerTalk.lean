/-
The server keeps to its conversations with the four players.

What is shown along a run of the server in surroundings that keep to
their part (`guests`): it speaks to a player in its turn only, waits for a
player out of it only, gives up at an end of file only, and what the
players are told is what is on the server (`Fits`).

That a tile that is counted is a real one is known from the books of a
round (`known_round`); it comes in by `wp.assuming`.
-/
import Mahjong.Proofs.Sayings
import Mahjong.Proofs.Bookkeeping
import Mahjong.Lib.Joint

namespace Mahjong.Talk

open Process CString
open Server

-- ================================================================== what is known

/-- No index that is typed or counted with is out of its range: the wall is
not over-read, the tiles counted have an entry in the count table, a discard
is of the hand, and the pair read at the eat prompt lies in `decks`. -/
def Contained : SOp → Game → Prop
  | .note (.access .shuffledMjs i), _ => i < 144
  | .note (.counts tiles), _ => ∀ m ∈ tiles, 0 ≤ tileIndex m ∧ tileIndex m < 34
  | .note (.discard p i), s => 0 ≤ i ∧ i ≤ (s.players p).normalCapacity
  | .note (.eatindex _ i j), _ => (0 ≤ i ∧ i < 20) ∧ 0 ≤ j ∧ j < 20
  | _, _ => True

theorem contained_heeds : Heeds Contained 20 where
  reach_ge := by decide
  reach_le := Nat.le_refl 20
  wall := fun _ _ h => h
  counts := fun _ _ h => h
  discard := fun _ _ _ h => h
  eat := fun _ _ _ _ _ h => h

/-- No index is out of its range, the books are in order, and what is
counted are real tiles. -/
structure Known (o : SOp) (s : Game) : Prop where
  ranged : Ranged o s
  books : ∀ q, ∃ k, Books (s.players q) k
  real : ∀ tiles, o = .note (.counts tiles) → ∀ m ∈ tiles, m.Real

/-- What is shown of it in a lax run. -/
def Learned (o : SOp) (s : Game) (_ : Log) : Prop := Ranged o s → Known o s

theorem Undecided.learned {o : SOp} {s : Game} {w : Log} (h : Undecided s w)
    (ho : ∀ tiles, o ≠ .note (.counts tiles)) : Learned o s w :=
  fun hr => ⟨hr, h.books, fun tiles he => absurd he (ho tiles)⟩

theorem learned_obliged : Obliged False Learned where
  quiet := by
    constructor
    · decide
    · exact fun _ _ _ _ h ho => h.log ho
    · exact fun _ _ _ _ _ h => Undecided.learned h fun _ he => nomatch he
    · intro e s w he h
      refine Undecided.learned h fun tiles he' => ?_
      cases he'
      exact Bool.false_ne_true he
    all_goals
      intros
      apply Undecided.learned
      · assumption
      · exact fun _ he => nomatch he
  access := fun _ _ _ _ _ _ h => Undecided.learned h fun _ he => nomatch he
  scan := fun _ _ _ _ _ h => Undecided.learned h fun _ he => nomatch he
  counts := by
    intro tiles s w hreal h hr
    refine ⟨hr, h.books, fun tiles' he => ?_⟩
    cases he
    exact hreal
  yourTurn := fun _ _ _ _ h => Undecided.learned h fun _ he => nomatch he
  othersreaction := fun _ _ _ _ h => Undecided.learned h fun _ he => nomatch he
  win := fun _ _ _ h _ => Undecided.learned h fun _ he => nomatch he
  print := fun _ _ _ _ _ h => Undecided.learned h fun _ he => nomatch he

/-- It is known in every round. -/
theorem known_round (wall : Wall) (start : Seat) (s₀ : Game) :
    wp anyone Contained (fun o s _ => Known o s) (playRound wall.tiles start s₀)
      (fun _ _ _ => True) [] := by
  have hlax : wp anyone Ranged Learned (playRound wall.tiles start s₀) (fun _ _ _ => True) [] :=
    (wp_playRound ranged_mode learned_obliged
      (fun _ _ _ _ h hr => ⟨hr, h, fun _ he => nomatch he⟩) Declares.nil).mono
        fun _ _ _ _ => trivial
  have hranged : ∀ (o : SOp) (s : Game), Contained o s ∧ (Contained o s →
      ∃ v, Accounted 20 o s v) → Ranged o s := by
    intro o s h
    obtain ⟨ho, hledger⟩ := h
    obtain ⟨v, hv⟩ := hledger ho
    exact hv.ranged contained_heeds ho
  exact ((ledger_playRound contained_heeds).assuming Env.logged_total (fun _ _ _ ho _ => ho)
    (hlax.weaken hranged fun o s _ ho h => h (hranged o s ho))).mono fun _ _ _ _ => trivial

-- ================================================================== the surroundings

/-- Where the server is in its conversations. -/
abbrev Floor := Protocol.Standing Seat talk.State

/-- Four players who keep to their part. -/
abbrev guests : Env SOp IoOp.Res := talk.party .hub (fun _ => true) Note

/-- What is assumed of a run: the wall is not over-read, what is counted has
an entry in the count table, and the pair read at the eat prompt lies in
`decks`. A quiet gang is accepted only if `G` allows it. -/
def Proper (G : Prop) : SOp → Game → Prop
  | .note (.access .shuffledMjs i), _ => i < 144
  | .note (.counts tiles), _ => ∀ m ∈ tiles, 0 ≤ tileIndex m ∧ tileIndex m < 34
  | .note (.eatindex _ i j), _ => (0 ≤ i ∧ i < 20) ∧ 0 ≤ j ∧ j < 20
  | .note (.accept .quietGang _), _ => G
  | _, _ => True

/-- The same, and what is known there. -/
abbrev Informed (G : Prop) (o : SOp) (s : Game) : Prop :=
  Proper G o s ∧ (Contained o s → ∃ _ : Log, Known o s)

/-- Nobody is to speak to one of the players, nor the player. -/
def Mute (w : Floor) : Prop := ∃ q v, w.state q = .turn v ∧ v.phase = .ganged

/-- The hands of the players are those of the views. -/
def Agrees (s : Game) (w : Floor) : Prop :=
  ∀ q, (w.state q).held.phase.settled = true → (s.players q).bare = (w.state q).held.hand

/-- A line on which the player may do something with the tile on the table. -/
def Offers (l : Line) : Prop := l = str "no one wants it.\n" ∨ ∃ c : Offer, l = c.line

/-- A line that is about the tile on the table: it offers it to the player,
or says what it is. -/
def Concerns (v : View) (l : Line) : Prop :=
  v.phase = .round ∧ (Offers l ∨ (discardOf l).isSome = true)

/-- The tile on the table as the player knows it behind a line. -/
def shown (v : View) (l : Line) : Mj := (discardOf l).getD v.table

/-- What is shown of the server at an operation: when it says or waits for
something, the hands are those of the views; what it offers is what the
player sees on the table, and what it says of that tile is so; a discard is of the hand, and the tile the player
has put on the table. With a mute player it comes to nothing new. -/
def Fits (G : Prop) : SOp → Game → Floor → Prop
  | .write p l, s, w => (Mute w → G) ∧ Agrees s w
      ∧ (Concerns (w.state p).held l → s.discardedMj.bare = shown (w.state p).held l)
  | .readline _ _, s, w => (Mute w → G) ∧ Agrees s w
  | .select _, s, w => (Mute w → G) ∧ Agrees s w
  | .note (.discard p i), s, w => ¬ Mute w ∧ (0 ≤ i ∧ i ≤ (s.players p).normalCapacity)
      ∧ ∃ v, w.state p = .turn v ∧ v.phase = .round
        ∧ ((s.players p).deck (slotIndex i)).bare = v.table
  | .note (.accept .quietGang p), _, w => ∃ v, w.state p = .turn v ∧ v.phase = .ganged
  | .note (.accept _ _), _, w => ¬ Mute w
  | .note (.draw _), _, w => ¬ Mute w
  | .note (.othersreaction _), _, w => ¬ Mute w
  | .note (.win _), _, w => ¬ Mute w
  | .note .gameSet, _, w => ¬ Mute w
  | _, _, _ => True

/-- What is shown at every operation. -/
abbrev Minds (G : Prop) (o : SOp) (s : Game) (w : Floor) : Prop :=
  talk.May .hub (fun _ => true) o w ∧ Fits G o s w

theorem Proper.lax {o : SOp} {s : Game} (h : Proper False o s) : Proper True o s := by
  cases o with
  | note e =>
      cases e with
      | access a i =>
          cases a with
          | shuffledMjs => exact h
          | _ => trivial
      | counts tiles => exact h
      | eatindex p i j => exact h
      | accept c p => cases c <;> trivial
      | _ => trivial
  | _ => trivial

/-- What is assumed where the server says or waits for something is
nothing. -/
theorem proper_atMarks (G : Prop) : Joint.AtMarks (Proper G) := by
  intro o s ho
  cases o with
  | note e => exact absurd rfl (ho e)
  | _ => trivial

/-- A discard is of the hand, so no index is out of range. -/
theorem Proper.contained {G : Prop} {o : SOp} {s : Game} {w : Floor} (h : Proper G o s)
    (hw : Minds G o s w) : Contained o s := by
  cases o with
  | note e =>
      cases e with
      | access a i =>
          cases a with
          | shuffledMjs => exact h
          | _ => trivial
      | counts tiles => exact h
      | eatindex p i j => exact h
      | discard p i => exact hw.2.2.1
      | _ => trivial
  | _ => trivial

-- ======================================================================== the views

/-- It is the turn of these views. -/
structure On (V : Seat → View) (w : Floor) : Prop where
  state : ∀ q, w.state q = .turn (V q)
  there : w.lost = false

/-- What must be known of the table where something is said or waited for. -/
structure Fit (G : Prop) (V : Seat → View) (s : Game) : Prop where
  hand : ∀ q, (V q).phase.settled = true → (s.players q).bare = (V q).hand
  mute : (∃ q, (V q).phase = .ganged) → G

variable {G : Prop} {V : Seat → View} {s : Game} {w w' : Floor} {p : Seat} {l : Line} {v v' : View}

theorem On.to (h : On V w) (p : Seat) (v : View) (hw : w' = w.to p (.turn v)) :
    On (Function.update V p v) w' := by
  subst hw
  refine ⟨fun q => ?_, h.there⟩
  by_cases hq : q = p
  · subst hq
    rw [Function.update_self]
    exact w.to_state_self ..
  · rw [Function.update_of_ne hq]
    exact (w.to_state_ne _ _ hq).trans (h.state q)

theorem Fit.to (hs : Fit G V s) (hhand : v.phase.settled = true → (s.players p).bare = v.hand)
    (hmute : v.phase ≠ .ganged) : Fit G (Function.update V p v) s := by
  constructor
  · intro q hq
    by_cases he : q = p
    · subst he
      rw [Function.update_self] at hq ⊢
      exact hhand hq
    · rw [Function.update_of_ne he] at hq ⊢
      exact hs.hand q hq
  · intro hgang
    obtain ⟨q, hq⟩ := hgang
    by_cases he : q = p
    · subst he
      rw [Function.update_self] at hq
      exact absurd hq hmute
    · rw [Function.update_of_ne he] at hq
      exact hs.mute ⟨q, hq⟩

/-- As far as what was said is acknowledged. -/
theorem Fit.fits (hs : Fit G V s) (hw : ∀ q, (w.state q).held = V q) :
    (Mute w → G) ∧ Agrees s w := by
  constructor
  · intro hmute
    obtain ⟨q, v, hq, hv⟩ := hmute
    have he := hw q
    rw [hq] at he
    exact hs.mute ⟨q, by rw [← he]; exact hv⟩
  · intro q hq
    rw [hw q] at hq ⊢
    exact hs.hand q hq

theorem On.held (h : On V w) (q : Seat) : (w.state q).held = V q := by
  rw [h.state]
  rfl

/-- Nobody is mute. -/
theorem On.not_mute (h : On V w) (hV : ∀ q, (V q).phase ≠ .ganged) : ¬ Mute w := by
  intro hmute
  obtain ⟨q, v, hq, hv⟩ := hmute
  rw [h.state] at hq
  cases hq
  exact hV q hv

/-- The views while an acknowledgement is due. -/
theorem held_owes (h : On V w) (side : Side) (v : View) (q : Seat) :
    ((w.to p (.owes side (V p) v)).state q).held = V q := by
  by_cases hq : q = p
  · subst hq
    exact congrArg Protocol.Acked.held (w.to_state_self ..)
  · exact (congrArg Protocol.Acked.held (w.to_state_ne _ _ hq)).trans (h.held q)

-- ==================================================================== the exchanges

variable {A : SOp → Game → Prop}

/-- What is read brings a line the player may say, or the end of file. -/
theorem heard_player {n : Nat} {r : Line} (h : guests.resp w (.readline p n) r w') :
    (∃ q, talk.Says .peer (w.state p) r q ∧ w' = w.to p q)
      ∨ (r = [] ∧ w' = { w with lost := true }) :=
  h

/-- The end of file is the end of the server. -/
theorem wp_exit {α : Type} {Q : α → Game → Floor → Prop} (hlost : w.lost = true) :
    wp guests A (Minds G) ((Io.exit : Server α) s) Q w :=
  wp_op fun _ => ⟨⟨Or.inl hlost, trivial⟩, fun r => nomatch r⟩

/-- `write_message_wait_ack`. -/
theorem wp_tell (h : On V w) (hs : Fit G V s) (hline : plain.Says .hub (V p) l v')
    (hl : Concerns (V p) l → s.discardedMj.bare = shown (V p) l) :
    wp guests A (Minds G) (writeMessageWaitAck p l s)
      (fun _ s' w' => s' = s ∧ On (Function.update V p v') w') w := by
  have hsaid : talk.Says .hub (w.state p) l (.owes .peer (V p) v') := by
    rw [h.state]
    exact Protocol.acked_says_turn.mpr ⟨v', hline, rfl⟩
  have hfits := hs.fits h.held
  have htable : Concerns (w.state p).held l
      → s.discardedMj.bare = shown (w.state p).held l := by
    rw [h.held]
    exact hl
  refine wp_seq (wp_call fun _ => ⟨⟨⟨h.there, rfl, _, hsaid⟩, hfits.1, hfits.2, htable⟩,
    fun _ w₁ h₁ => ?_⟩)
  obtain ⟨q, hq, rfl⟩ := h₁
  obtain rfl : q = .owes .peer (V p) v' := Option.some.inj (hq.next.symm.trans hsaid.next)
  have hstate : (w.to p (.owes .peer (V p) v')).state p = .owes .peer (V p) v' :=
    w.to_state_self ..
  have hlisten : talk.Listens .hub ((w.to p (.owes .peer (V p) v')).state p) := by
    rw [hstate]
    exact ⟨nofun, id⟩
  refine wp_seq (wp_call fun _ => ⟨⟨⟨h.there, by decide, fun _ => ⟨by decide, hlisten⟩⟩,
    hs.fits (held_owes h _ _)⟩, fun recvline w₂ h₂ => ?_⟩)
  cases heard_player h₂ with
  | inl hack =>
      obtain ⟨q, hq, rfl⟩ := hack
      rw [hstate] at hq
      obtain ⟨-, rfl, rfl⟩ := (Protocol.acked_says_owes whole_ack).mp hq
      exact wp_pure ⟨rfl, h.to p v' (w.to_to ..)⟩
  | inr hlost =>
      obtain ⟨rfl, rfl⟩ := hlost
      exact wp_exit rfl

/-- `read_and_ack`, when the server is not to speak. -/
theorem wp_hear (h : On V w) (hs : Fit G V s) (hturn : (V p).phase.speaker ≠ some .hub)
    (hmore : (V p).phase ≠ .over) :
    wp guests A (Minds G) (readAndAck p s)
      (fun l s' w' => s' = s ∧ ∃ v' : View, plain.Says .peer (V p) l v'
        ∧ On (Function.update V p v') w') w := by
  have hlisten : talk.Listens .hub (w.state p) := by
    rw [h.state]
    exact ⟨hturn, hmore⟩
  refine wp_seq (wp_call fun _ => ⟨⟨⟨h.there, by decide, fun _ => ⟨by decide, hlisten⟩⟩,
    hs.fits h.held⟩, fun recvline w₁ h₁ => ?_⟩)
  cases heard_player h₁ with
  | inr hlost =>
      obtain ⟨rfl, rfl⟩ := hlost
      exact wp_exit rfl
  | inl hline =>
      obtain ⟨q, hq, rfl⟩ := hline
      rw [h.state] at hq
      obtain ⟨v', hline, rfl⟩ := Protocol.acked_says_turn.mp hq
      have hstate : (w.to p (.owes .hub (V p) v')).state p = .owes .hub (V p) v' :=
        w.to_state_self ..
      have hack : talk.Says .hub ((w.to p (.owes .hub (V p) v')).state p) (str "ACK\n")
          (.turn v') := by
        rw [hstate]
        exact (Protocol.acked_says_owes whole_ack).mpr ⟨rfl, rfl, rfl⟩
      have hfits := hs.fits (held_owes (p := p) h .hub v')
      have hno : ¬ Concerns (((w.to p (.owes .hub (V p) v')).state p).held) (str "ACK\n") := by
        intro hc
        cases hc.2 with
        | inl he =>
            cases he with
            | inl he => exact absurd he (by decide)
            | inr he =>
                obtain ⟨c, he⟩ := he
                cases c <;> exact absurd he (by decide)
        | inr he =>
            rw [discardOf_none (by decide)] at he
            cases he
      rw [if_pos (List.length_pos_iff.mpr hline.whole.ne_nil)]
      refine wp_seq (wp_call fun _ => ⟨⟨⟨h.there, rfl, _, hack⟩, hfits.1, hfits.2,
          fun hc => absurd hc hno⟩, fun _ w₂ h₂ => ?_⟩)
      obtain ⟨q, hq, rfl⟩ := h₂
      obtain rfl : q = .turn v' := Option.some.inj (hq.next.symm.trans hack.next)
      exact wp_pure ⟨rfl, v', hline, h.to p v' (w.to_to ..)⟩

/-- A mark. -/
theorem wp_mark {e : Note} {Q : Unit → Game → Floor → Prop} (hthere : w.lost = false)
    (h : A (.note e) s → Fits G (.note e) s w ∧ Q () s w) :
    wp guests A (Minds G) ((Io.note e : Server Unit) s) Q w := by
  refine wp_call fun ho => ⟨⟨hthere, (h ho).1⟩, fun _ w₁ h₁ => ?_⟩
  obtain rfl : w₁ = w := h₁
  exact (h ho).2

/-- A look at a player. -/
theorem wp_player_seq {β : Type} {f : Player → Server β} {Q : β → Game → Floor → Prop}
    (h : wp guests A (Minds G) (f (s.players p) s) Q w) :
    wp guests A (Minds G) ((player p >>= f) s) Q w :=
  h

/-- A question to a player. -/
theorem wp_ask {asked yes no : View} (h : On V w) (hs : Fit G V s)
    (hline : plain.Says .hub (V p) l asked)
    (hl : Concerns (V p) l → s.discardedMj.bare = shown (V p) l)
    (hasked : Fit G (Function.update V p asked) s)
    (hturn : asked.phase.speaker = some .peer) (hread : asked.phase.read = answerOf)
    (hyes : asked.after .yes = some yes) (hno : asked.after .no = some no) :
    wp guests A (Minds G) (ask p l s)
      (fun b s' w' => s' = s ∧ match b with
        | true => On (Function.update V p yes) w'
        | false => On (Function.update V p no) w') w := by
  refine wp_seq ((wp_tell h hs hline hl).mono ?_)
  intro _ s₁ w₁ h₁
  obtain ⟨rfl, h₁⟩ := h₁
  have hself : Function.update V p asked p = asked := Function.update_self ..
  have hnohub : (Function.update V p asked p).phase.speaker ≠ some .hub := by
    rw [hself, hturn]
    nofun
  have hmore : (Function.update V p asked p).phase ≠ .over := by
    rw [hself]
    intro hover
    rw [hover] at hturn
    cases hturn
  refine wp_seq ((wp_hear h₁ hasked hnohub hmore).mono ?_)
  intro answer s₂ w₂ h₂
  obtain ⟨rfl, v', hsaid, h₂⟩ := h₂
  rw [hself] at hsaid
  rw [Function.update_idem] at h₂
  obtain ⟨m, hm, hafter⟩ := said rfl hsaid
  have hanswer : answerOf answer = some m := by
    rw [← hread]
    exact hm
  unfold answerOf at hanswer
  split_ifs at hanswer with hy hn
  · cases hanswer
    obtain rfl : yes = v' := Option.some.inj (hyes.symm.trans hafter)
    rw [hy]
    exact wp_pure ⟨rfl, h₂⟩
  · cases hanswer
    obtain rfl : no = v' := Option.some.inj (hno.symm.trans hafter)
    rw [hn]
    exact wp_pure ⟨rfl, h₂⟩

end Mahjong.Talk
