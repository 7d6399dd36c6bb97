/-
The client keeps to the conversation, whatever its user types.

What is shown along a run of `game` in surroundings that keep to their
part (`conv`): the client speaks in its turn only, waits for the server
out of it only, gives up at an end of file only, and at every operation
its tiles are those of the view (`Shows`).

Each function is followed from the view at its beginning (`At`) to the
one at its end.
-/
import Mahjong.Proofs.Sayings

namespace Mahjong.Client

open Process CString Talk

-- ================================================================== the surroundings

/-- The operations of the client. -/
abbrev COp := IoOp Fd Note

/-- Where the client is in the conversation. -/
abbrev World := Protocol.Standing Fd talk.State

/-- The one channel of the client. -/
abbrev talks (fd : Fd) : Bool := fd = Fd.server

/-- A server that keeps to its part. -/
abbrev conv : Env COp IoOp.Res := talk.party .peer talks Note

/-- What is typed at the eat prompt is a line that goes through `write`
as it is. -/
def Typed (answer : Line) : Prop := WholeLine limit answer ∧ '%' ∉ answer ∧ '\x00' ∉ answer

/-- What is assumed of the user. -/
def Sane : COp → Table → Prop
  | .note (.eat answer), _ => Typed answer
  | _, _ => True

/-- The tiles are those of the view, and the client sleeps between two turns
only. -/
structure Shows (o : COp) (s : Table) (w : World) : Prop where
  tiles : (w.state .server).held.phase ≠ .greeting →
    s.player.bare = (w.state .server).held.hand
      ∧ ((w.state .server).held.phase = .round → s.discardedMj.bare = (w.state .server).held.table)
  sleeps : ∀ fds, o = .select fds → ∃ v, w.state .server = .turn v ∧ v.phase = .round

/-- What is shown at every operation. -/
abbrev Minds (o : COp) (s : Table) (w : World) : Prop := talk.May .peer talks o w ∧ Shows o s w

-- ======================================================================== the views

/-- It is the turn of this view. -/
structure At (v : View) (w : World) : Prop where
  state : w.state .server = .turn v
  there : w.lost = false

/-- The tiles are those of this view. -/
structure Holding (v : View) (s : Table) : Prop where
  hand : s.player.bare = v.hand
  table : s.discardedMj.bare = v.table
  room : v.hand.normalCapacity ≤ 16

/-- What must be known of the tiles at an operation: nothing before the
first deal, and of the tile on the table in the round only. -/
def Knows (v : View) (s : Table) : Prop :=
  v.phase ≠ .greeting → s.player.bare = v.hand ∧ (v.phase = .round → s.discardedMj.bare = v.table)

variable {v v' : View} {s : Table} {w w' : World} {l : Line}

theorem Holding.knows (h : Holding v s) : Knows v s := fun _ => ⟨h.hand, fun _ => h.table⟩

/-- In another phase the tiles are the same. -/
theorem Holding.phase (h : Holding v s) (r : Nat) (phase : Phase) :
    Holding { v with round := r, phase := phase } s :=
  ⟨h.hand, h.table, h.room⟩

/-- It is the turn of a view of this phase in this round, with its tiles. -/
def In (phase : Phase) (r : Nat) (s : Table) (w : World) : Prop :=
  ∃ v, v.phase = phase ∧ v.round = r ∧ At v w ∧ Holding v s

theorem In.intro (h : At v w) (hs : Holding v s) : In v.phase v.round s w := ⟨v, rfl, rfl, h, hs⟩

theorem Holding.capacity (h : Holding v s) : v.hand.normalCapacity = s.player.normalCapacity := by
  rw [← h.hand]
  rfl

theorem At.tiles (h : At v w) (hs : Knows v s) (hphase : (w.state .server).held.phase ≠ .greeting) :
    s.player.bare = (w.state .server).held.hand
      ∧ ((w.state .server).held.phase = .round →
          s.discardedMj.bare = (w.state .server).held.table) := by
  rw [h.state] at hphase ⊢
  exact hs hphase

theorem At.shows {o : COp} (h : At v w) (hs : Knows v s) (ho : ∀ fds, o ≠ .select fds) :
    Shows o s w :=
  ⟨h.tiles hs, fun fds hsel => absurd hsel (ho fds)⟩

-- ==================================================================== the exchanges

/-- The end of the input of a channel is the end of the client. -/
theorem wp_exit {α : Type} {Q : α → Table → World → Prop} (hlost : w.lost = true)
    (hs : Shows .exit s w) : wp conv Sane Minds ((Io.exit : Client α) s) Q w :=
  wp_op fun _ => ⟨⟨Or.inl hlost, hs⟩, fun r => nomatch r⟩

/-- What a read from the server brings. -/
theorem heard_server {n : Nat} {r : Line}
    (h : conv.resp w (.readline .server n) r w') :
    (∃ q, talk.Says .hub (w.state .server) r q ∧ w' = w.to .server q)
      ∨ (r = [] ∧ w' = { w with lost := true }) :=
  h

/-- What a read from the user brings. -/
theorem heard_user {n : Nat} {r : Line} (h : conv.resp w (.readline .stdin n) r w') :
    w' = { w with left := w.left || r.isEmpty } :=
  h

/-- `write_message_wait_ack`. -/
theorem wp_tell (h : At v w) (hs : Knows v s) (hline : plain.Says .peer v l v') :
    wp conv Sane Minds (writeMessageWaitAck l s) (fun _ s' w' => s' = s ∧ At v' w') w := by
  have hsaid : talk.Says .peer (w.state .server) l (.owes .hub v v') := by
    rw [h.state]
    exact Protocol.acked_says_turn.mpr ⟨v', hline, rfl⟩
  refine wp_seq (wp_call fun _ => ⟨⟨⟨h.there, rfl, _, hsaid⟩, h.shows hs nofun⟩, fun _ w₁ h₁ => ?_⟩)
  obtain ⟨q, hq, rfl⟩ := h₁
  obtain rfl : q = .owes .hub v v' := Option.some.inj (hq.next.symm.trans hsaid.next)
  have hstate : (w.to .server (.owes .hub v v')).state Fd.server = .owes .hub v v' :=
    w.to_state_self ..
  have hshows : ∀ o w₂, w₂.state = (w.to .server (.owes .hub v v')).state →
      (∀ fds, o ≠ .select fds) → Shows o s w₂ := by
    intro o w₂ hw₂ ho
    refine ⟨fun hphase => ?_, fun fds hsel => absurd hsel (ho fds)⟩
    rw [hw₂, hstate] at hphase ⊢
    exact hs hphase
  have hlisten : talk.Listens .peer ((w.to .server (.owes .hub v v')).state Fd.server) := by
    rw [hstate]
    exact ⟨nofun, id⟩
  refine wp_seq (wp_call fun _ => ⟨⟨⟨h.there, by decide, fun _ => ⟨by decide, hlisten⟩⟩,
    hshows _ _ rfl nofun⟩, fun recvline w₂ h₂ => ?_⟩)
  cases heard_server h₂ with
  | inl hack =>
      obtain ⟨q, hq, rfl⟩ := hack
      rw [hstate] at hq
      obtain ⟨-, rfl, rfl⟩ := (Protocol.acked_says_owes whole_ack).mp hq
      exact wp_pure ⟨rfl, Protocol.Standing.to_state_self .., h.there⟩
  | inr hlost =>
      obtain ⟨rfl, rfl⟩ := hlost
      exact wp_exit rfl (hshows _ _ rfl nofun)

/-- `read_and_ack`, when the server is to speak. -/
theorem wp_hear (h : At v w) (hs : Knows v s) (hturn : v.phase.speaker = some .hub) :
    wp conv Sane Minds (readAndAck s)
      (fun l s' w' => s' = s ∧ ∃ v', plain.Says .hub v l v' ∧ At v' w') w := by
  have hlisten : talk.Listens .peer (w.state .server) := by
    rw [h.state]
    refine ⟨?_, ?_⟩
    · show v.phase.speaker ≠ some .peer
      rw [hturn]
      nofun
    · show ¬ v.phase = .over
      intro hover
      rw [hover] at hturn
      cases hturn
  refine wp_seq (wp_call fun _ => ⟨⟨⟨h.there, by decide, fun _ => ⟨by decide, hlisten⟩⟩,
    h.shows hs nofun⟩, fun recvline w₁ h₁ => ?_⟩)
  cases heard_server h₁ with
  | inr hlost =>
      obtain ⟨rfl, rfl⟩ := hlost
      exact wp_exit rfl ⟨h.tiles hs, nofun⟩
  | inl hline =>
      obtain ⟨q, hq, rfl⟩ := hline
      rw [h.state] at hq
      obtain ⟨v', hline, rfl⟩ := Protocol.acked_says_turn.mp hq
      have hstate : (w.to .server (.owes .peer v v')).state Fd.server = .owes .peer v v' :=
        w.to_state_self ..
      have hack : talk.Says .peer ((w.to .server (.owes .peer v v')).state Fd.server)
          (str "ACK\n") (.turn v') := by
        rw [hstate]
        exact (Protocol.acked_says_owes whole_ack).mpr ⟨rfl, rfl, rfl⟩
      have hshows : Shows (.write .server (str "ACK\n")) s (w.to .server (.owes .peer v v')) := by
        refine ⟨fun hphase => ?_, nofun⟩
        rw [hstate] at hphase ⊢
        exact hs hphase
      rw [if_pos (List.length_pos_iff.mpr hline.whole.ne_nil)]
      refine wp_seq (wp_call fun _ => ⟨⟨⟨h.there, rfl, _, hack⟩, hshows⟩, fun _ w₂ h₂ => ?_⟩)
      obtain ⟨q, hq, rfl⟩ := h₂
      obtain rfl : q = .turn v' := Option.some.inj (hq.next.symm.trans hack.next)
      exact wp_pure ⟨rfl, v', hline, Protocol.Standing.to_state_self .., h.there⟩

-- ========================================================================== the user

/-- What is read from the user changes nothing but that the input may be
at its end. -/
theorem At.left (h : At v w) (b : Bool) : At v { w with left := b } := ⟨h.state, h.there⟩

/-- The end of the user's input is the end of the client, when it is to
speak. -/
theorem wp_leave {α : Type} {Q : α → Table → World → Prop} (h : At v w) (hs : Knows v s)
    (hturn : v.phase.speaker = some .peer) (hleft : w.left = true) :
    wp conv Sane Minds ((Io.exit : Client α) s) Q w := by
  refine wp_op fun _ => ⟨⟨Or.inr ⟨hleft, .server, rfl, ?_⟩, h.shows hs nofun⟩, fun r => nomatch r⟩
  rw [h.state]
  exact hturn

theorem wp_readAnswer (h : At v w) (hs : Knows v s) (hturn : v.phase.speaker = some .peer) :
    wp conv Sane Minds (readAnswer s) (fun _ s' w' => s' = s ∧ At v w') w := by
  refine wp_seq (wp_call fun _ => ⟨⟨⟨h.there, by decide, nofun⟩, h.shows hs nofun⟩,
    fun answer w₁ h₁ => ?_⟩)
  obtain rfl := heard_user h₁
  by_cases hempty : answer.length = 0
  · rw [if_pos hempty]
    refine wp_leave (h.left _) hs hturn ?_
    simp [List.length_eq_zero_iff.mp hempty]
  · rw [if_neg hempty]
    exact wp_pure ⟨rfl, h.left _⟩

/-- `proceed`: whatever is typed, the client says yes or no. -/
theorem wp_proceed {yes no : View} (h : At v w) (hs : Knows v s)
    (hturn : v.phase.speaker = some .peer) (hread : v.phase.read = answerOf)
    (hyes : v.after .yes = some yes) (hno : v.after .no = some no) :
    wp conv Sane Minds (proceed s)
      (fun b s' w' => s' = s ∧ match b with
        | true => At yes w'
        | false => At no w') w := by
  refine wp_forever (fun s' w' => s' = s ∧ At v w') ?_ ⟨rfl, h⟩
  intro s₁ w₁ h₁
  obtain ⟨rfl, h₁⟩ := h₁
  refine wp_seq ((wp_readAnswer h₁ hs hturn).mono ?_)
  intro answer s₂ w₂ h₂
  obtain ⟨rfl, h₂⟩ := h₂
  split
  · refine wp_seq ((wp_tell h₂ hs (move_yes hturn hread hyes)).mono ?_)
    intro _ s₃ w₃ h₃
    exact wp_pure h₃
  · split
    · refine wp_seq ((wp_tell h₂ hs (move_no hturn hread hno)).mono ?_)
      intro _ s₃ w₃ h₃
      exact wp_pure h₃
    · exact wp_pure ⟨rfl, h₂⟩

/-- The loop of `client_discard`. -/
theorem wp_chooseIndex (h : At v w) (hs : Knows v s) (hturn : v.phase.speaker = some .peer) :
    wp conv Sane Minds (chooseIndex s) (fun i s' w' => s' = s ∧ At v w'
      ∧ 0 ≤ i ∧ i < s.player.normalCapacity + 1) w := by
  refine wp_forever (fun s' w' => s' = s ∧ At v w') ?_ ⟨rfl, h⟩
  intro s₁ w₁ h₁
  obtain ⟨rfl, h₁⟩ := h₁
  refine wp_seq (wp_call fun _ => ⟨⟨h₁.there, h₁.shows hs nofun⟩, fun scanned w₂ h₂ => ?_⟩)
  refine wp_get_seq ?_
  cases scanned with
  | eof =>
      obtain rfl : w₂ = { w₁ with left := w₁.left || true } := h₂
      exact wp_leave (h₁.left _) hs hturn (by simp)
  | mismatch =>
      obtain rfl : w₂ = { w₁ with left := w₁.left || false } := h₂
      exact wp_pure ⟨rfl, h₁.left _⟩
  | number i =>
      obtain rfl : w₂ = { w₁ with left := w₁.left || false } := h₂
      by_cases hi : 0 ≤ i ∧ i < s₁.player.normalCapacity + 1
      · simp only [if_pos hi]
        exact wp_pure ⟨rfl, h₁.left _, hi⟩
      · simp only [if_neg hi]
        exact wp_pure ⟨rfl, h₁.left _⟩

-- ==================================================================== the player's turn

/-- The tile read off a line. -/
theorem scanTile_bare {t n : Int} (hscan : sscanf2 l = (some t, some n)) (m : Mj) :
    scanTile l m = { m with type := t, number := n } := by
  rw [scanTile, hscan]
  rfl

/-- Reading a drawn tile. -/
theorem scanDrawn_eq {t n : Int} (hscan : sscanf2 l = (some t, some n)) (p : Player) :
    scanDrawn l p = putTile p.normalCapacity t n p := by
  rw [scanDrawn, scanTile_bare hscan, putTile]

theorem Holding.put {t n : Int} (h : Holding v s) (hscan : sscanf2 l = (some t, some n)) :
    Holding (v.put t n) (s.update (scanDrawn l)) := by
  refine ⟨?_, h.table, h.room⟩
  show (scanDrawn l s.player).bare = putTile v.hand.normalCapacity t n v.hand
  rw [scanDrawn_eq hscan, putTile_bare, h.hand, h.capacity]

/-- `client_draw`. -/
theorem wp_clientDraw {own : Bool} {r : Nat} (h : In (.drawing own) r s w) :
    wp conv Sane Minds (clientDraw s) (fun _ s' w' => In (.verdict own) r s' w') w := by
  obtain ⟨v, hphase, rfl, h, hs⟩ := h
  have hread : ∀ {v : View} {s : Table} {w : World}, At v w → Holding v s → v.phase = .drawing own →
      wp conv Sane Minds (readAndAck s) (fun l s' w' => ∃ v₁, v₁.round = v.round
        ∧ Holding v₁ (s'.update (scanDrawn l)) ∧ At (v₁.drawn own) w') w := by
    intro v s w h hs hphase
    refine (wp_hear h hs.knows (by rw [hphase]; rfl)).mono ?_
    intro l s' w' h'
    obtain ⟨rfl, v', hline, h'⟩ := h'
    obtain ⟨t, n, hscan, rfl⟩ := heard_drawing hphase hline
    exact ⟨v.put t n, rfl, hs.put hscan, h'⟩
  refine wp_seq ((hread h hs hphase).mono ?_)
  intro l s₁ w₁ h₁
  refine wp_modify_seq (wp_forever (fun s' w' => ∃ v₁, v₁.round = v.round ∧ Holding v₁ s'
    ∧ At (v₁.drawn own) w') ?_ h₁)
  intro s₂ w₂ h₂
  obtain ⟨v₁, hround, hs₁, h₁⟩ := h₂
  have htype : (s₂.player.deck s₂.player.normalCapacity).type
      = (v₁.hand.deck v₁.hand.normalCapacity).type := by
    rw [← hs₁.hand, Player.bare_deck, Player.bare_normalCapacity, Mj.bare_type]
  refine wp_get_seq ?_
  rw [htype]
  unfold View.drawn at h₁
  by_cases hflower : (v₁.hand.deck v₁.hand.normalCapacity).type = flower
  · rw [if_pos hflower] at h₁ ⊢
    refine wp_modify_seq ?_
    have hs₂ : Holding { v₁ with phase := .drawing own,
                                 hand := v₁.hand.pushFlower (v₁.hand.deck v₁.hand.normalCapacity) }
        (s₂.update fun p => p.pushFlower (p.deck p.normalCapacity)) := by
      refine ⟨?_, hs₁.table, hs₁.room⟩
      show (s₂.player.pushFlower (s₂.player.deck s₂.player.normalCapacity)).bare = _
      rw [Player.bare_pushFlower, ← Player.bare_deck, hs₁.hand, hs₁.capacity]
    refine wp_seq ((hread h₁ hs₂ rfl).mono ?_)
    intro l s₃ w₃ h₃
    obtain ⟨v₂, hround₂, hs₃, h₃⟩ := h₃
    exact wp_modify_seq (wp_pure ⟨v₂, hround₂.trans hround, hs₃, h₃⟩)
  · rw [if_neg hflower] at h₁ ⊢
    exact wp_pure ⟨{ v₁ with phase := .verdict own }, rfl, hround, h₁, hs₁.phase _ _⟩

/-- `client_is_hu`. -/
theorem wp_clientIsHu {own : Bool} {r : Nat} (h : In (.verdict own) r s w) :
    wp conv Sane Minds (clientIsHu s)
      (fun i s' w' => if i = 1 then In .round r s' w' else In (View.goOn own) r s' w') w := by
  obtain ⟨v, hphase, rfl, h, hs⟩ := h
  refine wp_seq ((wp_hear h hs.knows (by rw [hphase]; rfl)).mono ?_)
  intro l s₁ w₁ h₁
  obtain ⟨rfl, v₁, hline, h₁⟩ := h₁
  cases heard_verdict hphase hline with
  | inl hcan =>
      obtain ⟨rfl, rfl⟩ := hcan
      rw [if_pos (by decide)]
      refine wp_seq ((wp_proceed h₁ (hs.phase _ _).knows rfl rfl rfl rfl).mono ?_)
      intro b s₂ w₂ h₂
      obtain ⟨rfl, h₂⟩ := h₂
      cases b with
      | true => exact wp_pure (In.intro h₂ (hs.phase _ _))
      | false => exact wp_pure (In.intro h₂ (hs.phase _ _))
  | inr hcannot =>
      obtain ⟨rfl, rfl⟩ := hcannot
      rw [if_neg (by decide)]
      exact wp_pure (In.intro h₁ (hs.phase _ _))

/-- An index in the hand is a slot. -/
theorem slotIndex_of_nonneg {i : Int} (h : 0 ≤ i) : slotIndex i = i.toNat :=
  if_neg (by omega)

/-- `client_discard`. -/
theorem wp_clientDiscard {r : Nat} (h : In .discarding r s w) :
    wp conv Sane Minds (clientDiscard s) (fun _ s' w' => In .round r s' w') w := by
  obtain ⟨v, hphase, rfl, h, hs⟩ := h
  refine wp_seq ((wp_chooseIndex h hs.knows (by rw [hphase]; rfl)).mono ?_)
  intro i s₁ w₁ h₁
  obtain ⟨rfl, h₁, hi, hi'⟩ := h₁
  rw [← hs.capacity] at hi'
  have hroom := hs.room
  have hline : plain.Says .peer v (decimal i ++ ['\n']) (v.discard i) := by
    refine move (by rw [hphase]; rfl) (whole_decimal hi (by omega))
      (by rw [hphase, read_index hi (by omega)]) (after_index hphase ⟨hi, hi'⟩)
  refine wp_modify_seq ?_
  have hknows : Knows v (s₁.setDiscarded (s₁.player.deck (slotIndex i))) := by
    intro _
    refine ⟨hs.hand, fun hround => ?_⟩
    rw [hphase] at hround
    cases hround
  refine wp_seq ((wp_tell h₁ hknows hline).mono ?_)
  intro _ s₂ w₂ h₂
  obtain ⟨rfl, h₂⟩ := h₂
  refine wp_modify ⟨v.discard i, rfl, rfl, h₂, ?_, ?_, hs.room⟩
  · show (discardTile i s₁.player).bare = discardTile i v.hand
    rw [discardTile_bare, hs.hand]
  · show (s₁.player.deck (slotIndex i)).bare = v.hand.deck i.toNat
    rw [← Player.bare_deck, hs.hand, slotIndex_of_nonneg hi]

/-- Where nobody is to speak, the client waits. -/
theorem wp_hear_mute {Q : Line → Table → World → Prop} (h : At v w) (hs : Knows v s)
    (hphase : v.phase = .ganged) : wp conv Sane Minds (readAndAck s) Q w := by
  have hlisten : talk.Listens .peer (w.state .server) := by
    rw [h.state]
    refine ⟨?_, ?_⟩
    · show v.phase.speaker ≠ some .peer
      rw [hphase]
      nofun
    · show ¬ v.phase = .over
      rw [hphase]
      nofun
  refine wp_seq (wp_call fun _ => ⟨⟨⟨h.there, by decide, fun _ => ⟨by decide, hlisten⟩⟩,
    h.shows hs nofun⟩, fun recvline w₁ h₁ => ?_⟩)
  cases heard_server h₁ with
  | inr hlost =>
      obtain ⟨rfl, rfl⟩ := hlost
      exact wp_exit rfl ⟨h.tiles hs, nofun⟩
  | inl hline =>
      obtain ⟨q, hq, -⟩ := hline
      rw [h.state] at hq
      have hturn : v.phase.speaker = some .hub := hq.turn
      rw [hphase] at hturn
      cases hturn

theorem layCopies_room {k : Nat} {t : Mj} {p : Player} (h : p.normalCapacity ≤ 16) :
    (layCopies k t p).normalCapacity ≤ 16 := by
  rw [layCopies_normalCapacity]
  omega

/-- `client_quiet_gang`. -/
theorem wp_clientQuietGang {r : Nat} (h : In .quietVerdict r s w) :
    wp conv Sane Minds (clientQuietGang s)
      (fun i s' w' => if i = 1 then In .ganged r s' w' else In .discarding r s' w') w := by
  obtain ⟨v, hphase, rfl, h, hs⟩ := h
  refine wp_seq ((wp_hear h hs.knows (by rw [hphase]; rfl)).mono ?_)
  intro l s₁ w₁ h₁
  obtain ⟨rfl, v₁, hline, h₁⟩ := h₁
  cases heard_quietVerdict hphase hline with
  | inl hcan =>
      obtain ⟨rfl, rfl⟩ := hcan
      rw [if_pos (by decide)]
      refine wp_seq ((wp_proceed h₁ (hs.phase _ _).knows rfl rfl rfl rfl).mono ?_)
      intro b s₂ w₂ h₂
      obtain ⟨rfl, h₂⟩ := h₂
      cases b with
      | true =>
          refine wp_modify_seq (wp_modify_seq (wp_pure (In.intro h₂ ⟨?_, rfl, ?_⟩)))
          · show (quietGangTiles s₂.player).bare = quietGangTiles v.hand
            rw [quietGangTiles_bare, hs.hand]
          · exact layCopies_room hs.room
      | false => exact wp_pure (In.intro h₂ (hs.phase _ _))
  | inr hcannot =>
      obtain ⟨rfl, rfl⟩ := hcannot
      rw [if_neg (by decide)]
      exact wp_pure (In.intro h₁ (hs.phase _ _))

/-- A client that has handled a line goes on or leaves the loop, in its
place. -/
def Goes (r : Nat) : Next → Table → World → Prop
  | .continue => In .round r
  | .break => In .setAnswer r
  | .return _ => fun _ _ => False

/-- The tail of a claim. -/
theorem wp_huOrDiscard {r : Nat} (h : In (.verdict false) r s w) :
    wp conv Sane Minds (huOrDiscard s) (Goes r) w := by
  refine wp_seq ((wp_clientIsHu h).mono ?_)
  intro i s₁ w₁ h₁
  split
  next hi =>
    rw [if_pos hi] at h₁
    exact wp_pure h₁
  next hi =>
    rw [if_neg hi] at h₁
    refine wp_seq ((wp_clientDiscard h₁).mono ?_)
    intro _ s₂ w₂ h₂
    exact wp_pure h₂

/-- `"your turn\n"`. Behind a quiet gang the client waits for ever. -/
theorem wp_yourTurn {r : Nat} (h : In (.drawing true) r s w) :
    wp conv Sane Minds (yourTurn s) (Goes r) w := by
  refine wp_seq ((wp_clientDraw h).mono ?_)
  intro _ s₁ w₁ h₁
  refine wp_seq ((wp_clientIsHu h₁).mono ?_)
  intro i s₂ w₂ h₂
  split
  next hi =>
    rw [if_pos hi] at h₂
    exact wp_pure h₂
  next hi =>
    rw [if_neg hi] at h₂
    have hloop : ∀ s w, In .quietVerdict r s w → wp conv Sane Minds (Prog.forever (do
        if (← clientQuietGang) = 1 then do
          clientDraw
          if (← clientIsHu) = 1 then pure (some true) else pure none
        else pure (some false)) s) (fun won s' w' => won = false ∧ In .discarding r s' w') w := by
      intro s w h
      refine wp_forever (In .quietVerdict r) ?_ h
      intro s₃ w₃ h₃
      refine wp_seq ((wp_clientQuietGang h₃).mono ?_)
      intro j s₄ w₄ h₄
      split
      next hj =>
        rw [if_pos hj] at h₄
        obtain ⟨v, hphase, -, h₄, hs₄⟩ := h₄
        exact wp_seq (wp_seq (wp_hear_mute h₄ hs₄.knows hphase))
      next hj =>
        rw [if_neg hj] at h₄
        exact wp_pure ⟨rfl, h₄⟩
    refine wp_seq ((hloop _ _ h₂).mono ?_)
    intro won s₃ w₃ h₃
    obtain ⟨rfl, h₃⟩ := h₃
    refine wp_seq ((wp_clientDiscard h₃).mono ?_)
    intro _ s₄ w₄ h₄
    exact wp_pure h₄

-- ======================================================================== the offers

/-- `"You can pong.\n"`. -/
theorem wp_pongOffer {r : Nat} (h : In (.offered .pong) r s w) :
    wp conv Sane Minds (pongOffer s) (Goes r) w := by
  obtain ⟨v, hphase, rfl, h, hs⟩ := h
  refine wp_seq ((wp_proceed h hs.knows (by rw [hphase]; rfl) (by rw [hphase]; rfl)
    (after_of hphase rfl) (after_of hphase rfl)).mono ?_)
  intro b s₁ w₁ h₁
  obtain ⟨rfl, h₁⟩ := h₁
  cases b with
  | false => exact wp_pure (In.intro h₁ (hs.phase _ _))
  | true =>
      refine wp_get_seq (wp_modify_seq (wp_modify_seq (wp_huOrDiscard (In.intro h₁ ⟨?_, rfl, ?_⟩))))
      · show (pongTiles s₁.discardedMj s₁.player).bare = pongTiles v.table v.hand
        rw [pongTiles_bare, hs.hand, hs.table]
      · exact layCopies_room hs.room

/-- `"You can gang.\n"`. -/
theorem wp_gangOffer {r : Nat} (h : In (.offered .gang) r s w) :
    wp conv Sane Minds (gangOffer s) (Goes r) w := by
  obtain ⟨v, hphase, rfl, h, hs⟩ := h
  refine wp_seq ((wp_proceed h hs.knows (by rw [hphase]; rfl) (by rw [hphase]; rfl)
    (after_of hphase rfl) (after_of hphase rfl)).mono ?_)
  intro b s₁ w₁ h₁
  obtain ⟨rfl, h₁⟩ := h₁
  cases b with
  | false => exact wp_pure (In.intro h₁ (hs.phase _ _))
  | true =>
      have hs₁ : Holding (v.claim .gang)
          ((s₁.update (gangTiles s₁.discardedMj)).clearDiscarded) := by
        refine ⟨?_, rfl, layCopies_room hs.room⟩
        show (gangTiles s₁.discardedMj s₁.player).bare = gangTiles v.table v.hand
        rw [gangTiles_bare, hs.hand, hs.table]
      refine wp_get_seq (wp_modify_seq (wp_modify_seq (wp_seq
        ((wp_clientDraw (In.intro h₁ hs₁)).mono ?_))))
      intro _ s₂ w₂ h₂
      exact wp_huOrDiscard h₂

/-- `"(Hu) "`. -/
theorem wp_huOffer {r : Nat} (h : In (.offered .hu) r s w) :
    wp conv Sane Minds (huOffer s) (Goes r) w := by
  obtain ⟨v, hphase, rfl, h, hs⟩ := h
  refine wp_seq ((wp_proceed h hs.knows (by rw [hphase]; rfl) (by rw [hphase]; rfl)
    (after_of hphase rfl) (after_of hphase rfl)).mono ?_)
  intro b s₁ w₁ h₁
  obtain ⟨rfl, h₁⟩ := h₁
  cases b with
  | false => exact wp_pure (In.intro h₁ (hs.phase _ _))
  | true => exact wp_pure (In.intro h₁ (hs.phase _ _))

/-- What is typed goes out as it is. -/
theorem formatted_typed {expand : Line → Line} {answer : Line} (h : Typed answer) :
    formatted expand answer = answer :=
  if_neg h.2.1

/-- The loop of the eat branch. -/
theorem wp_eatLoop (expand : Line → Line) {r : Nat} (h : In .eating r s w) :
    wp conv Sane Minds (eatLoop expand s) (fun _ s' w' => In (.verdict false) r s' w') w := by
  refine wp_iterate (fun _ s' w' => In .eating r s' w') ?_ h
  intro x s₁ w₁ h₁
  obtain ⟨v, hphase, rfl, h₁, hs⟩ := h₁
  refine wp_seq ((wp_hear h₁ hs.knows (by rw [hphase]; rfl)).mono ?_)
  intro l s₂ w₂ h₂
  obtain ⟨rfl, v₂, hline, h₂⟩ := h₂
  obtain ⟨rfl, rfl⟩ := heard_eating hphase hline
  rw [if_pos (by decide)]
  have hs₂ : Holding { v with phase := .eatAnswer } s₂ := hs.phase _ _
  refine wp_seq ((wp_readAnswer h₂ hs₂.knows rfl).mono ?_)
  intro answer s₃ w₃ h₃
  obtain ⟨rfl, h₃⟩ := h₃
  refine wp_seq (wp_call fun htyped => ⟨⟨h₃.there, h₃.shows hs₂.knows nofun⟩, fun _ w₄ h₄ => ?_⟩)
  obtain rfl : w₄ = w₃ := h₄
  rw [formatted_typed htyped]
  have hpair : plain.Says .peer { v with phase := .eatAnswer } answer
      { v with phase := .eatVerdict (sscanf2 answer) } := move rfl htyped.1 rfl rfl
  refine wp_seq ((wp_tell h₃ hs₂.knows hpair).mono ?_)
  intro _ s₅ w₅ h₅
  obtain ⟨rfl, h₅⟩ := h₅
  have hs₅ : Holding { v with phase := .eatVerdict (sscanf2 answer) } s₅ := hs.phase _ _
  refine wp_seq ((wp_hear h₅ hs₅.knows rfl).mono ?_)
  intro l s₆ w₆ h₆
  obtain ⟨rfl, v₆, hline₆, h₆⟩ := h₆
  cases heard_eatVerdict rfl hline₆ with
  | inl heat =>
      obtain ⟨rfl, i, j, hscan, rfl⟩ := heat
      rw [if_pos (by decide), hscan]
      refine wp_get_seq (wp_modify_seq (wp_pure (In.intro h₆ ⟨?_, hs.table, ?_⟩)))
      · show (eatTiles (eatTemp s₆.player s₆.discardedMj i j) i j s₆.player).bare
          = eatTiles (eatTemp v.hand v.table i j) i j v.hand
        rw [eatTiles_bare, ← eatTemp_bare, hs.hand, hs.table]
      · show v.hand.normalCapacity - 3 ≤ 16
        have hroom := hs.room
        omega
  | inr hinv =>
      obtain ⟨rfl, rfl⟩ := hinv
      rw [if_neg (by decide)]
      exact wp_pure (In.intro h₆ (hs.phase _ _))

/-- `"You can eat.\n"`. -/
theorem wp_eatOffer (expand : Line → Line) {r : Nat} (h : In (.offered .eat) r s w) :
    wp conv Sane Minds (eatOffer expand s) (Goes r) w := by
  obtain ⟨v, hphase, rfl, h, hs⟩ := h
  refine wp_seq ((wp_proceed h hs.knows (by rw [hphase]; rfl) (by rw [hphase]; rfl)
    (after_of hphase rfl) (after_of hphase rfl)).mono ?_)
  intro b s₁ w₁ h₁
  obtain ⟨rfl, h₁⟩ := h₁
  cases b with
  | false => exact wp_pure (In.intro h₁ (hs.phase _ _))
  | true =>
      refine wp_seq ((wp_eatLoop expand (In.intro h₁ (hs.phase _ _))).mono ?_)
      intro _ s₂ w₂ h₂
      exact wp_huOrDiscard h₂

-- ======================================================================= the branches

/-- `strncmp` looks at no more than the first characters. -/
theorem strncmpEq_take {start : Line} {k : Nat} (h : l.take k = start) (hk : start.length = k)
    (lit : Line) {n : Nat} (hn : n ≤ k) : strncmpEq l lit n = strncmpEq start lit n := by
  have hlen : n ≤ l.length := by
    rw [← hk, ← h, List.length_take] at hn
    omega
  have hl : (l ++ ['\x00']).take n = l.take n := List.take_append_of_le_length hlen
  have hstart : (start ++ ['\x00']).take n = start.take n :=
    List.take_append_of_le_length (by omega)
  unfold strncmpEq
  rw [hl, hstart, ← h, List.take_take, Nat.min_eq_left hn]

/-- Lines that differ within their first characters. -/
theorem strncmpEq_false {start : Line} {k : Nat} (h : l.take k = start) (hk : start.length = k)
    (lit : Line) (n : Nat) (hn : k ≤ n ∧ k ≤ lit.length) (hne : start ≠ lit.take k) :
    strncmpEq l lit n = false := by
  have hlen : k ≤ l.length := by
    rw [← hk, ← h, List.length_take]
    omega
  refine beq_eq_false_iff_ne.mpr fun he => hne ?_
  have htake := congrArg (List.take k) he
  rw [List.take_take, List.take_take, Nat.min_eq_left hn.1, List.take_append_of_le_length hlen,
    List.take_append_of_le_length hn.2, h] at htake
  exact htake

variable (expand : Line → Line)

theorem react_announced (h : l.take 18 = str "(Announce) player ") :
    react expand l = pure .continue := by
  rw [react, strncmpEq_take h rfl _ (by decide), strncmpEq_take h rfl _ (by decide),
    strncmpEq_take h rfl _ (by decide)]
  rfl

theorem react_discarded (h : l.take 17 = str "(Discard) Player ") : react expand l
    = (Prog.modify (fun s => { s with discardedMj := scanDiscard l s.discardedMj })
      >>= fun _ => pure .continue) := by
  rw [react, strncmpEq_take h rfl _ (by decide), strncmpEq_take h rfl _ (by decide)]
  rfl

/-- The announcement of the end. -/
theorem react_gameSet (h : l.take 7 = str "(Game) " ∨ l.take 6 = str "(End) ") :
    react expand l = pure .break := by
  -- `"(Announce) "` and the others are told by their first six characters
  have hother : ∀ lit n, 6 ≤ n ∧ 6 ≤ lit.length → (str "(Game) ").take 6 ≠ lit.take 6 →
      str "(End) " ≠ lit.take 6 → strncmpEq l lit n = false := by
    intro lit n hn hgame hend
    cases h with
    | inl h =>
        have h6 : l.take 6 = (str "(Game) ").take 6 := by rw [← h, List.take_take]; rfl
        exact strncmpEq_false h6 rfl lit n hn hgame
    | inr h => exact strncmpEq_false h rfl lit n hn hend
  rw [react, hother (str "your turn\n") 10 (by decide) (by decide) (by decide),
    hother (str "(Discard) ") 6 (by decide) (by decide) (by decide),
    hother (str "(Announce) ") 11 (by decide) (by decide) (by decide),
    hother (str "You can pong.\n") 15 (by decide) (by decide) (by decide),
    hother (str "You can gang.\n") 15 (by decide) (by decide) (by decide),
    hother (str "You can eat.\n") 13 (by decide) (by decide) (by decide),
    hother (str "no one wants it.\n") 17 (by decide) (by decide) (by decide)]
  cases h with
  | inl h =>
      rw [strncmpEq_take h rfl (str "(Game) ") (by decide)]
      rfl
  | inr h =>
      rw [strncmpEq_false h rfl (str "(Game) ") 7 (by decide) (by decide),
        strncmpEq_take h rfl (str "(Hu) ") (by decide),
        strncmpEq_take h rfl (str "(End) ") (by decide)]
      rfl

/-- The branches of `game`, at a line that may come. -/
theorem wp_react (h : At v' w) (hs : Holding v s) (hmove : RoundMove v l v') :
    wp conv Sane Minds (react expand l s) (Goes v.round) w := by
  cases hmove with
  | yourTurn => exact wp_yourTurn (In.intro h (hs.phase _ _))
  | noOneWantsIt =>
      refine wp_modify_seq (wp_pure (In.intro h ⟨?_, hs.table, hs.room⟩))
      show (s.player.pushSea s.discardedMj).bare = v.hand.pushSea v.table
      rw [Player.bare_pushSea, hs.hand, hs.table]
  | offer c =>
      have hin := In.intro h (hs.phase v.round (.offered c))
      cases c with
      | hu => exact wp_huOffer hin
      | gang => exact wp_gangOffer hin
      | pong => exact wp_pongOffer hin
      | eat => exact wp_eatOffer expand hin
  | announced hl =>
      rw [react_announced expand hl]
      exact wp_pure (In.intro h (hs.phase _ _))
  | gameSet hl =>
      rw [react_gameSet expand hl]
      exact wp_pure (In.intro h (hs.phase _ _))
  | @discarded _ p m hm hl =>
      obtain ⟨l', hl', -, hhead, -⟩ := broadcast (p := p) hm
      obtain rfl : l = l' := Option.some.inj (hl.symm.trans hl')
      rw [react_discarded expand hhead]
      refine wp_modify_seq (wp_pure (In.intro h ⟨hs.hand, ?_, hs.room⟩))
      show (scanDiscard l s.discardedMj).bare = m.bare
      rw [scanDiscard_discardLine hm hl]
      rfl

omit expand in
theorem In.listens {r : Nat} (h : In .round r s w) : talk.Listens .peer (w.state .server) := by
  obtain ⟨v, hphase, -, h, -⟩ := h
  rw [h.state]
  refine ⟨?_, ?_⟩
  · show v.phase.speaker ≠ some .peer
    rw [hphase]
    nofun
  · show ¬ v.phase = .over
    rw [hphase]
    nofun

omit expand in
theorem In.minds {r : Nat} {phase : Phase} {o : COp} (h : In phase r s w)
    (ho : ∀ fds, o ≠ .select fds) : Shows o s w := by
  obtain ⟨v, -, -, h, hs⟩ := h
  exact h.shows hs.knows ho

omit expand in
theorem In.sleeps {r : Nat} (h : In .round r s w) (o : COp) : Shows o s w := by
  obtain ⟨v, hphase, -, h, hs⟩ := h
  exact ⟨h.tiles hs.knows, fun _ _ => ⟨v, h.state, hphase⟩⟩

omit expand in
theorem In.there {r : Nat} {phase : Phase} (h : In phase r s w) : w.lost = false := by
  obtain ⟨v, -, -, h, -⟩ := h
  exact h.there

omit expand in
theorem In.left {r : Nat} {phase : Phase} (h : In phase r s w) (b : Bool) :
    In phase r s { w with left := b } := by
  obtain ⟨v, hphase, hround, h, hs⟩ := h
  exact ⟨v, hphase, hround, h.left b, hs⟩

/-- The loop of `game`. -/
theorem wp_lines {r : Nat} (h : In .round r s w) :
    wp conv Sane Minds (lines expand s) (fun a s' w' => a = none ∧ In .setAnswer r s' w') w := by
  refine wp_forever (In .round r) ?_ h
  intro s₁ w₁ h₁
  refine wp_seq (wp_call fun _ => ⟨⟨⟨h₁.there, nofun, fun fd _ hfd => ?_⟩, h₁.sleeps _⟩,
    fun testset w₂ h₂ => ?_⟩)
  · obtain rfl : fd = .server := of_decide_eq_true hfd
    exact h₁.listens
  obtain rfl : w₂ = w₁ := h₂
  -- what is typed here changes nothing
  have hrest : ∀ w, In .round r s₁ w → wp conv Sane Minds ((if testset .server then do
        let recvline ← readAndAck
        match ← react expand recvline with
        | .continue => pure none
        | .break => pure (some none)
        | .return r => pure (some (some r))
      else pure none : Client (Option (Option Int))) s₁)
      (fun a s' w' => match a with
        | none => In .round r s' w'
        | some c => c = none ∧ In .setAnswer r s' w') w := by
    intro w h
    split
    · obtain ⟨v, hphase, rfl, h, hs⟩ := h
      refine wp_seq ((wp_hear h hs.knows (by rw [hphase]; rfl)).mono ?_)
      intro l s₃ w₃ h₃
      obtain ⟨rfl, v', hline, h₃⟩ := h₃
      refine wp_seq ((wp_react expand h₃ hs (heard_round hphase hline)).mono ?_)
      intro next s₄ w₄ h₄
      cases next with
      | «continue» => exact wp_pure h₄
      | «break» => exact wp_pure ⟨rfl, h₄⟩
      | «return» a => exact h₄.elim
    · exact wp_pure h
  split
  · refine wp_seq (wp_call fun _ => ⟨⟨⟨h₁.there, by decide, nofun⟩, h₁.minds nofun⟩,
      fun garbage w₃ h₃ => ?_⟩)
    obtain rfl := heard_user h₃
    refine (hrest _ (h₁.left _)).mono fun a s' w' ha => ?_
    cases a <;> exact ha
  · refine (hrest _ h₁).mono fun a s' w' ha => ?_
    cases a <;> exact ha

-- ======================================================================== the rounds

omit expand in
/-- No number stands where `"transfer complete\n"` does. -/
theorem not_transfer {n : Int} (h : sscanf1 l = some n) :
    strncmpEq l (str "transfer complete\n") 18 = false := by
  refine beq_eq_false_iff_ne.mpr fun he => ?_
  cases l with
  | nil => exact absurd he (by decide)
  | cons c l =>
      have hc : c = 't' := (List.cons.inj he).1
      subst hc
      simp [sscanf1, scanInt, scanNat, isSpace] at h

omit expand in
/-- `get_decks`. -/
theorem wp_getDecks {r : Nat} (h : In (.dealing 0) r s w) :
    wp conv Sane Minds (getDecks s) (fun _ s' w' => In .round r s' w') w := by
  refine wp_seq (wp_call fun _ => ⟨⟨h.there, h.minds nofun⟩, fun t₀ w₁ h₁ => ?_⟩)
  obtain rfl : w₁ = w := h₁
  refine wp_seq (wp_call fun _ => ⟨⟨h.there, h.minds nofun⟩, fun n₀ w₂ h₂ => ?_⟩)
  obtain rfl : w₂ = w₁ := h₂
  have hstart : In (if 0 < 16 then .dealing 0 else .flowers) r s w₂ := h
  refine wp_seq ((wp_foldlM_range (fun i _ s' w' =>
    In (if i < 16 then .dealing i else .flowers) r s' w') ?_ hstart).mono ?_)
  · intro i x s₁ w₁ hi h₁
    rw [if_pos hi] at h₁
    obtain ⟨v, hphase, rfl, h₁, hs⟩ := h₁
    refine wp_seq ((wp_hear h₁ hs.knows (by rw [hphase]; rfl)).mono ?_)
    intro l s₂ w₂ h₂
    obtain ⟨rfl, v', hline, h₂⟩ := h₂
    obtain ⟨t, n, hscan, rfl⟩ := heard_dealing hphase hline
    rw [hscan]
    refine wp_modify_seq (wp_pure (In.intro h₂ ⟨?_, hs.table, hs.room⟩))
    show (putTile i t n s₂.player).bare = putTile i t n v.hand
    rw [putTile_bare, hs.hand]
  · intro x s₁ w₁ h₁
    have hflowers : In .flowers r s₁ w₁ := h₁
    refine wp_iterate (fun _ s' w' => In .flowers r s' w') ?_ hflowers
    intro n s₂ w₂ h₂
    obtain ⟨v, hphase, rfl, h₂, hs⟩ := h₂
    refine wp_seq ((wp_hear h₂ hs.knows (by rw [hphase]; rfl)).mono ?_)
    intro l s₃ w₃ h₃
    obtain ⟨rfl, v', hline, h₃⟩ := h₃
    cases heard_flowers hphase hline with
    | inl hend =>
        obtain ⟨rfl, rfl⟩ := hend
        rw [if_pos (by decide)]
        exact wp_pure (In.intro h₃ (hs.phase _ _))
    | inr hflower =>
        obtain ⟨-, i, hscan, rfl⟩ := hflower
        rw [not_transfer hscan, if_neg (by decide), hscan]
        refine wp_modify_seq (wp_pure (In.intro h₃ ⟨?_, hs.table, hs.room⟩))
        show (putFlower i s₃.player).bare = putFlower i v.hand
        rw [putFlower_bare, hs.hand]

/-- Where the client is between two rounds: before the deal of the next,
or at the end. -/
def Between (n : Nat) (w : World) : Prop :=
  (n < 4 ∧ ∃ v, At v w ∧ v.phase = .dealing 0 ∧ v.round = n ∧ v.hand = Player.gameinfoInit
      ∧ v.table = Mj.null)
    ∨ (¬ n < 4 ∧ ∃ v, At v w ∧ v.phase = .over)

omit expand in
/-- `client_game_set`. -/
theorem wp_clientGameSet {r : Nat} (h : In .setAnswer r s w) (hr : r < 4) :
    wp conv Sane Minds (clientGameSet s) (fun a _ w' => if a = 1 then Between (r + 1) w'
      else ∃ v, At v w' ∧ v.phase = .over) w := by
  obtain ⟨v, hphase, rfl, h, hs⟩ := h
  refine wp_seq ((wp_proceed h hs.knows (by rw [hphase]; rfl) (by rw [hphase]; rfl)
    (after_of hphase rfl) (after_of hphase rfl)).mono ?_)
  intro b s₁ w₁ h₁
  obtain ⟨rfl, h₁⟩ := h₁
  have hask : At { v with phase := .setVerdict } w₁ := by cases b <;> exact h₁
  refine wp_seq ((wp_hear hask (hs.phase _ _).knows rfl).mono ?_)
  intro l s₂ w₂ h₂
  obtain ⟨rfl, v₂, hline, h₂⟩ := h₂
  cases heard_setVerdict rfl hline with
  | inl hstart =>
      obtain ⟨rfl, rfl⟩ := hstart
      rw [if_pos (by decide)]
      refine wp_pure ?_
      rw [if_pos rfl]
      by_cases hlast : v.round + 1 < 4
      · rw [if_pos hlast] at h₂
        exact Or.inl ⟨hlast, _, h₂, rfl, rfl, rfl, rfl⟩
      · rw [if_neg hlast] at h₂
        exact Or.inr ⟨hlast, _, h₂, rfl⟩
  | inr hno =>
      obtain ⟨rfl, rfl⟩ := hno
      rw [if_neg (by decide)]
      exact wp_pure ⟨_, h₂, rfl⟩

/-- `game` of the client keeps to the conversation. -/
theorem game_obeys (expand : Line → Line) (h : At v w) (hphase : v.phase = .greeting)
    (hround : v.round = 0) : talk.Obeys .peer talks Sane Shows (game expand s) w := by
  have hover : ∀ {w : World}, (∃ v, At v w ∧ v.phase = .over) →
      ∀ fd, talks fd = true → talk.Final (w.state fd) := by
    intro w h fd hfd
    obtain ⟨v, h, hover⟩ := h
    obtain rfl : fd = .server := of_decide_eq_true hfd
    rw [h.state]
    exact hover
  have hknows : Knows v s := fun hno => absurd hphase hno
  refine wp_seq (wp_seq ((wp_hear h hknows (by rw [hphase]; rfl)).mono ?_))
  intro l s₁ w₁ h₁
  obtain ⟨rfl, v₁, hline, h₁⟩ := h₁
  obtain rfl := heard_greeting hphase hline
  refine wp_modify (wp_iterate (fun n _ w' => Between n w') ?_
    (Or.inl ⟨by decide, v.deal, h₁, rfl, hround, rfl, rfl⟩))
  intro n s₂ w₂ h₂
  cases h₂ with
  | inr hend =>
      rw [if_neg hend.1]
      exact wp_pure (hover hend.2)
  | inl hgo =>
      obtain ⟨hn, v₂, h₂, hdeal, rfl, hhand, htable⟩ := hgo
      rw [if_pos hn]
      have hs : Holding v₂ s₂.gameInit := by
        refine ⟨?_, ?_, ?_⟩
        · rw [hhand]
          exact Player.bare_gameinfoInit
        · rw [htable]
          rfl
        · rw [hhand]
          decide
      refine wp_modify_seq (wp_seq ((wp_getDecks ⟨v₂, hdeal, rfl, h₂, hs⟩).mono ?_))
      intro _ s₃ w₃ h₃
      refine wp_seq ((wp_lines expand h₃).mono ?_)
      intro a s₄ w₄ h₄
      obtain ⟨rfl, h₄⟩ := h₄
      refine wp_seq ((wp_clientGameSet h₄ hn).mono ?_)
      intro b s₅ w₅ h₅
      split
      next hb =>
        rw [if_pos hb] at h₅
        exact wp_pure h₅
      next hb =>
        rw [if_neg hb] at h₅
        exact wp_pure (hover h₅)

end Mahjong.Client
