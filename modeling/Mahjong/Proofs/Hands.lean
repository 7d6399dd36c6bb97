/-
What the server has of a player's tiles and what the client has.

The hand is sent once, at the deal. From then on both programs play every
draw, claim and discard on arrays of their own, in two different pieces of
C. That the arrays stay the same follows from the conversation: both are
the view of the player (`Fits` of the server, `Shows` of the client), and
the two views are one where the client has read what was sent to it
(`Accord.faces`, `Accord.shows`).
-/
import Mahjong.Proofs.Together

namespace Mahjong.Talk

open Process CString
open Server

variable {G : Prop} {wall : Nat → Wall} {expand : Line → Line} {s₀ s : Game}
  {t₀ : Seat → Client.Table} {J : Five} {W : Floor} {V : Seat → Client.World}
  {es : List (Event Seat Client.Fd Note Client.Note Game Client.Table)} {p : Seat} {l : Line}

-- ===================================================================== the lines

/-- A line to a player that is no acknowledgement and no part of a deal or
a draw. -/
def Prompt (l : Line) : Prop :=
  l ≠ str "ACK\n" ∧ l ≠ str "transfer complete\n" ∧ sscanf1 l = none

instance (l : Line) : Decidable (Prompt l) := inferInstanceAs (Decidable (_ ∧ _ ∧ _))

theorem sscanf1_of_sscanf2 {t n : Int} (h : sscanf2 l = (some t, some n)) : sscanf1 l ≠ none := by
  intro hnone
  have hscan : scanInt l = none := Option.map_eq_none_iff.mp hnone
  rw [sscanf2, hscan] at h
  cases h

theorem sscanf1_id : ∀ p : Seat, sscanf1 (decimal (p.val : Int) ++ str "-th\n") ≠ none := by
  decide +kernel

/-- A prompt is said in a phase in which the tiles are the player's. -/
theorem Prompt.settled {v v' : View} (hl : Prompt l) (h : plain.Says .hub v l v') :
    v.phase.settled = true := by
  obtain ⟨-, hcomplete, hnumber⟩ := hl
  cases hphase : v.phase with
  | greeting =>
      obtain ⟨m, hread, -⟩ := said hphase h
      obtain ⟨p, -, hp⟩ := List.exists_of_findSome?_eq_some hread
      split at hp
      next hid =>
        rw [hid] at hnumber
        exact absurd hnumber (sscanf1_id p)
      next => cases hp
  | dealing i =>
      obtain ⟨t, n, hscan, -⟩ := heard_dealing hphase h
      exact absurd hnumber (sscanf1_of_sscanf2 hscan)
  | flowers =>
      cases heard_flowers hphase h with
      | inl hdone => exact absurd hdone.1 hcomplete
      | inr hflower =>
          obtain ⟨-, n, hscan, -⟩ := hflower
          rw [hscan] at hnumber
          cases hnumber
  | drawing own =>
      obtain ⟨t, n, hscan, -⟩ := heard_drawing hphase h
      exact absurd hnumber (sscanf1_of_sscanf2 hscan)
  | _ => rfl

theorem Offers.prompt (hl : Offers l) : Prompt l := by
  cases hl with
  | inl he =>
      subst he
      decide
  | inr he =>
      obtain ⟨c, he⟩ := he
      subst he
      cases c <;> decide

/-- A broadcast is no number. -/
theorem prompt_broadcast (hl : l.take 17 = str "(Discard) Player ") : Prompt l := by
  obtain ⟨r, rfl⟩ : ∃ r, l = str "(Discard) Player " ++ r :=
    ⟨l.drop 17, by rw [← hl, List.take_append_drop]⟩
  refine ⟨?_, ?_, rfl⟩
  · exact fun he => nomatch congrArg List.head? he
  · exact fun he => nomatch congrArg List.head? he

/-- A line about the tile on the table is said between two turns. -/
theorem round_of_concerned {v v' : View} (hprompt : Prompt l) (hl : unconcerned l = false)
    (h : plain.Says .hub v l v') : v.phase = .round := by
  have hturn : v.phase.speaker = some .hub := h.turn
  have hsettled := hprompt.settled h
  have hother : ∀ l', unconcerned l' = true → l ≠ l' := fun l' hl' he => by
    rw [← he, hl] at hl'
    cases hl'
  cases hphase : v.phase with
  | round => rfl
  | verdict own =>
      cases heard_verdict hphase h with
      | inl hcan => exact absurd hcan.1 (hother _ (by decide))
      | inr hcannot => exact absurd hcannot.1 (hother _ (by decide))
  | quietVerdict =>
      cases heard_quietVerdict hphase h with
      | inl hcan => exact absurd hcan.1 (hother _ (by decide))
      | inr hcannot => exact absurd hcannot.1 (hother _ (by decide))
  | eating => exact absurd (heard_eating hphase h).1 (hother _ (by decide))
  | eatVerdict answer =>
      cases heard_eatVerdict hphase h with
      | inl heat => exact absurd heat.1 (hother _ (by decide))
      | inr hinvalid => exact absurd hinvalid.1 (hother _ (by decide))
  | setVerdict =>
      cases heard_setVerdict hphase h with
      | inl hstart => exact absurd hstart.1 (hother _ (by decide))
      | inr hno => exact absurd hno.1 (hother _ (by decide))
  | greeting | dealing | flowers | drawing =>
      rw [hphase] at hsettled
      cases hsettled
  | _ =>
      rw [hphase] at hturn
      cases hturn

theorem Offers.concerned (hl : Offers l) : unconcerned l = false := by
  rw [Bool.eq_false_iff]
  exact fun h => not_offers h hl

theorem concerned_broadcast (hl : l.take 17 = str "(Discard) Player ") :
    unconcerned l = false := by
  rw [Bool.eq_false_iff]
  intro h
  simp only [unconcerned, Bool.and_eq_true, bne_iff_ne] at h
  exact h.1.1 hl

/-- The server says nothing that reads like an acknowledgement. -/
theorem not_says_ack {v v' : View} : ¬ plain.Says .hub v (str "ACK\n") v' := by
  intro h
  have hturn : v.phase.speaker = some .hub := h.turn
  obtain ⟨m, hread, -⟩ := said rfl h
  have hnone : ∀ phase : Phase, phase.speaker = some .hub → phase.read (str "ACK\n") = none := by
    intro phase hphase
    cases phase with
    | round =>
        show roundOf _ = none
        decide +kernel
    | greeting => decide +kernel
    | dealing | flowers | drawing | verdict | quietVerdict | eating | eatVerdict | setVerdict =>
        rfl
    | _ => cases hphase
  rw [hnone _ hturn] at hread
  cases hread

-- ==================================================================== what is faced

/-- The server is about to prompt a player, or to read an answer. -/
inductive Faces (p : Seat) : Proc SOp IoOp.Res Game Unit → Game → Prop
  | prompt {l : Line} {s : Game} {k : Unit → Proc SOp IoOp.Res Game Unit} (hl : Prompt l) :
      Faces p (.op (.write p l) s k) s
  | answer {s : Game} {f : Line → Game → Proc SOp IoOp.Res Game Unit} :
      Faces p ((readAndAck p s).bind f) s

/-- Where a prompt is said it is the server's turn. -/
theorem Prompt.turn {v : talk.State} {q : talk.State} (hl : Prompt l) (h : talk.Says .hub v l q) :
    ∃ u u', v = .turn u ∧ plain.Says .hub u l u' := by
  cases v with
  | turn u =>
      obtain ⟨u', hline, -⟩ := Protocol.acked_says_turn.mp h
      exact ⟨u, u', rfl, hline⟩
  | owes side u u' => exact absurd ((Protocol.acked_says_owes whole_ack).mp h).2.1 hl.1

/-- Where an answer is read it is the player's turn, or nobody's. -/
theorem answer_turn {f : Line → Game → Proc SOp IoOp.Res Game Unit}
    (h : talk.Obeys .hub (fun _ => true) (Proper G) (Fits G) ((readAndAck p s).bind f) W) :
    ∃ v, W.state p = .turn v ∧ v.phase.settled = true := by
  obtain ⟨⟨-, -, hlistens⟩, -⟩ := h.op (o := .readline p maxline) trivial
  obtain ⟨-, hturn, hmore⟩ := hlistens rfl
  cases hstate : W.state p with
  | turn v =>
      rw [hstate] at hturn hmore
      have hturn : v.phase.speaker ≠ some .hub := hturn
      refine ⟨v, rfl, ?_⟩
      cases hphase : v.phase with
      | greeting | dealing | flowers | drawing =>
          rw [hphase] at hturn
          exact absurd rfl hturn
      | _ => rfl
  | owes side v v' =>
      rw [hstate] at hturn
      cases side with
      | hub => exact absurd rfl hturn
      | peer =>
          -- an acknowledgement would be acknowledged
          have hack : talk.Says .peer (W.state p) (str "ACK\n") (.turn v') := by
            rw [hstate]
            exact (Protocol.acked_says_owes whole_ack).mpr ⟨rfl, rfl, rfl⟩
          have hheard : talk.Heard (ε := Note) .hub (fun _ => true) W (.readline p maxline)
              (str "ACK\n") (W.to p (.turn v')) := Or.inl ⟨_, hack, rfl⟩
          have hnext := h.reply trivial hheard
          obtain ⟨⟨-, -, q, hsaid⟩, -⟩ := hnext.op (o := .write p (str "ACK\n")) trivial
          have hself : (W.to p (.turn v')).state p = .turn v' := W.to_state_self ..
          rw [hself] at hsaid
          obtain ⟨v'', hsaid, -⟩ := Protocol.acked_says_turn.mp hsaid
          exact absurd hsaid not_says_ack

/-- What the server faces a player with: the hand is that of the view. -/
theorem Accord.faces (h : Accord G J W V) (hfaces : Faces p J.hub s) :
    ∃ v, W.state p = .turn v ∧ v.phase.settled = true ∧ (s.players p).bare = v.hand := by
  obtain ⟨v, hstate, hsettled, hagrees⟩ : ∃ v, W.state p = .turn v ∧ v.phase.settled = true
      ∧ Agrees s W := by
    have hobeys := h.hub
    generalize J.hub = S at hfaces hobeys
    cases hfaces with
    | prompt hl =>
        obtain ⟨⟨-, -, q, hsaid⟩, -, hagrees, -⟩ := hobeys.op trivial
        obtain ⟨v, v', hstate, hline⟩ := hl.turn hsaid
        exact ⟨v, hstate, hl.settled hline, hagrees⟩
    | answer =>
        obtain ⟨v, hstate, hsettled⟩ := answer_turn hobeys
        exact ⟨v, hstate, hsettled, (hobeys.op (o := .readline p maxline) trivial).2.2⟩
  have hheld : (W.state p).held = v := by
    rw [hstate]
    rfl
  have hhand := hagrees p
  rw [hheld] at hhand
  exact ⟨v, hstate, hsettled, hhand hsettled⟩

/-- A client at an operation that has read all that was sent to it shows
the view of the server. -/
theorem Accord.shows {o : Client.COp} {t : Client.Table}
    {k : o.Res → Proc Client.COp IoOp.Res Client.Table Int} {v : View} (h : Accord G J W V)
    (hpeer : J.peer p = .op o t k) (ho : ∀ e, o ≠ .note e)
    (hread : '\n' ∉ (J.peerWire p).ahead .server) (hstate : W.state p = .turn v)
    (hphase : v.phase ≠ .greeting) :
    t.player.bare = v.hand ∧ (v.phase = .round → t.discardedMj.bare = v.table) := by
  have hchannel := h.channel p
  rw [hstate] at hchannel
  have hheld := hchannel.held hread
  have hobeys := h.peer p
  rw [hpeer] at hobeys
  have hshows := (hobeys.op (sane_atMarks p _ _ ho)).2.tiles
  rw [hheld] at hshows
  exact hshows hphase

/-- What a line says of the tile on the table is so. -/
theorem Accord.tells {k : Unit → Proc SOp IoOp.Res Game Unit} {v : View} (h : Accord G J W V)
    (hhub : J.hub = .op (.write p l) s k) (hstate : W.state p = .turn v) (hprompt : Prompt l)
    (hl : Offers l ∨ (discardOf l).isSome = true) (hconcerned : unconcerned l = false) :
    v.phase = .round ∧ s.discardedMj.bare = shown v l := by
  have hobeys := h.hub
  rw [hhub] at hobeys
  obtain ⟨⟨-, -, q, hsaid⟩, -, -, htable⟩ := hobeys.op trivial
  obtain ⟨u, u', hturn, hline⟩ := hprompt.turn hsaid
  obtain rfl : v = u := by
    rw [hstate] at hturn
    cases hturn
    rfl
  have hround := round_of_concerned hprompt hconcerned hline
  have hheld : (W.state p).held = v := by
    rw [hstate]
    rfl
  rw [hheld] at htable
  exact ⟨hround, htable ⟨hround, hl⟩⟩

-- ==================================================================== the hands

/-- Both sides hold the same tiles: whenever the server is about to prompt a
player or to read an answer, and the client has read all that was sent to it
and come to its next operation, the player's hand, door, flowers, sea and
capacity are the same on both sides; so is the tile on the table if it is
offered, and every broadcast is read as the tile that was discarded. -/
theorem same_hand {o : Client.COp} {t : Client.Table}
    {k : o.Res → Proc Client.COp IoOp.Res Client.Table Int}
    (h : Plays True (opening wall expand s₀ t₀) es J) (hfaces : Faces p J.hub s)
    (hpeer : J.peer p = .op o t k) (ho : ∀ e, o ≠ .note e)
    (hread : '\n' ∉ (J.peerWire p).ahead .server) :
    (s.players p).bare = t.player.bare
      ∧ ∀ l k, J.hub = .op (.write p l) s k →
        (Offers l → s.discardedMj.bare = t.discardedMj.bare)
        ∧ (l.take 17 = str "(Discard) Player " →
          ∀ m, (Client.scanDiscard l m).bare = s.discardedMj.bare) := by
  obtain ⟨W, V, h⟩ := h.accord
  obtain ⟨v, hstate, hsettled, hhand⟩ := h.faces hfaces
  have hphase : v.phase ≠ .greeting := by
    intro hphase
    rw [hphase] at hsettled
    cases hsettled
  obtain ⟨hhand', htable⟩ := h.shows hpeer ho hread hstate hphase
  refine ⟨hhand.trans hhand'.symm, fun l k hhub => ⟨fun hl => ?_, fun hl m => ?_⟩⟩
  · obtain ⟨hround, hshown⟩ := h.tells hhub hstate hl.prompt (Or.inl hl) hl.concerned
    exact (hshown.trans (hl.shown v)).trans (htable hround).symm
  · have hobeys := h.hub
    rw [hhub] at hobeys
    obtain ⟨⟨-, -, q, hsaid⟩, -⟩ := hobeys.op trivial
    obtain ⟨u, u', hturn, hline⟩ := (prompt_broadcast hl).turn hsaid
    have hround := round_of_concerned (prompt_broadcast hl) (concerned_broadcast hl) hline
    obtain ⟨x, hx, -⟩ := said hround hline
    have hx : roundOf l = some x := hx
    rw [roundOf_broadcast hl] at hx
    obtain ⟨m', hm', -⟩ := Option.map_eq_some_iff.mp hx
    have hsome : (discardOf l).isSome = true := by
      rw [hm']
      rfl
    obtain ⟨-, hshown⟩ := h.tells hhub hstate (prompt_broadcast hl) (Or.inr hsome)
      (concerned_broadcast hl)
    have htile : s.discardedMj.bare = m' :=
      hshown.trans (by show (discardOf l).getD v.table = m'; rw [hm']; rfl)
    obtain ⟨hreal, hprio, d, hd⟩ := discardOf_some hm'
    rw [htile, scanDiscard_discardLine hreal hd]
    show ({ m with type := m'.type, number := m'.number, priority := 0 } : Mj) = m'
    rw [← hprio]

/-- Where no one wants the first discard of player 0. -/
theorem same_hand_quadTable : ∃ es J s o t k, ∃ k' : o.Res → Proc Client.COp IoOp.Res Client.Table Int,
    Plays True quadTable es J ∧ J.hub = .op (.write 0 (str "no one wants it.\n")) s k
    ∧ J.peer 0 = .op o t k' ∧ (s.players 0).bare = t.player.bare
    ∧ s.discardedMj.bare = t.discardedMj.bare := by
  obtain ⟨es, J, i, s, s', k, hrun, -, hproc, hquiet, -⟩ := discard_unwanted
  obtain ⟨o, t, k', hpeer, ho, -, hdown⟩ := quietWith_op hquiet
  have hrun : Plays True quadTable es J := hrun.lax
  have hfaces : Faces 0 J.hub s' := by
    rw [hproc]
    exact .prompt (by decide)
  obtain ⟨hhand, hlines⟩ := same_hand hrun hfaces hpeer ho hdown
  exact ⟨es, J, s', o, t, k, k', hrun, hproc, hpeer, hhand, (hlines _ _ hproc).1 (Or.inl rfl)⟩

/-- Player 0 draws an 8 WAN, of which player 1 has two. -/
def pongWall : Wall where
  tiles := stacked (arranged (fun p => if p = 1 then closing else scattered) [(3, 8)])
  perm := by decide +kernel

def pongTable : Five :=
  opening (fun _ => pongWall) (fun l => l) (Game.init [])
    fun _ => ⟨0, Player.gameinfoInit, Mj.null⟩

/-- Player 0 discards the tile, and player 1 pongs it. -/
def pongPlayed : Relay Seat Client.Fd Note Client.Note Game Client.Table Unit Int where
  joint := pongTable
  typing p := if p = 0 then [.number 16] else if p = 1 then [.line (str "Y\n")] else []

/-- Player 1 says yes. -/
def yesMark : Event Seat Client.Fd Note Client.Note Game Client.Table → Bool
  | .peer p (some (.write .server l, _)) => decide (p = 1 ∧ l = str "YES!\n")
  | _ => false

/-- The server is about to say whether player 1 wins, and has three tiles less
of the hand than the client. -/
def apart (J : Five) : Bool :=
  match J.hub, J.peer 1 with
  | .op (.write p l) s _, .op o t _ =>
      decide (p = 1 ∧ l = str "cannot hu\n") && plainly o
        && decide ((s.players 1).normalCapacity ≠ t.player.normalCapacity)
  | _, _ => false

/-- Before the client has read what was sent to it the hands may differ: the
server lays player 1's tiles down and goes on while the client has yet to
read that its answer has come. -/
theorem hands_apart : ¬ ∀ (es : List (Event Seat Client.Fd Note Client.Note Game Client.Table))
    (J : Five) (p : Seat) (s : Game) (o : Client.COp) (t : Client.Table)
    (k : o.Res → Proc Client.COp IoOp.Res Client.Table Int), Plays False pongTable es J →
    Faces p J.hub s → J.peer p = .op o t k → (∀ e, o ≠ .note e) →
    (s.players p).bare = t.player.bare := by
  have hplay : pongPlayed.play Client.Fd.server [0, 1, 2, 3] [0, 2, 3] (fineStep false) yesMark
      apart 900 false = true := by
    decide +kernel
  obtain ⟨es, J, hrun, hgoal, -⟩ := found (G := False) Bool.false_ne_true hplay
  unfold apart at hgoal
  split at hgoal
  next p l s k o t k' hhub hpeer =>
    simp only [Bool.and_eq_true, decide_eq_true_eq] at hgoal
    obtain ⟨⟨⟨rfl, rfl⟩, ho⟩, hne⟩ := hgoal
    intro h
    have hfaces : Faces 1 J.hub s := by
      rw [hhub]
      exact .prompt (by decide)
    have hsame := h es J 1 s o t k' hrun hfaces hpeer fun e he => by
      rw [he] at ho
      cases ho
    have hcap : (s.players 1).bare.normalCapacity = t.player.bare.normalCapacity := by rw [hsame]
    exact hne hcap
  next => cases hgoal

/-- Every discard of a client is of its hand. -/
theorem discards_of_hand {i : Int} (h : Plays True (opening wall expand s₀ t₀) es J)
    (hdiscard : .hub (some (.note (.discard p i), s)) ∈ es) :
    0 ≤ i ∧ i ≤ (s.players p).normalCapacity := by
  obtain ⟨newer, older, hes⟩ := List.append_of_mem hdiscard
  subst hes
  obtain ⟨W₁, -, -, -, -, -, hfits, -⟩ :=
    h.shows (proper_atMarks True) sane_atMarks (opening_accord True wall expand s₀ t₀)
  exact hfits.2.1

theorem discards_of_hand_quadTable : ∃ es J i s, Plays True quadTable es J
    ∧ .hub (some (.note (.discard 0 i), s)) ∈ es ∧ 0 ≤ i ∧ i ≤ (s.players 0).normalCapacity := by
  obtain ⟨es, J, i, s, s', k, hrun, hdiscard, -⟩ := discard_unwanted
  have hrun : Plays True quadTable es J := hrun.lax
  exact ⟨es, J, i, s, hrun, hdiscard, discards_of_hand hrun hdiscard⟩

/-- The tile the server takes for a discard is the one the client has put
on the table. -/
theorem same_discard {i : Int} {k : Unit → Proc SOp IoOp.Res Game Unit} {o : Client.COp}
    {t : Client.Table} {k' : o.Res → Proc Client.COp IoOp.Res Client.Table Int}
    (h : Plays True (opening wall expand s₀ t₀) es J)
    (hhub : J.hub = .op (.note (.discard p i)) s k) (hpeer : J.peer p = .op o t k')
    (ho : ∀ e, o ≠ .note e) (hread : '\n' ∉ (J.peerWire p).ahead .server) :
    ((s.players p).deck (slotIndex i)).bare = t.discardedMj.bare := by
  obtain ⟨W, V, h⟩ := h.accord
  have hobeys := h.hub
  rw [hhub] at hobeys
  obtain ⟨-, -, -, v, hstate, hround, htile⟩ := hobeys.op trivial
  have hphase : v.phase ≠ .greeting := by
    rw [hround]
    nofun
  exact htile.trans ((h.shows hpeer ho hread hstate hphase).2 hround).symm

theorem same_discard_quadTable : ∃ es J i s o t k,
    ∃ k' : o.Res → Proc Client.COp IoOp.Res Client.Table Int, Plays True quadTable es J
    ∧ J.hub = .op (.note (.discard 0 i)) s k ∧ J.peer 0 = .op o t k'
    ∧ ((s.players 0).deck (slotIndex i)).bare = t.discardedMj.bare := by
  obtain ⟨es, J, i, s, k, hrun, hproc, hquiet⟩ := discard_taken
  obtain ⟨o, t, k', hpeer, ho, -, hdown⟩ := quietWith_op hquiet
  have hrun : Plays True quadTable es J := hrun.lax
  exact ⟨es, J, i, s, o, t, k, k', hrun, hproc, hpeer, same_discard hrun hproc hpeer ho hdown⟩

end Mahjong.Talk