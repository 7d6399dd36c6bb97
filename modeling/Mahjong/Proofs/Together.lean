/-
The server and its four clients, run together.

`opening` is the table before the first line: five processes and nothing
on the wires. `Plays` are its runs: any order of the steps of the five and
of what the users do, while what is assumed of every process alone holds,
`Proper` of the server and `Sane` of what is typed at the eat prompt, and
no line is caught in the one buffer a process reads with (`Joint.Fair`).

Both programs keep to the conversation, so along a run the server and
every client stay in accord on it. What the two of them have of a player's
tiles is then the same, and they wait for each other only where nobody is
to speak, which is after an accepted quiet gang.
-/
import Mahjong.Proofs.ClientTalk
import Mahjong.Proofs.GameTalk
import Mahjong.Proofs.Script
import Mahjong.Lib.Relay

namespace Mahjong.Talk

open Process CString
open Server

-- ==================================================================== the five processes

/-- The server and the clients. -/
abbrev Five := Joint Seat Client.Fd Note Client.Note Game Client.Table Unit Int

/-- The table before the first line. -/
def opening (wall : Nat → Wall) (expand : Line → Line) (s : Game) (t : Seat → Client.Table) :
    Five where
  hub := game wall s
  hubWire := ⟨fun _ => [], []⟩
  peer p := Client.game expand (t p)
  peerWire _ := ⟨fun _ => [], []⟩
  left _ := false

/-- Against any four players who keep to the conversation the server speaks
in its turn only, waits for a player out of it only, gives up at an end of
file only, has the hands and the tile on the table that the players have
been told of, and returns when all is said. -/
theorem server_converses (wall : Nat → Wall) (G : Prop) (s₀ : Game) :
    Meets guests (Proper G) (Minds G) (game wall s₀)
      (fun _ _ w => ∀ p, talk.Final (w.state p)) (beginning Seat) := by
  have hobeys : talk.Obeys .hub (fun _ => true) (Proper G) (Fits G) (game wall s₀)
      (beginning Seat) :=
    server_obeys (V := fun _ => greeting) wall G ⟨fun _ => rfl, rfl⟩ ⟨fun _ => rfl, fun _ => rfl⟩
  exact (hobeys.mono fun _ _ _ h p => h p rfl).meets

/-- The runs. A quiet gang is accepted in them only if `G` allows it. -/
abbrev Plays (G : Prop) : Five → List (Event Seat Client.Fd Note Client.Note Game
    Client.Table) → Five → Prop :=
  Joint.Run Client.Fd.server (Joint.Fair (Proper G) fun _ => Client.Sane)

/-- The five processes in accord. -/
abbrev Accord (G : Prop) : Five → Floor → (Seat → Client.World) → Prop :=
  Joint.Linked talk Client.Fd.server (Proper G) (fun _ => Client.Sane) (Fits G)
    fun _ => Client.Shows

variable {G : Prop} {wall : Nat → Wall} {expand : Line → Line} {s₀ : Game}
  {t₀ : Seat → Client.Table} {J J' : Five} {W : Floor} {V : Seat → Client.World}
  {es : List (Event Seat Client.Fd Note Client.Note Game Client.Table)} {p : Seat}

theorem sane_atMarks (_ : Seat) : Joint.AtMarks Client.Sane := by
  intro o s ho
  cases o with
  | note e => exact absurd rfl (ho e)
  | _ => trivial

theorem opening_accord (G : Prop) (wall : Nat → Wall) (expand : Line → Line) (s₀ : Game)
    (t₀ : Seat → Client.Table) :
    Accord G (opening wall expand s₀ t₀) (beginning Seat) fun _ => beginning Client.Fd where
  hub := server_obeys (V := fun _ => greeting) wall G ⟨fun _ => rfl, rfl⟩
    ⟨fun _ => rfl, fun _ => rfl⟩
  peer _ := Client.game_obeys (v := greeting) expand ⟨rfl, rfl⟩ rfl rfl
  channel _ := .start _
  hubLost := nofun
  hubLeft := rfl
  peerLost := nofun
  peerLeft := nofun

/-- What is allowed without a quiet gang is allowed with one. -/
theorem Plays.lax (h : Plays False J es J') : Plays True J es J' := by
  refine h.mono fun J e hfair => ?_
  cases e with
  | hub x =>
      intro y hy
      obtain ⟨hproper, htidy⟩ := hfair y hy
      exact ⟨Proper.lax hproper, htidy⟩
  | peer p x => exact hfair
  | user p => exact hfair

/-- In every run the five stay in accord. -/
theorem Plays.accord (h : Plays G (opening wall expand s₀ t₀) es J) :
    ∃ W V, Accord G J W V := by
  obtain ⟨W, V, h, -⟩ :=
    h.linked (proper_atMarks G) sane_atMarks (opening_accord G wall expand s₀ t₀)
  exact ⟨W, V, h⟩

-- ================================================================= runs by evaluation

/-- What a run by evaluation checks of the server; `quiet` says whether a
quiet gang may be accepted. -/
def properly (quiet : Bool) : SOp → Game → Bool
  | .note (.access .shuffledMjs i), _ => decide (i < 144)
  | .note (.counts tiles), _ => tiles.all fun m => decide (0 ≤ tileIndex m ∧ tileIndex m < 34)
  | .note (.eatindex _ i j), _ => decide ((0 ≤ i ∧ i < 20) ∧ 0 ≤ j ∧ j < 20)
  | .note (.accept .quietGang _), _ => quiet
  | _, _ => true

theorem properly_proper {quiet : Bool} {o : SOp} {s : Game} (hG : quiet = true → G)
    (h : properly quiet o s = true) : Proper G o s := by
  cases o with
  | note e =>
      cases e with
      | access a i =>
          cases a with
          | shuffledMjs => exact (of_decide_eq_true h : i < 144)
          | _ => trivial
      | counts tiles => exact fun m hm => of_decide_eq_true (List.all_eq_true.mp h m hm)
      | eatindex q i j =>
          have hrange : (0 ≤ i ∧ i < 20) ∧ 0 ≤ j ∧ j < 20 := of_decide_eq_true h
          exact hrange
      | accept c q =>
          cases c with
          | quietGang => exact hG h
          | _ => trivial
      | _ => trivial
  | _ => trivial

/-- And of all five; nobody eats. -/
def fineStep (quiet : Bool) : Event Seat Client.Fd Note Client.Note Game Client.Table → Bool
  | .hub (some (o, s)) => properly quiet o s
  | .peer _ (some (.note _, _)) => false
  | _ => true

theorem fineStep_assumed {quiet : Bool}
    {e : Event Seat Client.Fd Note Client.Note Game Client.Table} (hG : quiet = true → G)
    (h : fineStep quiet e = true) : Joint.Assumed (Proper G) (fun _ => Client.Sane) e := by
  cases e with
  | hub x =>
      intro y hy
      cases hy
      exact properly_proper hG h
  | peer p x =>
      intro y hy
      cases hy
      obtain ⟨o, t⟩ := y
      cases o with
      | note e => cases h
      | _ => trivial
  | user p => trivial

/-- Player 0 has three copies of the tile that is drawn first. -/
def quadWall : Wall where
  tiles := stacked (arranged (fun p => if p = 0 then
      [(1, 2), (1, 3), (1, 5), (1, 5), (1, 5), (1, 8), (1, 9), (2, 2), (2, 3), (2, 5), (2, 6),
        (2, 8), (2, 9), (3, 2), (3, 3), (3, 5)]
    else scattered) [(1, 5)])
  perm := by decide +kernel

/-- The table on which player 0 is offered a quiet gang. -/
def quadTable : Five :=
  opening (fun _ => quadWall) (fun l => l) (Game.init [])
    fun _ => ⟨0, Player.gameinfoInit, Mj.null⟩

/-- The same, with what player 0 will type. -/
def quadPlayed (typing : List Typed) : Relay Seat Client.Fd Note Client.Note Game Client.Table
    Unit Int where
  joint := quadTable
  typing p := if p = 0 then typing else []

/-- What is found by evaluation is a run. -/
theorem found {quiet : Bool} {x : Relay Seat Client.Fd Note Client.Note Game Client.Table Unit Int}
    {ps ps' : List Seat} {mark : Event Seat Client.Fd Note Client.Note Game Client.Table → Bool}
    {goal : Five → Bool} (hG : quiet = true → G) {n : Nat}
    (h : x.play Client.Fd.server ps ps' (fineStep quiet) mark goal n false = true) :
    ∃ es J, Plays G x.joint es J ∧ goal J = true ∧ ∃ e ∈ es, mark e = true := by
  obtain ⟨es, J, hrun, hgoal, hmark⟩ :=
    Relay.play_run (fun _ he => fineStep_assumed hG he) h
  exact ⟨es, J, hrun, hgoal, hmark.resolve_left Bool.false_ne_true⟩

/-- A quiet gang has been accepted. -/
def gangMark : Event Seat Client.Fd Note Client.Note Game Client.Table → Bool
  | .hub (some (.note (.accept .quietGang p), _)) => p = 0
  | _ => false

theorem gangMark_note {e : Event Seat Client.Fd Note Client.Note Game Client.Table}
    (h : gangMark e = true) : ∃ s, e = .hub (some (.note (.accept .quietGang 0), s)) := by
  unfold gangMark at h
  split at h
  next p s =>
    obtain rfl : p = 0 := of_decide_eq_true h
    exact ⟨s, rfl⟩
  next => cases h

/-- No mark of the client. -/
def plainly : Client.COp → Bool
  | .note _ => false
  | _ => true

/-- Nothing is on its way between the server and a player, who is at an
operation. -/
def quietWith (p : Seat) (J : Five) : Bool :=
  (match J.peer p with
    | .op o _ _ => plainly o
    | _ => false)
  && decide ('\n' ∉ J.hubWire.ahead p) && decide ('\n' ∉ (J.peerWire p).ahead .server)

theorem quietWith_op (h : quietWith p J = true) : ∃ o t k, J.peer p = .op o t k
    ∧ (∀ e, o ≠ .note e) ∧ '\n' ∉ J.hubWire.ahead p ∧ '\n' ∉ (J.peerWire p).ahead .server := by
  rw [quietWith, Bool.and_eq_true, Bool.and_eq_true, decide_eq_true_eq, decide_eq_true_eq] at h
  obtain ⟨⟨hpeer, hup⟩, hdown⟩ := h
  split at hpeer
  next o t k hproc =>
    refine ⟨o, t, k, hproc, fun e he => ?_, hup, hdown⟩
    rw [he] at hpeer
    cases hpeer
  next => cases hpeer

/-- The buffers are empty, and no user has left. -/
def calm (J : Five) : Bool :=
  J.hubWire.buf.isEmpty
  && [0, 1, 2, 3].all fun p : Seat => (J.peerWire p).buf.isEmpty && !J.left p

theorem calm_tidy (h : calm J = true) : J.TidyNow ∧ ∀ p, J.left p = false := by
  rw [calm, Bool.and_eq_true, List.isEmpty_iff, List.all_eq_true] at h
  have hmem : ∀ q : Seat, q ∈ [(0 : Seat), 1, 2, 3] := by decide
  have hpeer : ∀ q, (J.peerWire q).buf = [] ∧ J.left q = false := by
    intro q
    have hq := h.2 q (hmem q)
    rw [Bool.and_eq_true, List.isEmpty_iff, Bool.not_eq_true'] at hq
    exact hq
  exact ⟨⟨fun o _ _ _ => tidy_of_empty h.1 o, fun q o _ _ _ => tidy_of_empty (hpeer q).1 o⟩,
    fun q => (hpeer q).2⟩

/-- The server waits for player 0. -/
def readsFirst (J : Five) : Bool :=
  match J.hub with
  | .op (.readline p _) _ _ => decide (p = 0) && calm J
  | _ => false

/-- A quiet gang is accepted, and the server reads the discard. -/
theorem gang_accepted : ∃ es J s s' n k, Plays True quadTable es J
    ∧ .hub (some (.note (.accept .quietGang 0), s)) ∈ es
    ∧ J.hub = .op (.readline 0 n) s' k ∧ calm J = true := by
  have hplay : (quadPlayed [.line (str "Y\n")]).play Client.Fd.server [0, 1, 2, 3] [0, 1, 2, 3]
      (fineStep true) gangMark readsFirst 700 false = true := by
    decide +kernel
  obtain ⟨es, J, hrun, hgoal, e, he, hmark⟩ := found (G := True) (fun _ => trivial) hplay
  obtain ⟨s, rfl⟩ := gangMark_note hmark
  unfold readsFirst at hgoal
  split at hgoal
  next p n s' k hproc =>
    rw [Bool.and_eq_true, decide_eq_true_eq] at hgoal
    obtain ⟨rfl, hcalm⟩ := hgoal
    exact ⟨es, J, s, s', n, k, hrun, he, hproc, hcalm⟩
  next => cases hgoal

/-- Player 0 discards. -/
def discardMark : Event Seat Client.Fd Note Client.Note Game Client.Table → Bool
  | .hub (some (.note (.discard p _), _)) => p = 0
  | _ => false

theorem discardMark_note {e : Event Seat Client.Fd Note Client.Note Game Client.Table}
    (h : discardMark e = true) : ∃ i s, e = .hub (some (.note (.discard 0 i), s)) := by
  unfold discardMark at h
  split at h
  next p i s =>
    obtain rfl : p = 0 := of_decide_eq_true h
    exact ⟨i, s, rfl⟩
  next => cases h

/-- Player 0 is about to hear that no one wants the tile. -/
def unwanted (J : Five) : Bool :=
  match J.hub with
  | .op (.write p l) _ _ =>
      decide (p = 0 ∧ l = str "no one wants it.\n") && quietWith 0 J && calm J
  | _ => false

/-- Player 0 declines the quiet gang and discards, and no one wants it. -/
theorem discard_unwanted : ∃ es J i s s' k, Plays False quadTable es J
    ∧ .hub (some (.note (.discard 0 i), s)) ∈ es
    ∧ J.hub = .op (.write 0 (str "no one wants it.\n")) s' k
    ∧ quietWith 0 J = true ∧ calm J = true := by
  have hplay : (quadPlayed [.line (str "n\n"), .number 0]).play Client.Fd.server [0, 1, 2, 3] [0, 1, 2, 3]
      (fineStep false) discardMark unwanted 900 false = true := by
    decide +kernel
  obtain ⟨es, J, hrun, hgoal, e, he, hmark⟩ := found (G := False) Bool.false_ne_true hplay
  obtain ⟨i, s, rfl⟩ := discardMark_note hmark
  unfold unwanted at hgoal
  split at hgoal
  next p l s' k hproc =>
    rw [Bool.and_eq_true, Bool.and_eq_true, decide_eq_true_eq] at hgoal
    obtain ⟨⟨⟨rfl, rfl⟩, hquiet⟩, hcalm⟩ := hgoal
    exact ⟨es, J, i, s, s', k, hrun, he, hproc, hquiet, hcalm⟩
  next => cases hgoal

/-- The server takes the tile of player 0's discard. -/
def discarding (J : Five) : Bool :=
  match J.hub with
  | .op (.note (.discard p _)) _ _ => decide (p = 0) && quietWith 0 J
  | _ => false

theorem discard_taken : ∃ es J i s k, Plays False quadTable es J
    ∧ J.hub = .op (.note (.discard 0 i)) s k ∧ quietWith 0 J = true := by
  have hplay : (quadPlayed [.line (str "n\n"), .number 0]).play Client.Fd.server [0, 1, 2, 3] [0, 1, 2, 3]
      (fineStep false) (fun _ => true) discarding 900 false = true := by
    decide +kernel
  obtain ⟨es, J, hrun, hgoal, -⟩ := found (G := False) Bool.false_ne_true hplay
  unfold discarding at hgoal
  split at hgoal
  next p i s k hproc =>
    rw [Bool.and_eq_true, decide_eq_true_eq] at hgoal
    obtain ⟨rfl, hquiet⟩ := hgoal
    exact ⟨es, J, i, s, k, hrun, hproc, hquiet⟩
  next => cases hgoal

-- ============================================================================ the waits

theorem Phase.ganged_of_silent : ∀ {phase : Phase}, phase.speaker = none → phase ≠ .over →
    phase = .ganged
  | .ganged, _, _ => rfl
  | .over, _, hmore => absurd rfl hmore

/-- Nobody is to speak only behind a quiet gang. -/
theorem ganged_of_silent {q : talk.State} (hspeaker : talk.speaker q = none)
    (hmore : ¬ talk.Final q) : ∃ v, q = .turn v ∧ v.phase = .ganged := by
  cases q with
  | owes side v v' => cases hspeaker
  | turn v =>
      have hspeaker : v.phase.speaker = none := hspeaker
      have hmore : v.phase ≠ .over := hmore
      exact ⟨v, rfl, Phase.ganged_of_silent hspeaker hmore⟩

/-- What is known of the table where the server waits. -/
theorem Accord.fits (h : Accord G J W V) (hwait : J.HubWaits p) : Mute W → G := by
  obtain ⟨-, -, o, s, k, hproc, hfits⟩ := h.hub_listens (proper_atMarks G) hwait
  obtain ⟨o', s', k', hproc', -, hwait⟩ := hwait
  rw [hproc] at hproc'
  cases hproc'
  cases o with
  | readline q n => exact hfits.1
  | select fds => exact hfits.1
  | _ => exact hwait.elim

/-- Where no quiet gang is accepted, whom the server waits for is to
speak, or all is said. -/
theorem Accord.speaks (h : Accord False J W V) (hwait : J.HubWaits p)
    (hspeaker : talk.speaker (W.state p) = none) : talk.Final (W.state p) := by
  by_contra hmore
  obtain ⟨v, hstate, hphase⟩ := ganged_of_silent hspeaker hmore
  exact h.fits hwait ⟨p, v, hstate, hphase⟩

/-- While no user has closed the input nobody gives up. -/
theorem nobody_exits (h : Plays True (opening wall expand s₀ t₀) es J)
    (hleft : ∀ p, J.left p = false) :
    (∀ s k, J.hub ≠ .op .exit s k) ∧ ∀ p t k, J.peer p ≠ .op .exit t k := by
  obtain ⟨W, V, h⟩ := h.accord
  exact h.nobody_left (proper_atMarks True) sane_atMarks hleft

theorem nobody_exits_quadTable : ∃ es J, Plays True quadTable es J
    ∧ (∀ s k, J.hub ≠ .op .exit s k) ∧ ∀ p t k, J.peer p ≠ .op .exit t k := by
  obtain ⟨es, J, s, s', n, k, hrun, -, -, hcalm⟩ := gang_accepted
  exact ⟨es, J, hrun, nobody_exits hrun (calm_tidy hcalm).2⟩

/-- The game goes on: a tile is drawn, discarded or claimed, the others are
asked, somebody has won, or the round is over. -/
def GoesOn : SOp → Bool
  | .note (.draw _) => true
  | .note (.discard _ _) => true
  | .note (.othersreaction _) => true
  | .note (.accept c _) => c ≠ .quietGang
  | .note (.win _) => true
  | .note .gameSet => true
  | _ => false

theorem Fits.speaks {o : SOp} {s : Game} (h : Fits G o s W) (ho : GoesOn o = true) :
    ¬ Mute W := by
  cases o with
  | note e =>
      cases e with
      | draw => exact h
      | discard => exact h.1
      | othersreaction => exact h
      | accept c q =>
          cases c with
          | quietGang => cases ho
          | _ => exact h
      | win => exact h
      | gameSet => exact h
      | _ => cases ho
  | _ => cases ho

variable {later earlier es' : List (Event Seat Client.Fd Note Client.Note Game Client.Table)}
  {s s' : Game} {n : Nat} {k : Line → Proc SOp IoOp.Res Game Unit} {l : Line}

/-- From the acceptance on the player is one nobody is to speak to. -/
theorem muted_at_quietGang
    (h : Plays True (opening wall expand s₀ t₀)
      (later ++ .hub (some (.note (.accept .quietGang p), s)) :: earlier) J) :
    ∃ J₁ W₁ V₁ v, Accord True J₁ W₁ V₁ ∧ W₁.state p = .turn v ∧ v.phase = .ganged
      ∧ Plays True J₁ later J := by
  obtain ⟨W₁, J₂, W₂, V₂, -, -, hfits, hgoes, h₂, hafter⟩ :=
    h.shows (proper_atMarks True) sane_atMarks (opening_accord True wall expand s₀ t₀)
  obtain ⟨v, hstate, hphase⟩ := hfits
  have hmute : talk.speaker (W₁.state p) = none := by
    rw [hstate]
    exact congrArg Phase.speaker hphase
  exact ⟨J₂, W₂, V₂, v, h₂, (Protocol.stuck hmute (hgoes p)).trans hstate, hphase, hafter⟩

/-- Behind an accepted quiet gang the game does not go on, and the player
is not told anything any more. -/
theorem ends_at_quietGang
    (h : Plays True (opening wall expand s₀ t₀)
      (later ++ .hub (some (.note (.accept .quietGang p), s)) :: earlier) J) :
    ∀ o s', .hub (some (o, s')) ∈ later → GoesOn o = false ∧ ∀ l, o ≠ .write p l := by
  obtain ⟨J₁, W₁, V₁, v, h₁, hstate, hphase, hafter⟩ := muted_at_quietGang h
  intro o s' ho
  obtain ⟨newer, older, hlater⟩ := List.append_of_mem ho
  subst hlater
  obtain ⟨W₂, -, -, -, hgoes, hmay, hfits, -⟩ :=
    hafter.shows (proper_atMarks True) sane_atMarks h₁
  have hmute : talk.speaker (W₁.state p) = none := by
    rw [hstate]
    exact congrArg Phase.speaker hphase
  have hstays : W₂.state p = W₁.state p := Protocol.stuck hmute (hgoes p)
  constructor
  · rw [Bool.eq_false_iff]
    intro hon
    exact hfits.speaks hon ⟨p, v, hstays.trans hstate, hphase⟩
  · intro l he
    subst he
    obtain ⟨-, -, q, hsaid⟩ := hmay
    have hturn := hsaid.turn
    rw [hstays, hmute] at hturn
    cases hturn

theorem ends_at_quietGang_quadTable : ∃ later earlier s J,
    Plays True quadTable (later ++ .hub (some (.note (.accept .quietGang 0), s)) :: earlier) J
    ∧ ∀ o s', .hub (some (o, s')) ∈ later → GoesOn o = false ∧ ∀ l, o ≠ .write 0 l := by
  obtain ⟨es, J, s, s', n, k, hrun, hgang, -⟩ := gang_accepted
  obtain ⟨later, earlier, hes⟩ := List.append_of_mem hgang
  subst hes
  exact ⟨later, earlier, s, J, hrun, ends_at_quietGang hrun⟩

/-- Once the server reads the discard of a player whose quiet gang it has
accepted it does nothing any more, whatever the others do, while no user
closes the input. -/
theorem frozen_at_quietGang (h : Plays True (opening wall expand s₀ t₀) es J)
    (hgang : .hub (some (.note (.accept .quietGang p), s)) ∈ es)
    (hproc : J.hub = .op (.readline p n) s' k) (h' : Plays True J es' J')
    (hleft : ∀ q, J'.left q = false) : J'.hub = J.hub ∧ ∀ x, .hub x ∉ es' := by
  obtain ⟨newer, older, hes⟩ := List.append_of_mem hgang
  subst hes
  obtain ⟨J₁, W₁, V₁, v, h₁, hstate, hphase, hafter⟩ := muted_at_quietGang h
  obtain ⟨W, V, hlinked, hgoes⟩ := hafter.linked (proper_atMarks True) sane_atMarks h₁
  have hmute₁ : talk.speaker (W₁.state p) = none := by
    rw [hstate]
    exact congrArg Phase.speaker hphase
  have hstays : W.state p = .turn v := (Protocol.stuck hmute₁ (hgoes p)).trans hstate
  refine h'.frozen (proper_atMarks True) sane_atMarks hlinked hproc ?_ ?_ hleft
  · rw [hstays]
    exact congrArg Phase.speaker hphase
  · rw [hstays]
    intro hover
    have hover : v.phase = .over := hover
    rw [hphase] at hover
    cases hover

/-- So there is a table at which the game never goes on. -/
theorem frozen_at_quietGang_quadTable : ∃ es J, Plays True quadTable es J ∧ ∀ es' J',
    Plays True J es' J' → (∀ q, J'.left q = false) → J'.hub = J.hub ∧ ∀ x, .hub x ∉ es' := by
  obtain ⟨es, J, s, s', n, k, hrun, hgang, hproc, -⟩ := gang_accepted
  exact ⟨es, J, hrun, fun _ _ hlater hleft =>
    frozen_at_quietGang hrun hgang hproc hlater hleft⟩

end Mahjong.Talk
