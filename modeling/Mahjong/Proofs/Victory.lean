/-
A declared winner really won, and the win is final.

# The winner is rightful

In a lax run (`Ranged`) a hand that is counted is whole, so whoever is
offered a win has five sets and a pair (`WonProperly`), and no operation
but the announcement is done with a winner (`Rightful`).

# The win ends the round

A nested call of `othersreaction` drops what the calls inside it return,
so a win inside it is seen by the winner only. That the round is over all
the same needs no invariant: behind the mark of a win every function
returns by itself, with the winner set (`after`), and the loop of the
turns looks at it. The functions that set no winner are passed over
(`noWin_closed`).
-/
import Mahjong.Lib.After
import Mahjong.Proofs.Bookkeeping
import Mahjong.Proofs.Display

namespace Mahjong.Server

open Process CString

-- ============================================================== who sets no winner

section Ends

variable {p q : Seat} {s : Game}

/-- The mark of a win of `p`. -/
abbrev WinOf (p : Seat) (o : SOp) : Prop := o = .note (.win p)

/-- A program that does not set the winner. -/
abbrev NoWin (p : Seat) {α : Type} (m : Server α) : Prop := Never (WinOf p) m

/-- A mark that is no win. -/
theorem noWin_note {e : Note} (he : winMark e = false) : NoWin p (Io.note e) := by
  apply never_call
  intro h
  cases h
  exact Bool.false_ne_true he.symm

/-- The functions that set no winner. -/
theorem noWin_closed (p : Seat) : Closed fun _ m => NoWin p m where
  pure := fun _ => never_pure
  bind := fun hm hf => hm.bind hf
  get := never_get
  modify := fun _ => never_modify
  iterate := fun hbody b => never_iterate hbody b
  mark := fun _ he => noWin_note he
  indeterminate := never_call fun h => nomatch h
  tell := by
    intro q l _
    have hexit : NoWin p (Io.exit : Server Unit) :=
      fun _ => after_op (fun h => nomatch h) fun r => nomatch r
    apply Never.bind (never_call fun h => nomatch h)
    intro _
    apply Never.bind (never_call fun h => nomatch h)
    intro recvline
    split
    · split
      · exact never_pure
      · exact hexit
    · exact hexit
  hear := by
    intro q
    apply Never.bind (never_call fun h => nomatch h)
    intro recvline
    split
    · exact Never.bind (never_call fun h => nomatch h) fun _ => never_pure
    · exact fun _ => after_op (fun h => nomatch h) fun r => nomatch r

-- ================================================================== behind the mark

/-- The round is won. -/
abbrev WonBy (p : Seat) (s : Game) : Prop := s.winner = (p.val : Int)

theorem after_isHu : after (WinOf p) (isHu q s) fun r s' => r = 1 ∧ WonBy p s' := by
  refine ((noWin_closed p).player _).seq fun pl s => ?_
  refine (noWin_note rfl).seq fun _ s => ?_
  split
  · refine ((noWin_closed p).ask _ (by decide)).seq fun yes s => ?_
    split
    · refine after_op (fun h r => ?_) fun _ => after_ret
      cases h
      exact .ret ⟨rfl, rfl⟩
    · exact after_pure
  · exact ((noWin_closed p).tell _ _ (by decide)).seq fun _ _ => after_pure

/-- What a block comes to after a win. -/
abbrev Decided (p : Seat) (r : Option Outcome) (s : Game) : Prop :=
  (∃ q, r = some (.done 1 q)) ∧ WonBy p s

theorem after_huOrDiscard : after (WinOf p) (huOrDiscard q s) (Decided p) := by
  refine after_seq after_isHu (fun r s h => ?_) fun r s => ?_
  · rw [if_pos h.1]
    exact .ret ⟨⟨q, rfl⟩, h.2⟩
  · split
    · exact after_pure
    · exact ((noWin_closed p).discard _).seq fun _ _ => after_pure

theorem after_huClaim {d k : Seat} : after (WinOf p) (huClaim d k s) (Decided p) := by
  refine never_get.seq fun t s => ((noWin_closed p).player _).seq fun pl s => ?_
  refine (noWin_note rfl).seq fun _ s => ?_
  split
  · refine ((noWin_closed p).ask _ (by decide)).seq fun yes s => ?_
    split
    · refine after_op (fun h r => ?_) fun _ => after_ret
      cases h
      exact .ret ⟨⟨d, rfl⟩, rfl⟩
    · exact after_pure
  · exact after_pure

theorem after_gangClaim {d k : Seat} : after (WinOf p) (gangClaim d k s) (Decided p) := by
  refine never_get.seq fun t s => ((noWin_closed p).player _).seq fun pl s => ?_
  refine (noWin_note rfl).seq fun _ s => ?_
  split
  · refine ((noWin_closed p).ask _ (by decide)).seq fun yes s => ?_
    split
    · refine (noWin_note rfl).seq fun _ s => ?_
      refine ((noWin_closed p).accessDoor _ _).seq fun _ s => ?_
      refine never_modify.seq fun _ s => ?_
      refine ((noWin_closed p).toOthers _ (announce_ne_ack _ _)).seq fun _ s => ?_
      exact never_modify.seq fun _ s => ((noWin_closed p).draw _).seq fun _ s => after_huOrDiscard
    · exact after_pure
  · exact after_pure

theorem after_pongClaim {d k : Seat} : after (WinOf p) (pongClaim d k s) (Decided p) := by
  refine never_get.seq fun t s => ((noWin_closed p).player _).seq fun pl s => ?_
  refine (noWin_note rfl).seq fun _ s => ?_
  split
  · refine ((noWin_closed p).ask _ (by decide)).seq fun yes s => ?_
    split
    · refine (noWin_note rfl).seq fun _ s => ?_
      refine ((noWin_closed p).accessDoor _ _).seq fun _ s => ?_
      refine never_modify.seq fun _ s => ?_
      refine ((noWin_closed p).toOthers _ (announce_ne_ack _ _)).seq fun _ s => ?_
      exact never_modify.seq fun _ s => after_huOrDiscard
    · exact after_pure
  · exact after_pure

theorem after_eatClaim {d : Seat} : after (WinOf p) (eatClaim d s) (Decided p) := by
  refine never_get.seq fun t s => ((noWin_closed p).player _).seq fun pl s => ?_
  refine (noWin_note rfl).seq fun _ s => ?_
  split
  · refine ((noWin_closed p).ask _ (by decide)).seq fun yes s => ?_
    split
    · refine (noWin_note rfl).seq fun _ s => ?_
      refine ((noWin_closed p).eatLoop _).seq fun _ s => ?_
      refine ((noWin_closed p).toOthers _ (announce_ne_ack _ _)).seq fun _ s => ?_
      exact never_modify.seq fun _ s => after_huOrDiscard
    · exact after_pure
  · exact after_pure

/-- What a pass comes to after a win. -/
abbrev Over (p : Seat) (o : Outcome) (s : Game) : Prop := (∃ q, o = .done 1 q) ∧ WonBy p s

theorem after_firstOf {last : Server Outcome} (hlast : NoWin p last) :
    ∀ {blocks : List (Server (Option Outcome))},
      (∀ b ∈ blocks, ∀ s, after (WinOf p) (b s) (Decided p)) →
      ∀ s, after (WinOf p) (firstOf blocks last s) (Over p) := by
  intro blocks
  induction blocks with
  | nil => exact fun _ s => hlast.weaken s
  | cons b blocks ih =>
      intro hb s
      refine after_seq (hb b (List.mem_cons_self ..) s) (fun r s h => ?_) fun r s => ?_
      · obtain ⟨⟨q, rfl⟩, hwon⟩ := h
        exact .ret ⟨⟨q, rfl⟩, hwon⟩
      · cases r with
        | none => exact ih (fun b hmem => hb b (List.mem_cons_of_mem _ hmem)) s
        | some o => exact after_pure

theorem after_reaction {d : Seat} : after (WinOf p) (reaction d s) (Over p) := by
  refine (noWin_note rfl).seq fun _ s => after_firstOf ((noWin_closed p).noOneWantsIt _) ?_ s
  intro b hb s
  simp only [List.mem_cons, List.not_mem_nil, or_false] at hb
  rcases hb with rfl | rfl | rfl | rfl | rfl | rfl | rfl | rfl | rfl | rfl
  · exact after_huClaim
  · exact after_huClaim
  · exact after_huClaim
  · exact after_gangClaim
  · exact after_gangClaim
  · exact after_gangClaim
  · exact after_pongClaim
  · exact after_pongClaim
  · exact after_pongClaim
  · exact after_eatClaim

/-- The result of a nested call is dropped, the winner stays. -/
theorem after_othersreaction {d : Seat} :
    after (WinOf p) (othersreaction d s) fun _ s' => WonBy p s' := by
  refine after_loop (R := fun r s' => (∃ x, r = .inr x) ∧ WonBy p s') ?_ ?_ ?_
    (fun _ _ => after_ret) _ s
  · rintro ⟨nested, d⟩ s
    refine after_seq after_reaction ?_ fun o s => ?_
    · intro o s h
      obtain ⟨⟨q, rfl⟩, hwon⟩ := h
      exact .ret ⟨⟨_, rfl⟩, hwon⟩
    · cases o <;> exact after_pure
  · intro b s' h
    obtain ⟨⟨x, he⟩, -⟩ := h
    exact nomatch he
  · exact fun c s' h => .ret h.2

theorem after_drawNDiscard :
    after (WinOf p) (drawNDiscard q s) fun r s' => r = 1 ∧ WonBy p s' := by
  refine ((noWin_closed p).tell _ _ (by decide)).seq fun _ s => ?_
  refine ((noWin_closed p).draw _).seq fun _ s => ?_
  refine after_seq after_isHu (fun r s h => ?_) fun r s => ?_
  · rw [if_pos h.1]
    exact .ret ⟨rfl, h.2⟩
  split
  · exact after_pure
  refine ((noWin_closed p).printDeck _).seq fun _ s => ?_
  refine after_seq (R := fun won s' => won = true ∧ WonBy p s') (after_forever ?_ s) ?_ ?_
  · intro s
    refine ((noWin_closed p).quietGang _).seq fun r s => ?_
    split
    · refine ((noWin_closed p).draw _).seq fun _ s => after_seq after_isHu (fun r s h => ?_) fun r s => ?_
      · rw [if_pos h.1]
        exact .ret ⟨true, rfl, rfl, h.2⟩
      · split <;> exact after_pure
    · exact after_pure
  · intro won s h
    rw [if_pos h.1]
    exact .ret ⟨rfl, h.2⟩
  · intro won s
    split
    · exact after_pure
    · refine ((noWin_closed p).discard _).seq fun _ s => ?_
      exact ((noWin_closed p).printDeck _).seq fun _ _ => after_pure

/-- With a winner the loop of the turns ends. -/
theorem returns_turns {p : Seat} (h : WonBy p s) :
    Returns (fun _ s' => WonBy p s') (turns q s) := by
  have hwinner : ¬ s.winner = -1 := by
    have he : s.winner = (p.val : Int) := h
    omega
  refine .loop (Returns.bind (R := fun r s' => r = .inr () ∧ s' = s) ?_ ?_)
  · show Returns _ ((if s.winner = -1 then _ else pure (.inr ()) : Server (Seat ⊕ Unit)) s)
    rw [if_neg hwinner]
    exact .ret ⟨rfl, rfl⟩
  · intro r s' hr
    obtain ⟨rfl, rfl⟩ := hr
    exact .ret h

theorem after_turns : after (WinOf p) (turns q s) fun _ s' => WonBy p s' := by
  refine after_loop (R := fun _ s' => WonBy p s') ?_ (fun b s' h => returns_turns h)
    (fun _ s' h => .ret h) (fun _ _ => after_ret) q s
  intro q s
  refine never_get.seq fun t s => ?_
  split
  · refine after_seq after_drawNDiscard (fun r s h => ?_) fun r s => ?_
    · rw [if_pos h.1]
      exact .ret h.2
    split
    · exact after_pure
    refine after_seq after_othersreaction (fun r s h => ?_) fun r s => ?_
    · split
      · exact .ret h
      · show Returns _ ((if s.takeIndex = 144 then _ else _ : Server (Seat ⊕ Unit)) s)
        split <;> exact .ret h
    · split
      · exact after_pure
      · refine never_get.seq fun t s => ?_
        split <;> exact after_pure
  · exact after_pure

end Ends

-- ================================================================= a rightful winner

/-- The lines of `game_set_display`. -/
def ClosingLine (winner : Int) (l : Line) : Prop :=
  l = endLine winner ∨ l = str "ACK\n" ∨ l = str "start!\n"
    ∨ l = str "Some players don't want to play, no more game!\n"

/-- What is done when a round is over: nothing is drawn, discarded,
claimed or won any more. -/
def Closing (winner : Int) : SOp → Prop
  | .note e => e = .gameSet
  | .write _ l => ClosingLine winner l
  | .readline _ _ | .select _ | .exit => True
  | .scanf | .indeterminate => False

/-- All players have been told who has won. -/
def Told (winner : Int) (w : Log) : Prop :=
  ∀ q : Seat, (⟨.write q (endLine winner), ()⟩ : (o : SOp) × o.Res) ∈ w

/-- The winner at an operation the server is about to do. -/
structure Rightful (o : SOp) (s : Game) (w : Log) : Prop where
  /-- It is the player of whom a win has been marked, -1 if of none. -/
  declares : Declares w s.winner
  /-- Who is to win is the first to, was asked, said yes, and has won. -/
  proper : ∀ p, o = .note (.win p) → s.winner = -1 ∧ WonProperly p s w
  /-- With a winner the round is over. -/
  final : s.winner ≠ -1 → Closing s.winner o
  /-- The answers are waited for when all players know who it is. -/
  told : s.winner ≠ -1 → ∀ fds, o = .select fds → Told s.winner w

theorem Undecided.rightful {o : SOp} {s : Game} {w : Log} (h : Undecided s w)
    (ho : ∀ p, o ≠ .note (.win p)) : Rightful o s w := by
  exact ⟨h.winner ▸ h.declares, fun p he => absurd he (ho p), fun hne => absurd h.winner hne,
    fun hne => absurd h.winner hne⟩

theorem rightful_obliged : Obliged False Rightful where
  quiet := by
    constructor
    · decide
    · exact fun _ _ _ _ h ho => h.log ho
    · exact fun _ _ _ _ _ h => h.rightful fun _ he => nomatch he
    · intro e s w he h
      apply h.rightful
      intro p he'
      cases he'
      exact Bool.false_ne_true he
    all_goals
      intros
      apply Undecided.rightful
      · assumption
      · exact fun _ he => nomatch he
  access := fun _ _ _ _ _ _ h => h.rightful fun _ he => nomatch he
  scan := fun _ _ _ _ _ h => h.rightful fun _ he => nomatch he
  counts := fun _ _ _ _ h => h.rightful fun _ he => nomatch he
  yourTurn := fun _ _ _ _ h => h.rightful fun _ he => nomatch he
  othersreaction := fun _ _ _ _ h => h.rightful fun _ he => nomatch he
  print := fun _ _ _ _ _ h => h.rightful fun _ he => nomatch he
  win := by
    intro p s w h hwon
    refine ⟨h.winner ▸ h.declares, fun q he => ?_, fun hne => absurd h.winner hne,
      fun hne => absurd h.winner hne⟩
    cases he
    exact ⟨h.winner, hwon⟩

-- ================================================================= the announcement

section Display

variable {A : SOp → Game → Prop} {s : Game} {w : Log} {p : Seat} {l : Line}

theorem rightful_of_closing {o : SOp} (h : Declares w s.winner) (ho : Closing s.winner o)
    (htold : ∀ fds, o = .select fds → Told s.winner w) : Rightful o s w := by
  refine ⟨h, fun p he => ?_, fun _ => ho, fun _ => htold⟩
  subst he
  exact nomatch ho

/-- A line to a player, and the log behind it. -/
theorem wp_tell (h : Declares w s.winner) (hl : ClosingLine s.winner l)
    {Q : Unit → Game → Log → Prop}
    (hQ : ∀ ack : Line, Q () s (⟨.readline p maxline, ack⟩ :: ⟨.write p l, ()⟩ :: w)) :
    wp anyone A Rightful (writeMessageWaitAck p l s) Q w := by
  have h1 : Declares (⟨.write p l, ()⟩ :: w) s.winner := h.cons id
  have h2 : ∀ ack : Line, Declares (⟨.readline p maxline, ack⟩ :: ⟨.write p l, ()⟩ :: w)
      s.winner := fun _ => h1.cons id
  refine wp_seq (wp_call fun _ => ⟨rightful_of_closing h hl (fun _ he => nomatch he), ?_⟩)
  rintro _ w' ⟨rfl, -⟩
  refine wp_seq (wp_call fun _ =>
    ⟨rightful_of_closing h1 trivial (fun _ he => nomatch he), ?_⟩)
  rintro ack w' ⟨rfl, -⟩
  have hexit : wp anyone A Rightful ((Io.exit : Server Unit) s) Q
      (⟨.readline p maxline, ack⟩ :: ⟨.write p l, ()⟩ :: w) :=
    wp_op fun _ => ⟨rightful_of_closing (h2 ack) trivial (fun _ he => nomatch he),
      fun r => nomatch r⟩
  split
  · split
    · exact wp_pure (hQ ack)
    · exact hexit
  · exact hexit

theorem wp_tellAll (h : Declares w s.winner) (hl : ClosingLine s.winner l)
    {Q : Unit → Game → Log → Prop}
    (hQ : ∀ w' : Log, Declares w' s.winner → w <:+ w' →
      (∀ q : Seat, (⟨.write q l, ()⟩ : (o : SOp) × o.Res) ∈ w') → Q () s w') :
    wp anyone A Rightful (toAll l s) Q w := by
  have hlog : ∀ {p : Seat} {ack : Line} {w : Log}, Declares w s.winner →
      Declares (⟨.readline p maxline, ack⟩ :: ⟨.write p l, ()⟩ :: w) s.winner := by
    intro p ack w h
    refine (h.cons ?_).cons ?_ <;> exact id
  refine wp_seq (wp_tell h hl fun a₀ => ?_)
  refine wp_seq (wp_tell (hlog h) hl fun a₁ => ?_)
  refine wp_seq (wp_tell (hlog (hlog h)) hl fun a₂ => ?_)
  refine wp_tell (hlog (hlog (hlog h))) hl fun a₃ => hQ _ (hlog (hlog (hlog (hlog h)))) ?_ ?_
  · simp [List.suffix_cons_iff]
  · intro q
    fin_cases q <;> simp

/-- Nothing but the log changes while the round is announced. -/
def Displaying (s₀ : Game) (s : Game) (w : Log) : Prop :=
  s = s₀ ∧ Declares w s.winner ∧ Told s.winner w

theorem Displaying.log {s₀ : Game} {o : SOp} {r : o.Res} (h : Displaying s₀ s w)
    (ho : ¬ IsWin o) : Displaying s₀ s (⟨o, r⟩ :: w) :=
  ⟨h.1, h.2.1.cons ho, fun q => List.mem_cons_of_mem _ (h.2.2 q)⟩

theorem Displaying.rightful {s₀ : Game} {o : SOp} (h : Displaying s₀ s w)
    (ho : Closing s.winner o) : Rightful o s w :=
  rightful_of_closing h.2.1 ho fun _ _ => h.2.2

theorem wp_hear {s₀ : Game} (h : Displaying s₀ s w) :
    wp anyone A Rightful (readAndAck p s) (fun _ s' w' => Displaying s₀ s' w') w := by
  refine wp_seq (wp_call fun _ => ⟨h.rightful trivial, ?_⟩)
  rintro recvline w' ⟨rfl, -⟩
  have h1 : Displaying s₀ s (⟨.readline p maxline, recvline⟩ :: w) := h.log id
  split
  · refine wp_seq (wp_call fun _ => ⟨h1.rightful (Or.inr (Or.inl rfl)), ?_⟩)
    rintro _ w' ⟨rfl, -⟩
    exact wp_pure (h1.log id)
  · exact wp_op fun _ => ⟨h1.rightful trivial, fun r => nomatch r⟩

theorem wp_readAnswer {s₀ : Game} {testset : Seat → Bool} {x : Nat × Nat × List Seat}
    (h : Displaying s₀ s w) : wp anyone A Rightful (readAnswer testset x p s)
      (fun _ s' w' => Displaying s₀ s' w') w := by
  rw [readAnswer]
  split
  · exact wp_seq ((wp_hear h).mono fun _ _ _ h => wp_pure h)
  · exact wp_pure h

theorem wp_collectAnswers {s₀ : Game} (h : Displaying s₀ s w) :
    wp anyone A Rightful (collectAnswers s) (fun _ s' w' => Displaying s₀ s' w') w := by
  refine wp_iterate (fun _ => Displaying s₀) (fun x s w h => ?_) h
  split
  · exact wp_pure h
  · refine wp_seq (wp_call fun _ => ⟨h.rightful trivial, ?_⟩)
    rintro ready w' ⟨rfl, -⟩
    refine wp_seq ((wp_readAnswer (h.log id)).mono fun x s w h => ?_)
    refine wp_seq ((wp_readAnswer h).mono fun x s w h => ?_)
    refine wp_seq ((wp_readAnswer h).mono fun x s w h => ?_)
    exact wp_seq ((wp_readAnswer h).mono fun x s w h => wp_pure h)

/-- `game_set_display` tells everybody who has won. -/
theorem wp_gameSetDisplay (h : Declares w s.winner) :
    wp anyone A Rightful (gameSetDisplay s) (fun _ s' w' => Displaying s s' w') w := by
  have hend : ∀ {s₁ : Game} {w₁ : Log} {l : Line} {r : Int}, Displaying s s₁ w₁ →
      ClosingLine s₁.winner l → wp anyone A Rightful
        ((do toAll l; pure r : Server Int) s₁) (fun _ s' w' => Displaying s s' w') w₁ := by
    intro s₁ w₁ l r h hl
    refine wp_seq (wp_tellAll h.2.1 hl fun w' hdecl hsuf _ => wp_pure ⟨h.1, hdecl, ?_⟩)
    exact fun q => hsuf.subset (h.2.2 q)
  refine wp_get_seq (wp_seq (wp_tellAll h (Or.inl rfl) fun w' hdecl _ htold => ?_))
  have hdisplay : Displaying s s w' := ⟨rfl, hdecl, htold⟩
  refine wp_seq ((wp_collectAnswers hdisplay).mono fun n s₁ w₁ h => ?_)
  split
  · exact hend h (Or.inr (Or.inr (Or.inl rfl)))
  · exact hend h (Or.inr (Or.inr (Or.inr rfl)))

end Display

-- ======================================================================= the round

/-- A round, and its end told to the players. -/
def displayedRound (wall : Wall) (start : Seat) : Server Int := do
  playRound wall.tiles start
  gameSetDisplay

section Round

variable {wall : Wall} {start p : Seat} {s₀ : Game}

theorem rightful_round : wp anyone Ranged Rightful (displayedRound wall start s₀)
    (fun _ s w => Declares w s.winner ∧ Told s.winner w) [] := by
  refine wp_seq ((wp_playRound ranged_mode rightful_obliged ?_ Declares.nil).mono ?_)
  · exact fun s w _ h _ => rightful_of_closing h rfl fun _ he => nomatch he
  · exact fun _ s w h => (wp_gameSetDisplay h).mono fun _ s' w' h => h.2

theorem polite_displayedRound (wall : Wall) (start : Seat) :
    GoesOn (fun w => Woken w ∧ Polite w) (displayedRound wall start) := by
  have hround : GoesOn (fun w => Woken w ∧ Polite w) (playRound wall.tiles start) :=
    (polite_closed woken_polite_courteous).playRound start
      (fun q => polite_mark woken_polite_courteous _) _
  exact (polite_closed woken_polite_courteous).bind hround fun _ => polite_gameSetDisplay

/-- Behind the mark of a win the round is at its end, with that winner. -/
theorem ends_of_win {tr : List (SOp × Game)} {s : Game} {w : Log}
    {k : Unit → Proc SOp IoOp.Res Game Int}
    (hrun : Run anyone (displayedRound wall start s₀) [] tr (.op (.note (.win p)) s k) w) :
    ∃ s', WonBy p s' ∧ Run anyone (k ()) (⟨.note (.win p), ()⟩ :: w) []
      (.op (.note .gameSet) s' fun _ => gameSetDisplay s') (⟨.note (.win p), ()⟩ :: w) := by
  rcases Run.bind_inv (S := playRound wall.tiles start s₀) hrun with
    ⟨k₁, h₁, rfl⟩ | ⟨_, s₁, tr₁, tr₂, w₁, -, h₂, -⟩
  · rcases Run.bind_inv (S := deal start (Game.init wall.tiles)) h₁ with
      ⟨k₂, h₂, -⟩ | ⟨_, s₂, tr₁, tr₂, w₂, -, h₂, -⟩
    · exact absurd rfl (((noWin_closed p).deal _).run h₂ ())
    · rcases Run.bind_inv (S := turns start s₂) h₂ with
        ⟨k₃, h₃, rfl⟩ | ⟨_, s₃, tr₁, tr₂, w₃, -, h₃, -⟩
      · have hret : Returns (fun _ s' => WonBy p s') (k₃ ()) := after_turns.run h₃ rfl ()
        obtain ⟨_, s', hwon, hquiet⟩ := hret.run anyone (⟨.note (.win p), ()⟩ :: w)
        exact ⟨s', hwon, Run.bind (Run.bind hquiet)⟩
      · exact absurd rfl ((noWin_note (e := .gameSet) rfl).run h₃ ())
  · have hselect : ∀ fds, NoWin p (Io.select fds) := fun _ => never_call fun h => nomatch h
    exact absurd rfl (((noWin_closed p).gameSetDisplay hselect).run h₂ ())

/-- A round whose winner really won, and won for good. -/
structure WonForGood (wall : Wall) (start : Seat) (s₀ : Game) : Prop where
  /-- Up to the first index out of range the winner is rightful. -/
  rightful : ∀ tr o s k w, Run anyone (displayedRound wall start s₀) [] tr (.op o s k) w →
    (∀ x ∈ tr, Ranged x.1 x.2) → Ranged o s → Rightful o s w
  /-- Behind a win the program comes to the end of the round by itself. -/
  ends : ∀ tr p s k w,
    Run anyone (displayedRound wall start s₀) [] tr (.op (.note (.win p)) s k) w →
    ∃ s', s'.winner = (p.val : Int)
      ∧ Run anyone (k ()) (⟨.note (.win p), ()⟩ :: w) []
        (.op (.note .gameSet) s' fun _ => gameSetDisplay s') (⟨.note (.win p), ()⟩ :: w)
  /-- The winner is the same when the players have answered, and all of
  them have been told who it is. -/
  kept : ∀ tr r s w, Run anyone (displayedRound wall start s₀) [] tr (.ret r s) w →
    (∀ x ∈ tr, Ranged x.1 x.2) → Declares w s.winner ∧ Told s.winner w
  /-- Nothing keeps the round from this, if the players are polite and end
  every wait. -/
  goes_on : NeverStuck (within fun w => Woken w ∧ Polite w) Any (displayedRound wall start s₀) []

/-- In every round a declared winner really won, and the win is final. -/
theorem win_final (wall : Wall) (start : Seat) (s₀ : Game) : WonForGood wall start s₀ where
  rightful := by
    intro tr o s k w hrun hranged ho
    exact wp_op_obligation (wp_run rightful_round hrun hranged) ho
  ends := fun tr p s k w hrun => ends_of_win hrun
  kept := by
    intro tr r s w hrun hranged
    exact wp_ret_iff.mp (wp_run rightful_round hrun hranged)
  goes_on := (polite_displayedRound wall start).neverStuck s₀ []

end Round

instance : (o : SOp) → (s : Game) → Decidable (Ranged o s)
  | .note (.access .door _), _ => .isTrue trivial
  | .note (.access .shuffledMjs i), _ => inferInstanceAs (Decidable (i < 144))
  | .note (.access .decks i), _ => inferInstanceAs (Decidable (0 ≤ i ∧ i < (20 : Nat)))
  | .note (.access .flowers i), _ => inferInstanceAs (Decidable (0 ≤ i ∧ i < (8 : Nat)))
  | .note (.access .sea i), _ => inferInstanceAs (Decidable (0 ≤ i ∧ i < (150 : Nat)))
  | .note (.counts tiles), _ =>
      inferInstanceAs (Decidable (∀ m ∈ tiles, 0 ≤ tileIndex m ∧ tileIndex m < 34))
  | .note (.scan _ _), _ | .note (.print _ _ _), _ | .note (.draw _), _
  | .note (.othersreaction _), _ | .note (.accept _ _), _ | .note (.eatindex _ _ _), _
  | .note (.eat _ _ _), _ | .note (.invalid _), _ | .note (.discard _ _), _
  | .note (.win _), _ | .note .gameSet, _
  | .write _ _, _ | .readline _ _, _ | .select _, _ | .scanf, _ | .indeterminate, _
  | .exit, _ => .isTrue trivial

/-- Complete but for a 5 WAN. -/
def waiting : List Face :=
  [(1, 2), (1, 2), (2, 2), (2, 2), (2, 2), (2, 3), (2, 3), (2, 3),
    (2, 5), (2, 5), (2, 5), (2, 6), (2, 6), (2, 6), (3, 5), (3, 5)]

/-- Player 0 draws the 5 WAN that player 1 can win on, or pong. -/
def pongWall : Wall where
  tiles := stacked (arranged (fun p => if p = 1 then waiting else scattered) [(3, 5)])
  perm := by decide +kernel

def isGameSet : SOp → Bool
  | .note .gameSet => true
  | _ => false

set_option maxRecDepth 100000 in
/-- When player 1 passes the win, takes the tile for a triplet, and wins; and
when the four have been told. -/
theorem win_final_ponged : (∃ s w, Rightful (.note .gameSet) s w ∧ s.winner = 1)
    ∧ ∃ tr r s w, Run anyone (displayedRound pongWall 0 (Game.init [])) [] tr (.ret r s) w
      ∧ s.winner = 1 ∧ Told s.winner w := by
  constructor
  · have hreplay : (displayedRound pongWall 0 (Game.init [])).replay scripted
        (fun o s => decide (Ranged o s)) (fun _ o s => isGameSet o && s.winner == 1) 3000
        ((false, [str "16\n", str "no\n", str "YES!\n", str "YES!\n"]), []) = true := by
      decide +kernel
    obtain ⟨tr, o, s, k, w, hrun, hgoal, hranged⟩ :=
      scripted_run (fun _ o s => isGameSet o && s.winner == 1) hreplay
    simp only [Bool.and_eq_true, beq_iff_eq] at hgoal
    obtain rfl : o = .note .gameSet := by
      cases o with
      | note e => cases e <;> first | rfl | exact absurd hgoal.1 Bool.false_ne_true
      | _ => exact absurd hgoal.1 Bool.false_ne_true
    exact ⟨s, w, (win_final pongWall 0 _).rightful tr _ s k w hrun
      (fun x hx => of_decide_eq_true (hranged x hx)) trivial, hgoal.2⟩
  · have hreplay : (displayedRound pongWall 0 (Game.init [])).playOut scripted
        (fun o s => decide (Ranged o s)) (fun _ _ s => s.winner == 1) 3000
        ((false, [str "16\n", str "no\n", str "YES!\n", str "YES!\n"]), []) = true := by
      decide +kernel
    obtain ⟨tr, r, s, w, hrun, hwon, hranged⟩ :=
      scripted_return (fun _ _ s => s.winner == 1) hreplay
    have hkept := (win_final pongWall 0 (Game.init [])).kept tr r s w hrun
      fun x hx => of_decide_eq_true (hranged x hx)
    exact ⟨tr, r, s, w, hrun, beq_iff_eq.mp hwon, hkept.2⟩

end Mahjong.Server
