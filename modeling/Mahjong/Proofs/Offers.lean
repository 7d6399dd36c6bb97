/-
Who is offered a discard, who gets it, and whose turn comes next.

One pass of `othersreaction` offers the discard stage by stage
(`stages`), to each player who can claim it (`CanClaim`); the first who
says yes takes it. Claims follow one another in a chain (`Chained`), and
the turns of a round pass from the last discarder of a chain to the next
seat (`Turns`).

The runs are those that read no further than the wall goes.
-/
import Mahjong.Proofs.Ordinary

namespace Mahjong

-- ================================================================= what can be claimed

/-- What the rules of the game let the holder of `h` do with a discard. -/
def CanClaim : Claim → List Mj → Mj → Prop
  | .hu, h, t => Complete ((h.length - 1) / 3) (t.face ::ₘ faces h)
  | .gang, h, t => 3 ≤ (faces h).count t.face
  | .pong, h, t => 2 ≤ (faces h).count t.face
  | .eat, h, t => t.type ≠ dazi ∧ CanEat (faces h) t.face
  | .quietGang, _, _ => False

namespace Server

open Process CString

/-- The tests of the four claims are those of the rules. -/
theorem possible_iff {pl : Player} {s : Game} {h : List Mj} (hp : InHand pl h)
    (ht : s.discardedMj.Real) (c : Claim) :
    possible c pl s = true ↔ CanClaim c h s.discardedMj := by
  obtain ⟨rest, hd, hrest⟩ := hp.slots
  have hcap := hp.capacity
  have htake : pl.decks.take pl.normalCapacity = h := by rw [hd, hcap, List.take_left]
  have hreal : ∀ m ∈ pl.decks.take pl.normalCapacity, m.Real := htake ▸ hp.hand.real
  obtain ⟨k, hk, -⟩ := hp.sets
  have hlen := hp.length
  cases c with
  | hu =>
      have h3 : pl.normalCapacity = 3 * ((h.length - 1) / 3) + 1 := by omega
      refine (isAddHuPossible_complete h3 (by omega) hreal ht).trans ?_
      rw [htake]
      exact Iff.rfl
  | gang =>
      rw [possible, isGangPossible, htake, countAt_countTable hp.hand.real ht,
        decide_eq_true_eq]
      exact Iff.rfl
  | pong =>
      rw [possible, isPongPossible, htake, countAt_countTable hp.hand.real ht,
        decide_eq_true_eq]
      exact Iff.rfl
  | eat =>
      by_cases hsuit : s.discardedMj.type = dazi
      · rw [possible, isEatPossible, if_pos hsuit]
        exact ⟨fun h => absurd h Bool.false_ne_true, fun h => absurd hsuit h.1⟩
      · refine (isEatPossible_iff hreal ht hsuit).trans ?_
        rw [htake]
        exact ⟨fun h => ⟨hsuit, h⟩, And.right⟩
  | quietGang => exact ⟨fun h => absurd h Bool.false_ne_true, False.elim⟩

-- ================================================================== within the wall

/-- A run reads no further than the wall goes. -/
def InWall (o : SOp) (_ : Game) : Prop := ∀ i, o = .note (.access .shuffledMjs i) → i < 144

theorem inWall_feed {b : Seat → Nat} {P : SOp → Game → Log → Prop}
    (hread : ∀ i s w, Below b s → P (.note (.access .shuffledMjs i)) s w) :
    Feed b InWall P fun _ => True where
  draw := fun _ _ _ => trivial
  read := by
    intro s w hlen hu _ hin
    refine ⟨fun hnil => ?_, hread _ s w hu⟩
    have hlt := hin _ rfl
    have hle := List.drop_eq_nil_iff.mp hnil
    omega
  next := fun _ _ _ _ => trivial

-- ==================================================================== the offers

theorem offer_not_mute {c : Claim} (h : c ≠ .quietGang) : mute (offer c) = false := by
  cases c <;> first | rfl | exact absurd rfl h

theorem offer_injective : ∀ {c c' : Claim}, offer c = offer c' → c = c' := by
  intro c c' h
  cases c <;> cases c' <;> first | rfl | exact absurd h (by decide)

theorem offer_ne_unwanted (c : Claim) : offer c ≠ str "no one wants it.\n" := by
  cases c <;> decide

theorem announce_take (p : Seat) (what : String) :
    (announce p what).take 2 = ['(', 'A'] := rfl

theorem offer_ne_announce (c : Claim) (p : Seat) (what : String) :
    announce p what ≠ offer c := by
  intro h
  have htake := announce_take p what
  rw [h] at htake
  revert htake
  cases c <;> decide

/-- A question is a stage's, all earlier stages have been passed over and
nothing has been changed; and only the discarder is told that nobody
wants the tile, when all have. -/
def Offered (d : Seat) (s : Game) (w : Log) : SOp → Game → Log → Prop
  | .write p l, s', w' =>
      (∀ c, c ≠ .quietGang → l = offer c → ∃ xs k ys w₁, stages = xs ++ (c, k) :: ys
        ∧ PassedAll s d xs (entered d w) w₁ ∧ possible c (s.players p) s = true
        ∧ p = d + k ∧ s' = s ∧ w' = counted p s w₁)
      ∧ (l = str "no one wants it.\n" → p = d ∧ s' = s
        ∧ PassedAll s d stages (entered d w) w')
  | _, _, _ => True

section Pass

variable {d : Seat} {s : Game} {w : Log}

theorem offered_of {p : Seat} {l : Line} {s' : Game} {w' : Log}
    (hoffer : ∀ c, c ≠ .quietGang → l ≠ offer c) (hno : l ≠ str "no one wants it.\n") :
    Offered d s w (.write p l) s' w' :=
  ⟨fun c hc he => absurd he (hoffer c hc), fun he => absurd he hno⟩

theorem offered_announce {p q : Seat} {what : String} {s' : Game} {w' : Log} :
    Offered d s w (.write q (announce p what)) s' w' := by
  refine offered_of (fun c _ => offer_ne_announce c p what) fun he => ?_
  have htake := announce_take p what
  rw [he] at htake
  exact absurd htake (by decide)

theorem offered_light {b : Seat → Nat} : Light b (Offered d s w) where
  quiet := by
    constructor
    · decide
    · exact fun _ _ _ _ h _ => h
    · intro p l s' w' hl _
      refine offered_of (fun c hc he => ?_) fun he => ?_
      · exact Bool.false_ne_true ((offer_not_mute hc).symm.trans (he ▸ hl))
      · rw [he] at hl
        exact absurd hl (by decide)
    all_goals
      intros
      trivial
  access := fun _ _ _ _ _ _ => trivial
  counts := fun _ _ _ _ => trivial
  win := fun _ _ _ _ => trivial
  print := fun _ _ _ _ _ _ => trivial
  quietGang := fun _ _ _ _ _ => offered_announce

theorem offered_watch : Watch (Offered d s w) d s w where
  offer := by
    rintro xs ⟨c, k⟩ ys w₁ hstages hpassed hpos
    refine ⟨fun c' _ he => ?_, fun he => ?_⟩
    · obtain rfl := offer_injective he
      exact ⟨xs, k, ys, w₁, hstages, hpassed, hpos, rfl, rfl, rfl⟩
    · exact absurd he (offer_ne_unwanted c)
  gang := fun _ _ _ _ _ => offered_announce
  pong := fun _ _ _ _ _ => offered_announce
  eat := fun _ _ _ _ _ _ => offered_announce
  unwanted := by
    intro w₁ hpassed
    exact ⟨fun c _ he => absurd he.symm (offer_ne_unwanted c), fun _ => ⟨rfl, rfl, hpassed⟩⟩

end Pass

-- ================================================================== chains and turns

/-- From the discard of `d₀` with the table `s₀`, claim upon claim, to a
discard of `d` with the table `s`. -/
inductive Chained (d₀ : Seat) (s₀ : Game) : Seat → Game → Prop
  | refl : Chained d₀ s₀ d₀ s₀
  | claim {d k : Seat} {s t : Game} {c : Claim} {i : Int} (h : Chained d₀ s₀ d s)
      (hc : Claims s (d + k) c t) : Chained d₀ s₀ (d + k) (t.discarded (d + k) i)

/-- The player `p` draws, perhaps lays a quiet gang down, and discards. -/
def Discards (p : Seat) (s s' : Game) : Prop :=
  ∃ flowers x i t, s' = Game.discarded t p i ∧ (t = s.drew p flowers x
    ∨ t = ((s.drew p flowers x).update p quietGangTiles).clearDiscarded)

/-- From the turn of `p₀` with the table `s₀` to the turn of `p` with the
table `s`: the seat behind the last discarder, whose tile nobody wanted. -/
inductive Turns (p₀ : Seat) (s₀ : Game) : Seat → Game → Prop
  | first : Turns p₀ s₀ p₀ s₀
  | next {p d : Seat} {s s₁ s₂ : Game} (h : Turns p₀ s₀ p s) (hturn : Discards p s s₁)
      (hchain : Chained p s₁ d s₂) (hwall : s₂.takeIndex ≠ 144) :
      Turns p₀ s₀ (d + 1) (unwanted s₂ d)

theorem PassEnds.chained {d₀ d q : Seat} {s₀ s s' : Game} {w w' : Log}
    (h : PassEnds s d w (.recurse q) s' w') (hc : Chained d₀ s₀ d s) :
    Chained d₀ s₀ q s' := by
  rcases h with ⟨ho, -⟩ | ⟨xs, x, ys, w₁, -, -, -, ⟨-, ho, -⟩ | ⟨t, ht, he⟩⟩
  · exact nomatch ho
  · exact nomatch ho
  · rcases he with ⟨ho, -⟩ | ⟨ho, i, -, rfl⟩
    · exact nomatch ho
    · cases ho
      exact hc.claim ht

theorem Chained.winner {d₀ d : Seat} {s₀ s : Game} (h : Chained d₀ s₀ d s) :
    s.winner = s₀.winner := by
  induction h with
  | refl => rfl
  | claim _ hc ih =>
      refine Eq.trans ?_ ih
      cases hc <;> rfl

/-- A pass that ends without a win ends with a tile nobody wanted. -/
theorem PassEnds.unwanted {d q : Seat} {r : Int} {s s' : Game} {w w' : Log}
    (h : PassEnds s d w (.done r q) s' w') (hwin : s'.winner = -1) :
    q = d ∧ r = 0 ∧ s' = unwanted s d := by
  rcases h with ⟨ho, hs, -⟩ | ⟨xs, x, ys, w₁, -, -, -, ⟨-, -, rfl⟩ | ⟨t, ht, he⟩⟩
  · cases ho
    exact ⟨rfl, rfl, hs⟩
  · exact absurd hwin (by simp only; omega)
  · rcases he with ⟨-, rfl⟩ | ⟨ho, -⟩
    · exact absurd hwin (by simp only; omega)
    · exact nomatch ho

section Chain

variable {g : Nat → Nat} {A : SOp → Game → Prop} {P : SOp → Game → Log → Prop}
  {Fed : List Mj → Prop} {d₀ d : Seat} {s₀ s : Game} {w : Log}

/-- A chain without a win ends with the last discarder. -/
theorem twp_chained (hl : Light (fun _ => 16) P) (hf : Feed (fun _ => 16) A P Fed)
    (hmark : ∀ d s w, P (.note (.othersreaction d)) s w)
    (hwatch : ∀ d s w, Watch P d s w) (hs : Slots s) :
    twp (within (patient g)) A P (othersreaction d s)
      (fun r s' _ => Slots s' ∧ (s'.winner = -1 → r.1 = 0
        ∧ ∃ s₁, Chained d s r.2 s₁ ∧ s' = unwanted s₁ r.2)) w := by
  refine (twp_othersreaction (fun d' s' _ => Chained d s d' s') ?_ hs .refl).mono ?_
  · intro d' s' w' hs' hc
    refine (twp_reaction hl hf hs' (below_sixteen hs') (hmark _ _ _) (hwatch _ _ _)).mono ?_
    rintro o s'' w'' h
    refine ⟨h, ?_⟩
    rintro q rfl
    exact h.chained hc
  · rintro ⟨r, q⟩ s' w' ⟨nested, d₁, s₁, w₁, r₁, hs₁, hc, h, hr⟩
    refine ⟨h.slots hs₁, fun hwin => ?_⟩
    obtain ⟨rfl, rfl, rfl⟩ := h.unwanted hwin
    refine ⟨?_, s₁, hc, rfl⟩
    rw [hr]
    split <;> rfl

end Chain

/-- Something is shown where a certain line is written. -/
def AtLine (l : Line) (R : Seat → Game → Prop) (o : SOp) (s : Game) (_ : Log) : Prop :=
  ∀ q, o = .write q l → R q s

section AtLine

variable {l : Line} {R : Seat → Game → Prop} {d : Seat} {s : Game} {w : Log}

theorem atLine_of_ne {p : Seat} {l' : Line} (h : l' ≠ l) : AtLine l R (.write p l') s w := by
  rintro q he
  cases he
  exact absurd rfl h

theorem atLine_light {b : Seat → Nat} (hl : mute l = false)
    (hquiet : ∀ p, announce p " quietly-ganged something...\n" ≠ l) :
    Light b (AtLine l R) where
  quiet := by
    have hne : ∀ {l'}, Mute l' → l' ≠ l := by
      rintro l' hm rfl
      exact Bool.false_ne_true (hl.symm.trans hm)
    refine ⟨by decide, fun _ _ _ _ h _ => h, fun _ _ _ _ hm _ => atLine_of_ne (hne hm), ?_,
      ?_, ?_, ?_, ?_⟩
    all_goals
      intros
      exact fun _ h => nomatch h
  access := fun _ _ _ _ _ _ _ h => nomatch h
  counts := fun _ _ _ _ _ h => nomatch h
  win := fun _ _ _ _ _ h => nomatch h
  print := fun _ _ _ _ _ _ _ h => nomatch h
  quietGang := fun _ p _ _ _ => atLine_of_ne (hquiet p)

end AtLine

/-- The turns of a round pass to the seat behind the last discarder, until
there is a winner or the wall is used up. -/
theorem wp_turns_next {g : Nat → Nat} {p₀ : Seat} {s₀ : Game} {w : Log} (hs : Slots s₀) :
    wp (within (patient g)) InWall (AtLine (str "your turn\n") (Turns p₀ s₀))
      (turns p₀ s₀) (fun _ s' _ => s'.winner ≠ -1 ∨ s'.takeIndex = 144) w := by
  have hlight : Light (fun _ => 16) (AtLine (str "your turn\n") (Turns p₀ s₀)) :=
    atLine_light (by decide) (by decide)
  have hfeed : Feed (fun _ => 16) InWall (AtLine (str "your turn\n") (Turns p₀ s₀))
      fun _ => True := inWall_feed fun _ _ _ _ _ h => nomatch h
  have hannounce : ∀ (p q : Seat) (what : String) s w,
      AtLine (str "your turn\n") (Turns p₀ s₀) (.write q (announce p what)) s w := by
    intro p q what s w
    refine atLine_of_ne fun he => ?_
    have htake := announce_take p what
    rw [he] at htake
    exact absurd htake (by decide)
  have hwatch : ∀ d s w, Watch (AtLine (str "your turn\n") (Turns p₀ s₀)) d s w := by
    intro d s w
    refine ⟨fun _ x _ _ _ _ _ => atLine_of_ne ?_, fun _ _ _ _ _ => hannounce _ _ _ _ _,
      fun _ _ _ _ _ => hannounce _ _ _ _ _, fun _ _ _ _ _ _ => hannounce _ _ _ _ _,
      fun _ _ => atLine_of_ne (by decide)⟩
    cases x.1 <;> decide
  refine wp_iterate (fun p s (_ : Log) => Slots s ∧ (s.winner = -1 → Turns p₀ s₀ p s)) ?_
    ⟨hs, fun _ => .first⟩
  rintro p s w ⟨hs, hturns⟩
  refine wp_get_seq ?_
  split
  next hwin =>
    have hturn : AtLine (str "your turn\n") (Turns p₀ s₀) (.write p (str "your turn\n")) s w := by
      rintro q he
      cases he
      exact hturns hwin
    refine wp_seq ((twp_drawNDiscard hlight hfeed.toSupply (hs.fits p) (below_sixteen hs)
      (hfeed.draw _ _) hturn).wp.mono ?_)
    rintro r s' w' ⟨⟨flowers, x, rest, _, _, hwall, -, -, -, hends⟩, -⟩
    rcases hends with ⟨rfl, -, rfl⟩ | ⟨rfl, i, t, -, rfl, ht⟩
    · exact wp_pure (Or.inl (by show (p.val : Int) ≠ -1; omega))
    have hdrew := hs.drew (p := p) hwall
    have ht' : Slots t := by
      rcases ht with rfl | ht
      · exact hdrew
      · exact ht.1.slots hdrew
    have hdiscards : Discards p s (t.discarded p i) :=
      ⟨flowers, x, i, t, rfl, ht.imp_right fun h => h.1.2.2⟩
    refine wp_seq ((twp_chained hlight hfeed (fun _ _ _ _ h => nomatch h) hwatch
      (ht'.discarded p i)).wp.mono ?_)
    rintro ⟨r, q⟩ s'' w'' ⟨hs'', hend⟩
    split
    next hone =>
      refine wp_pure (Or.inl fun hwin' => ?_)
      have hzero : r = 0 := (hend hwin').1
      exact absurd (hzero.symm.trans hone) (by decide)
    next =>
      refine wp_get_seq ?_
      split
      next hused => exact wp_pure (Or.inr hused)
      next hne =>
        refine wp_pure ⟨hs'', fun hwin' => ?_⟩
        obtain ⟨-, s₁, hc, rfl⟩ := hend hwin'
        exact .next (hturns hwin) hdiscards hc hne
  next hwin => exact wp_pure (Or.inl hwin)

-- ================================================================== the right claimant

/-- A program that comes to its end: it does not run for ever if every eat
prompt is answered at last, and it is not stuck while the players are
polite. -/
structure ComesToEnd {α : Type} (m : Server α) (s : Game) : Prop where
  finite : ∀ f : Nat → Proc SOp IoOp.Res Game α × Log, f 0 = (m s, []) →
    Answered (fun n => (f n).2) → ¬ ∀ n, Step anyone InWall (f n) (f (n + 1))
  goes_on : NeverStuck (within Polite) InWall (m s) []

theorem comesToEnd {α : Type} {m : Server α} {s : Game} (hm : ∀ g,
      twp (within (patient g)) InWall (fun _ _ _ => True) (m s) (fun _ _ _ => True) [])
    (hgo : GoesOn Polite m) : ComesToEnd m s := by
  refine ⟨fun f h0 hanswered hstep => ?_, hgo.neverStuck s []⟩
  obtain ⟨g, hg⟩ := hanswered.patient fun n => eats_step_le (hstep n)
  exact (hm g).no_infinite_run f h0 fun n => step_patient (hstep n) (hg (n + 1))

/-- How a discard of `d` is disposed of at the table `s`, where the players
hold the hands `h`. -/
structure Disposed (d : Seat) (s : Game) (h : Seat → List Mj) : Prop where
  /-- A claim is possible when the rules of the game allow it. -/
  possible : ∀ c q, possible c (s.players q) s = true ↔ CanClaim c (h q) s.discardedMj
  /-- Questions come in order, to those who can claim the tile, while
  nobody has taken it; only the discarder hears that nobody has. -/
  offers : ∀ tr p l s' k w, Run anyone (reaction d s) [] tr (.op (.write p l) s' k) w →
    (∀ x ∈ tr, InWall x.1 x.2) → Offered d s [] (.write p l) s' w
  /-- Every claim that is possible is offered, up to the first yes; that
  player takes the tile, or else it goes to the discarder's sea and the
  discarder hears of it. -/
  pass : ∀ tr o s' w, Run anyone (reaction d s) [] tr (.ret o s') w →
    (∀ x ∈ tr, InWall x.1 x.2) → PassEnds s d [] o s' w
  pass_ends : ComesToEnd (reaction d) s
  /-- A chain of claims without a win ends at the seat of the last
  discarder, and with the last discard in the sea there. -/
  chain : ∀ tr r q s' w, Run anyone (othersreaction d s) [] tr (.ret (r, q) s') w →
    (∀ x ∈ tr, InWall x.1 x.2) → s'.winner = -1 →
    r = 0 ∧ ∃ s₁, Chained d s q s₁ ∧ s' = unwanted s₁ q
  chain_ends : ComesToEnd (othersreaction d) s
  /-- The next turn is that of the seat behind it. -/
  turns : ∀ p s₀, Slots s₀ → ∀ tr q s' k w,
    Run anyone (turns p s₀) [] tr (.op (.write q (str "your turn\n")) s' k) w →
    (∀ x ∈ tr, InWall x.1 x.2) → Turns p s₀ q s'
  /-- There is one unless there is a winner or the wall is used up. -/
  turns_end : ∀ p s₀, Slots s₀ → ∀ tr s' w, Run anyone (Server.turns p s₀) [] tr (.ret () s') w →
    (∀ x ∈ tr, InWall x.1 x.2) → s'.winner ≠ -1 ∨ s'.takeIndex = 144
  turns_go_on : ∀ p s₀, NeverStuck (within Polite) InWall (Server.turns p s₀) []

/-- Every discard at a table in order goes to the right claimant, and the
turn continues from the right seat. -/
theorem right_claimant {d : Seat} {s : Game} {h : Seat → List Mj}
    (hands : ∀ q, InHand (s.players q) (h q)) (hwall : s.shuffledMjs.length = 144)
    (htake : s.takeIndex ≤ 144) (ht : s.discardedMj.Real) : Disposed d s h := by
  have hs : Slots s := by
    refine ⟨hwall, htake, fun q => (hands q).length, fun q => ?_⟩
    obtain ⟨k, hk, -⟩ := (hands q).sets
    exact ⟨k, by rw [(hands q).capacity, hk]⟩
  have hfeed : Feed (fun _ => 16) InWall (fun _ _ _ => True) fun _ => True :=
    inWall_feed fun _ _ _ _ => trivial
  have hpass : ∀ g, twp (within (patient g)) InWall (fun _ _ _ => True) (reaction d s)
      (fun o s' w' => PassEnds s d [] o s' w') [] := fun _ =>
    twp_reaction free_light hfeed hs (below_sixteen hs) trivial free_watch
  have hchain : ∀ g, twp (within (patient g)) InWall (fun _ _ _ => True) (othersreaction d s)
      _ [] := fun _ =>
    twp_chained free_light hfeed (fun _ _ _ => trivial) (fun _ _ _ => free_watch) hs
  have hgo := polite_closed polite_courteous
  have hwin : ∀ q, GoesOn Polite (Io.note (.win q)) := fun q => polite_mark polite_courteous _
  constructor
  case possible => exact fun c q => possible_iff (hands q) ht c
  case offers =>
    intro tr p l s' k w hrun hin
    obtain ⟨g, hrun⟩ := Run.patient hrun
    have hfeed : Feed (fun _ => 16) InWall (Offered d s []) fun _ => True :=
      inWall_feed fun _ _ _ _ => trivial
    have hpass : twp (within (patient g)) InWall (Offered d s []) (reaction d s) _ [] :=
      twp_reaction offered_light hfeed hs (below_sixteen hs) trivial offered_watch
    have hoffered := wp_op_obligation (wp_run hpass.wp hrun hin) fun i he => nomatch he
    exact hoffered
  case pass =>
    intro tr o s' w hrun hin
    obtain ⟨g, hrun⟩ := Run.patient hrun
    have hends := wp_ret_iff.mp (wp_run (hpass g).wp hrun hin)
    exact hends
  case pass_ends =>
    exact comesToEnd (fun g => (hpass g).mono fun _ _ _ _ => trivial) (hgo.reaction hwin d)
  case chain =>
    intro tr r q s' w hrun hin hwon
    obtain ⟨g, hrun⟩ := Run.patient hrun
    exact (wp_ret_iff.mp (wp_run (hchain g).wp hrun hin)).2 hwon
  case chain_ends =>
    exact comesToEnd (fun g => (hchain g).mono fun _ _ _ _ => trivial)
      (hgo.othersreaction hwin d)
  case turns =>
    intro p s₀ hs₀ tr q s' k w hrun hin
    obtain ⟨g, hrun⟩ := Run.patient hrun
    have hturns := wp_run (wp_turns_next (g := g) (w := []) hs₀) hrun hin
    exact wp_op_obligation hturns (fun i he => nomatch he) q rfl
  case turns_end =>
    intro p s₀ hs₀ tr s' w hrun hin
    obtain ⟨g, hrun⟩ := Run.patient hrun
    exact wp_ret_iff.mp (wp_run (wp_turns_next (g := g) (w := []) hs₀) hrun hin)
  case turns_go_on => exact fun p s₀ => (hgo.turns p hwin).neverStuck s₀ []

/-- Everybody holds three copies of the tile on the table. -/
def claimTable : Game :=
  { Game.init unshuffled.tiles with
    takeIndex := 64
    discardedMj := ⟨tong, 5, 0⟩
    players := fun _ => gangPlayer }

instance (o : SOp) (s : Game) : Decidable (InWall o s) :=
  match o with
  | .note (.access .shuffledMjs i) =>
      decidable_of_iff (i < 144) ⟨fun h j he => by cases he; exact h, fun h => h i rfl⟩
  | .note (.access .decks _) | .note (.access .flowers _) | .note (.access .door _)
  | .note (.access .sea _) | .note (.scan _ _) | .note (.print _ _ _) | .note (.counts _)
  | .note (.draw _) | .note (.othersreaction _) | .note (.accept _ _)
  | .note (.eatindex _ _ _) | .note (.eat _ _ _) | .note (.invalid _) | .note (.discard _ _)
  | .note (.win _) | .note .gameSet | .write _ _ | .readline _ _ | .select _ | .scanf
  | .indeterminate | .exit => .isTrue fun _ he => nomatch he

/-- A pass at this table that ends so, answered from the list. -/
theorem claimTable_pass (lines : List Line) (o : Outcome) (said : List (Seat × Line))
    (h : (reaction 2 claimTable).playOut scripted (fun o s => decide (InWall o s))
      (fun t o' _ => decide (o' = o ∧ answers t.2 = said)) 400 ((false, lines), []) = true) :
    ∃ tr s' w, Run anyone (reaction 2 claimTable) [] tr (.ret o s') w ∧ answers w = said
      ∧ ∀ x ∈ tr, InWall x.1 x.2 := by
  obtain ⟨tr, o', s', w, hrun, hgood, hin⟩ :=
    scripted_return (fun w o' _ => decide (o' = o ∧ answers w = said)) h
  obtain ⟨rfl, hsaid⟩ := of_decide_eq_true hgood
  exact ⟨tr, s', w, hrun, hsaid, fun x hx => of_decide_eq_true (hin x hx)⟩

set_option maxRecDepth 100000 in
/-- All refuse a gang and a pong, and player 2 hears of it; or player 0
takes the tile for a pong, behind four refusals, and discards slot 3. -/
theorem right_claimant_three_copies :
    (∃ tr s' w, Run anyone (reaction 2 claimTable) [] tr (.ret (.done 0 2) s') w
      ∧ answers w = [1, 0, 3, 1, 0, 3].map (fun p => (p, str "16\n"))
      ∧ PassEnds claimTable 2 [] (.done 0 2) s' w)
    ∧ ∃ tr s' w, Run anyone (reaction 2 claimTable) [] tr (.ret (.recurse 0) s') w
      ∧ answers w = (0, str "3\n") :: (0, yes) :: [3, 1, 0, 3].map (fun p => (p, str "no\n"))
      ∧ PassEnds claimTable 2 [] (.recurse 0) s' w := by
  have hdisposed : Disposed 2 claimTable fun _ => gangHand :=
    right_claimant (fun _ => gangPlayer_inHand) (by decide +kernel) (by decide) (by decide)
  constructor
  · obtain ⟨tr, s', w, hrun, hsaid, hin⟩ := claimTable_pass [] (.done 0 2)
      ([1, 0, 3, 1, 0, 3].map fun p => (p, str "16\n")) (by decide +kernel)
    exact ⟨tr, s', w, hrun, hsaid, hdisposed.pass tr _ s' w hrun hin⟩
  · obtain ⟨tr, s', w, hrun, hsaid, hin⟩ := claimTable_pass
      [str "no\n", str "no\n", str "no\n", str "no\n", yes, str "3\n"] (.recurse 0)
      ((0, str "3\n") :: (0, yes) :: [3, 1, 0, 3].map fun p => (p, str "no\n"))
      (by decide +kernel)
    exact ⟨tr, s', w, hrun, hsaid, hdisposed.pass tr _ s' w hrun hin⟩

-- ============================================================ what a claimant is left with

section Partial

variable {ok : Log → Prop} {A : SOp → Game → Prop} {P : SOp → Game → Log → Prop}
  {b : Seat → Nat} {s : Game} {w : Log} {p : Seat}

/-- A draw at any table, however far the wall goes. -/
theorem wp_draw_below (hl : Light b P)
    (hread : ∀ i s w, P (.note (.access .shuffledMjs i)) s w) (hu : Below b s) :
    wp (within ok) A P (draw p s) (fun _ s' _ => Below b s') w := by
  have htell : ∀ {s : Game} {w : Log}, Below b s →
      wp (within ok) A P (tellDrawn p s) (fun _ s' _ => Below b s') w := fun hu =>
    wp_player_seq (wp_writeMessageWaitAck hl.quiet hu (mute_decimal _ _) fun _ => hu)
  have htake : ∀ {s : Game} {i : Nat} {w : Log}, Below b s →
      wp (within ok) A P (takeInto p i s) (fun _ s' _ => Below b s') w := by
    intro s i w hu
    refine wp_takeInto fun _ => ⟨hread _ _ _, fun _ => ⟨hl.access _ _ _ _ (by decide) hu, ?_⟩⟩
    exact hu.update (f := fun pl => pl.setDeck i s.next) (Nat.le_refl _)
  refine wp_seq (wp_note fun _ => ⟨hl.quiet.note _ _ _ rfl hu, ?_⟩)
  refine wp_player_seq (wp_seq ((htake hu).mono fun _ s₁ w₁ hu₁ => ?_))
  refine wp_seq ((htell hu₁).mono fun _ s₂ w₂ hu₂ => ?_)
  refine wp_forever (fun s _ => Below b s) ?_ hu₂
  intro s w hu
  refine wp_player_seq ?_
  split
  next =>
    refine wp_seq (wp_layFlower fun _ => ⟨hl.access _ _ _ _ (by decide) hu, ?_⟩)
    have hu' : Below b (s.update p fun pl => pl.pushFlower
        (pl.deck (s.players p).normalCapacity)) := hu.update (Nat.le_refl _)
    refine wp_seq ((htake hu').mono fun _ s₁ w₁ hu₁ => ?_)
    exact wp_seq ((htell hu₁).mono fun _ s₂ w₂ hu₂ => wp_pure hu₂)
  next => exact wp_pure hu

/-- A claim block, when only what happens after a yes matters. -/
theorem wp_block (hl : Light b P) (hu : Below b s) (c : Claim)
    {body : Game → Server (Option Outcome)}
    (hoffer : ∀ w, P (.write p (offer c)) s w)
    (hbody : possible c (s.players p) s = true → ∀ w,
      wp (within ok) A P (body s s) (fun _ _ _ => True) w) :
    wp (within ok) A P ((do
      let s ← Prog.get
      let pl ← player p
      Io.note (.counts (claimTiles pl s))
      if possible c pl s then do
        if ← ask p (offer c) then body s else pure none
      else pure none : Server (Option Outcome)) s) (fun _ _ _ => True) w := by
  refine wp_get_seq (wp_player_seq (wp_seq (wp_note fun _ => ⟨hl.counts _ _ _ hu, ?_⟩)))
  cases hpos : possible c (s.players p) s with
  | true =>
      rw [if_pos rfl]
      refine wp_seq (twp_ask' hl.quiet hu (hoffer _) fun answer ack => ?_).wp
      cases isYes answer with
      | true => exact hbody hpos _
      | false => exact wp_pure trivial
  | false =>
      rw [if_neg Bool.false_ne_true]
      exact wp_pure trivial

/-- The tiles are laid down, announced, and the rest follows. -/
theorem wp_laying (hl : Light b P) (hu : Below b s) {c : Claim} {n : Nat}
    {f : Player → Player} {what : String} {rest : Server (Option Outcome)}
    (hf : Reshaped (s.players p) (f (s.players p)) 3)
    (hannounce : ∀ q w, P (.write q (announce p what)) (s.update p f) w)
    (hrest : ∀ s w, Below b s → wp (within ok) A P (rest s) (fun _ _ _ => True) w) :
    wp (within ok) A P ((do
      Io.note (.accept c p)
      accessDoor p n
      update p f
      toOthers p (announce p what)
      Prog.modify Game.clearDiscarded
      rest : Server (Option Outcome)) s) (fun _ _ _ => True) w := by
  have hu' : Below b (s.update p f) := hu.update hf.capacity_le
  refine wp_seq (wp_note fun _ => ⟨hl.quiet.note _ _ _ rfl hu, ?_⟩)
  refine wp_seq (twp_accessDoor hl hu fun w₁ _ _ => ?_).wp
  refine wp_modify_seq (wp_seq (twp_toOthers hl hu' (announce_ne_ack _ _) hannounce
    fun w₂ _ _ => ?_).wp)
  exact wp_modify_seq (hrest _ _ hu')

end Partial

theorem announce_ne_offer (c : Claim) (p : Seat) (what : String) :
    offer c ≠ announce p what := fun h => offer_ne_announce c p what h.symm

/-- The block of a gang or a pong: what is counted and offered, the tiles
laid down, the announcement, and what follows. -/
def layingBlock (p : Seat) (c : Claim) (n : Nat) (f : Mj → Player → Player) (what : String)
    (rest : Server (Option Outcome)) : Server (Option Outcome) := do
  let s ← Prog.get
  let pl ← player p
  Io.note (.counts (claimTiles pl s))
  if possible c pl s then do
    if ← ask p (offer c) then do
      Io.note (.accept c p)
      accessDoor p n
      update p (f s.discardedMj)
      toOthers p (announce p what)
      Prog.modify Game.clearDiscarded
      rest
    else pure none
  else pure none

theorem gangClaim_eq (d k : Seat) : gangClaim d k = layingBlock (d + k) .gang 4 gangTiles
    " ganged it\n" (do draw (d + k); huOrDiscard (d + k)) := rfl

theorem pongClaim_eq (d k : Seat) : pongClaim d k = layingBlock (d + k) .pong 3 pongTiles
    " ponged it\n" (huOrDiscard (d + k)) := rfl

section Compact

variable {s : Game} {p : Seat} {h : List Mj}

/-- The table that a block announces is the one on which the tiles have
been laid down. -/
theorem announced_laid {c : Claim} {n : Nat} {f : Mj → Player → Player} {what : String}
    {rest : Server (Option Outcome)} (R : Game → Prop)
    (hquiet : ∀ q, announce q " quietly-ganged something...\n" ≠ announce p what)
    (hf : Reshaped (s.players p) (f s.discardedMj (s.players p)) 3)
    (hR : possible c (s.players p) s = true → R (s.update p (f s.discardedMj)))
    (hrest : ∀ {P : SOp → Game → Log → Prop} {b : Seat → Nat}, Light b P →
      (∀ i s w, P (.note (.access .shuffledMjs i)) s w) → ∀ (s : Game) (w : Log), Below b s →
      wp anyone (fun _ _ => True) P (rest s) (fun _ _ _ => True) w)
    {w₀ w : Log} {tr : List (SOp × Game)} {q : Seat} {s' : Game}
    {k : Unit → Proc SOp IoOp.Res Game (Option Outcome)}
    (hrun : Run anyone (layingBlock p c n f what rest s) w₀ tr
      (.op (.write q (announce p what)) s' k) w) : R s' := by
  have hu : Below (fun q => (s.players q).normalCapacity) s := fun q => Nat.le_refl _
  have hl : Light (fun q => (s.players q).normalCapacity)
      (AtLine (announce p what) fun _ => R) := atLine_light rfl hquiet
  have hwp : wp anyone (fun _ _ => True) (AtLine (announce p what) fun _ => R)
      (layingBlock p c n f what rest s) (fun _ _ _ => True) w₀ :=
    wp_block hl hu c (fun w => atLine_of_ne (announce_ne_offer _ _ _)) fun hpos w =>
      wp_laying hl hu hf (fun _ _ _ _ => hR hpos) (hrest hl fun _ _ _ _ h => nomatch h)
  exact wp_op_obligation (wp_run hwp hrun fun _ _ => trivial) trivial q rfl

variable {d k : Seat}

/-- A gang is announced with the four copies on the door and the hand
whole, a pong with the three, and nobody else's part is changed. -/
theorem claims_compact (hp : InHand (s.players (d + k)) h) (ht : s.discardedMj.Real)
    {w₀ : Log} :
    (∀ tr q s' c w, Run anyone (gangClaim d k s) w₀ tr
        (.op (.write q (announce (d + k) " ganged it\n")) s' c) w →
      LaidDown (s.players (d + k)) (s'.players (d + k)) h (List.replicate 4 s.discardedMj)
        (Multiset.replicate 3 s.discardedMj.face) 0
        ∧ ∀ r, r ≠ d + k → s'.players r = s.players r)
    ∧ (∀ tr q s' c w, Run anyone (pongClaim d k s) w₀ tr
        (.op (.write q (announce (d + k) " ponged it\n")) s' c) w →
      LaidDown (s.players (d + k)) (s'.players (d + k)) h (List.replicate 3 s.discardedMj)
        (Multiset.replicate 2 s.discardedMj.face) 1
        ∧ ∀ r, r ≠ d + k → s'.players r = s.players r) := by
  have hgang : ∀ p q : Seat, announce p " quietly-ganged something...\n"
      ≠ announce q " ganged it\n" := by decide
  have hpong : ∀ p q : Seat, announce p " quietly-ganged something...\n"
      ≠ announce q " ponged it\n" := by decide
  have hcap : (s.players (d + k)).normalCapacity ≤ 16 := by
    obtain ⟨m, hm, -⟩ := hp.sets
    rw [hp.capacity]
    omega
  constructor
  · intro tr q s' c w hrun
    rw [gangClaim_eq] at hrun
    refine announced_laid (fun s' => LaidDown (s.players (d + k)) (s'.players (d + k)) h _ _ 0
      ∧ ∀ r, r ≠ d + k → s'.players r = s.players r) (hgang · _)
      (gangTiles_reshaped hp.length hcap _) (fun hpos => ?_) ?_ hrun
    · refine ⟨?_, fun r hr => Game.update_players_ne _ _ _ _ hr⟩
      rw [Game.update_players_self]
      exact hp.gangTiles ht ((possible_iff hp ht .gang).mp hpos)
    · intro P b hl hread s w hu
      refine wp_seq ((wp_draw_below hl hread hu).mono fun _ s₁ w₁ hu₁ => ?_)
      exact (twp_huOrDiscard hl hu₁).wp.mono fun _ _ _ _ => trivial
  · intro tr q s' c w hrun
    rw [pongClaim_eq] at hrun
    refine announced_laid (fun s' => LaidDown (s.players (d + k)) (s'.players (d + k)) h _ _ 1
      ∧ ∀ r, r ≠ d + k → s'.players r = s.players r) (hpong · _)
      (pongTiles_reshaped hp.length hcap _) (fun hpos => ?_) ?_ hrun
    · refine ⟨?_, fun r hr => Game.update_players_ne _ _ _ _ hr⟩
      rw [Game.update_players_self]
      exact hp.pongTiles ht ((possible_iff hp ht .pong).mp hpos)
    · intro P b hl hread s w hu
      exact (twp_huOrDiscard hl hu).wp.mono fun _ _ _ _ => trivial

/-- The `k`-th player after the discarder gangs at this table, and the
claim is laid down when it is announced. -/
def GangsAt (k : Seat) : Prop :=
  ∃ tr q s' c w, Run anyone (gangClaim 2 k claimTable) [] tr
    (.op (.write q (announce (2 + k) " ganged it\n")) s' c) w
      ∧ LaidDown (claimTable.players (2 + k)) (s'.players (2 + k)) gangHand
        (List.replicate 4 ⟨tong, 5, 0⟩) (Multiset.replicate 3 (tong, 5)) 0

/-- The same of a pong. -/
def PongsAt (k : Seat) : Prop :=
  ∃ tr q s' c w, Run anyone (pongClaim 2 k claimTable) [] tr
    (.op (.write q (announce (2 + k) " ponged it\n")) s' c) w
      ∧ LaidDown (claimTable.players (2 + k)) (s'.players (2 + k)) gangHand
        (List.replicate 3 ⟨tong, 5, 0⟩) (Multiset.replicate 2 (tong, 5)) 1

/-- The line is written in a run that begins with a yes. -/
def yesReaches (S : Proc SOp IoOp.Res Game (Option Outcome)) (l : Line) : Bool :=
  S.replay scripted (fun _ _ => true) (fun _ o _ => writes l o) 60 ((false, [yes]), [])

theorem exists_run_of_yesReaches {S : Proc SOp IoOp.Res Game (Option Outcome)} {l : Line}
    (h : yesReaches S l = true) : ∃ tr q s c w, Run anyone S [] tr (.op (.write q l) s c) w := by
  obtain ⟨tr, o, s, c, w, hrun, hl, -⟩ := scripted_run (fun _ o _ => writes l o) h
  cases o with
  | write q l' =>
      obtain rfl := beq_iff_eq.mp hl
      exact ⟨tr, q, s, c, w, hrun⟩
  | _ => exact absurd hl Bool.false_ne_true

/-- A player with three copies gangs, and pongs, wherever it sits. -/
theorem claims_compact_three_copies :
    (GangsAt 1 ∧ GangsAt 2 ∧ GangsAt 3) ∧ PongsAt 1 ∧ PongsAt 2 ∧ PongsAt 3 := by
  have hgang : ∀ k, yesReaches (gangClaim 2 k claimTable) (announce (2 + k) " ganged it\n") = true
      → GangsAt k := by
    intro k hyes
    obtain ⟨tr, q, s, c, w, hrun⟩ := exists_run_of_yesReaches hyes
    exact ⟨tr, q, s, c, w, hrun, ((claims_compact gangPlayer_inHand (by decide)).1
      tr q s c w hrun).1⟩
  have hpong : ∀ k, yesReaches (pongClaim 2 k claimTable) (announce (2 + k) " ponged it\n") = true
      → PongsAt k := by
    intro k hyes
    obtain ⟨tr, q, s, c, w, hrun⟩ := exists_run_of_yesReaches hyes
    exact ⟨tr, q, s, c, w, hrun, ((claims_compact gangPlayer_inHand (by decide)).2
      tr q s c w hrun).1⟩
  exact ⟨⟨hgang 1 (by decide +kernel), hgang 2 (by decide +kernel), hgang 3 (by decide +kernel)⟩,
    hpong 1 (by decide +kernel), hpong 2 (by decide +kernel), hpong 3 (by decide +kernel)⟩

end Compact

end Server

end Mahjong
