/-
What holds at the checkpoints of a round: the stock, the tiles counted.

A regular run is strict in the sense of `Play.lean`: it keeps every hand
whole, so each tile of the wall is in one place whenever a turn begins, a
discard lies on the table or the round is over. The three facts a reader
wants of it (the tiles at a checkpoint, the tiles counted, the indices)
are one obligation (`RegularObligation`), shown once for the whole round
and read off the operation a run has come to.

Regular is enough, and more than is needed: a quiet gang is excluded
altogether, although a discard that names the slot of the copy it leaves
behind puts the tiles right again.
-/
import Mahjong.Proofs.Reaction
import Mahjong.Proofs.Script

namespace Mahjong.Server

open Process CString Packing

-- ================================================================== the rounds

section Round

variable {A : SOp → Game → Prop} {P : SOp → Game → Log → Prop} {strict : Prop}
  {wall : Wall} {s : Game} {w : Log}

/-- Between turns, or the round is won. -/
def Settled (strict : Prop) (wall : Wall) (s : Game) (w : Log) : Prop :=
  Cleared strict wall s w ∨ Won strict s w

theorem Won.winner_ne (h : Won strict s w) : s.winner ≠ -1 := by
  obtain ⟨p, hp⟩ := h.winner
  omega

theorem Settled.conserved (h : Settled strict wall s w) (hs : strict) :
    Conserved s := by
  rcases h with h | h
  · exact h.conserved hs
  · exact h.conserved hs

/-- A round from the deal to its end. -/
theorem wp_turns (hm : Mode strict A) (hP : Obliged strict P) {p : Seat}
    (h : Settled strict wall s w) :
    wp anyone A P (turns p s) (fun _ s w => Settled strict wall s w) w := by
  refine wp_iterate (fun _ s w => Settled strict wall s w) ?_ h
  intro p s w h
  refine wp_get_seq ?_
  split
  next hwin =>
    have hclear : Cleared strict wall s w :=
      h.resolve_right fun hwon => hwon.winner_ne hwin
    refine wp_seq ((wp_drawNDiscard hm hP hclear).mono ?_)
    rintro r s w (⟨rfl, hwon⟩ | ⟨rfl, htable⟩)
    · exact wp_pure (Or.inr hwon)
    refine wp_seq ((wp_othersreaction hm hP htable).mono ?_)
    intro r s w hr
    have hr' : Settled strict wall s w := hr.symm.imp And.right id
    split
    next => exact wp_pure hr'
    next =>
      refine wp_get_seq ?_
      split
      next => exact wp_pure hr'
      next => exact wp_pure hr'
  next => exact wp_pure h

theorem AfterDeal.cleared (h : AfterDeal wall s w) : Cleared strict wall s w :=
  ⟨⟨⟨h.wall_eq, h.winner, fun _ => h.stock, fun q => ⟨0, h.books q⟩, h.declares⟩,
    fun q => Or.inl (h.rests q)⟩, h.noDiscard⟩

theorem wp_playRound (hm : Mode strict A) (hP : Obliged strict P)
    (hover : ∀ s w, (strict → Conserved s) → Declares w s.winner →
      (∀ q, ∃ k, Books (s.players q) k) → P (.note .gameSet) s w) {start : Seat} (hw : Declares w (-1)) :
    wp anyone A P (playRound wall.tiles start s)
      (fun _ s w => Declares w s.winner) w := by
  refine wp_modify_seq (wp_seq ((wp_deal hP.fairAccess hP.quiet hw).mono fun _ s w h => ?_))
  refine wp_seq ((wp_turns hm hP (Or.inl h.cleared)).mono fun _ s w h => ?_)
  have hdecl : Declares w s.winner := by
    rcases h with h | h
    · rw [h.1.winner]
      exact h.1.declares
    · exact h.declares
  have hbooks : ∀ q, ∃ k, Books (s.players q) k := by
    rcases h with h | h
    · exact h.1.books
    · exact h.books
  refine wp_note fun _ => ⟨hover _ _ (fun hs => h.conserved hs) hdecl hbooks, ?_⟩
  exact hdecl.cons id

end Round

-- =================================================================== regular runs

/-- What a regular run does: it does not read past the wall, names
slots of the array and discards from the hand, accepts no quiet gang,
and no eat whose second index is the last slot while the first is not
the slot before. The last two leave a hand with a hole or a copy too many;
what a later discard may mend is not followed. -/
def Regular : SOp → Game → Prop
  | .note (.access .shuffledMjs i), _ => i < 144
  | .note (.access .decks i), _ => 0 ≤ i ∧ i < 20
  | .note (.accept .quietGang _), _ => False
  | .note (.eat p i j), s => ¬ (j = (s.players p).normalCapacity - 1
      ∧ i ≠ (s.players p).normalCapacity - 2)
  | .note (.discard p i), s => 0 ≤ i ∧ i ≤ (s.players p).normalCapacity
  | _, _ => True

instance : (o : SOp) → (s : Game) → Decidable (Regular o s)
  | .note (.access .shuffledMjs i), _ => inferInstanceAs (Decidable (i < 144))
  | .note (.access .decks i), _ => inferInstanceAs (Decidable (0 ≤ i ∧ i < 20))
  | .note (.accept .quietGang _), _ => .isFalse id
  | .note (.eat p i j), s => inferInstanceAs (Decidable (¬ (j = (s.players p).normalCapacity - 1
      ∧ i ≠ (s.players p).normalCapacity - 2)))
  | .note (.discard p i), s =>
      inferInstanceAs (Decidable (0 ≤ i ∧ i ≤ (s.players p).normalCapacity))
  | .note (.access .flowers _), _ | .note (.access .door _), _ | .note (.access .sea _), _
  | .note (.scan _ _), _ | .note (.print _ _ _), _ | .note (.counts _), _ | .note (.draw _), _
  | .note (.othersreaction _), _ | .note (.accept .hu _), _ | .note (.accept .gang _), _
  | .note (.accept .pong _), _ | .note (.accept .eat _), _ | .note (.eatindex _ _ _), _
  | .note (.invalid _), _ | .note (.win _), _ | .note .gameSet, _
  | .write _ _, _ | .readline _ _, _ | .select _, _ | .scanf, _ | .indeterminate, _
  | .exit, _ => .isTrue trivial

theorem regular_mode : Mode True Regular where
  wall := fun _ _ h => h
  decks := fun _ _ h => h
  rows := fun _ _ _ h => absurd trivial h
  counts := fun _ _ h => absurd trivial h
  quietGang := fun _ _ _ h => h
  eat := fun _ _ _ _ _ h => h
  discard := fun _ _ _ _ h => h

/-- The points of a round at which its tiles are looked over. -/
def Checkpoint : SOp → Prop
  | .write _ l => l = str "your turn\n"
  | .note (.othersreaction _) => True
  | .note .gameSet => True
  | _ => False

/-- What is shown of a regular run: the tiles at the checkpoints, what is
counted, and that no array is indexed out of range. -/
def RegularObligation : SOp → Game → Log → Prop
  | .write _ l, s, _ => l = str "your turn\n" → Conserved s
  | .note (.othersreaction _), s, _ => Conserved s
  | .note .gameSet, s, _ => Conserved s
  | .note (.counts tiles), _, _ => ∀ m ∈ tiles, m.Real
  | .note (.access a i), _, _ => 0 ≤ i ∧ i < (a.size : Int)
  | _, _, _ => True

theorem regular_obliged : Obliged True RegularObligation where
  quiet := by
    constructor
    · decide
    · exact fun _ _ _ _ h ho => h.log ho
    · intro p l s w hl _ he
      rw [he] at hl
      exact absurd hl (by decide)
    · intro e s w he _
      cases e <;> first | exact trivial | exact (Bool.false_ne_true he).elim
    all_goals
      intros
      trivial
  access := fun _ _ _ _ hlo hhi _ => ⟨hlo, hhi⟩
  scan := fun _ _ _ _ _ _ => trivial
  counts := fun _ _ _ hreal _ => hreal
  yourTurn := fun _ _ _ h _ _ => h trivial
  othersreaction := fun _ _ _ h _ => h trivial
  win := fun _ _ _ _ _ => trivial
  print := fun _ _ _ _ _ _ => trivial

theorem regular_round (wall : Wall) (start : Seat) (s₀ : Game) :
    wp anyone Regular RegularObligation (playRound wall.tiles start s₀)
      (fun _ _ _ => True) [] :=
  (wp_playRound regular_mode regular_obliged (fun _ _ h _ _ => h trivial)
    Declares.nil).mono fun _ _ _ _ => trivial

/-- Along every regular run of a round, whenever a turn begins, the
others may react or the round is over, the tiles on the table are the
tile set. -/
theorem tiles_conserved {wall : Wall} {start : Seat} {s₀ s : Game} {w : Log}
    {tr : List (SOp × Game)} {o : SOp} {k : o.Res → Proc SOp IoOp.Res Game Unit}
    (hrun : Run anyone (playRound wall.tiles start s₀) [] tr (.op o s k) w)
    (hreg : ∀ x ∈ tr, Regular x.1 x.2) (ho : Checkpoint o) : Conserved s := by
  have hwp := wp_run (regular_round wall start s₀) hrun hreg
  -- a checkpoint is no condition on the run
  cases o with
  | write p l => exact wp_op_obligation hwp trivial ho
  | note e =>
      cases e with
      | othersreaction d => exact wp_op_obligation hwp trivial
      | gameSet => exact wp_op_obligation hwp trivial
      | _ => exact ho.elim
  | _ => exact ho.elim

/-- The players choose from their hands, and pairs that are accepted; the
wall is not over-read. -/
def Played : SOp → Game → Prop
  | .note (.access .shuffledMjs i), _ => i < 144
  | .note (.discard p i), s => 0 ≤ i ∧ i ≤ (s.players p).normalCapacity
  | .note (.invalid _), _ => False
  | _, _ => True

instance : (o : SOp) → (s : Game) → Decidable (Played o s)
  | .note (.access .shuffledMjs i), _ => inferInstanceAs (Decidable (i < 144))
  | .note (.discard p i), s =>
      inferInstanceAs (Decidable (0 ≤ i ∧ i ≤ (s.players p).normalCapacity))
  | .note (.invalid _), _ => .isFalse id
  | .note (.access .decks _), _ | .note (.access .flowers _), _
  | .note (.access .door _), _ | .note (.access .sea _), _ | .note (.scan _ _), _
  | .note (.print _ _ _), _ | .note (.counts _), _ | .note (.draw _), _
  | .note (.othersreaction _), _
  | .note (.accept _ _), _ | .note (.eatindex _ _ _), _ | .note (.eat _ _ _), _
  | .note (.win _), _ | .note .gameSet, _
  | .write _ _, _ | .readline _ _, _ | .select _, _ | .scanf, _ | .indeterminate, _
  | .exit, _ => .isTrue trivial

/-- After the discarder, the claimant has discarded too. -/
def isReaction (d : Seat) : SOp → Bool
  | .note (.othersreaction d') => d' == d
  | _ => false

/-- The tiles of a count. -/
def countedTiles : SOp → List Mj
  | .note (.counts tiles) => tiles
  | _ => []

theorem exists_counts {o : SOp} (h : countedTiles o ≠ []) : ∃ tiles, o = .note (.counts tiles) := by
  cases o with
  | note e => cases e <;> first | exact ⟨_, rfl⟩ | exact absurd rfl h
  | _ => exact absurd rfl h

theorem checkpoint_of_isReaction {d : Seat} {o : SOp} (h : isReaction d o = true) :
    Checkpoint o := by
  cases o with
  | note e => cases e <;> first | exact trivial | exact absurd h Bool.false_ne_true
  | _ => exact absurd h Bool.false_ne_true

/-- How player 0 discards the tile drawn, player 1 eats it with these two
slots, and discards the tile behind the hand. -/
def eatScript (pair : String) : List Line :=
  [str "16\n", str "YES!\n", str pair, str "13\n"]

set_option maxRecDepth 100000 in
/-- With 8 9 WAN in the last two slots. -/
theorem tiles_conserved_eaten : ∃ s, Conserved s ∧ (s.players 1).doorIndex = 3 := by
  have hreplay : (playRound eatWall.tiles 0 (Game.init [])).replay scripted
      (fun o s => decide (Regular o s))
      (fun _ o s => isReaction 1 o && (s.players 1).doorIndex == 3) 3000
      ((false, eatScript "14 15\n"), []) = true := by
    decide +kernel
  obtain ⟨tr, o, s, k, w, hrun, hgoal, hregular⟩ :=
    scripted_run (fun _ o s => isReaction 1 o && (s.players 1).doorIndex == 3) hreplay
  simp only [Bool.and_eq_true, beq_iff_eq] at hgoal
  exact ⟨s, tiles_conserved hrun (fun x hx => of_decide_eq_true (hregular x hx))
    (checkpoint_of_isReaction hgoal.1), hgoal.2⟩

set_option maxRecDepth 100000 in
/-- With the 8 WAN of slot 13 and the 9 WAN of slot 15, another 8 WAN is
lost. -/
theorem tiles_not_conserved : ¬ ∀ (wall : Wall) (start : Seat) (s₀ s : Game) (w : Log)
    (tr : List (SOp × Game)) (o : SOp) (k : o.Res → Proc SOp IoOp.Res Game Unit),
    Run anyone (playRound wall.tiles start s₀) [] tr (.op o s k) w →
      (∀ x ∈ tr, Played x.1 x.2) → Checkpoint o → Conserved s := by
  intro h
  have hreplay : (playRound eatWall.tiles 0 (Game.init [])).replay scripted
      (fun o s => decide (Played o s))
      (fun _ o s => isReaction 1 o && decide (s.tiles.count (3, 8) ≠ 4)) 3000
      ((false, eatScript "13 15\n"), []) = true := by
    decide +kernel
  obtain ⟨tr, o, s, k, w, hrun, hgoal, hplayed⟩ := scripted_run (fun _ o s =>
    isReaction 1 o && decide (s.tiles.count (3, 8) ≠ 4)) hreplay
  simp only [Bool.and_eq_true, decide_eq_true_eq] at hgoal
  have hall : Conserved s := h eatWall 0 _ s w tr o k hrun
    (fun x hx => of_decide_eq_true (hplayed x hx)) (checkpoint_of_isReaction hgoal.1)
  apply hgoal.2
  rw [hall]
  decide +kernel

/-- Along every regular run of a round, all tiles that are counted or
looked up in a count table are real. -/
theorem counts_real {wall : Wall} {start : Seat} {s₀ s : Game} {w : Log}
    {tr : List (SOp × Game)} {tiles : List Mj}
    {k : Unit → Proc SOp IoOp.Res Game Unit}
    (hrun : Run anyone (playRound wall.tiles start s₀) [] tr
      (.op (.note (.counts tiles)) s k) w)
    (hreg : ∀ x ∈ tr, Regular x.1 x.2) {m : Mj} (hm : m ∈ tiles) :
    m.Real ∧ 0 ≤ tileIndex m ∧ tileIndex m < 34 := by
  have hwp := wp_run (regular_round wall start s₀) hrun hreg
  have hreal : m.Real := wp_op_obligation hwp trivial m hm
  obtain ⟨i, hi, hidx, -⟩ := hreal.index
  exact ⟨hreal, by omega, by omega⟩

set_option maxRecDepth 100000 in
/-- When player 1 has eaten with the last two slots. -/
theorem counts_real_eaten : ∃ tiles : List Mj, tiles.length = 14
    ∧ ∀ m ∈ tiles, m.Real ∧ 0 ≤ tileIndex m ∧ tileIndex m < 34 := by
  have hreplay : (playRound eatWall.tiles 0 (Game.init [])).replay scripted
      (fun o s => decide (Regular o s)) (fun _ o _ => (countedTiles o).length == 14) 3000
      ((false, eatScript "14 15\n"), []) = true := by
    decide +kernel
  obtain ⟨tr, o, s, k, w, hrun, hgoal, hregular⟩ :=
    scripted_run (fun _ o _ => (countedTiles o).length == 14) hreplay
  simp only [beq_iff_eq] at hgoal
  obtain ⟨tiles, rfl⟩ := exists_counts (o := o) fun he => by simp [he] at hgoal
  exact ⟨tiles, hgoal, fun m hm =>
    counts_real hrun (fun x hx => of_decide_eq_true (hregular x hx)) hm⟩

set_option maxRecDepth 100000 in
/-- When player 1 has eaten with slots 13 and 15, an empty slot is
counted. -/
theorem counts_not_real : ¬ ∀ (wall : Wall) (start : Seat) (s₀ s : Game) (w : Log)
    (tr : List (SOp × Game)) (tiles : List Mj)
    (k : Unit → Proc SOp IoOp.Res Game Unit),
    Run anyone (playRound wall.tiles start s₀) [] tr (.op (.note (.counts tiles)) s k) w →
      (∀ x ∈ tr, Played x.1 x.2) →
      ∀ m ∈ tiles, m.Real ∧ 0 ≤ tileIndex m ∧ tileIndex m < 34 := by
  intro h
  have hreplay : (playRound eatWall.tiles 0 (Game.init [])).replay scripted
      (fun o s => decide (Played o s)) (fun _ o _ => (countedTiles o).any Mj.isNull) 3000
      ((false, eatScript "13 15\n"), []) = true := by
    decide +kernel
  obtain ⟨tr, o, s, k, w, hrun, hgoal, hplayed⟩ :=
    scripted_run (fun _ o _ => (countedTiles o).any Mj.isNull) hreplay
  obtain ⟨m, hm, hnull⟩ := List.any_eq_true.mp hgoal
  obtain ⟨tiles, rfl⟩ := exists_counts (List.ne_nil_of_mem hm)
  have hreal := (h eatWall 0 _ s w tr tiles k hrun
    (fun x hx => of_decide_eq_true (hplayed x hx)) m hm).1
  rw [hreal.not_null] at hnull
  exact Bool.false_ne_true hnull

end Mahjong.Server
