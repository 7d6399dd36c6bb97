/-
The books of a round, as the server keeps them: how many sets a player
has laid down and where they lie, how many flowers are out, and that no
array is indexed beyond its end.

Two derivations are put together. The hands and doors need the tiles
that are claimed to be what the count tables say they are
(`Reaction`, in a lax run); the flowers and seas are only counted
(`Ledger`). What the second shows of an index is what the first assumes
of it.
-/
import Mahjong.Proofs.Ledger
import Mahjong.Proofs.Round

namespace Mahjong

-- ====================================================================== the books

/-- What the books of a player with `k` sets laid down say. -/
structure Booked (p : Player) (k : Nat) : Prop where
  sets_le : k ≤ 5
  capacity : p.normalCapacity = 16 - 3 * k
  door : ∃ gs : List (List Face), gs.length = k ∧ (∀ g ∈ gs, Group g)
    ∧ p.doorTiles.map Mj.face = gs.flatten
  doorIndex : 3 * k ≤ p.doorIndex ∧ p.doorIndex ≤ 4 * k
  flowerIndex : p.flowerIndex ≤ 8
  seaIndex : p.seaIndex ≤ 150

theorem Books.booked {p : Player} {k : Nat} (hb : Books p k) : Booked p k := by
  have hcap := hb.capacity
  refine ⟨by omega, by omega, hb.doorGroups, ?_, hb.flowerIndex_le, hb.seaIndex_le⟩
  exact ⟨hb.doorIndex_ge, hb.doorIndex_le⟩

namespace Server

open Process CString

-- ================================================================== careful rounds

/-- A run in which no index was out of its range; of the door nothing is
assumed. -/
def Ranged : SOp → Game → Prop
  | .note (.access .door _), _ => True
  | .note (.access .shuffledMjs i), _ => i < 144
  | .note (.access a i), _ => 0 ≤ i ∧ i < (a.size : Int)
  | .note (.counts tiles), _ => ∀ m ∈ tiles, 0 ≤ tileIndex m ∧ tileIndex m < 34
  | _, _ => True

/-- The null tile has no entry in a count table. -/
theorem not_null_of_index {m : Mj} (h : 0 ≤ tileIndex m) : m.isNull = false := by
  cases hnull : m.isNull with
  | false => rfl
  | true =>
      have hzero := Mj.isNull_iff.mp hnull
      have htype : m.type = 0 := congrArg Prod.fst hzero
      have hnumber : m.number = 0 := congrArg Prod.snd hzero
      unfold tileIndex at h
      omega

theorem ranged_mode : Mode False Ranged where
  wall := fun _ _ h => h
  decks := fun _ _ h => h
  rows := by
    intro a i s _ ha h
    cases a with
    | door => exact absurd rfl ha
    | shuffledMjs => exact h
    | _ => exact h.2
  counts := fun _ _ _ h m hm => not_null_of_index (h m hm).1
  quietGang := fun _ _ h => h.elim
  eat := fun _ _ _ _ h => h.elim
  discard := fun _ _ _ h => h.elim

/-- What is shown of a lax run: the books are in order, and no write goes
beyond the door. -/
def InBooks (o : SOp) (s : Game) (_ : Log) : Prop :=
  (∀ q, ∃ k, Books (s.players q) k) ∧ ∀ i, o = .note (.access .door i) → 0 ≤ i ∧ i < 20

theorem Undecided.inBooks {o : SOp} {s : Game} {w : Log} (h : Undecided s w)
    (ho : ∀ i, o ≠ .note (.access .door i)) : InBooks o s w :=
  ⟨h.books, fun i he => absurd he (ho i)⟩

theorem inBooks_obliged : Obliged False InBooks where
  quiet := by
    constructor
    · decide
    · exact fun _ _ _ _ h ho => h.log ho
    · exact fun p l s w _ h => h.inBooks fun i he => nomatch he
    · intro e s w he h
      apply h.inBooks
      rintro i he'
      cases he'
      exact absurd he Bool.false_ne_true
    all_goals
      intros
      apply Undecided.inBooks
      · assumption
      · exact fun i he => nomatch he
  access := by
    intro a i s w hpos hlt h
    refine ⟨h.books, fun j he => ?_⟩
    cases he
    exact ⟨hpos, hlt⟩
  scan := fun p i s w _ h => h.inBooks fun i he => nomatch he
  counts := fun tiles s w _ h => h.inBooks fun i he => nomatch he
  yourTurn := fun p s w _ h => h.inBooks fun i he => nomatch he
  othersreaction := fun d s w _ h => h.inBooks fun i he => nomatch he
  win := fun p s w h _ => h.inBooks fun i he => nomatch he
  print := fun p hands doors s w h => h.inBooks fun i he => nomatch he

theorem inBooks_round (wall : Wall) (start : Seat) (s₀ : Game) :
    wp anyone Ranged InBooks (playRound wall.tiles start s₀) (fun _ _ _ => True) [] :=
  (wp_playRound ranged_mode inBooks_obliged
    (fun _ _ _ _ h => ⟨h, fun _ he => nomatch he⟩) Declares.nil).mono fun _ _ _ _ => trivial

/-- What the ledger shows is what the hands need. -/
theorem Accounted.ranged {reach : Nat} {o : SOp} {s : Game} {w : Log}
    {A : SOp → Game → Prop} (h : Accounted reach o s w) (hA : Heeds A reach) (ho : A o s) :
    Ranged o s := by
  have hreach := hA.reach_le
  cases o with
  | note e =>
      cases e with
      | access a i =>
          cases a with
          | shuffledMjs => exact hA.wall i s ho
          | decks =>
              obtain ⟨hlo, hhi⟩ := h
              exact ⟨hlo, by show i < (20 : Nat); omega⟩
          | door => trivial
          | _ => exact h
      | counts tiles => exact hA.counts tiles s ho
      | _ => trivial
  | _ => trivial

/-- The points of a round between two claims. -/
def Between : SOp → Prop
  | .write _ l => l = str "your turn\n"
  | .note (.counts _) => True
  | .note (.othersreaction _) => True
  | .note .gameSet => True
  | _ => False

/-- The operation indexes no array beyond its end, and of a hand only the
first seventeen slots. But `has_flower` looks at all twenty, and
`print_deck` behind the last of the seventeen. -/
def WithinArrays : SOp → Prop
  | .note (.access .shuffledMjs _) => True
  | .note (.access .decks i) => 0 ≤ i ∧ i ≤ 16
  | .note (.access a i) => 0 ≤ i ∧ i < (a.size : Int)
  | .note (.scan _ i) => i < 20
  | .note (.print _ hands doors) => (∀ i ∈ hands, i ≤ 17) ∧ ∀ i ∈ doors, i < 20
  | _ => True

/-- The bookkeeping at an operation the server is about to do. -/
structure Bookkept (o : SOp) (s : Game) : Prop where
  players : ∀ p, ∃ k, Booked (s.players p) k
  flowers : Between o → Balanced s
  within : WithinArrays o

/-- In every round, as long as no index was out of range and the players
chose from their hands, the books are in order. -/
theorem bookkeeping {wall : Wall} {start : Seat} {s₀ s : Game} {w : Log}
    {tr : List (SOp × Game)} {o : SOp} {k : o.Res → Proc SOp IoOp.Res Game Unit}
    (hrun : Run anyone (playRound wall.tiles start s₀) [] tr (.op o s k) w)
    (hcareful : ∀ x ∈ tr, Careful x.1 x.2) (ho : Careful o s) : Bookkept o s := by
  have hledger : wp anyone Careful (Accounted 17) (playRound wall.tiles start s₀)
      (fun _ _ _ => True) [] := ledger_playRound careful_heeds
  have haccounted : Accounted 17 o s w := wp_op_obligation (wp_run hledger hrun hcareful) ho
  have hranged : ∀ x ∈ tr, Ranged x.1 x.2 := by
    intro x hx
    obtain ⟨v, hv⟩ := wp_trace hledger hrun hcareful x hx
    exact hv.ranged careful_heeds (hcareful x hx)
  have hbooks : InBooks o s w := wp_op_obligation (wp_run (inBooks_round wall start s₀) hrun hranged)
    (haccounted.ranged careful_heeds ho)
  refine ⟨fun p => ?_, fun hbetween => ?_, ?_⟩
  · obtain ⟨k, hb⟩ := hbooks.1 p
    exact ⟨k, hb.booked⟩
  · cases o with
    | write p l => exact haccounted hbetween
    | note e =>
        cases e with
        | counts tiles => exact haccounted
        | othersreaction d => exact haccounted
        | gameSet => exact haccounted
        | _ => exact hbetween.elim
    | _ => exact hbetween.elim
  · cases o with
    | note e =>
        cases e with
        | access a i =>
            cases a with
            | shuffledMjs => trivial
            | door => exact hbooks.2 i rfl
            | decks =>
                obtain ⟨hlo, hhi⟩ := haccounted
                exact ⟨hlo, by omega⟩
            | _ => exact haccounted
        | scan p i => exact haccounted
        | print p hands doors => exact haccounted
        | _ => trivial
    | _ => trivial

/-- The slots of a hand that are used or looked at. -/
def handIndices : SOp → List Int
  | .note (.access .decks i) => [i]
  | .note (.scan _ i) => [i]
  | .note (.print _ hands _) => hands.map Int.ofNat
  | _ => []

def isScan : SOp → Bool
  | .note (.scan _ _) => true
  | _ => false

def isPrint : SOp → Bool
  | .note (.print _ _ _) => true
  | _ => false

/-- In a careful run these operations index no hand beyond 16. -/
def HandsWithin (place : SOp → Bool) : Prop :=
  ∀ (wall : Wall) (start : Seat) (s₀ s : Game) (w : Log) (tr : List (SOp × Game)) (o : SOp)
    (k : o.Res → Proc SOp IoOp.Res Game Unit),
    Run anyone (playRound wall.tiles start s₀) [] tr (.op o s k) w →
      (∀ x ∈ tr, Careful x.1 x.2) → place o = true → ∀ i ∈ handIndices o, i ≤ 16

/-- One careful run that looks further is enough. -/
theorem not_handsWithin {place : SOp → Bool} {wall : Wall} {i : Int} {n : Nat} (hi : 16 < i)
    (hreplay : (playRound wall.tiles 0 (Game.init [])).replay scripted
      (fun o s => decide (Careful o s)) (fun _ o _ => place o && (handIndices o).contains i) n
      ((false, []), []) = true) : ¬ HandsWithin place := by
  intro h
  obtain ⟨tr, o, s, k, w, hrun, hgoal, hcareful⟩ :=
    scripted_run (fun _ o _ => place o && (handIndices o).contains i) hreplay
  obtain ⟨hplace, hmem⟩ := Bool.and_eq_true_iff.mp hgoal
  have hle := h wall 0 _ s w tr o k hrun (fun x hx => of_decide_eq_true (hcareful x hx)) hplace i
    (List.contains_iff_mem.mp hmem)
  omega

set_option maxRecDepth 100000 in
/-- `has_flower` looks at all slots behind the hand in the deal, and
`print_deck` in the first turn at the one behind the tile drawn. -/
theorem hand_index_beyond : ¬ HandsWithin isScan ∧ ¬ HandsWithin isPrint := by
  constructor
  · have hreplay : (playRound unshuffled.tiles 0 (Game.init [])).replay scripted
        (fun o s => decide (Careful o s)) (fun _ o _ => isScan o && (handIndices o).contains 19)
        300 ((false, []), []) = true := by
      decide +kernel
    exact not_handsWithin (by decide) hreplay
  · have hreplay : (playRound unshuffled.tiles 0 (Game.init [])).replay scripted
        (fun o s => decide (Careful o s)) (fun _ o _ => isPrint o && (handIndices o).contains 17)
        3000 ((false, []), []) = true := by
      decide +kernel
    exact not_handsWithin (by decide) hreplay

set_option maxRecDepth 100000 in
/-- After a player has eaten. -/
theorem bookkeeping_eaten : ∃ o s, Bookkept o s ∧ Between o ∧ (s.players 1).doorIndex = 3 := by
  have hreplay : (playRound eatWall.tiles 0 (Game.init [])).replay scripted
      (fun o s => decide (Careful o s))
      (fun _ o s => (countedTiles o).length == 14 && decide (Careful o s)
        && (s.players 1).doorIndex == 3) 3000
      ((false, [str "16\n", str "YES!\n", str "14 15\n"]), []) = true := by
    decide +kernel
  obtain ⟨tr, o, s, k, w, hrun, hgoal, hcareful⟩ := scripted_run (fun _ o s =>
    (countedTiles o).length == 14 && decide (Careful o s) && (s.players 1).doorIndex == 3) hreplay
  simp only [Bool.and_eq_true, decide_eq_true_eq, beq_iff_eq] at hgoal
  obtain ⟨⟨hcount, ho⟩, hdoor⟩ := hgoal
  obtain ⟨tiles, rfl⟩ := exists_counts (o := o) fun he => by simp [he] at hcount
  exact ⟨_, s, bookkeeping hrun (fun x hx => of_decide_eq_true (hcareful x hx)) ho, trivial,
    hdoor⟩

end Server

end Mahjong
