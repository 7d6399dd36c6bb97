/-
Single moves of one player, on a hand in order: an ordinary turn, from
the draw to the discard, and a quiet gang.

The statements are about the runs of `drawNDiscard` and `quietGang` from
one table, whatever the players answer: a run ends, and leaves the table
described here. What the player has done is read off the answers in the
log: who has said yes to nothing and has named a slot in the last line has
had an ordinary turn.
-/
import Mahjong.Proofs.Claim
import Mahjong.Proofs.Course
import Mahjong.Proofs.Polite

namespace Mahjong

-- ======================================================================= the wall

/-- The flowers at the head of the wall. -/
def Game.flowerRun (s : Game) : List Mj := s.undrawn.takeWhile fun m => m.type = flower

/-- The first tile of the wall that is no flower. -/
def Game.drawn (s : Game) : Mj := s.undrawn.getD s.flowerRun.length Mj.null

section Wall

variable {s : Game} {flowers rest : List Mj} {x : Mj}
  (h : s.undrawn = flowers ++ x :: rest) (hall : ∀ m ∈ flowers, m.type = flower)
  (hx : x.type ≠ flower)
include h hall hx

theorem flowerRun_eq : s.flowerRun = flowers := by
  rw [Game.flowerRun, h, List.takeWhile_append_of_pos, List.takeWhile_cons_of_neg,
    List.append_nil]
  · simpa using hx
  · simpa using hall

theorem drawn_eq : s.drawn = x := by
  rw [Game.drawn, flowerRun_eq h hall hx, h]
  exact getD_append_length flowers rest x

end Wall

namespace Player

theorem pushFlowers_rows (ms : List Mj) : ∀ p : Player,
    (p.pushFlowers ms).door = p.door ∧ (p.pushFlowers ms).doorIndex = p.doorIndex
      ∧ (p.pushFlowers ms).sea = p.sea ∧ (p.pushFlowers ms).seaIndex = p.seaIndex
      ∧ (p.pushFlowers ms).flowerIndex = p.flowerIndex + ms.length
      ∧ (p.pushFlowers ms).flowers.length = p.flowers.length := by
  induction ms with
  | nil => exact fun _ => ⟨rfl, rfl, rfl, rfl, rfl, rfl⟩
  | cons m ms ih =>
      intro p
      obtain ⟨h1, h2, h3, h4, h5, h6⟩ := ih (p.pushFlower m)
      refine ⟨h1, h2, h3, h4, ?_, h6.trans List.length_set⟩
      refine h5.trans ?_
      show p.flowerIndex + 1 + ms.length = p.flowerIndex + (ms.length + 1)
      omega

/-- As long as there is room, the row is lengthened by the flowers. -/
theorem pushFlowers_flowerTiles (ms : List Mj) : ∀ {p : Player},
    p.flowerIndex + ms.length ≤ p.flowers.length →
      (p.pushFlowers ms).flowerTiles = p.flowerTiles ++ ms := by
  induction ms with
  | nil => exact fun _ => (List.append_nil _).symm
  | cons m ms ih =>
      intro p hroom
      rw [List.length_cons] at hroom
      have hpush : (p.pushFlower m).flowerTiles = p.flowerTiles ++ [m] :=
        take_set_succ (by omega) m
      have hroom' : (p.pushFlower m).flowerIndex + ms.length
          ≤ (p.pushFlower m).flowers.length := by
        show p.flowerIndex + 1 + ms.length ≤ (p.flowers.set _ _).length
        rw [List.length_set]
        omega
      refine (ih hroom').trans ?_
      rw [hpush, List.append_assoc]
      rfl

end Player

namespace Server

open Process CString

-- =============================================================== an ordinary turn

/-- The player `p` with the hand `h` has had an ordinary turn. -/
structure TurnTaken (s : Game) (p : Seat) (h : List Mj) (i : Nat) (s' : Game) : Prop where
  flowerIndex : (s'.players p).flowerIndex
    = (s.players p).flowerIndex + s.flowerRun.length
  flowers : (s.players p).flowerIndex + s.flowerRun.length ≤ (s.players p).flowers.length →
    (s'.players p).flowerTiles = (s.players p).flowerTiles ++ s.flowerRun
  takeIndex : s'.takeIndex = s.takeIndex + s.flowerRun.length + 1
  wall : s'.shuffledMjs = s.shuffledMjs
  /-- The tile shown at the index: the hand, and the tile just drawn behind
  it. -/
  discarded : s'.discardedMj.face = ((h ++ [s.drawn]).getD i Mj.null).face
  hand : ∃ h' rest, (s'.players p).decks = h' ++ rest ∧ Hand h' ∧ Nulls rest
    ∧ h'.length = (s.players p).normalCapacity
    ∧ s'.discardedMj.face ::ₘ faces h' = faces (h ++ [s.drawn])
  decks_length : (s'.players p).decks.length = (s.players p).decks.length
  capacity : (s'.players p).normalCapacity = (s.players p).normalCapacity
  door : (s'.players p).door = (s.players p).door
    ∧ (s'.players p).doorIndex = (s.players p).doorIndex
  sea : (s'.players p).sea = (s.players p).sea
    ∧ (s'.players p).seaIndex = (s.players p).seaIndex
  others : ∀ q, q ≠ p → s'.players q = s.players q
  winner : s'.winner = s.winner

section Turn

variable {s : Game} {p : Seat} {h : List Mj}

/-- What a draw and a discard make of the table. -/
theorem turnTaken {rest : List Mj} (hh : Hand h) (hd : (s.players p).decks = h ++ rest)
    (hrest : Nulls rest) (hcap : (s.players p).normalCapacity = h.length)
    (hroom : 0 < rest.length) (hx : s.drawn.Real) {i : Nat} (hi : i ≤ h.length) :
    TurnTaken s p h i ((s.drew p s.flowerRun s.drawn).discarded p i) := by
  obtain ⟨z, rest, rfl⟩ := List.exists_cons_of_length_pos hroom
  set pl := ((s.players p).pushFlowers s.flowerRun).setDeck (s.players p).normalCapacity
    s.drawn with hpl
  have hplayer : (s.drew p s.flowerRun s.drawn).players p = pl := drew_player _ _ _ _
  have hcap' : pl.normalCapacity = h.length :=
    (Player.pushFlowers_normalCapacity _ _).trans hcap
  have hdecks : pl.decks = h ++ s.drawn :: rest := by
    show ((s.players p).pushFlowers s.flowerRun).decks.set _ _ = _
    rw [Player.pushFlowers_decks, hd, hcap, List.set_append_right _ _ (Nat.le_refl _),
      Nat.sub_self, List.set_cons_zero]
  obtain ⟨h', y, he, hl, hy, hh', hreal, hfaces⟩ :=
    discardTile_spec hh.real hx hdecks hcap' (hcap' ▸ hi : i ≤ pl.normalCapacity)
  obtain ⟨hdoor, hdoorIndex, hsea, hseaIndex, hflowerIndex, -⟩ :=
    Player.pushFlowers_rows s.flowerRun (s.players p)
  have hself : ((s.drew p s.flowerRun s.drawn).discarded p i).players p
      = { pl with decks := h' ++ y :: rest } := by
    rw [← he, ← hplayer]
    exact Function.update_self ..
  have hshown : pl.deck i = (h ++ [s.drawn]).getD i Mj.null := by
    rw [Player.deck, hdecks, List.append_cons, List.getD_eq_getElem?_getD,
      List.getElem?_append_left (by simp; omega), ← List.getD_eq_getElem?_getD]
  have hdiscard : ((s.drew p s.flowerRun s.drawn).discarded p i).discardedMj.face
      = (pl.deck i).face := by
    rw [← hplayer]
    rfl
  refine ⟨?_, fun hroom => ?_, rfl, rfl, ?_, ?_, ?_, ?_, ?_, ?_, fun q hq => ?_, rfl⟩
  · rw [hself]
    exact hflowerIndex
  · rw [hself]
    exact Player.pushFlowers_flowerTiles _ hroom
  · rw [hdiscard, hshown]
  · rw [hself, hdiscard]
    refine ⟨h', y :: rest, rfl, hh', ?_, hl.trans hcap.symm, hfaces⟩
    intro m hm
    rcases List.mem_cons.mp hm with rfl | hm
    · exact hy
    · exact hrest m (List.mem_cons_of_mem _ hm)
  · rw [hself, hd]
    simp [hl]
  · rw [hself]
    exact Player.pushFlowers_normalCapacity _ _
  · rw [hself]
    exact ⟨hdoor, hdoorIndex⟩
  · rw [hself]
    exact ⟨hsea, hseaIndex⟩
  · show ((s.drew p s.flowerRun s.drawn).update p _).players q = _
    rw [Game.update_players_ne _ _ _ _ hq]
    exact Function.update_of_ne hq _ _

/-- A turn ends, and begins and ends with a line: the player is told, and
asked for one. If this names a slot of the hand or the tile drawn, and the
player has said yes to nothing before, the turn was an ordinary one. -/
theorem ordinary_turn {rest : List Mj} (hh : Hand h) (hd : (s.players p).decks = h ++ rest)
    (hrest : Nulls rest) (hcap : (s.players p).normalCapacity = h.length)
    (hlen : (s.players p).decks.length = 20) (hroom : h.length < 20)
    (hwall : s.shuffledMjs.length = 144)
    (htiles : ∀ m ∈ s.undrawn, m.Real ∨ m.type = flower)
    (hfinds : ∃ m ∈ s.undrawn, m.type ≠ flower) :
    Finishes (fun _ => True) Polite Any (drawNDiscard p s) (fun r s' w =>
      [(⟨.write p (str "your turn\n"), ()⟩ : (o : SOp) × o.Res)] <:+ w
        ∧ ∃ line earlier, answers w = (p, line) :: earlier
          ∧ ∀ i : Nat, sscanf1 line = some (i : Int) → i ≤ h.length →
            (∀ x ∈ earlier, isYes x.2 = false) → r = 0 ∧ TurnTaken s p h i s') [] := by
  have hsupply : Supply (fun q => (s.players q).normalCapacity) Any
      (fun _ _ _ => True) Findable :=
    ⟨fun _ _ _ _ h _ => ⟨h.ne_nil, trivial⟩, fun _ _ h hm => h.tail hm⟩
  have hlenrest : 0 < rest.length := by
    rw [hd, List.length_append] at hlen
    omega
  have hfits : Fits s p := ⟨hwall, by omega⟩
  have hgo : GoesOn (fun w => True ∧ Polite w) (drawNDiscard p) :=
    (polite_closed free_polite_courteous).drawNDiscard p
      fun q => polite_mark free_polite_courteous _
  refine ((twp_drawNDiscard free_light hsupply hfits (fun _ => Nat.le_refl _)
    (fun _ => hfinds) trivial).mono ?_).finishes (hgo.neverStuck s [])
  rintro r s' w' ⟨⟨flowers, x, rest', line, earlier, hsplit, hall, hx, hanswers, hr⟩, htold⟩
  refine ⟨htold, line, earlier, hanswers, fun i hi hle hno => ?_⟩
  obtain rfl := flowerRun_eq hsplit hall hx
  obtain rfl := drawn_eq hsplit hall hx
  rcases hr with ⟨-, hyes, -⟩ | ⟨rfl, j, t, hj, rfl, rfl | ⟨-, y, hy, hyes⟩⟩
  · rw [sscanf1_isYes hyes] at hi
    exact nomatch hi
  · obtain rfl := hj _ hi
    have hreal : s.drawn.Real := by
      refine (htiles _ ?_).resolve_right hx
      rw [hsplit]
      exact List.mem_append_right _ (List.mem_cons_self ..)
    exact ⟨rfl, turnTaken hh hd hrest hcap hlenrest hreal hle⟩
  · rw [hno y hy] at hyes
    exact absurd hyes Bool.false_ne_true

/-- Player 1 with four tiles; the wall begins with two flowers. -/
def turnTable : Game where
  winner := -1
  shuffledMjs := [⟨flower, 3, 0⟩, ⟨flower, 8, 0⟩] ++ List.replicate 142 ⟨tong, 5, 0⟩
  discardedMj := Mj.null
  takeIndex := 0
  players := fun _ => { Player.gameinfoInit with
    normalCapacity := 4
    decks := [⟨tong, 1, 0⟩, ⟨tong, 7, 0⟩, ⟨wan, 2, 0⟩, ⟨dazi, 6, 0⟩] ++ List.replicate 16 Mj.null }

set_option maxRecDepth 100000 in
/-- Asked for a tile, the player types a 2. -/
theorem ordinary_turn_two_flowers :
    ∃ tr s' w, Run anyone (drawNDiscard 1 turnTable) [] tr (.ret 0 s') w
      ∧ answers w = [(1, str "2\n")]
      ∧ TurnTaken turnTable 1 [⟨tong, 1, 0⟩, ⟨tong, 7, 0⟩, ⟨wan, 2, 0⟩, ⟨dazi, 6, 0⟩] 2 s' := by
  have hreplay : (drawNDiscard 1 turnTable).playOut scripted
      (fun _ _ => true) (fun t _ _ => decide (answers t.2 = [(1, str "2\n")])) 200
      ((false, [str "2\n"]), []) = true := by
    decide +kernel
  obtain ⟨tr, r, s', w, hrun, hgood, -⟩ :=
    scripted_return (fun w _ _ => decide (answers w = [(1, str "2\n")])) hreplay
  have hanswers := of_decide_eq_true hgood
  obtain ⟨-, line, earlier, hlast, hturn⟩ := (ordinary_turn (s := turnTable) (p := 1)
    (h := [⟨tong, 1, 0⟩, ⟨tong, 7, 0⟩, ⟨wan, 2, 0⟩, ⟨dazi, 6, 0⟩]) ⟨by decide, by decide⟩ rfl
    (nulls_replicate 16) rfl rfl (by decide) rfl (by decide +kernel)
    (by decide +kernel)).returns tr r s' w hrun fun _ _ => trivial
  rw [hanswers] at hlast
  obtain ⟨⟨-, rfl⟩, rfl⟩ : (1 = (1 : Seat) ∧ str "2\n" = line) ∧ [] = earlier := by
    simpa using hlast
  obtain ⟨rfl, htaken⟩ := hturn 2 (by decide) (by decide) (List.forall_mem_nil _)
  exact ⟨tr, s', w, hrun, hanswers, htaken⟩

end Turn

-- ==================================================================== a quiet gang

section QuietGang

variable {s : Game} {p : Seat} {pl : Player} {h : List Mj} {x : Mj}

/-- Whoever holds `h` and has drawn the fourth copy of `x` is left, after a
quiet gang, with the fourth copy where it was: behind the hand and three
empty slots. -/
theorem quietGang_leaves (hp : InHand pl h) (hx : x.Real)
    (hdrawn : s.players p = pl.setDeck pl.normalCapacity x)
    (hcount : 3 ≤ (faces h).count x.face) :
    ((quietGangTiles (s.players p)).deck pl.normalCapacity) = x
      ∧ (quietGangTiles (s.players p)).normalCapacity + 3 = pl.normalCapacity := by
  obtain ⟨rest, hd, hrest⟩ := hp.slots
  obtain ⟨hpos, -⟩ := hp.room (by have := count_le_length hcount; omega)
  have hcap := hp.capacity
  have hlen := hp.length
  obtain ⟨y, rest, rfl⟩ : ∃ y rest', rest = y :: rest' := by
    refine List.exists_cons_of_length_pos ?_
    obtain ⟨k, hk, -⟩ := hp.sets
    rw [hd, List.length_append] at hlen
    omega
  have hdecks : (pl.setDeck pl.normalCapacity x).decks = h ++ x :: rest := by
    show pl.decks.set _ _ = _
    rw [hd, hcap, List.set_append_right _ _ (Nat.le_refl _), Nat.sub_self,
      List.set_cons_zero]
  have hdeck : (pl.setDeck pl.normalCapacity x).deck pl.normalCapacity = x := by
    rw [Player.deck, hdecks, hcap]
    exact getD_append_length h rest x
  obtain ⟨d, z, he, hdl, hzl, hz, hdh, hfaces⟩ :=
    gangTiles_spec hx hp.hand hcount hdecks hcap hpos
  have hquiet : quietGangTiles (s.players p)
      = gangTiles x (pl.setDeck pl.normalCapacity x) := by
    rw [hdrawn, quietGangTiles]
    show gangTiles ((pl.setDeck pl.normalCapacity x).deck pl.normalCapacity) _ = _
    rw [hdeck]
  rw [hquiet, he]
  constructor
  · show (d ++ (z ++ x :: rest)).getD pl.normalCapacity Mj.null = x
    have hsplit : pl.normalCapacity = (d ++ z).length := by
      have hdl' : d.length = pl.normalCapacity - 3 := hdl
      rw [List.length_append]
      omega
    rw [hsplit, ← List.append_assoc]
    exact getD_append_length (d ++ z) rest x
  · show pl.normalCapacity - 3 + 3 = _
    omega

/-- No quiet gang leaves the table as it should be, nor makes
`draw_n_discard` draw again: the slot of the drawn tile is not emptied,
and the result is 0. -/
theorem quiet_gang_never (hp : InHand pl h) (hx : x.Real)
    (hdrawn : s.players p = pl.setDeck pl.normalCapacity x)
    (hcount : 3 ≤ (faces h).count x.face) {tr : List (SOp × Game)} {r : Int} {s' : Game}
    {w : Log} (hrun : Run anyone (quietGang p s) [] tr (.ret r s') w)
    (haccept : Marked (.accept .quietGang p) w) :
    ¬ LaidDown (s.players p) (s'.players p) h [x, x, x, x] {x.face, x.face, x.face} 0
      ∧ r ≠ 1 := by
  have hgang : twp anyone Any (fun _ _ _ => True) (quietGang p s) _ [] :=
    twp_quietGang free_light fun q => Nat.le_refl (s.players q).normalCapacity
  have hmeets := hgang.wp.meets.returns tr r s' w hrun fun _ _ => trivial
  obtain ⟨rfl, ⟨-, hnot⟩ | ⟨⟨-, -, rfl⟩, -⟩⟩ := hmeets
  · exact absurd (hnot haccept) List.not_mem_nil
  obtain ⟨hslot, hcap⟩ := quietGang_leaves hp hx hdrawn hcount
  refine ⟨fun hlaid => ?_, by decide⟩
  have hself : ((s.update p quietGangTiles).clearDiscarded).players p
      = quietGangTiles (s.players p) := Game.update_players_self s p _
  obtain ⟨d, rest, hd, -, hrest, hdl, -⟩ := hlaid.slots
  rw [hself] at hd hdl
  -- the slot of the drawn tile lies behind the hand
  have hnull : ((quietGangTiles (s.players p)).deck pl.normalCapacity).isNull = true := by
    rw [Player.deck, hd, List.getD_eq_getElem?_getD,
      List.getElem?_append_right (by omega)]
    cases hget : rest[pl.normalCapacity - d.length]? with
    | none => rfl
    | some m => exact hrest m (List.mem_of_getElem? hget)
  rw [hslot, hx.not_null] at hnull
  exact Bool.false_ne_true hnull

/-- A hand with three copies of 5 TONG. -/
def gangHand : List Mj :=
  [⟨tong, 1, 0⟩, ⟨tong, 2, 0⟩, ⟨tong, 3, 0⟩, ⟨tong, 5, 0⟩, ⟨tong, 5, 0⟩, ⟨tong, 5, 0⟩,
    ⟨tiao, 1, 0⟩, ⟨tiao, 2, 0⟩, ⟨tiao, 3, 0⟩, ⟨wan, 4, 0⟩, ⟨wan, 5, 0⟩, ⟨wan, 6, 0⟩,
    ⟨dazi, 1, 0⟩, ⟨dazi, 1, 0⟩, ⟨dazi, 7, 0⟩, ⟨dazi, 7, 0⟩]

def gangPlayer : Player :=
  { Player.gameinfoInit with decks := gangHand ++ List.replicate 4 Mj.null }

/-- The fourth copy has just been drawn. -/
def gangTable : Game :=
  { Game.init [] with players := fun _ => gangPlayer.setDeck 16 ⟨tong, 5, 0⟩ }

theorem gangPlayer_inHand : InHand gangPlayer gangHand where
  hand := ⟨by decide, by decide⟩
  capacity := rfl
  slots := ⟨_, rfl, nulls_replicate 4⟩
  length := rfl
  sets := ⟨0, rfl, Nat.le_refl 0⟩
  door_length := rfl

/-- The log has the mark of a quiet gang. -/
def gangTaken (p : Seat) (w : Log) : Bool :=
  w.any fun x => match x.1 with
    | .note (.accept .quietGang q) => q == p
    | _ => false

theorem gangTaken_marked {p : Seat} {w : Log} (h : gangTaken p w = true) :
    Marked (.accept .quietGang p) w := by
  obtain ⟨⟨o, r⟩, hx, he⟩ := List.any_eq_true.mp h
  cases o with
  | note e =>
      cases e with
      | accept c q =>
          cases c with
          | quietGang =>
              obtain rfl : q = p := beq_iff_eq.mp he
              exact hx
          | _ => exact absurd he Bool.false_ne_true
      | _ => exact absurd he Bool.false_ne_true
  | _ => exact absurd he Bool.false_ne_true

/-- The quiet gang is offered and accepted. -/
theorem gangTable_run :
    ∃ tr r s' w, Run anyone (quietGang 0 gangTable) [] tr (.ret r s') w
      ∧ Marked (.accept .quietGang 0) w ∧ r = 0 ∧ (s'.players 0).normalCapacity = 13
      ∧ ((s'.players 0).deck 16).isNull = false := by
  have hreplay : (quietGang 0 gangTable).playOut scripted (fun _ _ => true)
      (fun t r s' => gangTaken 0 t.2 && decide (r = 0 ∧ (s'.players 0).normalCapacity = 13
        ∧ ((s'.players 0).deck 16).isNull = false)) 60 ((false, [yes]), []) = true := by
    decide +kernel
  obtain ⟨tr, r, s', w, hrun, hgood, -⟩ := scripted_return (fun w r s' => gangTaken 0 w
    && decide (r = 0 ∧ (s'.players 0).normalCapacity = 13
      ∧ ((s'.players 0).deck 16).isNull = false)) hreplay
  rw [Bool.and_eq_true, decide_eq_true_eq] at hgood
  exact ⟨tr, r, s', w, hrun, gangTaken_marked hgood.1, hgood.2⟩

theorem quiet_gang_never_fourth_copy :
    ∃ tr r s' w, Run anyone (quietGang 0 gangTable) [] tr (.ret r s') w
      ∧ ¬ LaidDown (gangTable.players 0) (s'.players 0) gangHand
        (List.replicate 4 ⟨tong, 5, 0⟩) {(tong, 5), (tong, 5), (tong, 5)} 0
      ∧ r ≠ 1 := by
  obtain ⟨tr, r, s', w, hrun, haccept, -⟩ := gangTable_run
  exact ⟨tr, r, s', w, hrun, quiet_gang_never gangPlayer_inHand (by decide) rfl (by decide)
    hrun haccept⟩

/-- The fourth copy lies behind a hand of thirteen, and the loop does not
go round. -/
theorem quiet_gang_leftover :
    ∃ tr r s' w, Run anyone (quietGang 0 gangTable) [] tr (.ret r s') w
      ∧ Marked (.accept .quietGang 0) w ∧ r ≠ 1
      ∧ ¬ ∀ i, (s'.players 0).normalCapacity ≤ i → ((s'.players 0).deck i).isNull = true := by
  obtain ⟨tr, r, s', w, hrun, haccept, rfl, hcap, hslot⟩ := gangTable_run
  refine ⟨tr, 0, s', w, hrun, haccept, by decide, fun hnull => ?_⟩
  rw [hnull 16 (by omega)] at hslot
  exact absurd hslot (by decide)

end QuietGang

end Server

end Mahjong
