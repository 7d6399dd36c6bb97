/-
The reaction to a discard: the ten claim blocks, and what becomes of the
tile.

# One block

A block finds the tile on the table and everybody at rest (`OnTable`) and
ends so (`Blocked`): the tile is still there, or the pass is over, with a
win, with a new discard to react to, or with the tile gone (`Reacted`).
What a claim does to the claimant's part is a fact about one player
(`Claimed`): the sets are one more, the tiles are those before and the one
claimed, and the hand is as the next move needs it. There is one such fact
for each kind of claim (`Rests.gang`, `Rests.pong`, `Rests.eat`), and one
step that takes the tile from the table with it (`OnTable.claim`).

The count tables do the rest. A player who is counted for a claim has a
whole hand (`wp_claimTiles`), so the number found in the table is a number
of tiles in the hand. Only an eat can break it: if its slots are exchanged
in the wrong order the hand has a hole, which a strict run excludes.

# The ten blocks

The first block that ends the pass decides (`wp_firstOf`), so for the
whole it is enough that each block keeps `OnTable` where it does not end
it. The call of itself behind a claim is the loop of `othersreaction`, with
the tile on the table for an invariant (`wp_othersreaction`).
-/
import Mahjong.Proofs.Turn

namespace Mahjong.Server

open Process CString Packing

section Claims

variable {A : SOp → Game → Prop} {P : SOp → Game → Log → Prop} {strict : Prop}
  {wall : Wall} {s : Game} {w : Log} {p : Seat}

-- ============================================================ the tile claimed

/-- A real tile is on the table, everybody at rest. -/
def OnTable (strict : Prop) (wall : Wall) (s : Game) (w : Log) : Prop :=
  AtRest strict wall s w ∧ s.discardedMj.Real

/-- No entry but a win changes what is on the table. -/
theorem OnTable.log {o : SOp} {r : o.Res} (h : OnTable strict wall s w)
    (ho : ¬ IsWin o) : OnTable strict wall s (⟨o, r⟩ :: w) :=
  ⟨h.1.log ho, h.2⟩

/-- A player who is counted for a claim has a whole hand, and the tile
is real. -/
theorem wp_claimTiles (hm : Mode strict A) (hP : Obliged strict P)
    (h : Tabled strict wall s w) {Q : Unit → Game → Log → Prop}
    (hQ : OnTable strict wall s w → Rests (s.players p) →
      Q () s (⟨.note (.counts (claimTiles (s.players p) s)), ()⟩ :: w)) :
    wp anyone A P ((Io.note (.counts (claimTiles (s.players p) s)) : Server Unit) s)
      Q w := by
  refine wp_note fun hA => ?_
  have htable : OnTable strict wall s w := by
    rcases h with h | ⟨hs, hnull, -⟩
    · exact h
    · have := hm.counts _ _ hs hA s.discardedMj (by simp [claimTiles])
      rw [hnull] at this
      exact nomatch this
  have hrest : Rests (s.players p) := by
    rcases htable.1.idle p with hr | ⟨hs, m, hmem, hnull⟩
    · exact hr
    · rw [hm.counts _ _ hs hA m (List.mem_append_left _ hmem)] at hnull
      exact nomatch hnull
  refine ⟨hP.counts _ _ _ ?_ htable.1.undecided, hQ htable hrest⟩
  intro m hm
  rcases List.mem_append.mp hm with hm | hm
  · exact Rests.real hrest m hm
  · rw [List.mem_singleton.mp hm]
    exact htable.2

/-- What the win test says of a discard, with the sets on the door. -/
theorem winning_of_addHu {pl : Player} {k : Nat} (hb : Books pl k) (hr : Rests pl)
    {t : Mj} (ht : t.Real)
    (hcheck : isAddHuPossible pl.decks pl.normalCapacity t = true) :
    Winning (faces (pl.decks.take pl.normalCapacity ++ [t]))
      (faces pl.doorTiles) := by
  have hcap := hb.capacity
  refine ⟨k, by omega, hb.doorSets, ?_⟩
  have h := (isAddHuPossible_complete (n := 5 - k) (by omega)
    (Nat.le_of_lt (capacity_lt hb)) (Rests.real hr) ht).mp hcheck
  rwa [faces_append, faces_cons, faces_nil, Multiset.add_cons, add_zero]

-- ========================================================== the claimant's hand

/-- What a claim does to the claimant's part: `X` holds afterwards, the
books are in order, and the tile has been added. -/
structure Claimed (strict : Prop) (X : Player → Prop) (t : Mj) (pl pl' : Player) :
    Prop where
  books : ∃ k, Books pl' k
  stock : strict → pl'.stock = t.face ::ₘ pl.stock
  state : X pl'

/-- The tiles of a player whose slots are full up to the capacity. -/
theorem stock_of_rests {pl : Player} {h rest : List Mj} (hd : pl.decks = h ++ rest)
    (hrest : Nulls rest) (hreal : ∀ m ∈ h, m.Real) :
    pl.stock = faces h + pl.rows := by
  rw [Player.stock, hd, filled_append, filled_nulls hrest, add_zero, filled_real hreal]

theorem count_le_length {h : List Mj} {f : Face} {n : Nat}
    (hc : n ≤ (faces h).count f) : n ≤ h.length := by
  rw [← card_faces]
  exact hc.trans (Multiset.count_le_card _ _)

/-- Gang: the hand is at rest again, three tiles shorter. -/
theorem Rests.gang {pl : Player} (hr : Rests pl) {k : Nat} (hb : Books pl k) {t : Mj}
    (ht : t.Real) (hpos : isGangPossible pl.decks pl.normalCapacity t = true) :
    pl.doorIndex + 4 ≤ 20 ∧ Claimed strict Rests t pl (gangTiles t pl) := by
  obtain ⟨h, rest, hd, hrest, hh, hlen⟩ := hr
  have htake : pl.decks.take pl.normalCapacity = h := by rw [hd, ← hlen, List.take_left]
  have hcount : 3 ≤ (faces h).count t.face := by
    rw [isGangPossible, htake, countAt_countTable hh.real ht] at hpos
    simpa using hpos
  have hle := count_le_length hcount
  have hcap := hb.capacity
  have hdoor := hb.doorIndex_le
  obtain ⟨d, z, he, hdl, hzl, hz, hdh, hfaces⟩ :=
    gangTiles_spec ht hh hcount hd hlen.symm (by omega)
  have hset : faces (List.replicate 4 t) = {t.face, t.face, t.face, t.face} :=
    faces_replicate 4 t
  have hdlen : (d ++ (z ++ rest)).length = 20 := by
    have h20 := hb.decks_length
    rw [hd] at h20
    simp only [List.length_append] at h20 ⊢
    omega
  have hgroup : Group ((List.replicate 4 t).map Mj.face) := .kong t.face
  obtain ⟨hbooks, hrows⟩ := Books.claim hb (by omega) hgroup (by simp) (by simp) hdlen
  refine ⟨by omega, ?_⟩
  rw [he]
  refine ⟨⟨_, hbooks⟩, fun _ => ?_, d, z ++ rest, rfl, hz.append hrest, hdh, hdl⟩
  rw [stock_of_rests hd hrest hh.real,
    stock_of_rests rfl (hz.append hrest) hdh.real]
  show faces d + (pl.pushDoors (List.replicate 4 t)).rows = _
  rw [hrows, hset, ← hfaces, ← Multiset.singleton_add]
  have h3 : Multiset.replicate 3 t.face = {t.face, t.face, t.face} := rfl
  have h4 : ({t.face, t.face, t.face, t.face} : Multiset Face)
      = {t.face} + {t.face, t.face, t.face} := rfl
  rw [h3, h4]
  abel

/-- Pong: the claimant holds a tile more than the capacity. -/
theorem Rests.pong {pl : Player} (hr : Rests pl) {k : Nat} (hb : Books pl k) {t : Mj}
    (ht : t.Real) (hpos : isPongPossible pl.decks pl.normalCapacity t = true) :
    pl.doorIndex + 3 ≤ 20 ∧ Claimed strict Holds t pl (pongTiles t pl) := by
  obtain ⟨h, rest, hd, hrest, hh, hlen⟩ := hr
  have htake : pl.decks.take pl.normalCapacity = h := by rw [hd, ← hlen, List.take_left]
  have hcount : 2 ≤ (faces h).count t.face := by
    rw [isPongPossible, htake, countAt_countTable hh.real ht] at hpos
    simpa using hpos
  have hle := count_le_length hcount
  have hcap := hb.capacity
  have hdoor := hb.doorIndex_le
  obtain ⟨d, z, he, hdl, hzl, hz, hdh, hfaces⟩ :=
    pongTiles_spec ht hh hcount hd hlen.symm (by omega)
  have hset : faces (List.replicate 3 t) = {t.face, t.face, t.face} :=
    faces_replicate 3 t
  have hdlen : (d ++ (z ++ rest)).length = 20 := by
    have h20 := hb.decks_length
    rw [hd] at h20
    simp only [List.length_append] at h20 ⊢
    omega
  have hgroup : Group ((List.replicate 3 t).map Mj.face) := .triplet t.face
  obtain ⟨hbooks, hrows⟩ := Books.claim hb (by omega) hgroup (by simp) (by simp) hdlen
  refine ⟨by omega, ?_⟩
  rw [he]
  refine ⟨⟨_, hbooks⟩, fun _ => ?_, Hand.holds rfl (hz.append hrest) hdh hdl⟩
  rw [stock_of_rests hd hrest hh.real,
    stock_of_rests rfl (hz.append hrest) hdh.real]
  show faces d + (pl.pushDoors (List.replicate 3 t)).rows = _
  rw [hrows, hset, ← hfaces, ← Multiset.singleton_add]
  have h2 : Multiset.replicate 2 t.face = {t.face, t.face} := rfl
  have h3 : ({t.face, t.face, t.face} : Multiset Face)
      = {t.face} + {t.face, t.face} := rfl
  rw [h2, h3]
  abel

/-- Eat: the claimant holds a tile more than the capacity, or, in a lax
run, the hand has a hole. -/
theorem Rests.eat {pl : Player} (hr : Rests pl) {k : Nat} (hb : Books pl k) {t : Mj}
    (ht : t.Real) (hsuit : t.type ≠ dazi) {i j : Int}
    (hok : eatable (eatTemp pl t i j) = true)
    (hgood : strict → ¬ (j = pl.normalCapacity - 1 ∧ i ≠ pl.normalCapacity - 2)) :
    pl.doorIndex + 3 ≤ 20
      ∧ Claimed strict (Ready strict) t pl (eatTiles (eatTemp pl t i j) i j pl) := by
  obtain ⟨h, rest, hd, hrest, hh, hlen⟩ := hr
  obtain ⟨a, b, hpair⟩ := eatable_pair hd hrest hb.decks_length ht hok
  have hcap := hb.capacity
  have hdoor := hb.doorIndex_le
  have hpos : 4 ≤ h.length := by
    have h1 := hpair.lt_fst
    have h2 := hpair.lt_snd
    have h3 := hpair.ne
    omega
  have htlen : (eatTemp pl t i j).length = 3 := (eatTemp_perm pl t i j).length_eq
  have hset : Group ((eatTemp pl t i j).map Mj.face) := by
    obtain ⟨n, hrun⟩ := hpair.run
    rw [hrun]
    unfold Mj.Real at ht
    unfold dazi at hsuit
    exact .run t.type n (by omega) (by omega)
  refine ⟨by omega, ?_⟩
  by_cases hbad : b = h.length - 1 ∧ a ≠ h.length - 2
  · -- the slots were exchanged in the wrong order
    have hlax : ¬ strict := by
      intro hs
      refine hgood hs ⟨?_, ?_⟩
      · rw [hpair.snd]
        omega
      · rw [hpair.fst]
        omega
    obtain ⟨d, he, hdlen, hhole⟩ := eatTiles_hole hd hlen.symm hpos hpair hbad
    obtain ⟨hbooks, -⟩ := Books.claim hb (by omega) hset (by omega) (by omega)
      (hdlen.trans hb.decks_length)
    rw [he]
    exact ⟨⟨_, hbooks⟩, fun hs => absurd hs hlax, Or.inr ⟨hlax, hhole⟩⟩
  · obtain ⟨d, z, he, hdl, hzl, hz, hdh, hfaces⟩ :=
      eatTiles_spec hh hd hlen.symm hpos hpair hbad
    have hdlen : (d ++ (z ++ rest)).length = 20 := by
      have h20 := hb.decks_length
      rw [hd] at h20
      simp only [List.length_append] at h20 ⊢
      omega
    obtain ⟨hbooks, hrows⟩ := Books.claim hb (by omega) hset (by omega) (by omega) hdlen
    rw [he]
    refine ⟨⟨_, hbooks⟩, fun _ => ?_,
      Or.inl (Hand.holds rfl (hz.append hrest) hdh hdl)⟩
    rw [stock_of_rests hd hrest hh.real,
      stock_of_rests rfl (hz.append hrest) hdh.real]
    show faces d + (pl.pushDoors (eatTemp pl t i j)).rows = _
    rw [hrows, ← Multiset.cons_add, ← hfaces]
    abel

-- ============================================================== after the claim

/-- The claimant's part changed and the tile off the table. -/
theorem OnTable.claim (h : OnTable strict wall s w) {X : Player → Prop}
    {g : Player → Player} (hg : Claimed strict X s.discardedMj (s.players p)
      (g (s.players p))) :
    Active strict wall p X (s.update p g).clearDiscarded w := by
  have hnull := h.2.not_null
  refine ⟨h.1.toCommon.update (p := p) (g := g) rfl rfl rfl (fun hs => ?_)
    fun k _ => hg.books, rfl, fun q hq => ?_, ?_⟩
  · have hclear := Game.stock_clearDiscarded (s := s.update p g) hnull
    have hupd := Game.stock_update (s := s) (p := p) (g := g)
    rw [hg.stock hs, ← hclear, Multiset.cons_add, Multiset.add_cons] at hupd
    exact add_right_cancel ((Multiset.cons_inj_right _).mp hupd)
  · show Idle strict ((s.update p g).players q)
    rw [Game.update_players_ne _ _ _ _ hq]
    exact h.1.idle q
  · show X ((s.update p g).players p)
    rw [Game.update_players_self]
    exact hg.state

/-- The log matters for the winner only. -/
theorem Active.relog {X : Player → Prop} (h : Active strict wall p X s w) {w' : Log}
    (hw : Declares w' (-1)) : Active strict wall p X s w' :=
  ⟨⟨h.wall_eq, h.winner, h.stock, h.books, hw⟩, h.noDiscard, h.idle, h.active⟩

/-- How a pass of `othersreaction` ends. -/
def Reacted (strict : Prop) (wall : Wall) : Outcome → Game → Log → Prop
  | .recurse _, s, w => Tabled strict wall s w
  | .done r _, s, w => (r = 1 ∧ Won strict s w) ∨ (r = 0 ∧ Cleared strict wall s w)

/-- How a block ends: the pass is over, or the tile is still there. -/
def Blocked (strict : Prop) (wall : Wall) : Option Outcome → Game → Log → Prop
  | none, s, w => OnTable strict wall s w
  | some r, s, w => Reacted strict wall r s w

variable (hm : Mode strict A) (hP : Obliged strict P)
include hm hP

/-- The end of a claim: a win, or a new discard. -/
theorem wp_huOrDiscard (h : Active strict wall p (Ready strict) s w) :
    wp anyone A P (huOrDiscard p s) (Blocked strict wall) w := by
  refine wp_seq ((wp_isHu hm hP h).mono ?_)
  rintro r s w (⟨rfl, hwon⟩ | ⟨rfl, h⟩)
  · exact wp_pure (Or.inl ⟨rfl, hwon⟩)
  · have h' : Active strict wall p (Choosing strict) s w :=
      ⟨h.toCommon, h.noDiscard, h.idle, Or.inl h.active⟩
    exact wp_seq ((wp_discard hm hP h').mono fun _ s w h => wp_pure h)

/-- A win on a discard, or the next block. -/
theorem wp_huClaim {d k : Seat} (h : Tabled strict wall s w) :
    wp anyone A P (huClaim d k s) (Blocked strict wall) w := by
  refine wp_get_seq (wp_player_seq (wp_seq (wp_claimTiles hm hP h fun ht hr => ?_)))
  have h1 := ht.log (o := .note (.counts (claimTiles (s.players (d + k)) s))) (r := ()) id
  obtain ⟨c, hb⟩ := ht.1.books (d + k)
  split
  next hpos =>
    refine wp_seq (wp_ask hP.quiet h1.1.undecided (by decide) fun answer ack => ?_)
    have hw2 : Declares (asked (d + k) huOffer answer ack _) (-1) := h1.1.declares.asked
    have h2 : OnTable strict wall s (asked (d + k) huOffer answer ack _) :=
      ⟨⟨⟨h1.1.wall_eq, h1.1.winner, h1.1.stock, h1.1.books, hw2⟩, h1.1.idle⟩, h1.2⟩
    split
    next hyes =>
      refine wp_seq (wp_note fun _ => ⟨hP.win _ _ _ h2.1.undecided ?_, ?_⟩)
      · exact Or.inr ⟨answer, ack, _, rfl, hyes, winning_of_addHu hb hr ht.2 hpos⟩
      · refine wp_modify_seq (wp_pure (Or.inl ⟨rfl, ?_⟩))
        exact Won.intro h2.1.undecided (Tabled.conserved (Or.inl h2)) _
    next => exact wp_pure h2
  next => exact wp_pure h1

omit hm in
/-- The shape of a claim on a discard: an offer; if it is taken, tiles
change places, the others are told, the tile is off the table. -/
theorem wp_taken {c : Claim} {k : Seat} {n : Nat} {g : Player → Player} {what : String}
    {X : Player → Prop} {rest : Server (Option Outcome)} (h : OnTable strict wall s w)
    (hroom : (s.players k).doorIndex + n ≤ 20)
    (hg : Claimed strict X s.discardedMj (s.players k) (g (s.players k)))
    (hrest : ∀ s w, Active strict wall k X s w →
      wp anyone A P (rest s) (Blocked strict wall) w) :
    wp anyone A P ((do
      Io.note (.accept c k)
      accessDoor k n
      update k g
      toOthers k (announce k what)
      Prog.modify Game.clearDiscarded
      rest : Server (Option Outcome)) s) (Blocked strict wall) w := by
  refine wp_seq (wp_note fun _ => ⟨hP.quiet.note _ _ _ rfl h.1.undecided, ?_⟩)
  refine wp_seq (wp_accessDoor hP hroom declares_closed
    (fun _ hw => h.1.undecided.relog hw) (h.1.declares.cons id) fun w1 hw1 => ?_)
  have hu : Undecided (s.update k g) w := h.1.undecided.update fun _ _ => hg.books
  refine wp_modify_seq (wp_seq (wp_toOthers hP.quiet (plain_announce _ _)
    declares_closed (fun _ hw => hu.relog hw) hw1 fun w2 hw2 => ?_))
  exact wp_modify_seq (hrest _ _ ((h.claim hg).relog hw2))

/-- A gang draws before it goes on. -/
theorem wp_gangClaim {d k : Seat} (h : Tabled strict wall s w) :
    wp anyone A P (gangClaim d k s) (Blocked strict wall) w := by
  refine wp_get_seq (wp_player_seq (wp_seq (wp_claimTiles hm hP h fun ht hr => ?_)))
  have h1 := ht.log (o := .note (.counts (claimTiles (s.players (d + k)) s))) (r := ()) id
  obtain ⟨c, hb⟩ := ht.1.books (d + k)
  split
  next hpos =>
    refine wp_seq (wp_ask hP.quiet h1.1.undecided (by decide) fun answer ack => ?_)
    have h2 : OnTable strict wall s (asked (d + k) (str "You can gang.\n") answer ack _) :=
      ⟨⟨⟨h1.1.wall_eq, h1.1.winner, h1.1.stock, h1.1.books, h1.1.declares.asked⟩,
        h1.1.idle⟩, h1.2⟩
    split
    next =>
      obtain ⟨hroom, hg⟩ : _ ∧ Claimed strict Rests _ _ _ := Rests.gang hr hb ht.2 hpos
      refine wp_taken hP h2 hroom hg fun s w h => ?_
      have h' : Active strict wall (d + k) (Idle strict) s w :=
        ⟨h.toCommon, h.noDiscard, h.idle, Or.inl h.active⟩
      exact wp_seq ((wp_draw hm hP h').mono fun _ s w h => wp_huOrDiscard hm hP h)
    next => exact wp_pure h2
  next => exact wp_pure h1

/-- A pong goes on with the win test. -/
theorem wp_pongClaim {d k : Seat} (h : Tabled strict wall s w) :
    wp anyone A P (pongClaim d k s) (Blocked strict wall) w := by
  refine wp_get_seq (wp_player_seq (wp_seq (wp_claimTiles hm hP h fun ht hr => ?_)))
  have h1 := ht.log (o := .note (.counts (claimTiles (s.players (d + k)) s))) (r := ()) id
  obtain ⟨c, hb⟩ := ht.1.books (d + k)
  split
  next hpos =>
    refine wp_seq (wp_ask hP.quiet h1.1.undecided (by decide) fun answer ack => ?_)
    have h2 : OnTable strict wall s (asked (d + k) (str "You can pong.\n") answer ack _) :=
      ⟨⟨⟨h1.1.wall_eq, h1.1.winner, h1.1.stock, h1.1.books, h1.1.declares.asked⟩,
        h1.1.idle⟩, h1.2⟩
    split
    next =>
      obtain ⟨hroom, hg⟩ : _ ∧ Claimed strict Holds _ _ _ := Rests.pong hr hb ht.2 hpos
      refine wp_taken hP h2 hroom hg fun s w h => ?_
      exact wp_huOrDiscard hm hP ⟨h.toCommon, h.noDiscard, h.idle, Or.inl h.active⟩
    next => exact wp_pure h2
  next => exact wp_pure h1

/-- The loop of the eat block: it leaves with the tiles laid down. -/
theorem wp_eatLoop {k : Seat} (h : OnTable strict wall s w) (hr : Rests (s.players k))
    (hsuit : s.discardedMj.type ≠ dazi) :
    wp anyone A P (eatLoop k s) (fun _ s' w' => Declares w' (-1) ∧
      ∃ g, s' = s.update k g ∧ Claimed strict (Ready strict) s.discardedMj
        (s.players k) (g (s.players k))) w := by
  obtain ⟨c, hb⟩ := h.1.books k
  refine wp_forever (fun s' w' => s' = s ∧ Declares w' (-1)) ?_ ⟨rfl, h.1.declares⟩
  rintro s' w' ⟨rfl, hw⟩
  have hu : Undecided s' w' := h.1.undecided.relog hw
  refine wp_seq (wp_writeMessageWaitAck hP.quiet hu (by decide) fun ack => ?_)
  have hu1 := (hu.log (o := .write k (str
    "Type which 2 of the mjs you want to eat with: \n")) (r := ()) id).log
      (o := .readline k maxline) (r := ack) id
  refine wp_seq (wp_readAndAck hP.quiet hu1 fun line _ => ?_)
  have hu2 := (hu1.log (o := .readline k maxline) (r := line) id).log
    (o := .write k (str "ACK\n")) (r := ()) id
  generalize (sscanf2 line).1.getD (-1) = i
  generalize (sscanf2 line).2.getD (-1) = j
  refine wp_seq (wp_note fun _ => ⟨hP.quiet.note _ _ _ rfl hu2, ?_⟩)
  have hu2 := hu2.log (o := .note (.eatindex k i j)) (r := ()) id
  refine wp_seq (wp_note fun hAi => ?_)
  obtain ⟨hi, hi'⟩ := hm.decks _ _ hAi
  refine ⟨hP.access _ _ _ _ hi (by simpa [Arr.size] using hi') hu2, ?_⟩
  refine wp_seq (wp_note fun hAj => ?_)
  obtain ⟨hj, hj'⟩ := hm.decks _ _ hAj
  have hu3 := hu2.log (o := .note (.access .decks i)) (r := ()) id
  refine ⟨hP.access _ _ _ _ hj (by simpa [Arr.size] using hj') hu3, ?_⟩
  refine wp_get_seq ?_
  have hu4 := hu3.log (o := .note (.access .decks j)) (r := ()) id
  split
  next hok =>
    refine wp_seq (wp_writeMessageWaitAck hP.quiet hu4 (by decide) fun ack' => ?_)
    have hu5 := (hu4.log (o := .write k (str "eatable.\n")) (r := ()) id).log
      (o := .readline k maxline) (r := ack') id
    refine wp_seq (wp_note fun heat => ⟨hP.quiet.note _ _ _ rfl hu5, ?_⟩)
    obtain ⟨hroom, hg⟩ : _ ∧ Claimed strict (Ready strict) _ _ _ :=
      Rests.eat hr hb h.2 hsuit hok fun hs => hm.eat _ _ _ _ hs heat
    refine wp_seq (wp_accessDoor hP hroom declares_closed
      (fun _ hw => h.1.undecided.relog hw) (hu5.declares.cons ?_) fun w3 hw3 => ?_)
    · exact id
    · exact wp_modify_seq (wp_pure ⟨hw3, _, rfl, hg⟩)
  next =>
    refine wp_seq (wp_writeMessageWaitAck hP.quiet hu4 (by decide) fun ack' => ?_)
    refine wp_seq (wp_note fun _ => ⟨hP.quiet.note _ _ _ rfl ?_, wp_pure ⟨rfl, ?_⟩⟩)
    · refine (hu4.log ?_).log ?_ <;> exact id
    · refine Undecided.declares (s := s') (((hu4.log ?_).log ?_).log ?_) <;> exact id

/-- Only the next player is offered an eat. -/
theorem wp_eatClaim {d : Seat} (h : Tabled strict wall s w) :
    wp anyone A P (eatClaim d s) (Blocked strict wall) w := by
  refine wp_get_seq (wp_player_seq (wp_seq (wp_claimTiles hm hP h fun ht hr => ?_)))
  have h1 := ht.log (o := .note (.counts (claimTiles (s.players (d + 1)) s))) (r := ()) id
  split
  next hpos =>
    have hsuit : s.discardedMj.type ≠ dazi := by
      intro he
      rw [isEatPossible, if_pos he] at hpos
      exact nomatch hpos
    refine wp_seq (wp_ask hP.quiet h1.1.undecided (by decide) fun answer ack => ?_)
    have h2 : OnTable strict wall s (asked (d + 1) (str "You can eat.\n") answer ack _) :=
      ⟨⟨⟨h1.1.wall_eq, h1.1.winner, h1.1.stock, h1.1.books, h1.1.declares.asked⟩,
        h1.1.idle⟩, h1.2⟩
    split
    next =>
      refine wp_seq (wp_note fun _ => ⟨hP.quiet.note _ _ _ rfl h2.1.undecided, ?_⟩)
      have h3 := h2.log (o := .note (.accept .eat (d + 1))) (r := ()) id
      refine wp_seq ((wp_eatLoop hm hP h3 hr hsuit).mono ?_)
      rintro _ s' w' ⟨hw, g, rfl, hg⟩
      have hu : Undecided (s.update (d + 1) g) w' :=
        (h2.1.undecided.relog hw).update fun _ _ => hg.books
      refine wp_seq (wp_toOthers hP.quiet (plain_announce _ _) declares_closed
        (fun _ hw => hu.relog hw) hw fun w4 hw4 => ?_)
      exact wp_modify_seq (wp_huOrDiscard hm hP ((h2.claim hg).relog hw4))
    next => exact wp_pure h2
  next => exact wp_pure h1

-- ============================================================ nobody wants it

omit hm hP in
/-- A tile nobody wants is kept. -/
theorem Books.pushSea {pl : Player} {k : Nat} (hb : Books pl k) (t : Mj)
    (hroom : pl.seaIndex < 150) : Books (pl.pushSea t) k
      ∧ (pl.pushSea t).stock = t.face ::ₘ pl.stock := by
  obtain ⟨h1, h2, h3, h4, h5, h6, h7, h8, h9, h10⟩ := hb
  refine ⟨⟨h1, h2, h3, h4, ?_, h6, h7, hroom, h9, h10⟩, ?_⟩
  · show (pl.sea.set _ _).length = 150
    rw [List.length_set]
    exact h5
  · have hrow : (pl.pushSea t).seaTiles = pl.seaTiles ++ [t] :=
      take_set_succ (by rw [h5]; exact hroom) t
    show filled pl.decks + (pl.pushSea t).rows = _
    rw [Player.rows, hrow, faces_append, faces_cons, faces_nil, Player.stock,
      Player.rows]
    show filled pl.decks + (faces pl.flowerTiles + faces pl.doorTiles
      + (faces pl.seaTiles + {t.face})) = _
    rw [← Multiset.singleton_add]
    abel

omit hm hP in
/-- There are not enough tiles to fill a sea. -/
theorem sea_room (hs : s.stock = (tileSet : Multiset Face)) {k : Nat}
    (hb : Books (s.players p) k) : (s.players p).seaIndex < 150 := by
  have hlen : (s.players p).seaTiles.length = (s.players p).seaIndex := by
    rw [Player.seaTiles, List.length_take, hb.sea_length,
      Nat.min_eq_left hb.seaIndex_le]
  have hle : faces (s.players p).seaTiles ≤ s.stock := by
    calc faces (s.players p).seaTiles
        ≤ (s.players p).rows := Multiset.le_add_left _ _
      _ ≤ (s.players p).stock := Multiset.le_add_left _ _
      _ ≤ ∑ q, (s.players q).stock :=
          Finset.single_le_sum (f := fun q => (s.players q).stock)
            (fun q _ => Multiset.zero_le _) (Finset.mem_univ p)
      _ ≤ faces s.undrawn + ∑ q, (s.players q).stock := Multiset.le_add_left _ _
      _ ≤ s.stock := Multiset.le_add_right _ _
  have hcard := Multiset.card_le_card hle
  rw [card_faces, hlen, hs, Multiset.coe_card, tileSet_length] at hcard
  omega

/-- The discarder is told, and everybody is at rest. -/
theorem wp_noOneWantsIt {d : Seat} (h : OnTable strict wall s w) :
    wp anyone A P (noOneWantsIt d s) (Reacted strict wall) w := by
  refine wp_seq (wp_writeMessageWaitAck hP.quiet h.1.undecided (by decide) fun ack => ?_)
  refine wp_get_seq (wp_seq (wp_note fun hA => ?_))
  obtain ⟨c, hb⟩ := h.1.books d
  have hroom : (s.players d).seaIndex < 150 := by
    by_cases hs : strict
    · exact sea_room (h.1.stock hs) hb
    · have := hm.rows .sea _ _ hs (by decide) hA
      simpa [Arr.size] using this
  have hu : Undecided s (⟨.readline d maxline, ack⟩
      :: ⟨.write d (str "no one wants it.\n"), ()⟩ :: w) := by
    refine (h.1.undecided.log ?_).log ?_ <;> exact id
  refine ⟨hP.access _ _ _ _ (by omega) (by simpa [Arr.size] using hroom) hu, ?_⟩
  have h1 : OnTable strict wall s (⟨.note (.access .sea (s.players d).seaIndex), ()⟩
      :: ⟨.readline d maxline, ack⟩
      :: ⟨.write d (str "no one wants it.\n"), ()⟩ :: w) := by
    refine ((h.log ?_).log ?_).log ?_ <;> exact id
  have hidle : Idle strict ((s.players d).pushSea s.discardedMj) :=
    (h.1.idle d).imp id id
  obtain ⟨hbooks, hstock⟩ := Books.pushSea hb s.discardedMj hroom
  have h2 := h1.claim (p := d) (g := fun pl => pl.pushSea s.discardedMj)
    (X := Idle strict) ⟨⟨c, hbooks⟩, fun _ => hstock, hidle⟩
  refine wp_modify_seq (wp_modify_seq (wp_pure (Or.inr ⟨rfl, ⟨h2.toCommon, ?_⟩, rfl⟩)))
  intro q
  by_cases hq : q = d
  · exact hq ▸ h2.active
  · exact h2.idle q hq

-- ================================================================= the reaction

omit hm hP in
/-- Blocks in order: the first that ends the pass decides. -/
theorem wp_firstOf {last : Server Outcome} {Q : Outcome → Game → Log → Prop}
    (hlast : ∀ s w, OnTable strict wall s w → wp anyone A P (last s) Q w) :
    ∀ {blocks : List (Server (Option Outcome))},
      (∀ b ∈ blocks, ∀ s w, Tabled strict wall s w →
        wp anyone A P (b s) (fun r s w => match r with
          | none => OnTable strict wall s w
          | some r => Q r s w) w) →
      ∀ {s w}, (blocks = [] → OnTable strict wall s w) → Tabled strict wall s w →
        wp anyone A P (firstOf blocks last s) Q w := by
  intro blocks
  induction blocks with
  | nil => exact fun _ s w h _ => hlast s w (h rfl)
  | cons b blocks ih =>
      intro hb s w _ h
      refine wp_seq ((hb b (List.mem_cons_self ..) s w h).mono fun r s w hr => ?_)
      cases r with
      | none =>
          exact ih (fun b hmem => hb b (List.mem_cons_of_mem _ hmem)) (fun _ => hr)
            (Or.inl hr)
      | some r => exact wp_pure hr

/-- One pass over the blocks. -/
theorem wp_reaction {d : Seat} (h : Tabled strict wall s w) :
    wp anyone A P (reaction d s) (Reacted strict wall) w := by
  refine wp_seq (wp_note fun _ =>
    ⟨hP.othersreaction _ _ _ (fun hs => h.conserved hs) h.undecided, ?_⟩)
  refine wp_firstOf (fun s w h => wp_noOneWantsIt hm hP h) ?_ (fun he => nomatch he)
    (h.log id)
  intro b hb s w h
  have hblock : wp anyone A P (b s) (Blocked strict wall) w := by
    simp only [List.mem_cons, List.not_mem_nil, or_false] at hb
    rcases hb with rfl | rfl | rfl | rfl | rfl | rfl | rfl | rfl | rfl | rfl
    · exact wp_huClaim hm hP h
    · exact wp_huClaim hm hP h
    · exact wp_huClaim hm hP h
    · exact wp_gangClaim hm hP h
    · exact wp_gangClaim hm hP h
    · exact wp_gangClaim hm hP h
    · exact wp_pongClaim hm hP h
    · exact wp_pongClaim hm hP h
    · exact wp_pongClaim hm hP h
    · exact wp_eatClaim hm hP h
  refine hblock.mono fun r s w hr => ?_
  cases r with
  | none => exact hr
  | some r => exact hr

/-- `othersreaction`: a win, which a nested call hides from the caller,
or the table cleared. -/
theorem wp_othersreaction {d : Seat} (h : Tabled strict wall s w) :
    wp anyone A P (othersreaction d s)
      (fun r s w => Won strict s w ∨ (r.1 = 0 ∧ Cleared strict wall s w)) w := by
  refine wp_iterate (fun _ s w => Tabled strict wall s w) ?_ h
  rintro ⟨nested, d⟩ s w h
  refine wp_seq ((wp_reaction hm hP h).mono fun r s w hr => ?_)
  cases r with
  | recurse d' => exact wp_pure hr
  | done r d' =>
      refine wp_pure ?_
      rcases hr with ⟨rfl, hwon⟩ | ⟨rfl, hclear⟩
      · exact Or.inl hwon
      · exact Or.inr ⟨by simp, hclear⟩

end Claims

end Mahjong.Server
