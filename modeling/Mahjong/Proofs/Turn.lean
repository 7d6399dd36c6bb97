/-
One player's moves: drawing, the win test, the quiet gang, discarding.

# The states of a move

`draw` takes the player from rest (`Idle`) to a hand with a tile behind
it: one that may still be a flower while the loop runs (`Drew`), and one
that wins or not when it is done (`Ready`). `is_hu` either closes the
round (`Won`) or leaves the player as it was; `quiet_gang` leaves a
player who is to discard (`Choosing`), `discard` everybody at rest with
the tile on the table (`Tabled`). Each function has one lemma, from its
first state to its last; `wp_drawNDiscard` puts them in a row.

# The flower loop

Nothing bounds it but the wall. Its invariant is that the player has a
tile in the slot behind the hand (`Drew`); a flower there is laid down
and another tile taken (`Active.redraw`), and both keep the stock. That
there is room for the flower comes from the stock as well: a strict run
has no ninth flower, a lax one is assumed not to go beyond the row.

# The quiet gang

It lays four tiles down and leaves the fourth copy where it was drawn,
three empty slots behind the hand (`Ganged`). In a strict run none is
accepted. In a lax one the discard that follows either names that copy's
slot by luck, is the null tile, or leaves a hole (`Ganged.discard`); in
every case the books are kept, and a hand with a hole is counted no more.
-/
import Mahjong.Proofs.Play

namespace Mahjong.Server

open Process CString Packing

section Turn

variable {A : SOp → Game → Prop} {P : SOp → Game → Log → Prop} {strict : Prop}
  {wall : Wall} {s : Game} {w : Log} {p : Seat}

-- =================================================================== drawing

/-- A player after a tile went into the slot behind the hand. -/
def Drew (strict : Prop) (p : Player) : Prop :=
  Drawing p ∨ (¬ strict ∧ Cracked p)

/-- A player about to see whether the hand wins. -/
def Ready (strict : Prop) (p : Player) : Prop :=
  Holds p ∨ (¬ strict ∧ Hole p (p.normalCapacity + 1))

/-- The slot behind the hand does not mend it. -/
theorem Cracked.setDeck {pl : Player} (h : Cracked pl) (m : Mj) :
    Cracked (pl.setDeck pl.normalCapacity m) := by
  obtain ⟨x, hx, hnull⟩ := h
  refine ⟨x, ?_, hnull⟩
  show x ∈ (pl.decks.set pl.normalCapacity m).take pl.normalCapacity
  rw [List.take_set_of_le (Nat.le_refl _)]
  exact hx

/-- There is a slot behind every hand. -/
theorem capacity_lt {pl : Player} {k : Nat} (hb : Books pl k) :
    pl.normalCapacity < pl.decks.length := by
  have h1 := hb.capacity
  have h2 := hb.decks_length
  omega

/-- A tile for a player at rest. -/
theorem Idle.take {pl : Player} (h : Idle strict pl) {k : Nat} (hb : Books pl k)
    {m : Mj} (hm : m.Real ∨ m.type = flower) :
    Drew strict (pl.setDeck pl.normalCapacity m) := by
  rcases h with ⟨hand, rest, hd, hrest, hh, hlen⟩ | ⟨hs, hc⟩
  · refine Or.inl ?_
    have hlt := capacity_lt hb
    cases rest with
    | nil =>
        rw [hd, List.append_nil] at hlt
        omega
    | cons z rest =>
        refine ⟨hand, m, rest, ?_, fun x hx => hrest x (List.mem_cons_of_mem _ hx),
          hh, hm, hlen⟩
        show pl.decks.set pl.normalCapacity m = _
        rw [hd, ← hlen, List.set_append_right _ _ (Nat.le_refl _), Nat.sub_self,
          List.set_cons_zero]
  · exact Or.inr ⟨hs, hc.setDeck m⟩

/-- A tile in place of a flower. -/
theorem Drew.take {pl : Player} (h : Drew strict pl) {m : Mj}
    (hm : m.Real ∨ m.type = flower) :
    Drew strict ((pl.pushFlower (pl.deck pl.normalCapacity)).setDeck
      pl.normalCapacity m) := by
  rcases h with ⟨hand, x, rest, hd, hrest, hh, -, hlen⟩ | ⟨hs, hc⟩
  · refine Or.inl ⟨hand, m, rest, ?_, hrest, hh, hm, hlen⟩
    show pl.decks.set pl.normalCapacity m = _
    rw [hd, ← hlen, List.set_append_right _ _ (Nat.le_refl _), Nat.sub_self,
      List.set_cons_zero]
  · exact Or.inr ⟨hs, hc.setDeck m⟩

/-- The books do not look at the hand. -/
theorem Books.setDeck {pl : Player} {k : Nat} (hb : Books pl k) (i : Nat) (m : Mj) :
    Books (pl.setDeck i m) k :=
  Books.setDecks hb (by rw [List.length_set]; exact hb.decks_length)

/-- The first tile of a draw. -/
theorem Active.draw (h : Active strict wall p (Idle strict) s w)
    (hlt : s.takeIndex < 144) :
    Active strict wall p (Drew strict)
      (s.takeInto p (s.players p).normalCapacity) w := by
  obtain ⟨k, hb⟩ := h.books p
  have hnext := wall.real_or_flower (Game.next_mem h.wall_eq hlt)
  refine ⟨h.toCommon.update (p := p)
    (g := fun pl => pl.setDeck (s.players p).normalCapacity s.next) rfl rfl rfl ?_
    fun k hk => ⟨k, Books.setDeck hk _ _⟩, h.noDiscard, fun q hq => ?_, ?_⟩
  · intro hs
    have hrest := h.active.resolve_right fun hc => hc.1 hs
    have hstock := Game.stock_takeInto (p := p) h.wall_eq hlt (capacity_lt hb)
    rwa [filled_null hrest.deck_null, add_zero] at hstock
  · rw [Game.takeInto_players_ne s _ hq]
    exact h.idle q hq
  · rw [Game.takeInto_players_self]
    exact h.active.take hb hnext

/-- A tile from the wall is a change of one player, but for the wall. -/
theorem takeInto_update (s : Game) (p : Seat) (g : Player → Player) (i : Nat) :
    ((s.update p g).takeInto p i).players
      = (s.update p fun pl => (g pl).setDeck i s.next).players := by
  show Function.update (Function.update s.players p _) p _ = _
  rw [Function.update_idem]
  congr 1
  rw [Game.update_players_self]
  rfl

/-- A flower laid down and the next tile. -/
theorem Active.redraw (h : Active strict wall p (Drew strict) s w)
    (hflower : ((s.players p).deck (s.players p).normalCapacity).type = flower)
    (hroom : (s.players p).flowerIndex < 8) (hlt : s.takeIndex < 144) :
    Active strict wall p (Drew strict)
      ((s.update p fun pl => pl.pushFlower (pl.deck (s.players p).normalCapacity)).takeInto
        p (s.players p).normalCapacity) w := by
  obtain ⟨k, hb⟩ := h.books p
  have hnext := wall.real_or_flower (Game.next_mem h.wall_eq hlt)
  have hplayers := takeInto_update s p
    (fun pl => pl.pushFlower (pl.deck (s.players p).normalCapacity))
    (s.players p).normalCapacity
  refine ⟨h.toCommon.update hplayers rfl rfl ?_
    fun k hk => ⟨k, Books.setDeck (Books.pushFlower hk hflower hroom) _ _⟩, h.noDiscard,
    fun q hq => ?_, ?_⟩
  · intro _
    have hpush := Game.stock_pushFlower (s := s) (p := p)
      ((s.players p).deck (s.players p).normalCapacity)
      (by rw [hb.flowers_length]; exact hroom)
    have hself : (s.update p fun pl =>
        pl.pushFlower (pl.deck (s.players p).normalCapacity)).players p
        = (s.players p).pushFlower
          ((s.players p).deck (s.players p).normalCapacity) :=
      Game.update_players_self s p _
    have htake := Game.stock_takeInto (p := p) (i := (s.players p).normalCapacity)
      (s := s.update p fun pl => pl.pushFlower (pl.deck (s.players p).normalCapacity))
      h.wall_eq hlt (by rw [hself]; exact capacity_lt hb)
    have hold : ((s.update p fun pl =>
        pl.pushFlower (pl.deck (s.players p).normalCapacity)).players p).deck
          (s.players p).normalCapacity
        = (s.players p).deck (s.players p).normalCapacity := by
      rw [hself]
      rfl
    have hnull : ((s.players p).deck (s.players p).normalCapacity).isNull = false := by
      simp [Mj.isNull, hflower]
    have hpush' : (s.update p fun pl =>
        pl.pushFlower (pl.deck (s.players p).normalCapacity)).stock
        = ((s.players p).deck (s.players p).normalCapacity).face ::ₘ s.stock := hpush
    rw [hold, filled_singleton hnull, hpush', add_comm, Multiset.singleton_add] at htake
    exact (Multiset.cons_inj_right _).mp htake
  · rw [hplayers, Game.update_players_ne _ _ _ _ hq]
    exact h.idle q hq
  · rw [hplayers, Game.update_players_self]
    exact h.active.take hnext

/-- A draw ends with a tile in hand that is no flower. -/
theorem wp_draw (hm : Mode strict A) (hP : Obliged strict P)
    (h : Active strict wall p (Idle strict) s w) :
    wp anyone A P (draw p s)
      (fun _ s' w' => Active strict wall p (Ready strict) s' w') w := by
  have hcap : ∀ {s : Game} {X : Player → Prop} {w : Log},
      Active strict wall p X s w → (s.players p).normalCapacity ≤ 16 := by
    intro s X w h
    obtain ⟨k, hk⟩ := h.books p
    have := hk.capacity
    omega
  have hlog : ∀ {X : Player → Prop} {s : Game} {w : Log} {l ack : Line},
      Active strict wall p X s w → Active strict wall p X s
        (⟨.readline p maxline, ack⟩ :: ⟨.write p l, ()⟩ :: w) := by
    intro X s w l ack h
    refine (h.log ?_).log ?_ <;> exact id
  refine wp_seq (wp_note fun _ => ⟨hP.quiet.note _ _ _ rfl h.undecided, ?_⟩)
  have h := h.log (o := .note (.draw p)) (r := ()) id
  refine wp_player_seq (wp_seq (wp_takeInto fun hA => ?_))
  have hlt := hm.wall _ _ hA
  have hc := hcap h
  refine ⟨hP.access _ _ _ _ (by omega) (by simpa [Arr.size] using hlt) h.undecided,
    fun _ => ⟨hP.access _ _ _ _ (by omega) (by simp [Arr.size]; omega)
      (h.undecided.log id), ?_⟩⟩
  have h1 : Active strict wall p (Drew strict)
      (s.takeInto p (s.players p).normalCapacity)
      (⟨.note (.access .decks (s.players p).normalCapacity), ()⟩
        :: ⟨.note (.access .shuffledMjs s.takeIndex), ()⟩
        :: ⟨.note (.draw p), ()⟩ :: w) := by
    refine ((h.draw (by omega)).log ?_).log ?_ <;> exact id
  refine wp_seq (wp_player_seq
    (wp_writeMessageWaitAck hP.quiet h1.undecided (plain_tileLine _) fun ack => ?_))
  refine wp_forever (fun s w => Active strict wall p (Drew strict) s w) ?_ (hlog h1)
  intro s w h
  refine wp_player_seq ?_
  have hc := hcap h
  split
  next hflower =>
    refine wp_seq (wp_layFlower fun hA => ?_)
    -- room for the flower: by the assumption, or as there are only eight
    have hroom : (s.players p).flowerIndex < 8 := by
      by_cases hs : strict
      · exact lt_of_le_of_lt (Finset.single_le_sum
          (f := fun q => (s.players q).flowerIndex) (fun q _ => Nat.zero_le _)
          (Finset.mem_univ p)) (flower_room (h.stock hs) h.books hflower)
      · have := hm.rows .flowers _ _ hs (by decide) hA
        simpa [Arr.size] using this
    refine ⟨hP.access _ _ _ _ (by omega) (by simpa [Arr.size] using hroom) h.undecided, ?_⟩
    refine wp_seq (wp_takeInto fun hA => ?_)
    have hlt := hm.wall _ _ hA
    have hu : Undecided (s.update p fun pl =>
        pl.pushFlower (pl.deck (s.players p).normalCapacity))
        (⟨.note (.access .flowers (s.players p).flowerIndex), ()⟩ :: w) :=
      (h.undecided.pushFlower hflower hroom).log id
    refine ⟨hP.access _ _ _ _ (by omega) (by simpa [Arr.size] using hlt) hu,
      fun _ => ⟨hP.access _ _ _ _ (by omega) (by simp [Arr.size]; omega)
        (hu.log id), ?_⟩⟩
    have h2 : Active strict wall p (Drew strict) ((s.update p fun pl =>
        pl.pushFlower (pl.deck (s.players p).normalCapacity)).takeInto p
          (s.players p).normalCapacity)
        (⟨.note (.access .decks (s.players p).normalCapacity), ()⟩
          :: ⟨.note (.access .shuffledMjs s.takeIndex), ()⟩
          :: ⟨.note (.access .flowers (s.players p).flowerIndex), ()⟩ :: w) := by
      refine (((h.redraw hflower hroom (by
        have h0 : (s.takeIndex : Int) < 144 := hlt; omega)).log ?_).log ?_).log ?_ <;>
        exact id
    refine wp_seq (wp_player_seq
      (wp_writeMessageWaitAck hP.quiet h2.undecided (plain_tileLine _) fun ack => ?_))
    exact wp_pure (hlog h2)
  next hno =>
    refine wp_pure ⟨h.toCommon, h.noDiscard, h.idle, ?_⟩
    rcases h.active with hd | ⟨hs, hc⟩
    · exact Or.inl (hd.holds hno)
    · exact Or.inr ⟨hs, hc.mono (Nat.le_succ _)⟩

-- ================================================================= the win test

/-- A counted hand is whole. -/
theorem Ready.whole {pl : Player} (h : Ready strict pl)
    (hc : ¬ strict → ∀ m ∈ pl.decks.take (pl.normalCapacity + 1), m.isNull = false) :
    Holds pl := by
  rcases h with h | ⟨hs, m, hm, hnull⟩
  · exact h
  · rw [hc hs m hm] at hnull
    exact nomatch hnull

/-- What the win test says, with the sets on the door. -/
theorem winning_of_huCheck {pl : Player} {k : Nat} (hb : Books pl k) (hh : Holds pl)
    (hcheck : huCheck pl.decks pl.normalCapacity = true) :
    Winning (faces (pl.decks.take (pl.normalCapacity + 1))) (faces pl.doorTiles) := by
  have hcap := hb.capacity
  refine ⟨k, by omega, hb.doorSets, ?_⟩
  exact (huCheck_complete (n := 5 - k) (by omega) (by omega) (capacity_lt hb)
    (Holds.real hh)).mp hcheck

/-- A win closes the round. -/
theorem Won.intro (hu : Undecided s w) (hs : strict → Conserved s) (p : Seat) :
    Won strict { s with winner := (p.val : Int) } (⟨.note (.win p), ()⟩ :: w) :=
  ⟨⟨p, rfl⟩, hu.declares.win, hs, hu.books⟩

/-- `is_hu`: 1 with the round won, or 0 and the player still holds the
tiles. -/
theorem wp_isHu (hm : Mode strict A) (hP : Obliged strict P)
    (h : Active strict wall p (Ready strict) s w) :
    wp anyone A P (isHu p s)
      (fun r s' w' => (r = 1 ∧ Won strict s' w')
        ∨ (r = 0 ∧ Active strict wall p Holds s' w')) w := by
  obtain ⟨k, hb⟩ := h.books p
  refine wp_player_seq (wp_seq (wp_note fun hA => ?_))
  have hh : Holds (s.players p) := h.active.whole fun hs => hm.counts _ _ hs hA
  refine ⟨hP.counts _ _ _ (Holds.real hh) h.undecided, ?_⟩
  have h1 : Active strict wall p Holds s (⟨.note (.counts
      ((s.players p).decks.take ((s.players p).normalCapacity + 1))), ()⟩ :: w) :=
    ⟨h.toCommon.log id, h.noDiscard, h.idle, hh⟩
  split
  next hcheck =>
    refine wp_seq (wp_ask hP.quiet h1.undecided (by decide) fun answer ack => ?_)
    have h2 : Declares (asked p (str "can hu\n") answer ack (⟨.note (.counts
      ((s.players p).decks.take ((s.players p).normalCapacity + 1))), ()⟩ :: w))
      (-1) := h1.declares.asked
    split
    next hyes =>
      have hu := h.undecided.relog h2
      refine wp_seq (wp_note fun _ => ⟨hP.win _ _ _ hu ?_, ?_⟩)
      · exact Or.inl ⟨answer, ack, _, rfl, hyes, winning_of_huCheck hb hh hcheck⟩
      · refine wp_modify_seq (wp_pure (Or.inl ⟨rfl, ?_⟩))
        exact Won.intro hu h1.conserved p
    next =>
      refine wp_pure (Or.inr ⟨rfl, ?_⟩)
      exact ⟨⟨h.wall_eq, h.winner, h.stock, h.books, h2⟩, h.noDiscard, h.idle, hh⟩
  next =>
    refine wp_seq (wp_writeMessageWaitAck hP.quiet h1.undecided (by decide) fun ack => ?_)
    refine wp_pure (Or.inr ⟨rfl, ?_⟩)
    refine (h1.log ?_).log ?_ <;> exact id

-- ============================================================= the quiet gang

/-- What does not mind an entry in the log that is no win. -/
def LogClosed (I : Log → Prop) : Prop :=
  ∀ (o : SOp) (r : o.Res) w, I w → ¬ IsWin o → I (⟨o, r⟩ :: w)

/-- Writing a line to the other three. -/
theorem wp_toOthers {Q : Unit → Game → Log → Prop} (hq : Quiet Plain P Undecided) {l : Line}
    (hl : plain l = true) {I : Log → Prop} (hI : LogClosed I)
    (hu : ∀ w, I w → Undecided s w) (hw : I w) (hQ : ∀ w, I w → Q () s w) :
    wp anyone A P (toOthers p l s) Q w := by
  have hstep : ∀ {q : Seat} {w : Log} (r : Line), I w →
      I (⟨.readline q maxline, r⟩ :: ⟨.write q l, ()⟩ :: w) :=
    fun r h => hI _ _ _ (hI _ _ _ h id) id
  refine wp_seq (wp_writeMessageWaitAck hq (hu _ hw) hl fun r1 => ?_)
  refine wp_seq (wp_writeMessageWaitAck hq (hu _ (hstep r1 hw)) hl fun r2 => ?_)
  refine wp_writeMessageWaitAck hq (hu _ (hstep r2 (hstep r1 hw))) hl fun r3 => hQ _ ?_
  exact hstep r3 (hstep r2 (hstep r1 hw))

/-- The writes to the door of a claim are in range. -/
theorem wp_accessDoor {Q : Unit → Game → Log → Prop} (hP : Obliged strict P) {n : Nat}
    (hroom : (s.players p).doorIndex + n ≤ 20) {I : Log → Prop} (hI : LogClosed I)
    (hu : ∀ w, I w → Undecided s w) (hw : I w) (hQ : ∀ w, I w → Q () s w) :
    wp anyone A P (accessDoor p n s) Q w := by
  refine wp_player_seq ((wp_forM_range (fun _ s' w' => s' = s ∧ I w') ?_
    ⟨rfl, hw⟩).mono ?_)
  · rintro j s' w' hj ⟨rfl, h⟩
    refine wp_note fun _ => ⟨hP.access _ _ _ _ (by omega) ?_ (hu _ h), rfl, ?_⟩
    · show (((s'.players p).doorIndex + j : Nat) : Int) < (20 : Nat)
      omega
    · exact hI _ _ _ h id
  · rintro _ _ w' ⟨rfl, h⟩
    exact hQ w' h

/-- That nobody has won is not changed by other entries. -/
theorem declares_closed : LogClosed fun w => Declares w (-1) :=
  fun _ _ _ h ho => h.cons ho

/-- The copy of the discard may be cleared while nothing is there. -/
theorem Active.clear {X : Player → Prop} (h : Active strict wall p X s w) :
    Active strict wall p X s.clearDiscarded w := by
  refine ⟨⟨h.wall_eq, h.winner, fun hs => ?_, h.books, h.declares⟩, rfl, h.idle,
    h.active⟩
  rw [Game.stock_cleared h.noDiscard]
  exact h.stock hs

theorem faces_replicate (n : Nat) (t : Mj) :
    faces (List.replicate n t) = Multiset.replicate n t.face := by
  rw [faces, List.map_replicate]
  rfl

/-- The tiles of an accepted quiet gang. -/
theorem Holds.quietGang {pl : Player} (h : Holds pl) {k : Nat} (hb : Books pl k)
    (hcount : countAt (countTable (pl.decks.take pl.normalCapacity))
      (tileIndex (pl.deck pl.normalCapacity)) ≥ 3) :
    pl.doorIndex + 4 ≤ 20 ∧ Ganged (quietGangTiles pl)
      ∧ ∃ k', Books (quietGangTiles pl) k' := by
  obtain ⟨hand, x, rest, hd, hrest, hh, hx, hlen⟩ := h
  have hdeck : pl.deck pl.normalCapacity = x := by
    rw [Player.deck, hd, ← hlen]
    exact getD_append_length hand rest x
  have htake : pl.decks.take pl.normalCapacity = hand := by
    rw [hd, ← hlen, List.take_left]
  rw [hdeck, htake, countAt_countTable hh.real hx] at hcount
  have hcap := hb.capacity
  have hdoor := hb.doorIndex_le
  have hle : 3 ≤ hand.length := by
    rw [← card_faces]
    exact hcount.trans (Multiset.count_le_card _ _)
  obtain ⟨d, z, he, hdl, hzl, hz, hdh, -⟩ :=
    gangTiles_spec hx hh hcount hd hlen.symm (by omega)
  have hset : Group ((List.replicate 4 x).map Mj.face) := .kong x.face
  have hdlen : (d ++ (z ++ x :: rest)).length = 20 := by
    have h20 := hb.decks_length
    rw [hd] at h20
    simp only [List.length_append, List.length_cons] at h20 ⊢
    omega
  have hbooks := Books.claim hb (by omega) hset (by simp) (by simp) hdlen
  rw [quietGangTiles, hdeck, he]
  exact ⟨by omega, ⟨d, z, x, rest, rfl, hdh, hdl, hzl, hz, hx, hrest⟩, _, hbooks.1⟩

/-- A player who is about to discard. -/
def Choosing (strict : Prop) (pl : Player) : Prop :=
  Holds pl ∨ (¬ strict ∧ Ganged pl)

/-- `quiet_gang` returns 0 whether the player takes it or not. -/
theorem wp_quietGang (hm : Mode strict A) (hP : Obliged strict P)
    (h : Active strict wall p Holds s w) :
    wp anyone A P (quietGang p s)
      (fun r s' w' => r = 0 ∧ Active strict wall p (Choosing strict) s' w') w := by
  have hdone : ∀ {w : Log}, Declares w (-1) →
      Active strict wall p (Choosing strict) s w := fun hw =>
    ⟨⟨h.wall_eq, h.winner, h.stock, h.books, hw⟩, h.noDiscard, h.idle,
      Or.inl h.active⟩
  refine wp_player_seq (wp_seq (wp_note fun _ =>
    ⟨hP.counts _ _ _ (Holds.real h.active) h.undecided, ?_⟩))
  have hw1 : Declares (⟨.note (.counts ((s.players p).decks.take
      ((s.players p).normalCapacity + 1))), ()⟩ :: w) (-1) :=
    h.declares.cons id
  split
  next hcount =>
    refine wp_seq (wp_ask hP.quiet (h.undecided.relog hw1) (by decide) fun answer ack => ?_)
    have hw2 : Declares (asked p (str "You can quietly-gang.\n") answer ack _) (-1) :=
      hw1.asked
    split
    next =>
      refine wp_seq (wp_note fun hA => ⟨hP.quiet.note _ _ _ rfl (h.undecided.relog hw2), ?_⟩)
      have hlax : ¬ strict := fun hs => hm.quietGang _ _ hs hA
      obtain ⟨k, hb⟩ := h.books p
      obtain ⟨hroom, hganged, hbooks⟩ := Holds.quietGang h.active hb hcount
      refine wp_seq (wp_accessDoor hP hroom declares_closed
        (fun _ hw => h.undecided.relog hw) (hw2.cons id) fun w3 hw3 => ?_)
      have h3 : Active strict wall p (Choosing strict) (s.update p quietGangTiles)
          w3 := by
        refine ⟨⟨h.wall_eq, h.winner, fun hs => absurd hs hlax, fun q => ?_, hw3⟩,
          h.noDiscard, fun q hq => ?_, ?_⟩
        · by_cases hq : q = p
          · rw [hq, Game.update_players_self]
            exact hbooks
          · rw [Game.update_players_ne _ _ _ _ hq]
            exact h.books q
        · rw [Game.update_players_ne _ _ _ _ hq]
          exact h.idle q hq
        · rw [Game.update_players_self]
          exact Or.inr ⟨hlax, hganged⟩
      refine wp_modify_seq (wp_seq (wp_toOthers hP.quiet (plain_announce _ _)
        declares_closed (fun _ hw => h3.undecided.relog hw) hw3 fun w4 hw4 => ?_))
      refine wp_modify_seq (wp_pure ⟨rfl, ?_⟩)
      exact Active.clear ⟨⟨h3.wall_eq, h3.winner, h3.stock, h3.books, hw4⟩,
        h3.noDiscard, h3.idle, h3.active⟩
    next => exact wp_pure ⟨rfl, hdone hw2⟩
  next =>
    refine wp_seq (wp_writeMessageWaitAck hP.quiet (h.undecided.relog hw1) (by decide)
      fun ack => ?_)
    refine wp_pure ⟨rfl, hdone ?_⟩
    refine (hw1.cons ?_).cons ?_ <;> exact id

-- ================================================================ discarding

/-- A discard leaves the rows alone. -/
theorem Books.discard {pl : Player} {k : Nat} (hb : Books pl k) (i : Int) :
    Books (discardTile i pl) k := by
  have hlt := capacity_lt hb
  rw [discardTile_eq]
  refine Books.setDecks hb ?_
  rw [decksQuickSort, (QuickSort.quickSort_seg _ _ _ _ (by
    rw [List.length_set, QuickSort.length_swap]
    omega)).length_eq, List.length_set, QuickSort.length_swap]
  exact hb.decks_length

/-- A discard from a whole hand. -/
theorem Holds.discard {pl : Player} (h : Holds pl) {k : Nat} (hb : Books pl k)
    {i : Nat} (hi : i ≤ pl.normalCapacity) :
    Rests (discardTile (i : Int) pl) ∧ (pl.deck i).Real
      ∧ (pl.deck i).face ::ₘ (discardTile (i : Int) pl).stock = pl.stock := by
  obtain ⟨hand, x, rest, hd, hrest, hh, hx, hlen⟩ := h
  have hcap := hb.capacity
  obtain ⟨hand', z, he, hl, hz, hh', hreal, hfaces⟩ :=
    discardTile_spec hh.real hx hd hlen.symm hi
  refine ⟨?_, hreal, ?_⟩
  · rw [he]
    exact ⟨hand', z :: rest, rfl, Nulls.cons hz hrest, hh', hl.trans hlen⟩
  · have hbefore : pl.stock = faces (hand ++ [x]) + pl.rows := by
      rw [Player.stock, hd, filled_append, filled_cons, filled_nulls hrest, add_zero,
        filled_real hh.real,
        filled_real fun m hm => List.mem_singleton.mp hm ▸ hx, faces_append]
    have hafter : (discardTile (i : Int) pl).stock = faces hand' + pl.rows := by
      rw [he, Player.stock]
      show filled (hand' ++ z :: rest) + pl.rows = _
      rw [filled_append, filled_nulls (Nulls.cons hz hrest), add_zero,
        filled_real hh'.real]
    rw [hbefore, hafter, ← hfaces, Multiset.cons_add]

/-- Beyond the extra tile a whole hand has only empty slots. -/
theorem Holds.beyond {pl : Player} (h : Holds pl) {i : Nat}
    (hi : pl.normalCapacity < i) : (pl.deck i).isNull = true := by
  obtain ⟨hand, x, rest, hd, hrest, hh, hx, hlen⟩ := h
  rw [Player.deck, hd, List.append_cons, List.getD_eq_getElem?_getD,
    List.getElem?_append_right (by simp; omega)]
  cases hr : rest[i - (hand ++ [x]).length]? with
  | none => rfl
  | some m => exact hrest m (List.mem_of_getElem? hr)

/-- A discard after a quiet gang: the null tile, or the hand has a hole
afterwards, or the discard is the fourth tile. -/
theorem Ganged.discard {pl : Player} (h : Ganged pl) {k : Nat} (hb : Books pl k)
    (i : Nat) : (pl.deck i).isNull = true
      ∨ (pl.deck i).Real
        ∧ (Rests (discardTile (i : Int) pl) ∨ Cracked (discardTile (i : Int) pl)) := by
  obtain ⟨d, z, x, rest, hd, hdh, hdl, hzl, hz, hx, hrest⟩ := h
  have hcap := hb.capacity
  match z, hzl with
  | [z1, z2, z3], _ =>
    have hz1 : z1.isNull = true := hz z1 (by simp)
    have hz2 : z2.isNull = true := hz z2 (by simp)
    have hz3 : z3.isNull = true := hz z3 (by simp)
    rcases lt_trichotomy i d.length with hlt | heq | hgt
    · -- a tile of the hand: the empty slot takes its place
      refine Or.inr ⟨?_, Or.inr ?_⟩
      · rw [Player.deck, hd, List.getD_eq_getElem?_getD,
          List.getElem?_append_left hlt, List.getElem?_eq_getElem hlt]
        exact hdh.real _ (List.getElem_mem hlt)
      · obtain ⟨h', y, hswap, hget, hperm, hl⟩ := swap_last (h := d) (x := z1)
          (Nat.le_of_lt hlt)
        have hy : y = d[i] := by
          rw [← hget, List.getD_eq_getElem?_getD, List.getElem?_append_left hlt,
            List.getElem?_eq_getElem hlt, Option.getD_some]
        have hmem : z1 ∈ h' := by
          have hin : z1 ∈ h' ++ [y] := hperm.mem_iff.mpr (by simp)
          rcases List.mem_append.mp hin with hin | hin
          · exact hin
          · rw [List.mem_singleton.mp hin, hy,
              (hdh.real _ (List.getElem_mem hlt)).not_null] at hz1
            exact absurd hz1 Bool.false_ne_true
        have hdecks : pl.decks = d ++ z1 :: (z2 :: z3 :: x :: rest) := hd
        have hlast : (h' ++ y :: (z2 :: z3 :: x :: rest)).getD pl.normalCapacity
            Mj.null = y := by
          rw [← hdl, ← hl]
          exact getD_append_length h' _ y
        have hset : (h' ++ y :: (z2 :: z3 :: x :: rest)).set pl.normalCapacity y.zero
            = h' ++ y.zero :: (z2 :: z3 :: x :: rest) := by
          rw [← hdl, ← hl, List.set_append_right _ _ (Nat.le_refl _), Nat.sub_self,
            List.set_cons_zero]
        have hseg := QuickSort.quickSort_seg Mj.key
          (h' ++ y.zero :: (z2 :: z3 :: x :: rest)) 0 (pl.normalCapacity - 1)
          (by simp; omega)
        rw [discardTile_eq, slotIndex_natCast, hdecks, ← hdl, hswap, hdl, hlast, hset]
        refine ⟨z1, ?_, hz1⟩
        have hp := hseg.take_perm
        rw [Nat.sub_add_cancel (by omega)] at hp
        refine hp.mem_iff.mpr ?_
        rw [← hdl, ← hl, List.take_left]
        exact hmem
    · refine Or.inl ?_
      rw [Player.deck, hd, heq]
      show ((d ++ z1 :: ([z2, z3] ++ x :: rest)).getD d.length Mj.null).isNull = true
      rw [getD_append_length]
      exact hz1
    · by_cases h4 : i = d.length + 3
      · -- the fourth tile
        have hswap : QuickSort.swap (d ++ z1 :: ([z2, z3] ++ x :: rest)) d.length i
            = d ++ x :: ([z2, z3] ++ z1 :: rest) := by
          rw [h4]
          exact QuickSort.swap_append d [z2, z3] rest z1 x
        have hdecks : pl.decks = d ++ z1 :: ([z2, z3] ++ x :: rest) := hd
        have hgetx : pl.deck i = x := by
          rw [Player.deck, hdecks, h4, List.getD_eq_getElem?_getD,
            List.getElem?_append_right (by omega), Nat.add_sub_cancel_left]
          rfl
        refine Or.inr ⟨hgetx ▸ hx, Or.inl ?_⟩
        have hset : (d ++ x :: ([z2, z3] ++ z1 :: rest)).set d.length x.zero
            = d ++ x.zero :: ([z2, z3] ++ z1 :: rest) := by
          rw [List.set_append_right _ _ (Nat.le_refl _), Nat.sub_self,
            List.set_cons_zero]
        obtain ⟨d', hs, hd', -, hl'⟩ := sort_hand (n := pl.normalCapacity - 1)
          (r := x.zero :: ([z2, z3] ++ z1 :: rest)) hdh.real (by omega)
        rw [discardTile_eq, slotIndex_natCast, hdecks, ← hdl, hswap,
          getD_append_length, hset, hdl, hs]
        refine ⟨d', _, rfl, ?_, hd', hl'.trans hdl⟩
        exact Nulls.cons rfl (Nulls.cons hz2 (Nulls.cons hz3 (Nulls.cons hz1 hrest)))
      · refine Or.inl ?_
        have hother : ∀ m : Mj, (d ++ [z1, z2, z3] ++ x :: rest)[i]? = some m →
            m.isNull = true := by
          intro m hm
          by_cases h3 : i < d.length + 3
          · rw [List.getElem?_append_left (by simp; omega),
              List.getElem?_append_right (by omega)] at hm
            exact hz m (List.mem_of_getElem? hm)
          · rw [List.append_cons, List.getElem?_append_right (by simp; omega)] at hm
            exact hrest m (List.mem_of_getElem? hm)
        rw [Player.deck, hd, ← List.append_assoc, List.getD_eq_getElem?_getD]
        cases hm : (d ++ [z1, z2, z3] ++ x :: rest)[i]? with
        | none => rfl
        | some m => exact hother m hm

/-- The two assignments of a discard, at any index that can be read. -/
theorem Active.discard (h : Active strict wall p (Choosing strict) s w) {i : Nat}
    (hs : strict → i ≤ (s.players p).normalCapacity) :
    Tabled strict wall ((s.setDiscarded ((s.players p).deck i)).update p
      (discardTile (i : Int))) w := by
  obtain ⟨k, hb⟩ := h.books p
  have hidle : ∀ q, q ≠ p → Idle strict (((s.setDiscarded ((s.players p).deck i)).update
      p (discardTile (i : Int))).players q) := by
    intro q hq
    rw [Game.update_players_ne _ _ _ _ hq]
    exact h.idle q hq
  have hself : ((s.setDiscarded ((s.players p).deck i)).update p
      (discardTile (i : Int))).players p = discardTile (i : Int) (s.players p) :=
    Game.update_players_self _ p _
  have hundecided : Undecided ((s.setDiscarded ((s.players p).deck i)).update p
      (discardTile (i : Int))) w :=
    (h.undecided.setDiscarded _).update fun k hk => ⟨k, Books.discard hk i⟩
  have htabled : (strict → ((s.setDiscarded ((s.players p).deck i)).update p
        (discardTile (i : Int))).stock = s.stock) → ((s.players p).deck i).Real →
      Idle strict (discardTile (i : Int) (s.players p)) →
      Tabled strict wall ((s.setDiscarded ((s.players p).deck i)).update p
        (discardTile (i : Int))) w := by
    intro hstock hreal hp
    refine Or.inl ⟨⟨?_, fun q => ?_⟩, ?_⟩
    · exact h.toCommon.update (p := p) (g := discardTile (i : Int)) rfl rfl rfl hstock
        fun k hk => ⟨k, Books.discard hk i⟩
    · by_cases hq : q = p
      · rw [hq, hself]
        exact hp
      · exact hidle q hq
    · exact Mj.Real.congr rfl hreal
  rcases h.active with hh | ⟨hlax, hg⟩
  · by_cases hi : i ≤ (s.players p).normalCapacity
    · obtain ⟨hrests, hreal, hstock⟩ := Holds.discard hh hb hi
      refine htabled (fun _ => ?_) hreal (Or.inl hrests)
      have hset := Game.stock_setDiscarded h.noDiscard hreal.not_null
      have hupd := Game.stock_update (s := s.setDiscarded ((s.players p).deck i))
        (p := p) (g := discardTile (i : Int))
      have hplayer : (s.setDiscarded ((s.players p).deck i)).players p = s.players p :=
        rfl
      rw [hplayer, hset, ← hstock, Multiset.cons_add, Multiset.add_cons] at hupd
      exact add_right_cancel ((Multiset.cons_inj_right _).mp hupd)
    · exact Or.inr ⟨fun hs' => hi (hs hs'), Holds.beyond hh (by omega), hundecided⟩
  · rcases Ganged.discard hg hb i with hnull | ⟨hreal, hor⟩
    · exact Or.inr ⟨hlax, hnull, hundecided⟩
    · refine htabled (fun hs' => absurd hs' hlax) hreal ?_
      exact hor.imp id fun hc => ⟨hlax, hc⟩

/-- `discard`: afterwards the tile is on the table. -/
theorem wp_discard (hm : Mode strict A) (hP : Obliged strict P)
    (h : Active strict wall p (Choosing strict) s w) :
    wp anyone A P (discard p s) (fun _ s' w' => Tabled strict wall s' w') w := by
  have hc : (s.players p).normalCapacity ≤ 16 := by
    obtain ⟨k, hk⟩ := h.books p
    have := hk.capacity
    omega
  -- what happens once there is an index
  have hrest : ∀ (index : Int) (w : Log), Active strict wall p (Choosing strict) s w →
      wp anyone A P ((do
        Io.note (.discard p index)
        let pl ← player p
        access .decks index
        access .decks pl.normalCapacity
        Prog.modify fun s => s.setDiscarded ((s.players p).deck (slotIndex index))
        update p (discardTile index)
        broadcastDiscardMj p : Server Unit) s)
        (fun _ s' w' => Tabled strict wall s' w') w := by
    intro index w h
    refine wp_seq (wp_note fun hdisc => ⟨hP.quiet.note _ _ _ rfl h.undecided, ?_⟩)
    refine wp_player_seq (wp_seq (wp_note fun hA => ?_))
    obtain ⟨hlo, hhi⟩ := hm.decks _ _ hA
    have hu : Undecided s (⟨.note (.discard p index), ()⟩ :: w) :=
      h.undecided.log id
    refine ⟨hP.access _ _ _ _ hlo (by simpa [Arr.size] using hhi) hu, ?_⟩
    refine wp_seq (wp_note fun _ => ⟨hP.access _ _ _ _ (by omega)
      (by simp [Arr.size]; omega) (hu.log id), ?_⟩)
    obtain ⟨i, rfl⟩ := Int.eq_ofNat_of_zero_le hlo
    have h1 : Active strict wall p (Choosing strict) s
        (⟨.note (.access .decks (s.players p).normalCapacity), ()⟩
          :: ⟨.note (.access .decks (i : Int)), ()⟩
          :: ⟨.note (.discard p (i : Int)), ()⟩ :: w) := by
      refine ((h.log ?_).log ?_).log ?_ <;> exact id
    have h2 := h1.discard (i := i) fun hs => by
      have := (hm.discard _ _ _ hs hdisc).2
      omega
    rw [← slotIndex_natCast i] at h2
    refine wp_modify_seq (wp_modify_seq (wp_get_seq ?_))
    rw [slotIndex_natCast] at h2
    simp only [slotIndex_natCast]
    cases hl : discardLine p ((s.setDiscarded ((s.players p).deck i)).update p
        (discardTile (i : Int))).discardedMj with
    | some l =>
        refine wp_toOthers hP.quiet (plain_discardLine hl)
          (I := fun w => Tabled strict wall _ w) ?_ (fun _ hw => hw.undecided) h2
          fun w hw => hw
        exact fun o r w hw ho => hw.log ho
    | none => exact wp_pure h2
  refine wp_seq (wp_readAndAck hP.quiet h.undecided fun line _ => ?_)
  have h1 : Active strict wall p (Choosing strict) s
      (⟨.write p (str "ACK\n"), ()⟩ :: ⟨.readline p maxline, line⟩ :: w) := by
    refine (h.log ?_).log ?_ <;> exact id
  cases sscanf1 line with
  | some i => exact wp_seq (wp_pure (hrest i _ h1))
  | none =>
      refine wp_seq (wp_indeterminate (hP.quiet.indeterminate _ _ h1.undecided) fun i =>
        hrest i _ ?_)
      exact h1.log id

-- ==================================================================== the turn

/-- A turn: 1 with the round won, or 0 with a discard on the table. -/
theorem wp_drawNDiscard (hm : Mode strict A) (hP : Obliged strict P)
    (h : Cleared strict wall s w) :
    wp anyone A P (drawNDiscard p s)
      (fun r s' w' => (r = 1 ∧ Won strict s' w')
        ∨ (r = 0 ∧ Tabled strict wall s' w')) w := by
  have h0 : Active strict wall p (Idle strict) s w :=
    ⟨h.1.toCommon, h.2, fun q _ => h.1.idle q, h.1.idle p⟩
  refine wp_seq (wp_writeMessageWaitAck' hP.quiet h.1.undecided
    (hP.yourTurn _ _ _ (fun hs => h.conserved hs) h.1.undecided) fun ack => ?_)
  have h1 : Active strict wall p (Idle strict) s
      (⟨.readline p maxline, ack⟩ :: ⟨.write p (str "your turn\n"), ()⟩ :: w) := by
    refine (h0.log ?_).log ?_ <;> exact id
  refine wp_seq ((wp_draw hm hP h1).mono fun _ s w h => ?_)
  refine wp_seq ((wp_isHu hm hP h).mono ?_)
  rintro r s w (⟨rfl, hwon⟩ | ⟨rfl, h⟩)
  · exact wp_pure (Or.inl ⟨rfl, hwon⟩)
  refine wp_seq (wp_printDeck fun _ => ⟨hP.print _ _ _ _ _ h.undecided, ?_⟩)
  have h : Active strict wall p Holds s (⟨.note (printed p s), ()⟩ :: w) := h.log id
  -- the loop around the quiet gang never goes round
  refine wp_seq ((wp_forever (fun s w => Active strict wall p Holds s w) ?_ h
    (Q := fun won s w => won = false ∧ Active strict wall p (Choosing strict) s w)).mono ?_)
  · intro s w h
    refine wp_seq ((wp_quietGang hm hP h).mono ?_)
    rintro r s w ⟨rfl, h⟩
    exact wp_pure ⟨rfl, h⟩
  rintro won s w ⟨rfl, h⟩
  refine wp_seq ((wp_discard hm hP h).mono fun _ s w h => ?_)
  refine wp_seq (wp_printDeck fun _ => ⟨hP.print _ _ _ _ _ h.undecided, wp_pure ?_⟩)
  exact Or.inr ⟨rfl, h.log id⟩

end Turn

end Mahjong.Server
