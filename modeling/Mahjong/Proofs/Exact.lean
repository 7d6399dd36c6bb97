/-
What each move of the server does to the table, exactly, and that it
comes to an end.

The tables here are arbitrary (`Slots`: the arrays have their length, the
capacities are 16 less three for each set); nothing is said of the hands.
The obligation is `Light`: it asks something at the lines and marks a
statement may be about (offers, announcements, reads of the wall, the
entry of `othersreaction`), each of which is a hypothesis of its own in
the rules below, and nothing elsewhere.

A draw ends as the wall has a tile that is no flower, or as the run is
assumed to read no further than the wall goes (`Feed`).
-/
import Mahjong.Proofs.Rules
import Mahjong.Proofs.Stock

namespace Mahjong

open QuickSort

-- ===================================================================== the arrays

namespace Player

/-- `flowers[flower_index++]` for each of the tiles. -/
def pushFlowers (p : Player) (ms : List Mj) : Player := ms.foldl pushFlower p

@[simp] theorem pushFlowers_decks (ms : List Mj) : ∀ p : Player,
    (p.pushFlowers ms).decks = p.decks := by
  induction ms with
  | nil => exact fun _ => rfl
  | cons m ms ih => exact fun p => ih (p.pushFlower m)

@[simp] theorem pushFlowers_normalCapacity (ms : List Mj) : ∀ p : Player,
    (p.pushFlowers ms).normalCapacity = p.normalCapacity := by
  induction ms with
  | nil => exact fun _ => rfl
  | cons m ms ih => exact fun p => ih (p.pushFlower m)

theorem pushFlowers_concat (ms : List Mj) (m : Mj) (p : Player) :
    p.pushFlowers (ms ++ [m]) = (p.pushFlowers ms).pushFlower m := by
  rw [pushFlowers, List.foldl_append]
  rfl

theorem setDeck_setDeck (p : Player) (i : Nat) (a b : Mj) :
    (p.setDeck i a).setDeck i b = p.setDeck i b := by
  simp [setDeck, List.set_set]

theorem deck_setDeck {p : Player} {i : Nat} (hi : i < p.decks.length) (m : Mj) :
    (p.setDeck i m).deck i = m := by
  simp [deck, setDeck, hi]

end Player

/-- A claim or a discard changes the tiles of a player's hand and door
only: the hand's array keeps its length, the capacity falls by `n`,
flowers and sea stay. -/
structure Reshaped (p p' : Player) (n : Nat) : Prop where
  length : p'.decks.length = p.decks.length
  capacity : p'.normalCapacity = p.normalCapacity - n
  flowerIndex : p'.flowerIndex = p.flowerIndex
  seaIndex : p'.seaIndex = p.seaIndex

theorem Reshaped.capacity_le {p p' : Player} {n : Nat} (h : Reshaped p p' n) :
    p'.normalCapacity ≤ p.normalCapacity :=
  h.capacity ▸ Nat.sub_le _ _

theorem removeLoop_reshaped (t : Mj) (is : List Nat) : ∀ (need : Nat) (p : Player),
    Reshaped p (removeLoop t need is p) 0 := by
  induction is with
  | nil => exact fun _ _ => ⟨rfl, rfl, rfl, rfl⟩
  | cons i is ih =>
      intro need p
      have hset : Reshaped p ((p.pushDoor t).setDeck i (p.deck i).zero) 0 :=
        ⟨List.length_set, rfl, rfl, rfl⟩
      rw [removeLoop]
      split
      · dsimp only
        split
        · exact hset
        · obtain ⟨h1, h2, h3, h4⟩ := ih (need - 1) ((p.pushDoor t).setDeck i (p.deck i).zero)
          exact ⟨h1.trans hset.length, h2.trans hset.capacity, h3, h4⟩
      · exact ih need p

theorem length_compactLoop (nc k : Nat) (is : List Nat) : ∀ (need : Nat) (decks : List Mj),
    (compactLoop nc k need is decks).length = decks.length := by
  induction is with
  | nil => exact fun _ _ => rfl
  | cons i is ih =>
      intro need decks
      rw [compactLoop]
      split
      · dsimp only
        split
        · exact length_swap _ _ _
        · rw [ih, length_swap]
      · exact ih need decks

theorem length_decksQuickSort {mjs : List Mj} {start stop : Nat}
    (h : stop < mjs.length) : (decksQuickSort mjs start stop).length = mjs.length :=
  (quickSort_seg Mj.key mjs start stop h).length_eq

theorem layCopies_reshaped (k : Nat) (t : Mj) (p : Player) :
    Reshaped p (layCopies k t p) 3 := by
  obtain ⟨h1, h2, h3, h4⟩ :=
    removeLoop_reshaped t (List.range p.normalCapacity) k (p.pushDoor t)
  refine ⟨?_, ?_, h3, h4⟩
  · refine (length_compactLoop _ _ _ _ _).trans ?_
    exact h1
  · show (removeLoop t k _ (p.pushDoor t)).normalCapacity - 3 = _
    rw [show (p.pushDoor t).normalCapacity = p.normalCapacity from rfl, h2]
    rfl

theorem sortDecks_reshaped {p p' : Player} {n stop : Nat} (h : Reshaped p p' n)
    (hstop : stop < p.decks.length) : Reshaped p (p'.sortDecks stop) n :=
  ⟨(length_decksQuickSort (h.length ▸ hstop)).trans h.length, h.capacity, h.flowerIndex,
    h.seaIndex⟩

section Reshaped

variable {p : Player} (hlen : p.decks.length = 20) (hcap : p.normalCapacity ≤ 16)
include hlen hcap

theorem gangTiles_reshaped (t : Mj) : Reshaped p (gangTiles t p) 3 := by
  have h := layCopies_reshaped 3 t p
  refine sortDecks_reshaped h ?_
  rw [h.capacity]
  omega

theorem pongTiles_reshaped (t : Mj) : Reshaped p (pongTiles t p) 3 := by
  have h := layCopies_reshaped 2 t p
  refine sortDecks_reshaped h ?_
  rw [h.capacity]
  omega

theorem eatTiles_reshaped (temp : List Mj) (i j : Int) :
    Reshaped p (eatTiles temp i j p) 3 := by
  refine sortDecks_reshaped ⟨?_, rfl, rfl, rfl⟩ ?_
  · simp only [length_swap, Player.setDeck, List.length_set, Player.pushDoor]
  · show p.normalCapacity - 3 < _
    omega

theorem discardTile_reshaped (i : Int) : Reshaped p (discardTile i p) 0 := by
  refine sortDecks_reshaped ⟨?_, rfl, rfl, rfl⟩ ?_
  · simp only [length_swap, Player.setDeck, List.length_set]
  · show p.normalCapacity - 1 < _
    omega

end Reshaped

-- ===================================================================== the tables

/-- The arrays have their length, the capacities are possible ones, and
the cursor is not beyond the wall. -/
structure Slots (s : Game) : Prop where
  wall : s.shuffledMjs.length = 144
  takeIndex : s.takeIndex ≤ 144
  decks : ∀ q, (s.players q).decks.length = 20
  capacity : ∀ q, ∃ k, (s.players q).normalCapacity + 3 * k = 16

namespace Slots

variable {s : Game}

theorem capacity_le (h : Slots s) (q : Seat) : (s.players q).normalCapacity ≤ 16 := by
  obtain ⟨k, hk⟩ := h.capacity q
  omega

/-- A capacity of two or more is one of four or more. -/
theorem capacity_room (h : Slots s) {q : Seat} (hq : 2 ≤ (s.players q).normalCapacity) :
    4 ≤ (s.players q).normalCapacity := by
  obtain ⟨k, hk⟩ := h.capacity q
  omega

/-- One player's part changed, the cursor perhaps moved. -/
theorem change (h : Slots s) {s' : Game} {p : Seat} {f : Player → Player}
    (hwall : s'.shuffledMjs = s.shuffledMjs) (htake : s'.takeIndex ≤ 144)
    (hplayers : s'.players = (s.update p f).players)
    (hlen : (f (s.players p)).decks.length = 20)
    (hcap : ∃ k, (f (s.players p)).normalCapacity + 3 * k = 16) : Slots s' := by
  refine ⟨hwall ▸ h.wall, htake, fun q => ?_, fun q => ?_⟩
  all_goals
    rw [hplayers]
    by_cases hq : q = p
  · rw [hq, Game.update_players_self]
    exact hlen
  · rw [Game.update_players_ne _ _ _ _ hq]
    exact h.decks q
  · rw [hq, Game.update_players_self]
    exact hcap
  · rw [Game.update_players_ne _ _ _ _ hq]
    exact h.capacity q

theorem reshape (h : Slots s) {s' : Game} {p : Seat} {f : Player → Player} {n : Nat}
    (hwall : s'.shuffledMjs = s.shuffledMjs) (htake : s'.takeIndex = s.takeIndex)
    (hplayers : s'.players = (s.update p f).players)
    (hf : Reshaped (s.players p) (f (s.players p)) (3 * n))
    (hn : 3 * n ≤ (s.players p).normalCapacity) : Slots s' := by
  obtain ⟨k, hk⟩ := h.capacity p
  refine h.change hwall (htake ▸ h.takeIndex) hplayers (hf.length.trans (h.decks p))
    ⟨k + n, ?_⟩
  rw [hf.capacity]
  omega

end Slots

/-- What a move of `p` needs: the wall has its length, and there is a slot
behind the hand. -/
structure Fits (s : Game) (p : Seat) : Prop where
  wall : s.shuffledMjs.length = 144
  room : (s.players p).normalCapacity < (s.players p).decks.length

theorem Slots.fits {s : Game} (hs : Slots s) (p : Seat) : Fits s p := by
  have hle := hs.capacity_le p
  have hlen := hs.decks p
  exact ⟨hs.wall, by omega⟩

/-- The sum of the four capacities. -/
def Game.caps (s : Game) : Nat := ∑ q, (s.players q).normalCapacity

theorem Game.ext {g g' : Game} (hwin : g.winner = g'.winner)
    (hwall : g.shuffledMjs = g'.shuffledMjs) (hdisc : g.discardedMj = g'.discardedMj)
    (htake : g.takeIndex = g'.takeIndex) (hplayers : g.players = g'.players) :
    g = g' := by
  cases g
  cases g'
  simp only at hwin hwall hdisc htake hplayers
  rw [hwin, hwall, hdisc, htake, hplayers]

/-- `draw`: the flowers at the head of the wall go to the row, the tile
behind them to the slot behind the hand. -/
def Game.drew (s : Game) (p : Seat) (flowers : List Mj) (x : Mj) : Game :=
  { s.update p fun pl => (pl.pushFlowers flowers).setDeck pl.normalCapacity x with
    takeIndex := s.takeIndex + flowers.length + 1 }

/-- `discard` of a slot. -/
def Game.discarded (s : Game) (p : Seat) (i : Int) : Game :=
  (s.setDiscarded ((s.players p).deck (slotIndex i))).update p (discardTile i)

namespace Server

open Process CString

-- ================================================================ the obligation

/-- Not a line that opens a turn, offers a claim, announces one, or says
that nobody made one. -/
def mute (l : Line) : Bool :=
  !(l.head? == some 'y' || l.head? == some 'n' || l.take 2 == ['(', 'A']
    || l.take 2 == ['(', 'H']
    || l.take 9 == ['Y', 'o', 'u', ' ', 'c', 'a', 'n', ' ', 'g']
    || l.take 9 == ['Y', 'o', 'u', ' ', 'c', 'a', 'n', ' ', 'p']
    || l.take 9 == ['Y', 'o', 'u', ' ', 'c', 'a', 'n', ' ', 'e'])

abbrev Mute (l : Line) : Prop := mute l = true

theorem mute_cons {c : Char} {l : Line} (hc : c ∉ ['y', 'n', '(', 'Y']) :
    Mute (c :: l) := by
  simp only [List.mem_cons, List.not_mem_nil, or_false, not_or] at hc
  show mute (c :: l) = true
  simp [mute, hc]

theorem mute_decimal (i : Int) (l : Line) : Mute (decimal i ++ l) := by
  obtain ⟨c, cs, he, hc⟩ := decimal_head i
  rw [he, List.cons_append]
  refine mute_cons ?_
  simp only [List.mem_cons, List.not_mem_nil, or_false]
  rintro (rfl | rfl | rfl | rfl) <;> exact absurd hc (by decide)

theorem mute_discardLine {p : Seat} {m : Mj} {l : Line}
    (h : discardLine p m = some l) : Mute l := by
  obtain ⟨r, rfl⟩ := discardLine_head h
  rfl

/-- No capacity is above its bound. -/
def Below (b : Seat → Nat) (s : Game) : Prop := ∀ q, (s.players q).normalCapacity ≤ b q

theorem Below.update {b : Seat → Nat} {s : Game} (h : Below b s) {p : Seat}
    {f : Player → Player}
    (hf : (f (s.players p)).normalCapacity ≤ (s.players p).normalCapacity) :
    Below b (s.update p f) := by
  intro q
  by_cases hq : q = p
  · rw [hq, Game.update_players_self]
    exact hf.trans (h p)
  · rw [Game.update_players_ne _ _ _ _ hq]
    exact h q

theorem Below.drew {b : Seat → Nat} {s : Game} (h : Below b s) (p : Seat)
    (flowers : List Mj) (x : Mj) : Below b (s.drew p flowers x) :=
  h.update (f := fun pl => (pl.pushFlowers flowers).setDeck pl.normalCapacity x)
    (Player.pushFlowers_normalCapacity flowers _).le

/-- An obligation that asks nothing at mute lines and at most marks while
no capacity is above its bound. -/
structure Light (b : Seat → Nat) (P : SOp → Game → Log → Prop) : Prop where
  quiet : Quiet Mute P fun s _ => Below b s
  access : ∀ a i s w, a ≠ .shuffledMjs → Below b s → P (.note (.access a i)) s w
  counts : ∀ tiles s w, Below b s → P (.note (.counts tiles)) s w
  win : ∀ p s w, Below b s → P (.note (.win p)) s w
  print : ∀ p hands doors s w, Below b s → P (.note (.print p hands doors)) s w
  quietGang : ∀ q p s w, Below b s →
    P (.write q (announce p " quietly-ganged something...\n")) s w

/-- Nothing is to be shown. -/
theorem free_light {b : Seat → Nat} : Light b fun _ _ _ => True := by
  refine ⟨⟨by decide, fun _ _ _ _ h _ => h, ?_, ?_, ?_, ?_, ?_, ?_⟩, ?_, ?_, ?_, ?_, ?_⟩
  all_goals
    intros
    trivial

/-- Where tiles are taken from the wall: `Fed` says of the undrawn tiles
that a draw finds what it needs. -/
structure Supply (b : Seat → Nat) (A : SOp → Game → Prop)
    (P : SOp → Game → Log → Prop) (Fed : List Mj → Prop) : Prop where
  read : ∀ s w, s.shuffledMjs.length = 144 → Below b s → Fed s.undrawn →
    A (.note (.access .shuffledMjs s.takeIndex)) s →
    s.undrawn ≠ [] ∧ P (.note (.access .shuffledMjs s.takeIndex)) s w
  next : ∀ m l, Fed (m :: l) → m.type = flower → Fed l

/-- And the run is one in which every draw does. -/
structure Feed (b : Seat → Nat) (A : SOp → Game → Prop)
    (P : SOp → Game → Log → Prop) (Fed : List Mj → Prop) : Prop extends
    Supply b A P Fed where
  draw : ∀ p s, A (.note (.draw p)) s → Fed s.undrawn

-- ======================================================================= drawing

section Moves

variable {ok : Log → Prop} {A : SOp → Game → Prop} {P : SOp → Game → Log → Prop}
  {b : Seat → Nat} {Fed : List Mj → Prop} {s : Game} {w : Log} {p : Seat}

/-- The first tile of a draw. -/
theorem takeInto_eq_drew (s : Game) (p : Seat) :
    s.takeInto p (s.players p).normalCapacity = s.drew p [] s.next := rfl

theorem drew_player (s : Game) (p : Seat) (flowers : List Mj) (x : Mj) :
    (s.drew p flowers x).players p = ((s.players p).pushFlowers flowers).setDeck
      (s.players p).normalCapacity x :=
  Function.update_self ..

theorem drew_deck {s : Game} {p : Seat} (hs : Fits s p) (flowers : List Mj) (x : Mj) :
    ((s.drew p flowers x).players p).deck
      ((s.drew p flowers x).players p).normalCapacity = x := by
  have hcap : ((s.drew p flowers x).players p).normalCapacity
      = (s.players p).normalCapacity := by
    rw [drew_player]
    exact Player.pushFlowers_normalCapacity flowers _
  rw [hcap, drew_player]
  refine Player.deck_setDeck ?_ x
  rw [Player.pushFlowers_decks]
  exact hs.room

theorem drew_undrawn {s : Game} {p : Seat} {flowers rest : List Mj} {x : Mj}
    (h : s.undrawn = flowers ++ x :: rest) : (s.drew p flowers x).undrawn = rest := by
  show s.shuffledMjs.drop (s.takeIndex + flowers.length + 1) = rest
  rw [Nat.add_assoc, ← List.drop_drop]
  show s.undrawn.drop (flowers.length + 1) = rest
  rw [h, List.append_cons, List.drop_left' (by simp)]

theorem next_of_undrawn {s : Game} {y : Mj} {rest : List Mj}
    (h : s.undrawn = y :: rest) : s.next = y := by
  have hget : s.undrawn[0]? = some y := by rw [h]; rfl
  rw [Game.undrawn, List.getElem?_drop, Nat.add_zero] at hget
  rw [Game.next, List.getD_eq_getElem?_getD, hget, Option.getD_some]

/-- One more flower laid down. -/
theorem redraw_eq_drew {s : Game} {p : Seat} (hs : Fits s p) {flowers rest : List Mj}
    {x y : Mj} (h : (s.drew p flowers x).undrawn = y :: rest) :
    (((s.drew p flowers x).update p fun pl => pl.pushFlower
        (pl.deck ((s.drew p flowers x).players p).normalCapacity)).takeInto p
      ((s.drew p flowers x).players p).normalCapacity)
      = s.drew p (flowers ++ [x]) y := by
  have hdeck := drew_deck hs flowers x
  have hnext := next_of_undrawn h
  have hplayer := drew_player s p flowers x
  have hcap : ((s.drew p flowers x).players p).normalCapacity
      = (s.players p).normalCapacity := by
    rw [hplayer]
    exact Player.pushFlowers_normalCapacity flowers _
  refine Game.ext rfl rfl rfl ?_ ?_
  · show s.takeIndex + flowers.length + 1 + 1 = s.takeIndex + (flowers ++ [x]).length + 1
    rw [List.length_append, List.length_singleton]
    omega
  · show Function.update (Function.update (Function.update s.players p _) p _) p _
      = Function.update s.players p _
    rw [Function.update_idem, Function.update_idem]
    congr 1
    rw [Game.update_players_self, hdeck]
    show (((s.drew p flowers x).players p).pushFlower x).setDeck
        ((s.drew p flowers x).players p).normalCapacity (s.drew p flowers x).next
      = ((s.players p).pushFlowers (flowers ++ [x])).setDeck (s.players p).normalCapacity y
    rw [hnext, hcap, hplayer, Player.pushFlowers_concat]
    exact Player.setDeck_setDeck (((s.players p).pushFlowers flowers).pushFlower x) _ x y

/-- A draw takes the flowers at the head of the wall and the tile behind
them. -/
theorem twp_draw (hl : Light b P) (hf : Supply b A P Fed) (hs : Fits s p)
    (hu : Below b s) (hfed : A (.note (.draw p)) s → Fed s.undrawn) :
    twp (within ok) A P (draw p s)
      (fun _ s' _ => ∃ flowers x rest, s.undrawn = flowers ++ x :: rest
        ∧ (∀ m ∈ flowers, m.type = flower) ∧ x.type ≠ flower
        ∧ s' = s.drew p flowers x) w := by
  refine twp_seq (twp_note fun hA => ⟨hl.quiet.note _ _ _ rfl hu, ?_⟩)
  have hfed := hfed hA
  refine twp_player_seq (twp_seq (twp_takeInto fun hA => ?_))
  obtain ⟨hne, hP⟩ := hf.read _ _ hs.wall hu hfed hA
  refine ⟨hP, fun _ => ⟨hl.access _ _ _ _ (by decide) hu, ?_⟩⟩
  obtain ⟨x, rest, hx⟩ := List.exists_cons_of_ne_nil hne
  rw [takeInto_eq_drew, next_of_undrawn hx]
  refine twp_seq (twp_player_seq (twp_writeMessageWaitAck hl.quiet (hu.drew _ _ _)
    (mute_decimal _ _) fun ack => ?_))
  -- the flowers laid down so far, and the tile in hand
  refine twp_forever (fun s' _ => ∃ flowers x rest, s.undrawn = flowers ++ x :: rest
      ∧ (∀ m ∈ flowers, m.type = flower) ∧ Fed (x :: rest) ∧ s' = s.drew p flowers x)
    (fun s' _ => s'.undrawn.length) ?_
    ⟨[], x, rest, hx, List.forall_mem_nil _, hx ▸ hfed, rfl⟩
  rintro s' w' ⟨flowers, x, rest, hsplit, hall, hfed, rfl⟩
  have hu' := hu.drew p flowers x
  refine twp_player_seq ?_
  rw [drew_deck hs]
  have hrest := drew_undrawn (p := p) hsplit
  split
  next hflower =>
    refine twp_seq (twp_layFlower fun _ => ⟨hl.access _ _ _ _ (by decide) hu', ?_⟩)
    have hfed' := hf.next _ _ hfed hflower
    have hu'' : Below b ((s.drew p flowers x).update p fun pl => pl.pushFlower
        (pl.deck ((s.drew p flowers x).players p).normalCapacity)) :=
      hu'.update le_rfl
    refine twp_seq (twp_takeInto fun hA => ?_)
    have hfed'' : Fed (s.drew p flowers x).undrawn := by rwa [hrest]
    obtain ⟨hne, hP⟩ := hf.read ((s.drew p flowers x).update p _) _ hs.wall hu'' hfed'' hA
    refine ⟨hP, fun _ => ⟨hl.access _ _ _ _ (by decide) hu'', ?_⟩⟩
    have hne' : (s.drew p flowers x).undrawn ≠ [] := hne
    rw [hrest] at hne'
    obtain ⟨y, rest', rfl⟩ := List.exists_cons_of_ne_nil hne'
    rw [redraw_eq_drew hs hrest]
    refine twp_seq (twp_player_seq (twp_writeMessageWaitAck hl.quiet (hu.drew _ _ _)
      (mute_decimal _ _) fun ack => ?_))
    have hsplit' : s.undrawn = (flowers ++ [x]) ++ y :: rest' := by
      rw [hsplit, List.append_assoc]
      rfl
    refine twp_pure ⟨⟨flowers ++ [x], y, rest', hsplit', ?_, hfed', rfl⟩, ?_⟩
    · intro m hm
      rcases List.mem_append.mp hm with hm | hm
      · exact hall m hm
      · rw [List.mem_singleton.mp hm]
        exact hflower
    · show (s.drew p (flowers ++ [x]) y).undrawn.length
        < (s.drew p flowers x).undrawn.length
      rw [drew_undrawn hsplit', hrest]
      exact Nat.lt_succ_self _
  next hno => exact twp_pure ⟨flowers, x, rest, hsplit, hall, hno, rfl⟩

-- ================================================================== other moves

/-- There is such a mark in the log. -/
def Marked (e : Note) (w : Log) : Prop := (⟨.note e, ()⟩ : (o : SOp) × o.Res) ∈ w

theorem Marked.suffix {e : Note} {w w' : Log} (h : Marked e w) (hw : w <:+ w') :
    Marked e w' :=
  hw.subset h

/-- A line to the other three, who acknowledge it. -/
theorem twp_toOthers (hl : Light b P) (hu : Below b s) {l : Line} {Q : Unit → Game → Log → Prop}
    (hack : l ≠ str "ACK\n") (hP : ∀ q w, P (.write q l) s w)
    (hQ : ∀ w', w <:+ w' → answers w' = answers w → Q () s w') :
    twp (within ok) A P (toOthers p l s) Q w := by
  have hsuf : ∀ {q : Seat} {r : Line} {w : Log},
      w <:+ ⟨.readline q maxline, r⟩ :: ⟨.write q l, ()⟩ :: w :=
    fun {q r w} => (List.suffix_cons _ _).trans (List.suffix_cons _ _)
  refine twp_seq (twp_writeMessageWaitAck' hl.quiet hu (hP _ _) fun r => ?_)
  refine twp_seq (twp_writeMessageWaitAck' hl.quiet hu (hP _ _) fun r => ?_)
  refine twp_writeMessageWaitAck' hl.quiet hu (hP _ _) fun r => hQ _ ?_ ?_
  · exact hsuf.trans (hsuf.trans hsuf)
  · rw [answers_told hack, answers_told hack, answers_told hack]

theorem twp_accessDoor (hl : Light b P) (hu : Below b s) {n : Nat} {Q : Unit → Game → Log → Prop}
    (hQ : ∀ w', w <:+ w' → answers w' = answers w → Q () s w') :
    twp (within ok) A P (accessDoor p n s) Q w := by
  refine twp_player_seq ((twp_forM_range
    (fun _ s' w' => s' = s ∧ w <:+ w' ∧ answers w' = answers w) ?_
    ⟨rfl, List.suffix_refl _, rfl⟩).mono ?_)
  · rintro j s' w' - ⟨rfl, hw, hanswers⟩
    refine twp_note fun _ => ⟨hl.access _ _ _ _ (by decide) hu, rfl, ?_, ?_⟩
    · exact hw.trans (List.suffix_cons _ _)
    · exact answers_note.trans hanswers
  · rintro _ _ w' ⟨rfl, hw, hanswers⟩
    exact hQ w' hw hanswers

/-- `is_hu`: the winner is set behind a yes, or nothing is changed. -/
theorem twp_isHu (hl : Light b P) (hu : Below b s) :
    twp (within ok) A P (isHu p s)
      (fun r s' w' => (r = 1 ∧ s' = { s with winner := (p.val : Int) }
          ∧ ∃ answer, answers w' = (p, answer) :: answers w ∧ isYes answer = true)
        ∨ (r = 0 ∧ s' = s)) w := by
  refine twp_player_seq (twp_seq (twp_note fun _ => ⟨hl.counts _ _ _ hu, ?_⟩))
  split
  next =>
    refine twp_seq (twp_ask hl.quiet hu (by decide) fun answer ack => ?_)
    split
    next hyes =>
      refine twp_seq (twp_note fun _ => ⟨hl.win _ _ _ hu, ?_⟩)
      refine twp_modify_seq (twp_pure (Or.inl ⟨rfl, rfl, answer, ?_, hyes⟩))
      rw [answers_note, answers_asked (by decide), answers_note]
    next => exact twp_pure (Or.inr ⟨rfl, rfl⟩)
  next =>
    refine twp_seq (twp_writeMessageWaitAck hl.quiet hu (by decide) fun ack => ?_)
    exact twp_pure (Or.inr ⟨rfl, rfl⟩)

/-- A quiet gang was taken: the player held three copies, and what it
left. -/
def QuietlyGanged (s : Game) (p : Seat) (s' : Game) (w' : Log) : Prop :=
  Marked (.accept .quietGang p) w'
    ∧ 3 ≤ countAt (countTable ((s.players p).decks.take (s.players p).normalCapacity))
      (tileIndex ((s.players p).deck (s.players p).normalCapacity))
    ∧ s' = (s.update p quietGangTiles).clearDiscarded

/-- `quiet_gang`: it returns 0 whether the player takes it or not, and the
player takes it with a yes. -/
theorem twp_quietGang (hl : Light b P) (hu : Below b s) :
    twp (within ok) A P (quietGang p s)
      (fun r s' w' => r = 0 ∧ ((s' = s ∧ (Marked (.accept .quietGang p) w' →
          Marked (.accept .quietGang p) w))
        ∨ (QuietlyGanged s p s' w' ∧ ∃ x ∈ answers w', isYes x.2 = true))) w := by
  refine twp_player_seq (twp_seq (twp_note fun _ => ⟨hl.counts _ _ _ hu, ?_⟩))
  split
  next hcount =>
    refine twp_seq (twp_ask hl.quiet hu (by decide) fun answer ack => ?_)
    split
    next hyes =>
      refine twp_seq (twp_note fun _ => ⟨hl.quiet.note _ _ _ rfl hu, ?_⟩)
      refine twp_seq (twp_accessDoor hl hu fun w₁ hw₁ ha₁ => twp_modify_seq ?_)
      have hu' : Below b (s.update p quietGangTiles) :=
        hu.update (layCopies_reshaped 3 _ _).capacity_le
      refine twp_seq (twp_toOthers hl hu' (announce_ne_ack _ _)
        (fun q w => hl.quietGang _ _ _ _ hu') fun w₂ hw₂ ha₂ => ?_)
      refine twp_modify_seq (twp_pure ⟨rfl, Or.inr ⟨⟨?_, hcount, rfl⟩, (p, answer), ?_, hyes⟩⟩)
      · exact Marked.suffix (List.mem_cons_self ..) (hw₁.trans hw₂)
      · rw [ha₂, ha₁, answers_note, answers_asked (by decide)]
        exact List.mem_cons_self ..
    next =>
      refine twp_pure ⟨rfl, Or.inl ⟨rfl, fun h => ?_⟩⟩
      simpa [Marked, asked] using h
  next =>
    refine twp_seq (twp_writeMessageWaitAck hl.quiet hu (by decide) fun ack => ?_)
    refine twp_pure ⟨rfl, Or.inl ⟨rfl, fun h => ?_⟩⟩
    simpa [Marked] using h

/-- `discard`: the slot is the one that the player's line names, any if it
names none. -/
theorem twp_discard (hl : Light b P) (hu : Below b s) :
    twp (within ok) A P (discard p s)
      (fun _ s' w' => ∃ i, Marked (.discard p i) w' ∧ s' = s.discarded p i
        ∧ ∃ line, answers w' = (p, line) :: answers w
          ∧ ∀ j, sscanf1 line = some j → i = j) w := by
  -- what happens once there is an index
  have hrest : ∀ (index : Int) (line : Line) (w' : Log),
      answers w' = (p, line) :: answers w → (∀ j, sscanf1 line = some j → index = j) →
      twp (within ok) A P ((do
        Io.note (.discard p index)
        let pl ← player p
        access .decks index
        access .decks pl.normalCapacity
        Prog.modify fun s => s.setDiscarded ((s.players p).deck (slotIndex index))
        update p (discardTile index)
        broadcastDiscardMj p : Server Unit) s)
        (fun _ s' w' => ∃ i, Marked (.discard p i) w' ∧ s' = s.discarded p i
          ∧ ∃ line, answers w' = (p, line) :: answers w
            ∧ ∀ j, sscanf1 line = some j → i = j) w' := by
    intro index line w' hline hindex
    refine twp_seq (twp_note fun _ => ⟨hl.quiet.note _ _ _ rfl hu, ?_⟩)
    refine twp_player_seq (twp_seq (twp_note fun _ => ⟨hl.access _ _ _ _ (by decide) hu, ?_⟩))
    refine twp_seq (twp_note fun _ => ⟨hl.access _ _ _ _ (by decide) hu, ?_⟩)
    refine twp_modify_seq (twp_modify_seq (twp_get_seq ?_))
    set w₁ : Log := ⟨.note (.access .decks ((s.players p).normalCapacity : Int)), ()⟩
      :: ⟨.note (.access .decks index), ()⟩ :: ⟨.note (.discard p index), ()⟩ :: w' with hw₁
    have hmark : Marked (.discard p index) w₁ := by simp [Marked, hw₁]
    have hanswers : answers w₁ = (p, line) :: answers w := by
      rw [hw₁, answers_note, answers_note, answers_note, hline]
    cases htext : discardLine p ((s.setDiscarded ((s.players p).deck
        (slotIndex index))).update p (discardTile index)).discardedMj with
    | some l =>
        have hu' : Below b ((s.setDiscarded ((s.players p).deck
            (slotIndex index))).update p (discardTile index)) :=
          Below.update (s := s.setDiscarded _) hu le_rfl
        refine twp_toOthers hl hu' (discardLine_ne_ack htext) (fun q w => hl.quiet.write _ _ _ _
          (mute_discardLine htext) hu') fun w₂ hw₂ ha₂ => ?_
        exact ⟨index, hmark.suffix hw₂, rfl, line, ha₂.trans hanswers, hindex⟩
    | none => exact twp_pure ⟨index, hmark, rfl, line, hanswers, hindex⟩
  refine twp_seq (twp_readAndAck hl.quiet hu fun line _ => ?_)
  cases hscan : sscanf1 line with
  | some i =>
      refine twp_seq (twp_pure (hrest i line _ answers_ack fun j hj => ?_))
      rw [hscan] at hj
      exact Option.some.inj hj
  | none =>
      refine twp_seq (twp_indeterminate (hl.quiet.indeterminate _ _ hu) fun i =>
        hrest i line _ ?_ fun j hj => ?_)
      · exact (answers_cons (o := .indeterminate) fun _ he => nomatch he).trans answers_ack
      · rw [hscan] at hj
        exact nomatch hj

/-- How a turn of `p` ends: the tile behind the flowers has been drawn, and
the last line of the player takes the win, or names the discard, perhaps
behind a quiet gang. -/
def TurnEnds (s : Game) (p : Seat) (r : Int) (s' : Game) (w' : Log) : Prop :=
  ∃ flowers x rest line earlier, s.undrawn = flowers ++ x :: rest
    ∧ (∀ m ∈ flowers, m.type = flower) ∧ x.type ≠ flower
    ∧ answers w' = (p, line) :: earlier
    ∧ ((r = 1 ∧ isYes line = true
        ∧ s' = { s.drew p flowers x with winner := (p.val : Int) })
      ∨ (r = 0 ∧ ∃ i t, (∀ j, sscanf1 line = some j → i = j) ∧ s' = t.discarded p i
        ∧ (t = s.drew p flowers x ∨ (QuietlyGanged (s.drew p flowers x) p t w'
          ∧ ∃ y ∈ earlier, isYes y.2 = true))))

/-- `draw_n_discard`: the player is told, and has a turn. -/
theorem twp_drawNDiscard (hl : Light b P) (hf : Supply b A P Fed) (hs : Fits s p)
    (hu : Below b s) (hfed : A (.note (.draw p)) s → Fed s.undrawn)
    (hturn : P (.write p (str "your turn\n")) s w) :
    twp (within ok) A P (drawNDiscard p s)
      (fun r s' w' => TurnEnds s p r s' w'
        ∧ (⟨.write p (str "your turn\n"), ()⟩ : (o : SOp) × o.Res) :: w <:+ w') w := by
  refine twp_seq (twp_writeMessageWaitAck' hl.quiet hu hturn fun ack => ?_)
  refine (twp.suffix (Q := fun r s' w' => TurnEnds s p r s' w') ?_).mono
    fun r s' w' h => ⟨h.1, (List.suffix_cons _ _).trans h.2⟩
  refine twp_seq ((twp_draw hl hf hs hu hfed).mono ?_)
  rintro _ _ w₁ ⟨flowers, x, rest, hsplit, hall, hx, rfl⟩
  have hu' := hu.drew p flowers x
  refine twp_seq ((twp_isHu hl hu').mono ?_)
  rintro r s' w₂ (⟨rfl, rfl, line, hanswers, hyes⟩ | ⟨rfl, rfl⟩)
  · exact twp_pure ⟨flowers, x, rest, line, _, hsplit, hall, hx, hanswers,
      Or.inl ⟨rfl, hyes, rfl⟩⟩
  refine twp_seq (twp_printDeck fun _ => ⟨hl.print _ _ _ _ _ hu', ?_⟩)
  -- the loop around the quiet gang never goes round
  refine twp_seq ((twp_forever (fun s' _ => s' = s.drew p flowers x) (fun _ _ => 0) ?_ rfl
    (Q := fun won s' w' => won = false ∧ (s' = s.drew p flowers x
      ∨ (QuietlyGanged (s.drew p flowers x) p s' w'
        ∧ ∃ y ∈ answers w', isYes y.2 = true)))).mono ?_)
  · rintro s' w' rfl
    refine twp_seq ((twp_quietGang hl hu').mono ?_)
    rintro r s' w' ⟨rfl, h⟩
    exact twp_pure ⟨rfl, h.imp_left And.left⟩
  rintro won t w₃ ⟨rfl, ht⟩
  have hut : Below b t := by
    rcases ht with rfl | ⟨⟨-, -, rfl⟩, -⟩
    · exact hu'
    · exact hu'.update (layCopies_reshaped 3 _ _).capacity_le
  refine twp_seq ((twp_discard hl hut).suffix.mono ?_)
  rintro _ s' w₄ ⟨⟨i, -, rfl, line, hanswers, hindex⟩, hsuf⟩
  have hut' : Below b (t.discarded p i) := Below.update (s := t.setDiscarded _) hut le_rfl
  refine twp_seq (twp_printDeck fun _ => ⟨hl.print _ _ _ _ _ hut', twp_pure ?_⟩)
  refine ⟨flowers, x, rest, line, _, hsplit, hall, hx, answers_note.trans hanswers,
    Or.inr ⟨rfl, i, t, hindex, rfl, ?_⟩⟩
  refine ht.imp_right fun h => ⟨⟨h.1.1.suffix ?_, h.1.2⟩, h.2⟩
  exact hsuf.trans (List.suffix_cons _ _)

end Moves

end Server

end Mahjong
