/-
The deal as it is told, the end of a round, and the whole of the server.

While the tiles are dealt nothing is said; what a player has then is
sixteen tiles and flowers (`Fresh`), and the lines sent afterwards build up
the same in the view, a tile at a time (`dealtView`, `flowersView`).
-/
import Mahjong.Proofs.TurnTalk

namespace Mahjong.Talk

open Process CString QuickSort
open Server

-- ================================================================== while dealing

/-- A player before anything has been sent: nothing behind the sixteen
slots of the hand, the flowers laid down, and nothing else. -/
structure Fresh (pl : Player) : Prop where
  decks : pl.decks.length = 20
  flowers : pl.flowers.length = 8
  behind : ∀ i, 16 ≤ i → pl.deck i = Mj.null
  small : ∀ m ∈ pl.decks, Small m
  laid : ∀ j, j < pl.flowerIndex → (pl.flowers.getD j Mj.null).type = flower
    ∧ Small (pl.flowers.getD j Mj.null)
  free : ∀ j, pl.flowerIndex ≤ j → pl.flowers.getD j Mj.null = Mj.null
  rest : pl = { Player.gameinfoInit with
    flowerIndex := pl.flowerIndex, decks := pl.decks, flowers := pl.flowers }

variable {pl : Player} {i j : Nat} {m : Mj}

theorem getD_replicate_null (n i : Nat) : (List.replicate n Mj.null).getD i Mj.null = Mj.null := by
  by_cases hi : i < n
  · rw [List.getD_eq_getElem _ _ (by rw [List.length_replicate]; exact hi), List.getElem_replicate]
  · exact List.getD_eq_default _ _ (by rw [List.length_replicate]; omega)

theorem fresh_init : Fresh Player.gameinfoInit where
  decks := List.length_replicate
  flowers := List.length_replicate
  behind := fun i _ => getD_replicate_null 20 i
  small := by
    intro m hm
    rw [List.eq_of_mem_replicate hm]
    exact small_null
  laid := fun j hj => absurd hj (Nat.not_lt_zero j)
  free := fun j _ => getD_replicate_null 8 j
  rest := rfl

/-- Some other tiles in the sixteen slots. -/
theorem Fresh.setDecks {d : List Mj} (h : Fresh pl) (hlen : d.length = 20)
    (hbehind : ∀ i, 16 ≤ i → d.getD i Mj.null = Mj.null) (hsmall : ∀ m ∈ d, Small m) :
    Fresh { pl with decks := d } where
  decks := hlen
  flowers := h.flowers
  behind := hbehind
  small := hsmall
  laid := h.laid
  free := h.free
  rest := by rw [h.rest]

theorem Fresh.setDeck (h : Fresh pl) (hi : i < 16) (hm : Small m) : Fresh (pl.setDeck i m) := by
  refine h.setDecks (by rw [List.length_set]; exact h.decks) (fun k hk => ?_) fun x hx => ?_
  · exact (pl.deck_setDeck_ne m (by omega : k ≠ i)).trans (h.behind k hk)
  · cases List.mem_or_eq_of_mem_set hx with
    | inl hx => exact h.small x hx
    | inr he =>
        rw [he]
        exact hm

/-- A flower is one of the sixteen tiles. -/
theorem Fresh.flower_lt (h : Fresh pl) (hflower : (pl.deck i).type = flower) : i < 16 := by
  by_contra hi
  rw [h.behind i (by omega)] at hflower
  exact absurd hflower (by decide)

theorem Fresh.small_deck (h : Fresh pl) (i : Nat) : Small (pl.deck i) := by
  by_cases hi : i < pl.decks.length
  · rw [Player.deck, List.getD_eq_getElem _ _ hi]
    exact h.small _ (List.getElem_mem hi)
  · rw [Player.deck, List.getD_eq_default _ _ (by omega)]
    exact small_null

theorem Fresh.pushFlower (h : Fresh pl) (hflower : (pl.deck i).type = flower)
    (hroom : pl.flowerIndex < 8) : Fresh (pl.pushFlower (pl.deck i)) where
  decks := h.decks
  flowers := by
    show (pl.flowers.set _ _).length = 8
    rw [List.length_set]
    exact h.flowers
  behind := h.behind
  small := h.small
  laid := by
    intro j hj
    have hlt : j < pl.flowerIndex + 1 := hj
    have hset : (pl.pushFlower (pl.deck i)).flowers = pl.flowers.set pl.flowerIndex (pl.deck i) :=
      rfl
    rw [hset, List.getD_eq_getElem?_getD]
    by_cases he : j = pl.flowerIndex
    · subst he
      rw [List.getElem?_set_self (by rw [h.flowers]; exact hroom)]
      exact ⟨hflower, h.small_deck i⟩
    · rw [List.getElem?_set_ne (Ne.symm he), ← List.getD_eq_getElem?_getD]
      exact h.laid j (by omega)
  free := by
    intro j hj
    show (pl.flowers.set pl.flowerIndex (pl.deck i)).getD j Mj.null = Mj.null
    have hlt : pl.flowerIndex + 1 ≤ j := hj
    rw [List.getD_eq_getElem?_getD, List.getElem?_set_ne (by omega), ← List.getD_eq_getElem?_getD]
    exact h.free j (by omega)
  rest := by
    rw [h.rest]
    rfl

/-- Sorted, the hand is still in front. -/
theorem Fresh.sortDecks (h : Fresh pl) : Fresh (pl.sortDecks 15) := by
  have hlen : (pl.decks.take 16).length = 15 + 1 := by
    rw [List.length_take, h.decks]
    rfl
  obtain ⟨d, hd, hperm, -⟩ := quickSort_prefix (t := pl.decks.drop 16) Mj.key hlen
  rw [List.take_append_drop] at hd
  have hd16 : d.length = 16 := hperm.length_eq.trans hlen
  have hsort : decksQuickSort pl.decks 0 15 = d ++ pl.decks.drop 16 := hd
  refine h.setDecks ?_ (fun k hk => ?_) fun x hx => ?_
  · rw [hsort, List.length_append, hd16, List.length_drop, h.decks]
  · have hdrop := h.behind k hk
    rw [hsort, List.getD_eq_getElem?_getD, List.getElem?_append_right (by omega),
      List.getElem?_drop, hd16, show 16 + (k - 16) = k by omega, ← List.getD_eq_getElem?_getD]
    exact hdrop
  · rw [hsort] at hx
    cases List.mem_append.mp hx with
    | inl hx => exact h.small x (List.mem_of_mem_take (hperm.mem_iff.mp hx))
    | inr hx => exact h.small x (List.mem_of_mem_drop hx)

/-- The table while the tiles are dealt. -/
structure Untold (wall : Wall) (s : Game) : Prop where
  wall_eq : s.shuffledMjs = wall.tiles
  winner : s.winner = -1
  fresh : ∀ q, Fresh (s.players q)

variable {wall : Wall} {r : Nat} {G : Prop} {V : Seat → View} {s : Game} {w : Floor} {p : Seat}

/-- One player's tiles change. -/
theorem Untold.update {s' : Game} (h : Untold wall s) (hwall : s'.shuffledMjs = s.shuffledMjs)
    (hwinner : s'.winner = s.winner) (hothers : ∀ q, q ≠ p → s'.players q = s.players q)
    (hfresh : Fresh (s'.players p)) : Untold wall s' := by
  refine ⟨hwall.trans h.wall_eq, hwinner.trans h.winner, fun q => ?_⟩
  by_cases hq : q = p
  · rw [hq]
    exact hfresh
  · rw [hothers q hq]
    exact h.fresh q

theorem Untold.takeInto (h : Untold wall s) (hi : i < 16) : Untold wall (s.takeInto p i) := by
  have hself : (s.takeInto p i).players p = (s.players p).setDeck i s.next :=
    Game.takeInto_players_self s p i
  refine h.update (p := p) rfl rfl (fun q hq => Game.takeInto_players_ne s i hq) ?_
  have hsmall := small_taken h.wall_eq p i
  rw [hself] at hsmall ⊢
  have hdeck : ((s.players p).setDeck i s.next).deck i = s.next := by
    have hlen := (h.fresh p).decks
    simp [Player.deck, Player.setDeck, show i < (s.players p).decks.length by omega]
  rw [hdeck] at hsmall
  exact (h.fresh p).setDeck hi hsmall

theorem Untold.sortDecks (h : Untold wall s) (p : Seat) :
    Untold wall (s.update p fun pl => pl.sortDecks 15) := by
  refine h.update (p := p) rfl rfl (fun q hq => s.update_players_ne p q _ hq) ?_
  rw [Game.update_players_self]
  exact (h.fresh p).sortDecks

/-- The grabs. -/
theorem wp_grabs {start : Seat} (hthere : w.lost = false) (h : Untold wall s) :
    wp guests (Informed G) (Minds G) (grabs start s)
      (fun _ s' w' => w' = w ∧ Untold wall s') w := by
  have hkeep : ∀ {n : Nat} {f : Nat → Server PUnit} {s : Game}, Untold wall s →
      (∀ k < n, ∀ s, Untold wall s → wp guests (Informed G) (Minds G) (f k s)
        (fun _ s' w' => w' = w ∧ Untold wall s') w) →
      wp guests (Informed G) (Minds G) ((List.range n).forM f s)
        (fun _ s' w' => w' = w ∧ Untold wall s') w := by
    intro n f s h hf
    refine (wp_forM_range (fun _ s' w' => w' = w ∧ Untold wall s') ?_ ⟨rfl, h⟩).mono
      fun _ _ _ h => h
    intro k s w' hk h'
    obtain ⟨rfl, h'⟩ := h'
    exact hf k hk s h'
  refine hkeep h fun time ht s h => hkeep h fun a _ s h => hkeep h fun g hg s h => ?_
  exact wp_takeInto hthere ⟨rfl, h.takeInto (by omega)⟩

/-- `has_flower`. -/
theorem wp_hasFlower (hthere : w.lost = false) (h : Untold wall s) :
    wp guests (Informed G) (Minds G) (hasFlower p s)
      (fun _ s' w' => w' = w ∧ Untold wall s') w := by
  refine (wp_foldlM_range (fun _ _ s' w' => w' = w ∧ Untold wall s') ?_ ⟨rfl, h⟩).mono
    fun _ _ _ h => h
  intro i n s₁ w₁ _ h₁
  obtain ⟨rfl, h₁⟩ := h₁
  refine wp_seq (wp_mark hthere fun _ => ⟨trivial, wp_player_seq ?_⟩)
  split
  next hflower =>
    have hi := (h₁.fresh p).flower_lt hflower
    refine wp_seq (wp_player_seq (wp_seq (wp_mark hthere fun hA => ⟨trivial, ?_⟩)))
    obtain ⟨-, hknown⟩ := hA.2 trivial
    have hroom : ((s₁.players p).flowerIndex : Int) < (8 : Nat) := hknown.ranged.2
    have hpush : Untold wall (s₁.update p fun pl => pl.pushFlower (pl.deck i)) := by
      refine h₁.update (p := p) rfl rfl (fun q hq => s₁.update_players_ne p q _ hq) ?_
      rw [Game.update_players_self]
      exact (h₁.fresh p).pushFlower hflower (by omega)
    refine wp_modify (wp_seq (wp_takeInto hthere (wp_pure ⟨rfl, hpush.takeInto hi⟩)))
  next => exact wp_pure ⟨rfl, h₁⟩

/-- The flowers replaced. -/
theorem wp_regrab {start : Seat} (hthere : w.lost = false) (h : Untold wall s) :
    wp guests (Informed G) (Minds G) (regrab start s)
      (fun _ s' w' => w' = w ∧ Untold wall s') w := by
  refine wp_iterate (fun _ s' w' => w' = w ∧ Untold wall s') ?_ ⟨rfl, h⟩
  intro x s₁ w₁ h₁
  obtain ⟨rfl, h₁⟩ := h₁
  split
  · refine wp_seq ((wp_hasFlower hthere h₁).mono fun n s₂ w₂ h₂ => ?_)
    split
    · exact wp_pure h₂
    · exact wp_pure h₂
  · exact wp_pure ⟨rfl, h₁⟩

-- ================================================================== what is sent

/-- An array of which as much has been sent. -/
def sent (l : List Mj) (n : Nat) : List Mj := l.take n ++ List.replicate (l.length - n) Mj.null

theorem sent_zero (l : List Mj) : sent l 0 = List.replicate l.length Mj.null := by
  simp [sent]

theorem sent_getD (l : List Mj) (n : Nat) : (sent l n).getD n Mj.null = Mj.null := by
  have hlen : (l.take n).length ≤ n := by
    rw [List.length_take]
    exact Nat.min_le_left _ _
  rw [sent, List.getD_eq_getElem?_getD, List.getElem?_append_right hlen,
    ← List.getD_eq_getElem?_getD, getD_replicate_null]

theorem sent_set {l : List Mj} {n : Nat} (h : n < l.length) :
    (sent l n).set n (l.getD n Mj.null) = sent l (n + 1) := by
  have hlen : (l.take n).length = n := by
    rw [List.length_take]
    omega
  obtain ⟨k, hk⟩ : ∃ k, l.length - n = k + 1 := ⟨l.length - n - 1, by omega⟩
  rw [sent, sent, List.set_append_right _ _ (by omega), hlen, Nat.sub_self, hk,
    List.replicate_succ, List.set_cons_zero, List.take_add_one, List.getElem?_eq_getElem h,
    List.getD_eq_getElem _ _ h, Option.toList_some, List.append_assoc, List.singleton_append,
    show l.length - (n + 1) = k by omega]

/-- Nothing comes behind it. -/
theorem sent_all {l : List Mj} {n : Nat}
    (h : ∀ j, n ≤ j → l.getD j Mj.null = Mj.null) : sent l n = l := by
  have hdrop : List.replicate (l.length - n) Mj.null = l.drop n := by
    refine List.ext_getElem (by simp) fun i hi hi' => ?_
    rw [List.getElem_replicate, List.getElem_drop, ← List.getD_eq_getElem _ Mj.null]
    exact (h _ (by omega)).symm
  rw [sent, hdrop, List.take_append_drop]

/-- The hand of which so many tiles have been sent. -/
def handTo (pl : Player) (n : Nat) : Player :=
  { Player.gameinfoInit with decks := sent pl.bare.decks n }

/-- All of the hand, and so many flowers. -/
def flowersTo (pl : Player) (n : Nat) : Player :=
  { Player.gameinfoInit with
    decks := pl.bare.decks, flowers := sent pl.bare.flowers n, flowerIndex := n }

theorem length_bare_decks (h : Fresh pl) : pl.bare.decks.length = 20 := by
  simp [Player.bare, h.decks]

theorem length_bare_flowers (h : Fresh pl) : pl.bare.flowers.length = 8 := by
  simp [Player.bare, h.flowers]

theorem handTo_zero (h : Fresh pl) : handTo pl 0 = Player.gameinfoInit := by
  rw [handTo, sent_zero, length_bare_decks h]
  rfl

theorem handTo_succ (h : Fresh pl) (hi : i < 16) :
    Client.putTile i (pl.deck i).type (pl.deck i).number (handTo pl i) = handTo pl (i + 1) := by
  have hlen := length_bare_decks h
  have hslot : (handTo pl i).deck i = Mj.null := sent_getD _ _
  have htile : pl.bare.decks.getD i Mj.null
      = { Mj.null with type := (pl.deck i).type, number := (pl.deck i).number } :=
    getD_map_bare _ _
  rw [Client.putTile, hslot, ← htile]
  show ({ Player.gameinfoInit with
    decks := (sent pl.bare.decks i).set i (pl.bare.decks.getD i Mj.null) } : Player) = _
  rw [sent_set (by omega), handTo]

theorem handTo_all (h : Fresh pl) : handTo pl 16 = flowersTo pl 0 := by
  have hlen := length_bare_decks h
  have hdecks : sent pl.bare.decks 16 = pl.bare.decks := by
    refine sent_all fun j hj => ?_
    have hnull := congrArg Mj.bare (h.behind j hj)
    exact (getD_map_bare _ _).trans hnull
  rw [handTo, hdecks, flowersTo, sent_zero, length_bare_flowers h]
  rfl

theorem Fresh.laid_lt (h : Fresh pl) (hj : j < pl.flowerIndex) : j < 8 := by
  by_contra hge
  have hlaid := (h.laid j hj).1
  rw [List.getD_eq_default _ _ (by rw [h.flowers]; omega)] at hlaid
  exact absurd hlaid (by decide)

theorem flowersTo_succ (h : Fresh pl) (hj : j < pl.flowerIndex) :
    Client.putFlower (pl.flowers.getD j Mj.null).number (flowersTo pl j) = flowersTo pl (j + 1) := by
  have hlen := length_bare_flowers h
  have hlt := h.laid_lt hj
  have hslot : (flowersTo pl j).flowers.getD (flowersTo pl j).flowerIndex Mj.null = Mj.null :=
    sent_getD _ _
  have htile : pl.bare.flowers.getD j Mj.null
      = { Mj.null with type := flower, number := (pl.flowers.getD j Mj.null).number } := by
    rw [← (h.laid j hj).1]
    exact getD_map_bare _ _
  rw [Client.putFlower, hslot, ← htile]
  show ({ Player.gameinfoInit with
    decks := pl.bare.decks
    flowers := (sent pl.bare.flowers j).set j (pl.bare.flowers.getD j Mj.null)
    flowerIndex := j + 1 } : Player) = _
  rw [sent_set (by omega), flowersTo]

theorem flowersTo_all (h : Fresh pl) : flowersTo pl pl.flowerIndex = pl.bare := by
  have hlen := length_bare_flowers h
  have hle : pl.flowerIndex ≤ 8 := by
    by_contra hgt
    have hlt := h.laid_lt (j := 8) (by omega)
    omega
  have hflowers : sent pl.bare.flowers pl.flowerIndex = pl.bare.flowers := by
    refine sent_all fun j hj => ?_
    have hnull := congrArg Mj.bare (h.free j hj)
    exact (getD_map_bare _ _).trans hnull
  have hrest : pl.bare = ({ Player.gameinfoInit with
      flowerIndex := pl.flowerIndex
      decks := pl.bare.decks
      flowers := pl.bare.flowers } : Player) := by
    conv_lhs => rw [h.rest]
    simp [Player.bare, Player.gameinfoInit]
  rw [flowersTo, hflowers]
  exact hrest.symm

/-- The view of a player of whose hand so much has been sent. -/
def dealtView (v : View) (pl : Player) (n : Nat) : View :=
  { v with phase := if n < 16 then .dealing n else .flowers, hand := handTo pl n }

/-- The view of a player of whose flowers so many have been sent. -/
def flowersView (v : View) (pl : Player) (n : Nat) : View :=
  { v with phase := .flowers, hand := flowersTo pl n }

variable {v : View}

theorem says_tile (h : Fresh pl) (v : View) (hi : i < 16) :
    plain.Says .hub (dealtView v pl i) (tileLine (pl.deck i)) (dealtView v pl (i + 1)) := by
  have hphase : (dealtView v pl i).phase = .dealing i := if_pos hi
  refine say hphase rfl (whole_tileLine (h.small_deck i)) (read_dealing i (h.small_deck i)) ?_
  have hview : ({ v with
      phase := if i + 1 < 16 then .dealing (i + 1) else .flowers
      hand := Client.putTile i (pl.deck i).type (pl.deck i).number (handTo pl i) } : View)
      = dealtView v pl (i + 1) := by
    rw [handTo_succ h hi, dealtView]
  exact congrArg some hview

theorem says_flower (h : Fresh pl) (v : View) (hj : j < pl.flowerIndex) :
    plain.Says .hub (flowersView v pl j)
      (decimal (pl.flowers.getD j Mj.null).number ++ ['\n']) (flowersView v pl (j + 1)) := by
  obtain ⟨-, hsmall⟩ := (h.laid j hj).2
  have hphase : (flowersView v pl j).phase = .flowers := rfl
  refine say hphase rfl (whole_decimal hsmall.1 hsmall.2) (read_flower hsmall.1 hsmall.2) ?_
  have hview : ({ v with
      phase := .flowers
      hand := Client.putFlower (pl.flowers.getD j Mj.null).number (flowersTo pl j) } : View)
      = flowersView v pl (j + 1) := by
    rw [flowersTo_succ h hj, flowersView]
  exact congrArg some hview

theorem says_complete (h : Fresh pl) (v : View) :
    plain.Says .hub (flowersView v pl pl.flowerIndex) (str "transfer complete\n")
      { v with phase := .round, hand := pl.bare } := by
  rw [← flowersTo_all h]
  have hphase : (flowersView v pl pl.flowerIndex).phase = .flowers := rfl
  exact say hphase rfl (by decide) rfl rfl

-- ========================================================================= the deal

/-- The hands of the first players have been sent. -/
structure Halfway (wall : Wall) (r n : Nat) (V : Seat → View) (s : Game) : Prop where
  untold : Untold wall s
  served : ∀ q : Seat, q.val < n → (V q).phase = .round ∧ (s.players q).bare = (V q).hand
  waits : ∀ q : Seat, n ≤ q.val → (V q).phase = .dealing 0 ∧ (V q).hand = Player.gameinfoInit
  round : ∀ q, (V q).round = r

theorem Halfway.fit {n : Nat} (h : Halfway wall r n V s) : Fit G V s := by
  have hcases : ∀ q : Seat, (V q).phase = .round ∨ (V q).phase = .dealing 0 := by
    intro q
    cases Nat.lt_or_ge q.val n with
    | inl hlt => exact Or.inl (h.served q hlt).1
    | inr hge => exact Or.inr (h.waits q hge).1
  constructor
  · intro q hq
    cases Nat.lt_or_ge q.val n with
    | inl hlt => exact (h.served q hlt).2
    | inr hge =>
        rw [(h.waits q hge).1] at hq
        cases hq
  · intro hgang
    obtain ⟨q, hq⟩ := hgang
    cases hcases q with
    | inl he => rw [he] at hq; cases hq
    | inr he => rw [he] at hq; cases hq

/-- Sending a player the hand. -/
theorem wp_transfer (hon : On V w) (h : Halfway wall r p.val V s) :
    wp guests (Informed G) (Minds G) (transfer p s)
      (fun _ s' w' => s' = s ∧ ∃ V', On V' w' ∧ Halfway wall r (p.val + 1) V' s') w := by
  have hfresh := h.untold.fresh p
  have hfit : Fit G V s := h.fit
  obtain ⟨hphase, hhand⟩ := h.waits p (Nat.le_refl _)
  have hstart : V p = dealtView (V p) (s.players p) 0 := by
    rw [dealtView, handTo_zero hfresh, ← hhand, if_pos (by omega), ← hphase]
  have hview : ∀ {v : View}, v.phase.settled = false → Fit G (Function.update V p v) s := by
    intro v hv
    refine hfit.to (fun hset => ?_) ?_
    · rw [hv] at hset
      cases hset
    · intro he
      rw [he] at hv
      cases hv
  have hquiet : ∀ {v : View} {l : Line}, v.phase.settled = false →
      ¬ Concerns (Function.update V p v p) l := by
    intro v l hv
    refine not_concerns_phase ?_
    rw [Function.update_self]
    intro he
    rw [he] at hv
    cases hv
  have htell : ∀ {v v' : View} {l : Line} {w : Floor}, v.phase.settled = false →
      plain.Says .hub v l v' → On (Function.update V p v) w →
      wp guests (Informed G) (Minds G) (writeMessageWaitAck p l s)
        (fun _ s' w' => s' = s ∧ On (Function.update V p v') w') w := by
    intro v v' l w hv hline hon
    rw [← Function.update_self p v V] at hline
    refine (wp_tell hon (hview hv) hline fun hc => absurd hc (hquiet hv)).mono ?_
    intro _ s' w' h'
    rw [Function.update_idem] at h'
    exact h'
  have hdealing : ∀ i, (dealtView (V p) (s.players p) i).phase.settled = false := by
    intro i
    by_cases hi : i < 16 <;> simp [dealtView, hi, Phase.settled]
  rw [← Function.update_eq_self p V, hstart] at hon
  refine wp_seq ((wp_forM_range (fun i s' w' => s' = s
    ∧ On (Function.update V p (dealtView (V p) (s.players p) i)) w') ?_ ⟨rfl, hon⟩).mono ?_)
  · intro i s₁ w₁ hi h₁
    obtain ⟨rfl, h₁⟩ := h₁
    exact wp_player_seq (htell (hdealing i) (says_tile hfresh (V p) hi) h₁)
  intro _ s₁ w₁ h₁
  obtain ⟨rfl, h₁⟩ := h₁
  have hflowers : dealtView (V p) (s₁.players p) 16 = flowersView (V p) (s₁.players p) 0 := by
    rw [dealtView, flowersView, handTo_all hfresh]
    rfl
  rw [hflowers] at h₁
  refine wp_player_seq (wp_seq ((wp_forM_range (fun j s' w' => s' = s₁
    ∧ On (Function.update V p (flowersView (V p) (s₁.players p) j)) w') ?_ ⟨rfl, h₁⟩).mono ?_))
  · intro j s₂ w₂ hj h₂
    obtain ⟨rfl, h₂⟩ := h₂
    exact wp_player_seq (htell rfl (says_flower hfresh (V p) hj) h₂)
  intro _ s₂ w₂ h₂
  obtain ⟨rfl, h₂⟩ := h₂
  refine (htell rfl (says_complete hfresh (V p)) h₂).mono fun _ s₃ w₃ h₃ => ?_
  obtain ⟨rfl, h₃⟩ := h₃
  refine ⟨rfl, _, h₃, h.untold, fun q hq => ?_, fun q hq => ?_, fun q => ?_⟩
  · by_cases he : q = p
    · subst he
      rw [Function.update_self]
      exact ⟨rfl, rfl⟩
    · have hlt : q.val ≠ p.val := fun hv => he (Fin.ext hv)
      rw [Function.update_of_ne he]
      exact h.served q (by omega)
  · have he : q ≠ p := by
      intro he
      rw [he] at hq
      omega
    rw [Function.update_of_ne he]
    exact h.waits q (by omega)
  · by_cases he : q = p
    · subst he
      rw [Function.update_self]
      exact h.round q
    · rw [Function.update_of_ne he]
      exact h.round q

/-- Where the players are before a deal. -/
structure Awaiting (r : Nat) (V : Seat → View) : Prop where
  phase : ∀ q, (V q).phase = .dealing 0
  hand : ∀ q, (V q).hand = Player.gameinfoInit
  round : ∀ q, (V q).round = r

/-- `deal`. -/
theorem wp_deal {start : Seat} (hon : On V w) (h : Awaiting r V) :
    wp guests (Informed G) (Minds G) (deal start (Game.init wall.tiles))
      (fun _ s' w' => Calm wall r s' w') w := by
  have hinit : Untold wall (Game.init wall.tiles) := ⟨rfl, rfl, fun _ => fresh_init⟩
  refine wp_seq ((wp_grabs hon.there hinit).mono fun _ s₁ w₁ h₁ => ?_)
  obtain ⟨rfl, h₁⟩ := h₁
  refine wp_seq ((wp_regrab hon.there h₁).mono fun _ s₂ w₂ h₂ => ?_)
  obtain ⟨rfl, h₂⟩ := h₂
  refine wp_modify_seq (wp_modify_seq (wp_modify_seq (wp_modify_seq ?_)))
  have h₃ := (((h₂.sortDecks 0).sortDecks 1).sortDecks 2).sortDecks 3
  have hhalf : Halfway wall r 0 V ((((s₂.update 0 fun pl => pl.sortDecks 15).update 1
      fun pl => pl.sortDecks 15).update 2 fun pl => pl.sortDecks 15).update 3
      fun pl => pl.sortDecks 15) :=
    ⟨h₃, fun q hq => absurd hq (Nat.not_lt_zero _), fun q _ => ⟨h.phase q, h.hand q⟩, h.round⟩
  refine wp_seq ((wp_transfer (p := 0) hon hhalf).mono fun _ s₄ w₄ h₄ => ?_)
  obtain ⟨-, V₄, hon₄, h₄⟩ := h₄
  refine wp_seq ((wp_transfer (p := 1) hon₄ h₄).mono fun _ s₅ w₅ h₅ => ?_)
  obtain ⟨-, V₅, hon₅, h₅⟩ := h₅
  refine wp_seq ((wp_transfer (p := 2) hon₅ h₅).mono fun _ s₆ w₆ h₆ => ?_)
  obtain ⟨-, V₆, hon₆, h₆⟩ := h₆
  refine (wp_transfer (p := 3) hon₆ h₆).mono fun _ s₇ w₇ h₇ => ?_
  obtain ⟨-, V₇, hon₇, h₇⟩ := h₇
  have hserved : ∀ q : Seat, q.val < 4 := fun q => q.isLt
  exact ⟨V₇, hon₇, ⟨h₇.untold.wall_eq, Or.inl h₇.untold.winner,
    fun q => (h₇.served q (hserved q)).2, h₇.round⟩, fun q => (h₇.served q (hserved q)).1⟩

/-- A round up to its end: what is assumed is that it is careful, and what
is known of a careful round may be used. -/
theorem wp_playRound {start : Seat} (hon : On V w) (h : Awaiting r V) :
    wp guests (Proper G) (Minds G) (playRound wall.tiles start s)
      (fun _ s' w' => Calm wall r s' w') w := by
  have hround : wp guests (Informed G) (Minds G) (playRound wall.tiles start s)
      (fun _ s' w' => Calm wall r s' w') w := by
    refine wp_modify_seq (wp_seq ((wp_deal hon h).mono fun _ s₁ w₁ h₁ => ?_))
    refine wp_seq ((wp_turns h₁).mono fun _ s₂ w₂ h₂ => ?_)
    obtain ⟨V₂, hon₂, hs₂, hall₂⟩ := h₂
    have hspeaks : ∀ q, (V₂ q).phase ≠ .ganged := by
      intro q
      rw [hall₂ q]
      nofun
    exact wp_mark hon₂.there fun _ => ⟨hon₂.not_mute hspeaks, V₂, hon₂, hs₂, hall₂⟩
  exact ((known_round wall start s).assuming Env.logged_total (fun _ _ _ ho hw => ho.contained hw)
    hround).mono fun _ _ _ h => h.1

-- ============================================================== the end of a round

/-- The announcement of the end. -/
theorem says_end {winner : Int} (hwinner : winner = -1 ∨ ∃ p : Seat, winner = (p.val : Int)) :
    WholeLine limit (endLine winner) ∧ roundOf (endLine winner) = some .gameSet
      ∧ unconcerned (endLine winner) = true := by
  cases hwinner with
  | inl h =>
      rw [h]
      decide +kernel
  | inr h =>
      obtain ⟨p, rfl⟩ := h
      revert p
      decide +kernel

/-- A line to all players. -/
theorem wp_toAll {A : SOp → Game → Prop} {l : Line} {f : View → View} (h : On V w)
    (hs : ∀ ps, Fit G (told ps f V) s) (hsay : ∀ q, plain.Says .hub (V q) l (f (V q)))
    (hno : ∀ v, ¬ Concerns v l) :
    wp guests A (Minds G) (toAll l s)
      (fun _ s' w' => s' = s ∧ On (fun q => f (V q)) w') w := by
  have hquiet : ∀ v, Concerns v l → s.discardedMj.bare = shown v l :=
    fun v hc => absurd hc (hno v)
  have hstart : told [] f V = V := by
    funext q
    simp [told]
  have hend : told [3, 2, 1, 0] f V = fun q => f (V q) := by
    funext q
    have hmem : ∀ q : Seat, q ∈ [(3 : Seat), 2, 1, 0] := by decide
    exact if_pos (hmem q)
  rw [← hstart] at h
  refine wp_seq ((wp_tellOne h (hs _) List.not_mem_nil (hsay _) (hquiet _)).mono ?_)
  intro _ s₁ w₁ h₁
  obtain ⟨rfl, h₁⟩ := h₁
  refine wp_seq ((wp_tellOne h₁ (hs _) (by decide) (hsay _) (hquiet _)).mono ?_)
  intro _ s₂ w₂ h₂
  obtain ⟨rfl, h₂⟩ := h₂
  refine wp_seq ((wp_tellOne h₂ (hs _) (by decide) (hsay _) (hquiet _)).mono ?_)
  intro _ s₃ w₃ h₃
  obtain ⟨rfl, h₃⟩ := h₃
  rw [← hend]
  exact wp_tellOne h₃ (hs _) (by decide) (hsay _) (hquiet _)

/-- The players who are still to answer, and those who have. -/
structure Answering (r : Nat) (fds : List Seat) (V : Seat → View) (s : Game) : Prop where
  nodup : fds.Nodup
  hand : ∀ q, (s.players q).bare = (V q).hand
  phase : ∀ q, (V q).phase = if q ∈ fds then .setAnswer else .setVerdict
  round : ∀ q, (V q).round = r

theorem fit_of_hands (hhand : ∀ q, (s.players q).bare = (V q).hand)
    (hspeaks : ∀ q, (V q).phase ≠ .ganged) : Fit G V s :=
  ⟨fun q _ => hhand q, fun hgang => absurd hgang.choose_spec (hspeaks _)⟩

theorem Answering.fit {fds : List Seat} (h : Answering r fds V s) : Fit G V s := by
  refine fit_of_hands h.hand fun q => ?_
  rw [h.phase q]
  split <;> nofun

theorem heard_setAnswer {v v' : View} {l : Line} (hphase : v.phase = .setAnswer)
    (h : plain.Says .peer v l v') : v' = { v with phase := .setVerdict } := by
  obtain ⟨m, hread, hafter⟩ := said hphase h
  have hanswer : answerOf l = some m := hread
  unfold answerOf at hanswer
  split_ifs at hanswer
  · cases hanswer
    exact (Option.some.inj hafter).symm
  · cases hanswer
    exact (Option.some.inj hafter).symm

/-- One answer less to wait for. -/
theorem length_filter_ne {fds : List Seat} (hnodup : fds.Nodup) (hp : p ∈ fds) :
    (fds.filter (· ≠ p)).length + 1 = fds.length := by
  have herase : fds.filter (· ≠ p) = fds.erase p := by
    rw [hnodup.erase_eq_filter]
    refine List.filter_congr fun q _ => ?_
    by_cases hq : q = p <;> simp [hq]
  have hpos : 0 < fds.length := List.length_pos_of_mem hp
  rw [herase, List.length_erase_of_mem hp]
  omega

/-- Who has been read after a look at one player. -/
structure Read (r : Nat) (p : Seat) (x x' : Nat × Nat × List Seat) (s s' : Game) (w' : Floor) :
    Prop where
  count : x'.2.1 + x'.2.2.length = x.2.1 + x.2.2.length
  mem : ∀ q, q ≠ p → (q ∈ x'.2.2 ↔ q ∈ x.2.2)
  same : s' = s
  views : ∃ V', On V' w' ∧ Answering r x'.2.2 V' s'

section Display

variable {A : SOp → Game → Prop}

theorem wp_readAnswer {testset : Seat → Bool} {x : Nat × Nat × List Seat} (hon : On V w)
    (h : Answering r x.2.2 V s) (hp : testset p = true → p ∈ x.2.2) :
    wp guests A (Minds G) (readAnswer testset x p s) (fun x' s' w' => Read r p x x' s s' w') w := by
  unfold readAnswer
  split
  next hready =>
    have hmem := hp hready
    have hphase : (V p).phase = .setAnswer := by rw [h.phase p, if_pos hmem]
    refine wp_seq ((wp_hear hon h.fit (by rw [hphase]; nofun) (by rw [hphase]; nofun)).mono ?_)
    intro l s₁ w₁ h₁
    obtain ⟨rfl, v', hsaid, h₁⟩ := h₁
    obtain rfl := heard_setAnswer hphase hsaid
    refine wp_pure ⟨?_, fun q hq => ?_, rfl, _, h₁, ?_, fun q => ?_, fun q => ?_, fun q => ?_⟩
    · have hlen := length_filter_ne h.nodup hmem
      show x.2.1 + 1 + (x.2.2.filter (· ≠ p)).length = _
      omega
    · simp [hq]
    · exact h.nodup.filter _
    · by_cases hq : q = p
      · subst hq
        rw [Function.update_self]
        exact h.hand q
      · rw [Function.update_of_ne hq]
        exact h.hand q
    · by_cases hq : q = p
      · subst hq
        rw [Function.update_self]
        simp
      · rw [Function.update_of_ne hq, h.phase q]
        simp [hq]
    · by_cases hq : q = p
      · subst hq
        rw [Function.update_self]
        exact h.round q
      · rw [Function.update_of_ne hq]
        exact h.round q
  next => exact wp_pure ⟨rfl, fun _ _ => Iff.rfl, rfl, V, hon, h⟩

/-- The answers of the four players. -/
theorem wp_collectAnswers (hon : On V w) (h : Answering r [0, 1, 2, 3] V s) :
    wp guests A (Minds G) (collectAnswers s)
      (fun _ s' w' => s' = s ∧ ∃ V', On V' w' ∧ Answering r [] V' s') w := by
  refine wp_iterate (fun x s' w' => s' = s ∧ x.2.1 + x.2.2.length = 4
    ∧ ∃ V', On V' w' ∧ Answering r x.2.2 V' s') ?_ ⟨rfl, rfl, V, hon, h⟩
  intro x s₁ w₁ h₁
  obtain ⟨rfl, hcount, V₁, hon₁, h₁⟩ := h₁
  split
  next hall =>
    have hnil : x.2.2 = [] := List.length_eq_zero_iff.mp (by omega)
    rw [hnil] at h₁
    exact wp_pure ⟨rfl, V₁, hon₁, h₁⟩
  next hsome =>
    have hlisten : ∀ q ∈ x.2.2, talk.Listens .hub (w₁.state q) := by
      intro q hq
      have hphase : (V₁ q).phase = .setAnswer := by rw [h₁.phase q, if_pos hq]
      rw [hon₁.state]
      refine ⟨?_, ?_⟩
      · show (V₁ q).phase.speaker ≠ some .hub
        rw [hphase]
        nofun
      · show ¬ (V₁ q).phase = .over
        rw [hphase]
        nofun
    have hne : x.2.2 ≠ [] := by
      intro hnil
      rw [hnil, List.length_nil] at hcount
      omega
    have hfit : Fit G V₁ s₁ := h₁.fit
    refine wp_seq (wp_call fun _ => ⟨⟨⟨hon₁.there, hne, fun q hq _ => hlisten q hq⟩,
      hfit.fits hon₁.held⟩, fun ready w₂ h₂ => ?_⟩)
    obtain rfl : w₂ = w₁ := h₂
    -- a player who is ready has not been read before
    have hready : ∀ q, (x.2.2.contains q && ready q) = true → q ∈ x.2.2 := by
      intro q hq
      exact List.contains_iff_mem.mp (Bool.and_eq_true_iff.mp hq).1
    refine wp_seq ((wp_readAnswer hon₁ h₁ (hready 0)).mono fun x₀ s₂ w₂ h₂ => ?_)
    obtain ⟨hcount₀, hmem₀, rfl, V₂, hon₂, h₂⟩ := h₂
    refine wp_seq ((wp_readAnswer hon₂ h₂ fun hq =>
      (hmem₀ 1 (by decide)).mpr (hready 1 hq)).mono fun x₁ s₃ w₃ h₃ => ?_)
    obtain ⟨hcount₁, hmem₁, rfl, V₃, hon₃, h₃⟩ := h₃
    refine wp_seq ((wp_readAnswer hon₃ h₃ fun hq => (hmem₁ 2 (by decide)).mpr
      ((hmem₀ 2 (by decide)).mpr (hready 2 hq))).mono fun x₂ s₄ w₄ h₄ => ?_)
    obtain ⟨hcount₂, hmem₂, rfl, V₄, hon₄, h₄⟩ := h₄
    refine wp_seq ((wp_readAnswer hon₄ h₄ fun hq => (hmem₂ 3 (by decide)).mpr
      ((hmem₁ 3 (by decide)).mpr ((hmem₀ 3 (by decide)).mpr (hready 3 hq)))).mono
        fun x₃ s₅ w₅ h₅ => ?_)
    obtain ⟨hcount₃, -, rfl, V₅, hon₅, h₅⟩ := h₅
    exact wp_pure ⟨rfl, by omega, V₅, hon₅, h₅⟩

/-- All is said. -/
def Done (w : Floor) : Prop := ∃ V, On V w ∧ ∀ q, (V q).phase = .over

/-- Where the server is between two rounds: before the next, or at the
end. -/
def Between (n : Nat) (w : Floor) : Prop :=
  (n < 4 ∧ ∃ V, On V w ∧ Awaiting n V) ∨ (¬ n < 4 ∧ Done w)

/-- The view of a player who is told that there is a next round. -/
def nextRound (v : View) : View :=
  if v.round + 1 < 4 then { v.deal with round := v.round + 1 } else { v with phase := .over }

theorem says_start (hphase : v.phase = .setVerdict) :
    plain.Says .hub v (str "start!\n") (nextRound v) :=
  say hphase rfl (by decide) rfl rfl

/-- `game_set_display`. -/
theorem wp_gameSetDisplay (h : Calm wall r s w) :
    wp guests A (Minds G) (gameSetDisplay s)
      (fun i _ w' => (i = 1 ∧ Between (r + 1) w') ∨ (i = 0 ∧ Done w')) w := by
  obtain ⟨V, hon, hs, hall⟩ := h
  obtain ⟨hwhole, hread, hquiet⟩ := says_end hs.winner
  let f : View → View := fun v => { v with phase := .setAnswer }
  have hsay : ∀ q, plain.Says .hub (V q) (endLine s.winner) (f (V q)) :=
    fun q => say (hall q) rfl hwhole hread rfl
  have hfit : ∀ ps, Fit G (told ps f V) s := by
    intro ps
    refine fit_of_hands (fun q => ?_) fun q => ?_
    all_goals
      unfold told
      split
    · exact hs.hand q
    · exact hs.hand q
    · nofun
    · rw [hall q]
      nofun
  refine wp_get_seq (wp_seq ((wp_toAll hon hfit hsay fun _ => not_concerns hquiet).mono ?_))
  intro _ s₁ w₁ h₁
  obtain ⟨rfl, h₁⟩ := h₁
  have hmem : ∀ q : Seat, q ∈ [(0 : Seat), 1, 2, 3] := by decide
  have hanswering : Answering r [0, 1, 2, 3] (fun q => f (V q)) s₁ :=
    ⟨by decide, hs.hand, fun q => (if_pos (hmem q)).symm, hs.round⟩
  refine wp_seq ((wp_collectAnswers h₁ hanswering).mono ?_)
  intro n s₂ w₂ h₂
  obtain ⟨rfl, V₂, hon₂, h₂⟩ := h₂
  have hphase : ∀ q, (V₂ q).phase = .setVerdict := fun q => h₂.phase q
  split
  · have hfit₂ : ∀ ps, Fit G (told ps nextRound V₂) s₂ := by
      intro ps
      have hnone : ∀ q, (nextRound (V₂ q)).phase ≠ .ganged := by
        intro q
        unfold nextRound
        split <;> nofun
      constructor
      · intro q hq
        unfold told nextRound at hq ⊢
        split_ifs at hq ⊢
        · cases hq
        · exact h₂.hand q
        · exact h₂.hand q
      · intro hgang
        obtain ⟨q, hq⟩ := hgang
        unfold told at hq
        split at hq
        · exact absurd hq (hnone q)
        · rw [hphase q] at hq
          cases hq
    refine wp_seq ((wp_toAll hon₂ hfit₂ (fun q => says_start (hphase q))
      fun _ => not_concerns (by decide)).mono ?_)
    intro _ s₃ w₃ h₃
    obtain ⟨-, hon₃⟩ := h₃
    refine wp_pure (Or.inl ⟨rfl, ?_⟩)
    by_cases hnext : r + 1 < 4
    · refine Or.inl ⟨hnext, _, hon₃, ?_⟩
      have hview : ∀ q, nextRound (V₂ q) = { (V₂ q).deal with round := r + 1 } := by
        intro q
        rw [nextRound, h₂.round q, if_pos hnext]
      exact ⟨fun q => by rw [hview]; rfl, fun q => by rw [hview]; rfl, fun q => by rw [hview]⟩
    · refine Or.inr ⟨hnext, _, hon₃, fun q => ?_⟩
      rw [nextRound, h₂.round q, if_neg hnext]
  · let g : View → View := fun v => { v with phase := .over }
    have hfit₂ : ∀ ps, Fit G (told ps g V₂) s₂ := by
      intro ps
      refine fit_of_hands (fun q => ?_) fun q => ?_
      all_goals
        unfold told
        split
      · exact h₂.hand q
      · exact h₂.hand q
      · nofun
      · rw [hphase q]
        nofun
    have hsay₂ : ∀ q, plain.Says .hub (V₂ q)
        (str "Some players don't want to play, no more game!\n") (g (V₂ q)) :=
      fun q => say (hphase q) rfl (by decide) rfl rfl
    refine wp_seq ((wp_toAll hon₂ hfit₂ hsay₂ fun _ => not_concerns (by decide)).mono ?_)
    intro _ s₃ w₃ h₃
    exact wp_pure (Or.inr ⟨rfl, _, h₃.2, fun _ => rfl⟩)

end Display

-- ========================================================================== the game

/-- The numbers the players are given. -/
theorem says_id : ∀ p : Seat, WholeLine limit (decimal (p.val : Int) ++ str "-th\n")
    ∧ Phase.greeting.read (decimal (p.val : Int) ++ str "-th\n") = some (.id p) := by
  decide +kernel

/-- The views when the first players have their numbers. -/
def greeted (n : Nat) (V : Seat → View) (q : Seat) : View :=
  if q.val < n then (V q).deal else V q

/-- Before the first round. -/
structure Welcome (V : Seat → View) : Prop where
  phase : ∀ q, (V q).phase = .greeting
  round : ∀ q, (V q).round = 0

theorem Welcome.fit (h : Welcome V) (n : Nat) : Fit G (greeted n V) s := by
  constructor
  · intro q hq
    unfold greeted at hq
    split at hq
    · cases hq
    · rw [h.phase q] at hq
      cases hq
  · intro hgang
    obtain ⟨q, hq⟩ := hgang
    unfold greeted at hq
    split at hq
    · cases hq
    · rw [h.phase q] at hq
      cases hq

/-- `game` of the server keeps to the conversation. -/
theorem server_obeys (wall : Nat → Wall) (G : Prop) (hon : On V w) (h : Welcome V) :
    talk.Obeys .hub (fun _ => true) (Proper G) (Fits G) (game wall s) w := by
  have hover : ∀ {w : Floor}, Done w → ∀ fd, (fun _ => true) fd = true → talk.Final (w.state fd) := by
    intro w hdone fd _
    obtain ⟨V, hon, hall⟩ := hdone
    rw [hon.state]
    exact hall fd
  have hstart : greeted 0 V = V := by
    funext q
    exact if_neg (Nat.not_lt_zero _)
  rw [← hstart] at hon
  refine wp_seq ((wp_forM_range (fun n s' w' => On (greeted n V) w') ?_ hon).mono ?_)
  · intro n s₁ w₁ hn h₁
    have hself : greeted n V (Fin.ofNat 4 n) = V (Fin.ofNat 4 n) := by
      refine if_neg ?_
      show ¬ n % 4 < n
      omega
    obtain ⟨hwhole, hread⟩ := says_id (Fin.ofNat 4 n)
    have hval : (Fin.ofNat 4 n).val = n := Nat.mod_eq_of_lt hn
    rw [hval] at hwhole hread
    have hline : plain.Says .hub (greeted n V (Fin.ofNat 4 n)) (decimal (n : Int) ++ str "-th\n")
        (V (Fin.ofNat 4 n)).deal := by
      rw [hself]
      exact say (h.phase _) rfl hwhole hread rfl
    refine (wp_tell h₁ (h.fit n) hline fun hc => absurd hc (not_concerns_phase ?_)).mono ?_
    · rw [hself, h.phase]
      nofun
    · intro _ s₂ w₂ h₂
      have hnext : Function.update (greeted n V) (Fin.ofNat 4 n) (V (Fin.ofNat 4 n)).deal
          = greeted (n + 1) V := by
        funext q
        by_cases hq : q = Fin.ofNat 4 n
        · subst hq
          rw [Function.update_self]
          exact (if_pos (by omega)).symm
        · have hne : q.val ≠ n := fun he => hq (Fin.ext (by omega))
          rw [Function.update_of_ne hq]
          unfold greeted
          by_cases hlt : q.val < n
          · rw [if_pos hlt, if_pos (by omega)]
          · rw [if_neg hlt, if_neg (by omega)]
      rw [← hnext]
      exact h₂.2
  intro _ s₁ w₁ h₁
  have hawait : Awaiting 0 (greeted 4 V) := by
    have hview : ∀ q, greeted 4 V q = (V q).deal := fun q => if_pos q.isLt
    exact ⟨fun q => by rw [hview]; rfl, fun q => by rw [hview]; rfl,
      fun q => by rw [hview]; exact h.round q⟩
  refine wp_iterate (fun n _ w' => Between n w') ?_ (Or.inl ⟨by decide, _, h₁, hawait⟩)
  intro n s₂ w₂ h₂
  cases h₂ with
  | inr hend =>
      rw [if_neg hend.1]
      exact wp_pure (hover hend.2)
  | inl hgo =>
      obtain ⟨hn, V₂, hon₂, hawait₂⟩ := hgo
      rw [if_pos hn]
      refine wp_seq ((wp_playRound hon₂ hawait₂).mono fun _ s₃ w₃ h₃ => ?_)
      refine wp_seq ((wp_gameSetDisplay h₃).mono fun i s₄ w₄ h₄ => ?_)
      cases h₄ with
      | inl hnext =>
          obtain ⟨rfl, hnext⟩ := hnext
          exact wp_pure hnext
      | inr hdone =>
          obtain ⟨rfl, hdone⟩ := hdone
          exact wp_pure (hover hdone)

end Mahjong.Talk
