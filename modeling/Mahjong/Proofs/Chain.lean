/-
Chains of claims: what a claim does to the table, exactly, and that
`othersreaction` ends.

Every nested call of `othersreaction` stands behind a claim, and every
claim takes three off somebody's capacity (`OneLess`). Nothing gives a
capacity back, so the sum of the four capacities is a measure of the
chain, whether the claims draw a tile or not. The one loop that a player
can keep going is the prompt of an eat; the log tells how often it was
answered wrong (`tries`).
-/
import Mahjong.Proofs.Exact

namespace Mahjong

-- ================================================================ who can claim

/-- One tile adds one to at most one entry. -/
theorem countAt_bump_le (count : List Nat) {i j : Int} (hij : i ≠ j) (k : Int) :
    countAt (bump count k) i + countAt (bump count k) j
      ≤ countAt count i + countAt count j + 1 := by
  have hentry : ∀ i : Int, countAt (bump count k) i
      ≤ countAt count i + if i = k then 1 else 0 := by
    intro i
    unfold countAt bump
    split
    · split
      · rw [List.getD_eq_getElem?_getD, List.getD_eq_getElem?_getD, List.getElem?_modify]
        cases count[i.toNat]? with
        | none => simp
        | some m =>
            by_cases hk : k.toNat = i.toNat
            · have hik : i = k := by omega
              simp [hik]
            · have hik : i ≠ k := by
                rintro rfl
                exact hk rfl
              simp [hk]
      · exact Nat.le_add_right _ _
    · exact Nat.zero_le _
  have hi := hentry i
  have hj := hentry j
  split at hi <;> split at hj <;> omega

/-- Two different entries of a table are together at most the number of
tiles counted. -/
theorem countAt_countTable_le (tiles : List Mj) {i j : Int} (hij : i ≠ j) :
    countAt (countTable tiles) i + countAt (countTable tiles) j ≤ tiles.length := by
  suffices h : ∀ (tiles : List Mj) (count : List Nat),
      countAt (tiles.foldl (fun count m => bump count (tileIndex m)) count) i
        + countAt (tiles.foldl (fun count m => bump count (tileIndex m)) count) j
        ≤ countAt count i + countAt count j + tiles.length by
    have h0 : ∀ i, countAt (List.replicate 34 0) i = 0 := by
      intro i
      unfold countAt
      split
      · rw [List.getD_eq_getElem?_getD, List.getElem?_replicate]
        split <;> rfl
      · rfl
    have hle := h tiles (List.replicate 34 0)
    rw [h0, h0] at hle
    rw [countTable]
    omega
  intro tiles
  induction tiles with
  | nil => exact fun count => Nat.le_refl _
  | cons m tiles ih =>
      intro count
      have hle := ih (bump count (tileIndex m))
      have hb := countAt_bump_le count hij (tileIndex m)
      rw [List.foldl_cons, List.length_cons]
      omega

/-- Whoever can gang, pong or eat has two tiles. -/
theorem gang_needs_two {deck : List Mj} {nc : Nat} {t : Mj}
    (h : isGangPossible deck nc t = true) : 2 ≤ nc := by
  have hle := countAt_countTable_le (deck.take nc)
    (show tileIndex t ≠ tileIndex t + 1 by omega)
  rw [isGangPossible, decide_eq_true_eq] at h
  rw [List.length_take] at hle
  omega

theorem pong_needs_two {deck : List Mj} {nc : Nat} {t : Mj}
    (h : isPongPossible deck nc t = true) : 2 ≤ nc := by
  have hle := countAt_countTable_le (deck.take nc)
    (show tileIndex t ≠ tileIndex t + 1 by omega)
  rw [isPongPossible, decide_eq_true_eq] at h
  rw [List.length_take] at hle
  omega

theorem eat_needs_two {deck : List Mj} {nc : Nat} {t : Mj}
    (h : isEatPossible deck nc t = true) : 2 ≤ nc := by
  have htwo : ∀ {i j : Int}, i ≠ j → countAt (countTable (deck.take nc)) i ≥ 1 →
      countAt (countTable (deck.take nc)) j ≥ 1 → 2 ≤ nc := by
    intro i j hij hi hj
    have hle := countAt_countTable_le (deck.take nc) hij
    rw [List.length_take] at hle
    omega
  unfold isEatPossible at h
  split at h
  · exact absurd h Bool.false_ne_true
  · dsimp only at h
    split at h
    next h1 => exact htwo (by omega) h1.2.1 h1.2.2.2.1
    next =>
      split at h
      next h2 => exact htwo (by omega) h2.2.1 h2.2.2.2.1
      next =>
        split at h
        next h3 => exact htwo (by omega) h3.2.1 h3.2.2.2.1
        next => exact absurd h Bool.false_ne_true

-- ================================================================= one set less

/-- One player's capacity is three less, the others' are as before. -/
def OneLess (s s' : Game) : Prop :=
  ∃ p, (s'.players p).normalCapacity + 3 = (s.players p).normalCapacity
    ∧ ∀ q, q ≠ p → (s'.players q).normalCapacity = (s.players q).normalCapacity

theorem OneLess.caps {s s' : Game} (h : OneLess s s') : s'.caps + 3 = s.caps := by
  obtain ⟨p, hp, hother⟩ := h
  have h1 := Finset.sum_erase_add Finset.univ (fun q => (s.players q).normalCapacity)
    (Finset.mem_univ p)
  have h2 := Finset.sum_erase_add Finset.univ (fun q => (s'.players q).normalCapacity)
    (Finset.mem_univ p)
  have hrest : ∑ q ∈ Finset.univ.erase p, (s'.players q).normalCapacity
      = ∑ q ∈ Finset.univ.erase p, (s.players q).normalCapacity :=
    Finset.sum_congr rfl fun q hq => hother q (Finset.ne_of_mem_erase hq)
  unfold Game.caps
  omega

/-- The tables of a chain: the capacities lie between 1 and 16. -/
theorem Slots.caps_bounds {s : Game} (hs : Slots s) : 4 ≤ s.caps ∧ s.caps ≤ 64 := by
  have h : ∀ q, 1 ≤ (s.players q).normalCapacity ∧ (s.players q).normalCapacity ≤ 16 := by
    intro q
    obtain ⟨k, hk⟩ := hs.capacity q
    omega
  have h0 := h 0
  have h1 := h 1
  have h2 := h 2
  have h3 := h 3
  rw [Game.caps, Fin.sum_univ_four]
  omega

/-- A player's part reshaped by a claim, the table cleared. -/
theorem Slots.claim {s : Game} (hs : Slots s) {p : Seat} {f : Player → Player}
    (hf : Reshaped (s.players p) (f (s.players p)) 3)
    (hroom : 4 ≤ (s.players p).normalCapacity) :
    Slots (s.update p f).clearDiscarded ∧ OneLess s (s.update p f).clearDiscarded := by
  refine ⟨hs.reshape (n := 1) rfl rfl rfl hf (by omega), p, ?_, fun q hq => ?_⟩
  · show ((s.update p f).players p).normalCapacity + 3 = _
    rw [Game.update_players_self, hf.capacity]
    omega
  · show ((s.update p f).players q).normalCapacity = _
    rw [Game.update_players_ne _ _ _ _ hq]

theorem Slots.drew {s : Game} (hs : Slots s) {p : Seat} {flowers rest : List Mj} {x : Mj}
    (h : s.undrawn = flowers ++ x :: rest) : Slots (s.drew p flowers x) := by
  have hlen := congrArg List.length h
  rw [Game.undrawn, List.length_drop, hs.wall, List.length_append,
    List.length_cons] at hlen
  refine hs.change (p := p)
    (f := fun pl => (pl.pushFlowers flowers).setDeck pl.normalCapacity x) rfl ?_ rfl ?_ ?_
  · show s.takeIndex + flowers.length + 1 ≤ 144
    omega
  · show (((s.players p).pushFlowers flowers).decks.set _ _).length = 20
    rw [List.length_set, Player.pushFlowers_decks]
    exact hs.decks p
  · obtain ⟨k, hk⟩ := hs.capacity p
    refine ⟨k, ?_⟩
    show ((s.players p).pushFlowers flowers).normalCapacity + 3 * k = 16
    rw [Player.pushFlowers_normalCapacity]
    exact hk

theorem Slots.discarded {s : Game} (hs : Slots s) (p : Seat) (i : Int) :
    Slots (s.discarded p i) := by
  refine hs.reshape (p := p) (f := discardTile i) (n := 0) rfl rfl rfl ?_ (Nat.zero_le _)
  exact discardTile_reshaped (hs.decks p) (hs.capacity_le p) i

theorem OneLess.le {s s' : Game} (h : OneLess s s') (q : Seat) :
    (s'.players q).normalCapacity ≤ (s.players q).normalCapacity := by
  obtain ⟨p, hp, hother⟩ := h
  by_cases hq : q = p
  · subst hq
    omega
  · exact (hother q hq).le

/-- Changing nobody's capacity. -/
theorem OneLess.trans_eq {s t t' : Game} (h : OneLess s t)
    (hcap : ∀ q, (t'.players q).normalCapacity = (t.players q).normalCapacity) :
    OneLess s t' := by
  obtain ⟨p, hp, hother⟩ := h
  exact ⟨p, by rw [hcap]; exact hp, fun q hq => (hcap q).trans (hother q hq)⟩

theorem normalCapacity_update {s : Game} {p : Seat} {f : Player → Player}
    (hf : (f (s.players p)).normalCapacity = (s.players p).normalCapacity) (q : Seat) :
    ((s.update p f).players q).normalCapacity = (s.players q).normalCapacity := by
  by_cases hq : q = p
  · rw [hq, Game.update_players_self, hf]
  · rw [Game.update_players_ne _ _ _ _ hq]

theorem OneLess.drew {s t : Game} (h : OneLess s t) (p : Seat) (flowers : List Mj)
    (x : Mj) : OneLess s (t.drew p flowers x) :=
  h.trans_eq fun q => normalCapacity_update
    (f := fun pl => (pl.pushFlowers flowers).setDeck pl.normalCapacity x)
    (Player.pushFlowers_normalCapacity flowers _) q

theorem OneLess.discarded {s t : Game} (h : OneLess s t) (p : Seat) (i : Int) :
    OneLess s (t.discarded p i) :=
  h.trans_eq fun q => normalCapacity_update (s := t.setDiscarded _)
    (f := discardTile i) rfl q

namespace Server

open Process CString

-- ====================================================================== the claims

/-- How often an eat prompt was answered with a pair that was not
accepted, since a pair was accepted. -/
def tries : Log → Nat
  | [] => 0
  | ⟨.note (.eat _ _ _), _⟩ :: _ => 0
  | ⟨.note (.invalid _), _⟩ :: w => tries w + 1
  | _ :: w => tries w

/-- How many pairs have been accepted. -/
def eats : Log → Nat
  | [] => 0
  | ⟨.note (.eat _ _ _), _⟩ :: w => eats w + 1
  | _ :: w => eats w

/-- While `k` pairs have been accepted, no more than `g k` others are
offered. -/
def patient (g : Nat → Nat) (w : Log) : Prop := tries w ≤ g (eats w)

section Claims

variable {ok : Log → Prop} {A : SOp → Game → Prop} {P : SOp → Game → Log → Prop}
  {b : Seat → Nat} {Fed : List Mj → Prop} {s : Game} {w : Log} {p : Seat}

/-- Is the claim possible for a player? -/
def possible : Claim → Player → Game → Bool
  | .hu, pl, s => isAddHuPossible pl.decks pl.normalCapacity s.discardedMj
  | .gang, pl, s => isGangPossible pl.decks pl.normalCapacity s.discardedMj
  | .pong, pl, s => isPongPossible pl.decks pl.normalCapacity s.discardedMj
  | .eat, pl, s => isEatPossible pl.decks pl.normalCapacity s.discardedMj
  | .quietGang, _, _ => false

/-- The question to a player who can make the claim. -/
def offer : Claim → Line
  | .hu => huOffer
  | .gang => str "You can gang.\n"
  | .pong => str "You can pong.\n"
  | .eat => str "You can eat.\n"
  | .quietGang => str "You can quietly-gang.\n"

/-- The log when a player's tiles have been counted for a claim. -/
def counted (p : Seat) (s : Game) (w : Log) : Log :=
  ⟨.note (.counts (claimTiles (s.players p) s)), ()⟩ :: w

/-- A block that was passed over: the claim was not possible, or declined. -/
def Passed (s : Game) (p : Seat) (c : Claim) (w w' : Log) : Prop :=
  (possible c (s.players p) s = true ∧ ∃ answer ack, isYes answer = false
      ∧ w' = asked p (offer c) answer ack (counted p s w))
    ∨ (possible c (s.players p) s = false ∧ w' = counted p s w)

/-- A block whose offer was accepted. -/
def Taken (s : Game) (p : Seat) (c : Claim) (w w' : Log) : Prop :=
  possible c (s.players p) s = true ∧ ∃ answer ack, isYes answer = true
    ∧ asked p (offer c) answer ack (counted p s w) <:+ w'

/-- A claim block: a count, an offer if the claim is possible, and the
claim if the offer is accepted. -/
theorem twp_block (hl : Light b P) (hu : Below b s) (c : Claim) {body : Game → Server (Option Outcome)}
    {Q : Option Outcome → Game → Log → Prop}
    (hoffer : possible c (s.players p) s = true →
      P (.write p (offer c)) s (counted p s w))
    (hbody : possible c (s.players p) s = true → ∀ answer ack, isYes answer = true →
      twp (within ok) A P (body s s) Q (asked p (offer c) answer ack (counted p s w)))
    (hpass : ∀ w', Passed s p c w w' → Q none s w') :
    twp (within ok) A P ((do
      let s ← Prog.get
      let pl ← player p
      Io.note (.counts (claimTiles pl s))
      if possible c pl s then do
        if ← ask p (offer c) then body s else pure none
      else pure none : Server (Option Outcome)) s) Q w := by
  refine twp_get_seq (twp_player_seq (twp_seq (twp_note fun _ => ⟨hl.counts _ _ _ hu, ?_⟩)))
  cases hpos : possible c (s.players p) s with
  | true =>
      rw [if_pos rfl]
      refine twp_seq (twp_ask' hl.quiet hu (hoffer hpos) fun answer ack => ?_)
      cases hyes : isYes answer with
      | true => exact hbody hpos answer ack hyes
      | false => exact twp_pure (hpass _ (Or.inl ⟨hpos, answer, ack, hyes, rfl⟩))
  | false =>
      rw [if_neg Bool.false_ne_true]
      exact twp_pure (hpass _ (Or.inr ⟨hpos, rfl⟩))

/-- The table when the win test of a claim comes: the set laid down, and
after a gang a tile drawn. -/
def ganged (s : Game) (p : Seat) : Game :=
  (s.update p (gangTiles s.discardedMj)).clearDiscarded

def ponged (s : Game) (p : Seat) : Game :=
  (s.update p (pongTiles s.discardedMj)).clearDiscarded

def eaten (s : Game) (p : Seat) (i j : Int) : Game :=
  (s.update p (eatTiles (eatTemp (s.players p) s.discardedMj i j) i j)).clearDiscarded

inductive Claims (s : Game) (p : Seat) : Claim → Game → Prop
  | gang {flowers rest : List Mj} {x : Mj}
      (hpos : possible .gang (s.players p) s = true)
      (hwall : s.undrawn = flowers ++ x :: rest) (hall : ∀ m ∈ flowers, m.type = flower)
      (hx : x.type ≠ flower) : Claims s p .gang ((ganged s p).drew p flowers x)
  | pong (hpos : possible .pong (s.players p) s = true) : Claims s p .pong (ponged s p)
  | eat {i j : Int} (hpos : possible .eat (s.players p) s = true)
      (hok : eatable (eatTemp (s.players p) s.discardedMj i j) = true) :
      Claims s p .eat (eaten s p i j)

/-- How a claim of `p` ends that has left the table `t`: with a win, or
with a discard for the others. -/
def Ends (p : Seat) (t : Game) (r : Option Outcome) (s' : Game) (w' : Log) : Prop :=
  (r = some (.done 1 p) ∧ s' = { t with winner := (p.val : Int) })
    ∨ (r = some (.recurse p) ∧ ∃ i, Marked (.discard p i) w' ∧ s' = t.discarded p i)

/-- What comes out of the block for claim `c` by `p`, after a discard of
`d`. -/
def BlockEnds (s : Game) (d p : Seat) (c : Claim) (w : Log) (r : Option Outcome)
    (s' : Game) (w' : Log) : Prop :=
  (r = none ∧ s' = s ∧ Passed s p c w w')
    ∨ (Taken s p c w w'
      ∧ ((c = .hu ∧ r = some (.done 1 d) ∧ s' = { s with winner := (p.val : Int) })
        ∨ ∃ t, Claims s p c t ∧ Ends p t r s' w'))

/-- The tail of a claim: a win, or a discard that the others may react
to. -/
theorem twp_huOrDiscard (hl : Light b P) (hu : Below b s) :
    twp (within ok) A P (huOrDiscard p s) (fun r s' w' => Ends p s r s' w') w := by
  refine twp_seq ((twp_isHu hl hu).mono ?_)
  rintro r s' w' (⟨rfl, rfl, -⟩ | ⟨rfl, rfl⟩)
  · exact twp_pure (Or.inl ⟨rfl, rfl⟩)
  · refine twp_seq ((twp_discard hl hu).mono ?_)
    rintro _ s'' w'' ⟨i, hmark, rfl, -⟩
    exact twp_pure (Or.inr ⟨rfl, i, hmark, rfl⟩)

theorem ganged_below (hu : Below b s) : Below b (ganged s p) :=
  hu.update (f := gangTiles s.discardedMj) (layCopies_reshaped 3 _ _).capacity_le

theorem ponged_below (hu : Below b s) : Below b (ponged s p) :=
  hu.update (f := pongTiles s.discardedMj) (layCopies_reshaped 2 _ _).capacity_le

theorem eaten_below (hu : Below b s) (i j : Int) : Below b (eaten s p i j) :=
  hu.update (f := eatTiles (eatTemp (s.players p) s.discardedMj i j) i j)
    (Nat.sub_le _ _)

theorem ganged_slots (hs : Slots s) (hpos : possible .gang (s.players p) s = true) :
    Slots (ganged s p) ∧ OneLess s (ganged s p) := by
  have hroom := hs.capacity_room (gang_needs_two hpos)
  have hshape := gangTiles_reshaped (hs.decks p) (hs.capacity_le p) s.discardedMj
  exact hs.claim hshape hroom

section Blocks

variable {d k : Seat}

/-- A block of Case 0. -/
theorem twp_huClaim (hl : Light b P) (hu : Below b s)
    (hoffer : possible .hu (s.players (d + k)) s = true →
      P (.write (d + k) (offer .hu)) s (counted (d + k) s w)) :
    twp (within ok) A P (huClaim d k s)
      (fun r s' w' => BlockEnds s d (d + k) .hu w r s' w') w := by
  refine twp_block hl hu .hu hoffer (fun hpos answer ack hyes => ?_)
    fun w' hw' => Or.inl ⟨rfl, rfl, hw'⟩
  refine twp_seq (twp_note fun _ => ⟨hl.win _ _ _ hu, ?_⟩)
  refine twp_modify_seq (twp_pure (Or.inr ⟨⟨hpos, answer, ack, hyes, ?_⟩,
    Or.inl ⟨rfl, rfl, rfl⟩⟩))
  exact List.suffix_cons _ _

/-- A block of Case 1. -/
theorem twp_gangClaim (hl : Light b P) (hf : Feed b A P Fed) (hs : Slots s)
    (hu : Below b s)
    (hoffer : possible .gang (s.players (d + k)) s = true →
      P (.write (d + k) (offer .gang)) s (counted (d + k) s w))
    (hannounce : possible .gang (s.players (d + k)) s = true →
      ∀ q w, P (.write q (announce (d + k) " ganged it\n"))
        (s.update (d + k) (gangTiles s.discardedMj)) w) :
    twp (within ok) A P (gangClaim d k s)
      (fun r s' w' => BlockEnds s d (d + k) .gang w r s' w') w := by
  refine twp_block hl hu .gang hoffer (fun hpos answer ack hyes => ?_)
    fun w' hw' => Or.inl ⟨rfl, rfl, hw'⟩
  have hu' : Below b (s.update (d + k) (gangTiles s.discardedMj)) := ganged_below hu
  refine twp_seq (twp_note fun _ => ⟨hl.quiet.note _ _ _ rfl hu, ?_⟩)
  refine twp_seq (twp_accessDoor hl hu fun w₁ hw₁ _ => twp_modify_seq ?_)
  refine twp_seq (twp_toOthers hl hu' (announce_ne_ack _ _) (hannounce hpos)
    fun w₂ hw₂ _ => twp_modify_seq ?_)
  refine twp_seq ((twp_draw hl hf.toSupply ((ganged_slots hs hpos).1.fits _) hu'
    (hf.draw _ _)).suffix.mono ?_)
  rintro _ _ w₃ ⟨⟨flowers, x, rest, hwall, hall, hx, rfl⟩, hw₃⟩
  refine (twp_huOrDiscard hl ((ganged_below hu).drew _ _ _)).suffix.mono fun r s' w₄ h => ?_
  obtain ⟨hends, hw₄⟩ := h
  refine Or.inr ⟨⟨hpos, answer, ack, hyes, ?_⟩, Or.inr ⟨_, .gang hpos hwall hall hx, hends⟩⟩
  exact (List.suffix_cons _ _).trans (hw₁.trans (hw₂.trans (hw₃.trans hw₄)))

/-- A block of Case 2. -/
theorem twp_pongClaim (hl : Light b P) (hu : Below b s)
    (hoffer : possible .pong (s.players (d + k)) s = true →
      P (.write (d + k) (offer .pong)) s (counted (d + k) s w))
    (hannounce : possible .pong (s.players (d + k)) s = true →
      ∀ q w, P (.write q (announce (d + k) " ponged it\n"))
        (s.update (d + k) (pongTiles s.discardedMj)) w) :
    twp (within ok) A P (pongClaim d k s)
      (fun r s' w' => BlockEnds s d (d + k) .pong w r s' w') w := by
  refine twp_block hl hu .pong hoffer (fun hpos answer ack hyes => ?_)
    fun w' hw' => Or.inl ⟨rfl, rfl, hw'⟩
  have hu' : Below b (s.update (d + k) (pongTiles s.discardedMj)) := ponged_below hu
  refine twp_seq (twp_note fun _ => ⟨hl.quiet.note _ _ _ rfl hu, ?_⟩)
  refine twp_seq (twp_accessDoor hl hu fun w₁ hw₁ _ => twp_modify_seq ?_)
  refine twp_seq (twp_toOthers hl hu' (announce_ne_ack _ _) (hannounce hpos)
    fun w₂ hw₂ _ => twp_modify_seq ?_)
  refine (twp_huOrDiscard hl (ponged_below hu)).suffix.mono fun r s' w₃ h => ?_
  obtain ⟨hends, hw₃⟩ := h
  refine Or.inr ⟨⟨hpos, answer, ack, hyes, ?_⟩, Or.inr ⟨_, .pong hpos, hends⟩⟩
  exact (List.suffix_cons _ _).trans (hw₁.trans (hw₂.trans hw₃))

/-- The loop of the eat block ends when the player runs out of wrong
pairs. -/
theorem twp_eatLoop (hl : Light b P) (hu : Below b s) {g : Nat → Nat} :
    twp (within (patient g)) A P (eatLoop p s)
      (fun _ s' w' => ∃ i j, Marked (.eat p i j) w'
        ∧ eatable (eatTemp (s.players p) s.discardedMj i j) = true
        ∧ s' = s.update p
          (eatTiles (eatTemp (s.players p) s.discardedMj i j) i j)) w := by
  refine twp_forever (fun s' _ => s' = s) (fun _ (w : Log) => g (eats w) - tries w) ?_ rfl
  rintro s w rfl
  refine twp_seq (twp_writeMessageWaitAck hl.quiet hu (by decide) fun ack => ?_)
  refine twp_seq (twp_readAndAck hl.quiet hu fun line _ => ?_)
  generalize (sscanf2 line).1.getD (-1) = i
  generalize (sscanf2 line).2.getD (-1) = j
  refine twp_seq (twp_note fun _ => ⟨hl.quiet.note _ _ _ rfl hu, ?_⟩)
  refine twp_seq (twp_note fun _ => ⟨hl.access _ _ _ _ (by decide) hu, ?_⟩)
  refine twp_seq (twp_note fun _ => ⟨hl.access _ _ _ _ (by decide) hu, ?_⟩)
  refine twp_get_seq ?_
  by_cases hok : eatable (eatTemp (s.players p) s.discardedMj i j) = true
  · rw [if_pos hok]
    refine twp_seq (twp_writeMessageWaitAck hl.quiet hu (by decide) fun ack => ?_)
    refine twp_seq (twp_note fun _ => ⟨hl.quiet.note _ _ _ rfl hu, ?_⟩)
    refine twp_seq (twp_accessDoor hl hu fun w₁ hw₁ _ => twp_modify_seq (twp_pure ?_))
    exact ⟨_, _, Marked.suffix (List.mem_cons_self ..) hw₁, hok, rfl⟩
  · rw [if_neg hok]
    refine twp_seq (twp_writeMessageWaitAck hl.quiet hu (by decide) fun ack => ?_)
    refine twp_seq (twp_call fun _ => ⟨hl.quiet.note _ _ _ rfl hu, ?_⟩)
    rintro r w' ⟨rfl, hpatient⟩
    refine twp_pure ⟨rfl, ?_⟩
    have hmore : tries w + 1 ≤ g (eats w) := hpatient
    show g (eats w) - (tries w + 1) < g (eats w) - tries w
    omega

/-- The block of Case 3. -/
theorem twp_eatClaim (hl : Light b P) (hu : Below b s) {g : Nat → Nat}
    (hoffer : possible .eat (s.players (d + 1)) s = true →
      P (.write (d + 1) (offer .eat)) s (counted (d + 1) s w))
    (hannounce : possible .eat (s.players (d + 1)) s = true → ∀ i j,
      eatable (eatTemp (s.players (d + 1)) s.discardedMj i j) = true →
      ∀ q w, P (.write q (announce (d + 1) " ate it\n")) (s.update (d + 1)
        (eatTiles (eatTemp (s.players (d + 1)) s.discardedMj i j) i j)) w) :
    twp (within (patient g)) A P (eatClaim d s)
      (fun r s' w' => BlockEnds s d (d + 1) .eat w r s' w') w := by
  refine twp_block hl hu .eat hoffer (fun hpos answer ack hyes => ?_)
    fun w' hw' => Or.inl ⟨rfl, rfl, hw'⟩
  refine twp_seq (twp_note fun _ => ⟨hl.quiet.note _ _ _ rfl hu, ?_⟩)
  refine twp_seq ((twp_eatLoop hl hu).suffix.mono ?_)
  rintro _ s₁ w₁ ⟨⟨i, j, -, hok, rfl⟩, hw₁⟩
  have hu' : Below b (s.update (d + 1)
      (eatTiles (eatTemp (s.players (d + 1)) s.discardedMj i j) i j)) := eaten_below hu i j
  refine twp_seq (twp_toOthers hl hu' (announce_ne_ack _ _) (hannounce hpos i j hok)
    fun w₂ hw₂ _ => twp_modify_seq ?_)
  refine (twp_huOrDiscard hl (eaten_below hu i j)).suffix.mono fun r s' w₃ h => ?_
  obtain ⟨hends, hw₃⟩ := h
  refine Or.inr ⟨⟨hpos, answer, ack, hyes, ?_⟩, Or.inr ⟨_, .eat hpos hok, hends⟩⟩
  exact (List.suffix_cons _ _).trans (hw₁.trans (hw₂.trans hw₃))

end Blocks

-- =================================================================== one pass

/-- The claims in the order they are offered: the kind, and how many
seats on from the discarder. -/
def stages : List (Claim × Seat) :=
  [(.hu, 1), (.hu, 2), (.hu, 3), (.gang, 1), (.gang, 2), (.gang, 3),
    (.pong, 1), (.pong, 2), (.pong, 3), (.eat, 1)]

theorem eat_stage : ∀ k, (Claim.eat, k) ∈ stages → k = 1 := by decide

theorem quietGang_stage : ∀ k, (Claim.quietGang, k) ∉ stages := by decide

/-- The block of a stage. -/
def block (d : Seat) : Claim × Seat → Server (Option Outcome)
  | (.hu, k) => huClaim d k
  | (.gang, k) => gangClaim d k
  | (.pong, k) => pongClaim d k
  | (.eat, _) => eatClaim d
  | (.quietGang, _) => pure none

/-- Stages that were all passed over, in this order. -/
inductive PassedAll (s : Game) (d : Seat) : List (Claim × Seat) → Log → Log → Prop
  | nil (w : Log) : PassedAll s d [] w w
  | snoc {xs : List (Claim × Seat)} {x : Claim × Seat} {w w₁ w₂ : Log}
      (hxs : PassedAll s d xs w w₁) (hx : Passed s (d + x.2) x.1 w₁ w₂) :
      PassedAll s d (xs ++ [x]) w w₂

/-- The log when a pass begins. -/
def entered (d : Seat) (w : Log) : Log := ⟨.note (.othersreaction d), ()⟩ :: w

/-- What is shown at the landmarks of a pass after a discard of `d`. -/
structure Watch (P : SOp → Game → Log → Prop) (d : Seat) (s : Game) (w : Log) :
    Prop where
  offer : ∀ xs x ys w₁, stages = xs ++ x :: ys → PassedAll s d xs (entered d w) w₁ →
    possible x.1 (s.players (d + x.2)) s = true →
    P (.write (d + x.2) (offer x.1)) s (counted (d + x.2) s w₁)
  gang : ∀ k, (Claim.gang, k) ∈ stages → possible .gang (s.players (d + k)) s = true →
    ∀ q w, P (.write q (announce (d + k) " ganged it\n"))
      (s.update (d + k) (gangTiles s.discardedMj)) w
  pong : ∀ k, (Claim.pong, k) ∈ stages → possible .pong (s.players (d + k)) s = true →
    ∀ q w, P (.write q (announce (d + k) " ponged it\n"))
      (s.update (d + k) (pongTiles s.discardedMj)) w
  eat : possible .eat (s.players (d + 1)) s = true → ∀ i j,
    eatable (eatTemp (s.players (d + 1)) s.discardedMj i j) = true →
    ∀ q w, P (.write q (announce (d + 1) " ate it\n")) (s.update (d + 1)
      (eatTiles (eatTemp (s.players (d + 1)) s.discardedMj i j) i j)) w
  unwanted : ∀ w₁, PassedAll s d stages (entered d w) w₁ →
    P (.write d (str "no one wants it.\n")) s w₁

theorem free_watch {d : Seat} : Watch (fun _ _ _ => True) d s w := by
  constructor
  all_goals
    intros
    trivial

/-- The tile goes to the discarder's sea. -/
def unwanted (s : Game) (d : Seat) : Game :=
  (s.update d fun pl => pl.pushSea s.discardedMj).clearDiscarded

/-- The discarder has been told, behind the log `w`, that nobody wants the
tile. -/
def Refused (d : Seat) (w w' : Log) : Prop :=
  (⟨.write d (str "no one wants it.\n"), ()⟩ : (o : SOp) × o.Res) :: w <:+ w'

/-- What comes out of a pass after a discard of `d`: nobody wanted the
tile, and the discarder was told, or all before some stage passed and that
one was taken. -/
def PassEnds (s : Game) (d : Seat) (w : Log) (o : Outcome) (s' : Game) (w' : Log) :
    Prop :=
  (o = .done 0 d ∧ s' = unwanted s d
      ∧ ∃ w₁, PassedAll s d stages (entered d w) w₁ ∧ Refused d w₁ w')
    ∨ ∃ xs x ys w₁, stages = xs ++ x :: ys ∧ PassedAll s d xs (entered d w) w₁
      ∧ Taken s (d + x.2) x.1 w₁ w'
      ∧ ((x.1 = .hu ∧ o = .done 1 d
          ∧ s' = { s with winner := ((d + x.2).val : Int) })
        ∨ ∃ t, Claims s (d + x.2) x.1 t ∧ Ends (d + x.2) t (some o) s' w')

section Pass

variable {d : Seat} {g : Nat → Nat}

/-- A block of a stage. -/
theorem twp_stage (hl : Light b P) (hf : Feed b A P Fed) (hs : Slots s)
    (hu : Below b s) {w₀ w : Log}
    (hw : Watch P d s w₀) {xs ys : List (Claim × Seat)} {x : Claim × Seat}
    (hx : stages = xs ++ x :: ys) (hpassed : PassedAll s d xs (entered d w₀) w) :
    twp (within (patient g)) A P (block d x s)
      (fun r s' w' => BlockEnds s d (d + x.2) x.1 w r s' w') w := by
  have hmem : x ∈ stages := hx ▸ List.mem_append_right _ (List.mem_cons_self ..)
  have hoffer := hw.offer xs x ys w hx hpassed
  obtain ⟨c, k⟩ := x
  cases c with
  | hu => exact twp_huClaim hl hu hoffer
  | gang => exact twp_gangClaim hl hf hs hu hoffer (hw.gang k hmem)
  | pong => exact twp_pongClaim hl hu hoffer (hw.pong k hmem)
  | eat =>
      obtain rfl := eat_stage k hmem
      exact twp_eatClaim hl hu hoffer hw.eat
  | quietGang => exact absurd hmem (quietGang_stage k)

/-- Nobody wants the tile. -/
theorem twp_noOneWantsIt (hl : Light b P) (hu : Below b s) {ok : Log → Prop}
    (hP : P (.write d (str "no one wants it.\n")) s w) :
    twp (within ok) A P (noOneWantsIt d s)
      (fun o s' w' => o = .done 0 d ∧ s' = unwanted s d ∧ Refused d w w') w := by
  refine twp_seq (twp_writeMessageWaitAck' hl.quiet hu hP fun ack => ?_)
  refine twp_get_seq (twp_seq (twp_note fun _ => ⟨hl.access _ _ _ _ (by decide) hu, ?_⟩))
  refine twp_modify_seq (twp_modify_seq (twp_pure ⟨rfl, rfl, ?_⟩))
  exact (List.suffix_cons _ _).trans (List.suffix_cons _ _)

/-- The blocks behind those that have been passed. -/
theorem twp_firstOf (hl : Light b P) (hf : Feed b A P Fed) (hs : Slots s)
    (hu : Below b s) {w₀ : Log}
    (hw : Watch P d s w₀) (ys : List (Claim × Seat)) : ∀ (xs : List (Claim × Seat))
      (w : Log), stages = xs ++ ys → PassedAll s d xs (entered d w₀) w →
      twp (within (patient g)) A P (firstOf (ys.map (block d)) (noOneWantsIt d) s)
        (fun o s' w' => PassEnds s d w₀ o s' w') w := by
  induction ys with
  | nil =>
      intro xs w hxs hpassed
      rw [List.append_nil] at hxs
      rw [← hxs] at hpassed
      refine (twp_noOneWantsIt hl hu (hw.unwanted w hpassed)).mono ?_
      rintro o s' w' ⟨rfl, rfl, hrefused⟩
      exact Or.inl ⟨rfl, rfl, w, hpassed, hrefused⟩
  | cons x ys ih =>
      intro xs w hxs hpassed
      refine twp_seq ((twp_stage hl hf hs hu hw hxs hpassed).mono ?_)
      rintro r s' w' (⟨rfl, rfl, hpass⟩ | ⟨htaken, hends⟩)
      · exact ih (xs ++ [x]) w' (by rw [hxs, List.append_assoc]; rfl)
          (.snoc hpassed hpass)
      · -- the claim ends the pass, with one outcome or another
        obtain ⟨o, rfl⟩ : ∃ o, r = some o := by
          rcases hends with ⟨-, hr, -⟩ | ⟨t, -, ⟨hr, -⟩ | ⟨hr, -⟩⟩ <;> exact ⟨_, hr⟩
        refine twp_pure (Or.inr ⟨xs, x, ys, w, hxs, hpassed, htaken, ?_⟩)
        refine hends.imp_left fun h => ⟨h.1, Option.some.inj h.2.1, h.2.2⟩

/-- One pass of `othersreaction`. -/
theorem twp_reaction (hl : Light b P) (hf : Feed b A P Fed) (hs : Slots s)
    (hu : Below b s)
    (hmark : P (.note (.othersreaction d)) s w) (hw : Watch P d s w) :
    twp (within (patient g)) A P (reaction d s)
      (fun o s' w' => PassEnds s d w o s' w') w := by
  refine twp_seq (twp_note fun _ => ⟨hmark, ?_⟩)
  exact twp_firstOf hl hf hs hu hw stages [] _ rfl (.nil _)

end Pass

-- ==================================================================== the chain

/-- A claim leaves possible tables, with one set less in hand. -/
theorem Claims.slots {c : Claim} {t : Game} (h : Claims s p c t) (hs : Slots s) :
    Slots t ∧ OneLess s t ∧ t.winner = s.winner := by
  cases h with
  | gang hpos hwall hall hx =>
      obtain ⟨hg, hless⟩ := ganged_slots hs hpos
      exact ⟨hg.drew hwall, hless.drew _ _ _, rfl⟩
  | pong hpos =>
      have hroom := hs.capacity_room (pong_needs_two hpos)
      have hshape := pongTiles_reshaped (hs.decks p) (hs.capacity_le p) s.discardedMj
      obtain ⟨hp, hless⟩ := hs.claim hshape hroom
      exact ⟨hp, hless, rfl⟩
  | @eat i j hpos hok =>
      have hroom := hs.capacity_room (eat_needs_two hpos)
      have hshape := eatTiles_reshaped (hs.decks p) (hs.capacity_le p)
        (eatTemp (s.players p) s.discardedMj i j) i j
      obtain ⟨he, hless⟩ := hs.claim hshape hroom
      exact ⟨he, hless, rfl⟩

/-- Behind every nested call somebody's capacity has dropped by three. -/
theorem PassEnds.recurse {d q : Seat} {s' : Game} {w w' : Log}
    (h : PassEnds s d w (.recurse q) s' w') (hs : Slots s) :
    Slots s' ∧ OneLess s s' ∧ s'.winner = s.winner := by
  rcases h with ⟨ho, -⟩ | ⟨xs, x, ys, w₁, -, -, -, ⟨-, ho, -⟩ | ⟨t, hc, he⟩⟩
  · exact nomatch ho
  · exact nomatch ho
  · rcases he with ⟨ho, -⟩ | ⟨ho, i, -, rfl⟩
    · exact nomatch ho
    · obtain ⟨ht, hless, hwin⟩ := hc.slots hs
      exact ⟨ht.discarded _ i, hless.discarded _ i, hwin⟩

/-- `othersreaction` ends: the sum of the capacities is the measure. What
holds when a pass begins is `J`. -/
theorem twp_othersreaction {g : Nat → Nat} (J : Seat → Game → Log → Prop)
    (hpass : ∀ d s w, Slots s → J d s w → twp (within (patient g)) A P (reaction d s)
      (fun o s' w' => PassEnds s d w o s' w' ∧ ∀ q, o = .recurse q → J q s' w') w)
    {d : Seat} (hs : Slots s) (hJ : J d s w) :
    twp (within (patient g)) A P (othersreaction d s)
      (fun r s' w' => ∃ (nested : Bool) (d₁ : Seat) (s₁ : Game) (w₁ : Log) (r₁ : Int),
        Slots s₁ ∧ J d₁ s₁ w₁ ∧ PassEnds s₁ d₁ w₁ (.done r₁ r.2) s' w'
        ∧ r.1 = if nested then 0 else r₁) w := by
  refine twp_iterate (fun (x : Bool × Seat) s w => Slots s ∧ J x.2 s w)
    (fun _ s _ => s.caps) ?_ ⟨hs, hJ⟩
  rintro ⟨nested, d⟩ s w ⟨hs, hJ⟩
  refine twp_seq ((hpass d s w hs hJ).mono ?_)
  rintro o s' w' ⟨h, hnext⟩
  cases o with
  | recurse q =>
      obtain ⟨hs', hless, -⟩ := h.recurse hs
      refine twp_pure ⟨⟨hs', hnext q rfl⟩, ?_⟩
      have hcaps := hless.caps
      show s'.caps < s.caps
      omega
  | done r q => exact twp_pure ⟨nested, d, s, w, r, hs, hJ, h, rfl⟩

end Claims

end Server

end Mahjong
