/-
The moves of a round as they are told: from the views at the beginning of
a move to those at its end.

In a round all views are between two turns but the one of the player who
moves (`In`), and what the views say of the hands is what is on the server
(`Seated`). With a tile on the table everybody sees it (`Tabled`).
-/
import Mahjong.Proofs.ServerTalk

namespace Mahjong.Talk

open Process CString
open Server

-- ======================================================================== the table

/-- The table of a round, and the hands as the players know them. -/
structure Seated (wall : Wall) (r : Nat) (V : Seat → View) (s : Game) : Prop where
  wall_eq : s.shuffledMjs = wall.tiles
  winner : s.winner = -1 ∨ ∃ p : Seat, s.winner = (p.val : Int)
  hand : ∀ q, (s.players q).bare = (V q).hand
  round : ∀ q, (V q).round = r

/-- One player is in a phase, the others are between two turns. -/
structure Phases (p : Seat) (phase : Phase) (V : Seat → View) : Prop where
  active : (V p).phase = phase
  others : ∀ q, q ≠ p → (V q).phase = .round

variable {wall : Wall} {r : Nat} {p : Seat} {phase : Phase}

/-- Where a round is, by the phase of the player who moves. -/
def In (wall : Wall) (r : Nat) (p : Seat) (phase : Phase) (s : Game) (w : Floor) : Prop :=
  ∃ V, On V w ∧ Seated wall r V s ∧ Phases p phase V

/-- Nobody moves. -/
def Calm (wall : Wall) (r : Nat) (s : Game) (w : Floor) : Prop :=
  ∃ V, On V w ∧ Seated wall r V s ∧ ∀ q, (V q).phase = .round

/-- There is a tile on the table, and everybody sees it. -/
structure Sees (V : Seat → View) (s : Game) : Prop where
  table : ∀ q, s.discardedMj.bare = (V q).table
  real : s.discardedMj.Real

def Tabled (wall : Wall) (r : Nat) (s : Game) (w : Floor) : Prop :=
  ∃ V, On V w ∧ Seated wall r V s ∧ (∀ q, (V q).phase = .round) ∧ Sees V s

/-- What a player may discard has been counted. -/
structure Counted (p : Seat) (s : Game) : Prop where
  real : ∀ m ∈ (s.players p).decks.take ((s.players p).normalCapacity + 1), m.Real
  room : (s.players p).normalCapacity < (s.players p).decks.length

variable {G : Prop} {V : Seat → View} {s s' : Game} {w w' : Floor} {l : Line} {v v' : View}

theorem Seated.fit (h : Seated wall r V s) (hmute : (∃ q, (V q).phase = .ganged) → G) :
    Fit G V s :=
  ⟨fun q _ => h.hand q, hmute⟩

/-- A player's view and hand change. -/
theorem Seated.move (h : Seated wall r V s) (hround : v.round = r)
    (hwall : s'.shuffledMjs = s.shuffledMjs) (hwinner : s'.winner = s.winner)
    (hothers : ∀ q, q ≠ p → s'.players q = s.players q)
    (hhand : (s'.players p).bare = v.hand) : Seated wall r (Function.update V p v) s' := by
  refine ⟨hwall.trans h.wall_eq, ?_, fun q => ?_, fun q => ?_⟩
  · rw [hwinner]
    exact h.winner
  · by_cases hq : q = p
    · subst hq
      rw [Function.update_self]
      exact hhand
    · rw [Function.update_of_ne hq, hothers q hq]
      exact h.hand q
  · by_cases hq : q = p
    · subst hq
      rw [Function.update_self]
      exact hround
    · rw [Function.update_of_ne hq]
      exact h.round q

/-- A player's view changes, but not the hand. -/
theorem Seated.to (h : Seated wall r V s) (hround : v.round = (V p).round)
    (hhand : v.hand = (V p).hand) : Seated wall r (Function.update V p v) s :=
  h.move (hround.trans (h.round p)) rfl rfl (fun _ _ => rfl) ((h.hand p).trans hhand.symm)

/-- A player's hand changes on the server, as it has in the view. -/
theorem Seated.update {g : Player → Player} (h : Seated wall r V s) (hround : v.round = r)
    (hhand : (g (s.players p)).bare = v.hand) :
    Seated wall r (Function.update V p v) (s.update p g) := by
  refine h.move hround rfl rfl (fun q hq => s.update_players_ne p q g hq) ?_
  rw [Game.update_players_self]
  exact hhand

/-- Nothing of a hand changes. -/
theorem Seated.same (h : Seated wall r V s) (hplayers : s'.players = s.players)
    (hwall : s'.shuffledMjs = s.shuffledMjs) (hwinner : s'.winner = s.winner) :
    Seated wall r V s' := by
  refine ⟨hwall.trans h.wall_eq, ?_, fun q => ?_, h.round⟩
  · rw [hwinner]
    exact h.winner
  · rw [hplayers]
    exact h.hand q

theorem Phases.to (h : Phases p phase V) (v : View) :
    Phases p v.phase (Function.update V p v) := by
  refine ⟨by rw [Function.update_self], fun q hq => ?_⟩
  rw [Function.update_of_ne hq]
  exact h.others q hq

theorem Phases.goes {phase' : Phase} (h : Phases p phase V) (hv : v.phase = phase') :
    Phases p phase' (Function.update V p v) := by
  subst hv
  exact h.to v

theorem Phases.speaks (h : Phases p phase V) (hne : phase ≠ .ganged) (q : Seat) :
    (V q).phase ≠ .ganged := by
  by_cases hq : q = p
  · subst hq
    rw [h.active]
    exact hne
  · rw [h.others q hq]
    nofun

theorem Phases.fit (h : Phases p phase V) (hne : phase ≠ .ganged) (hs : Seated wall r V s) :
    Fit G V s :=
  hs.fit fun hgang => absurd hgang.choose_spec (h.speaks hne _)

/-- The player who moves goes on to another phase. -/
theorem In.intro {phase' : Phase} (h : On (Function.update V p v) w)
    (hs : Seated wall r (Function.update V p v) s) (hphases : Phases p phase V)
    (hphase : v.phase = phase') : In wall r p phase' s w := by
  subst hphase
  exact ⟨_, h, hs, hphases.to v⟩

/-- Between two turns it does not matter whose turn it was. -/
theorem Phases.all (h : Phases p .round V) (q : Seat) : (V q).phase = .round := by
  by_cases hq : q = p
  · subst hq
    exact h.active
  · exact h.others q hq

theorem In.calm (h : In wall r p .round s w) : Calm wall r s w := by
  obtain ⟨V, hon, hs, hphases⟩ := h
  exact ⟨V, hon, hs, hphases.all⟩

theorem Calm.at (h : Calm wall r s w) (p : Seat) : In wall r p .round s w := by
  obtain ⟨V, hon, hs, hall⟩ := h
  exact ⟨V, hon, hs, hall p, fun q _ => hall q⟩

theorem Tabled.calm (h : Tabled wall r s w) : Calm wall r s w := by
  obtain ⟨V, hon, hs, hall, -⟩ := h
  exact ⟨V, hon, hs, hall⟩

theorem Counted.deck {i : Int} (h : Counted p s)
    (hi : 0 ≤ i ∧ i ≤ (s.players p).normalCapacity) :
    ((s.players p).deck (slotIndex i)).Real := by
  have hslot : slotIndex i = i.toNat := if_neg (by omega)
  have hroom := h.room
  have hlt : i.toNat < (s.players p).decks.length := by omega
  rw [hslot, Player.deck, List.getD_eq_getElem _ _ hlt]
  exact h.real _ (List.mem_take_iff_getElem.mpr ⟨i.toNat, by omega, rfl⟩)

-- =============================================================== lines that are said

/-- A line of the server. -/
theorem say {m : Message} (hphase : v.phase = phase) (hturn : phase.speaker = some .hub)
    (hwhole : WholeLine limit l) (hread : phase.read l = some m)
    (hafter : ({ v with phase := phase } : View).after m = some v') : plain.Says .hub v l v' := by
  subst hphase
  exact move hturn hwhole hread hafter

/-- Elsewhere than between two turns no line is about the tile on the
table. -/
theorem not_concerns_phase (h : (V p).phase ≠ .round) : ¬ Concerns (V p) l :=
  fun hc => h hc.1

/-- Whether a line is not about the tile on the table. -/
def unconcerned (l : Line) : Bool :=
  l.take 17 != str "(Discard) Player " && l != str "no one wants it.\n"
    && [Offer.hu, .gang, .pong, .eat].all fun c => l != c.line

theorem not_offers (h : unconcerned l = true) : ¬ Offers l := by
  intro hl
  simp only [unconcerned, Bool.and_eq_true, bne_iff_ne, List.all_eq_true] at h
  cases hl with
  | inl he => exact h.1.2 he
  | inr he =>
      obtain ⟨c, he⟩ := he
      refine h.2 c ?_ he
      cases c <;> simp

theorem not_concerns (h : unconcerned l = true) : ¬ Concerns v l := by
  intro hc
  cases hc.2 with
  | inl hoffers => exact not_offers h hoffers
  | inr hshows =>
      simp only [unconcerned, Bool.and_eq_true, bne_iff_ne] at h
      rw [discardOf_none h.1.1] at hshows
      cases hshows

/-- What is offered is the tile that is there. -/
theorem Offers.shown (h : Offers l) (v : View) : shown v l = v.table := by
  have hnone : discardOf l = none := by
    cases h with
    | inl he =>
        subst he
        exact discardOf_none (by decide)
    | inr he =>
        obtain ⟨c, he⟩ := he
        subst he
        cases c <;> exact discardOf_none (by decide)
  rw [Talk.shown, hnone]
  rfl

/-- A broadcast is about the tile it names. -/
theorem shown_broadcast {d : Seat} {m : Mj} (hm : m.Real) (hl : discardLine d m = some l)
    (v : View) : shown v l = m.bare := by
  rw [shown, discardOf_discardLine hm hl]
  rfl

/-- The texts of the announcements. -/
def announcements : List String :=
  [" quietly-ganged something...\n", " ganged it\n", " ponged it\n", " ate it\n"]

theorem announced : ∀ p : Seat, ∀ what ∈ announcements, WholeLine limit (announce p what)
    ∧ roundOf (announce p what) = some .announced ∧ unconcerned (announce p what) = true := by
  decide +kernel

-- --------------------------------------------------------------- to several players

/-- The views when some players have been told. -/
def told (ps : List Seat) (f : View → View) (V : Seat → View) (q : Seat) : View :=
  if q ∈ ps then f (V q) else V q

theorem update_told {ps : List Seat} {f : View → View} (V : Seat → View) (q : Seat) :
    Function.update (told ps f V) q (f (V q)) = told (q :: ps) f V := by
  funext a
  by_cases ha : a = q
  · subst ha
    simp [told]
  · simp [told, ha]

/-- One of several players. -/
theorem wp_tellOne {A : SOp → Game → Prop} {ps : List Seat} {f : View → View} {q : Seat} (h : On (told ps f V) w)
    (hs : Fit G (told ps f V) s) (hq : q ∉ ps) (hsay : plain.Says .hub (V q) l (f (V q)))
    (hl : Concerns (V q) l → s.discardedMj.bare = shown (V q) l) :
    wp guests A (Minds G) (writeMessageWaitAck q l s)
      (fun _ s' w' => s' = s ∧ On (told (q :: ps) f V) w') w := by
  have hself : told ps f V q = V q := if_neg hq
  have hline : plain.Says .hub (told ps f V q) l (f (V q)) := by
    rw [hself]
    exact hsay
  refine (wp_tell h hs hline ?_).mono fun _ s' w' h' => ?_
  · rw [hself]
    exact hl
  · rw [update_told] at h'
    exact h'

/-- A message that changes no hand and no phase. -/
theorem Fit.told {ps : List Seat} {f : View → View} (hs : Fit G V s)
    (hf : ∀ v, (f v).hand = v.hand ∧ (f v).phase = v.phase) : Fit G (told ps f V) s := by
  have hphase : ∀ q, (Talk.told ps f V q).phase = (V q).phase := by
    intro q
    unfold Talk.told
    split
    · exact (hf _).2
    · rfl
  have hhand : ∀ q, (Talk.told ps f V q).hand = (V q).hand := by
    intro q
    unfold Talk.told
    split
    · exact (hf _).1
    · rfl
  refine ⟨fun q hq => ?_, fun hgang => hs.mute ?_⟩
  · rw [hphase] at hq
    rw [hhand]
    exact hs.hand q hq
  · obtain ⟨q, hq⟩ := hgang
    rw [hphase] at hq
    exact ⟨q, hq⟩

theorem others (p : Seat) : ∀ q, q ∈ [p + 3, p + 2, p + 1] ↔ q ≠ p := by
  revert p
  decide

theorem others_nodup (p : Seat) : [p + 3, p + 2, p + 1].Nodup := by
  revert p
  decide

/-- A line to the three others. -/
theorem wp_toOthers {f : View → View} (h : On V w) (hs : Fit G V s)
    (hf : ∀ v, (f v).hand = v.hand ∧ (f v).phase = v.phase)
    (hsay : ∀ q, q ≠ p → plain.Says .hub (V q) l (f (V q)))
    (hl : ∀ v, Concerns v l → s.discardedMj.bare = shown v l) :
    wp guests (Informed G) (Minds G) (toOthers p l s)
      (fun _ s' w' => s' = s ∧ On (told [p + 3, p + 2, p + 1] f V) w') w := by
  have hsay' : ∀ q ∈ [p + 3, p + 2, p + 1], plain.Says .hub (V q) l (f (V q)) :=
    fun q hq => hsay q ((others p q).mp hq)
  have hnodup := others_nodup p
  simp only [List.nodup_cons, List.mem_cons, List.not_mem_nil, or_false, not_or] at hnodup
  obtain ⟨⟨h32, h31⟩, h21, -⟩ := hnodup
  have hstart : told [] f V = V := by
    funext q
    simp [told]
  rw [← hstart] at h
  refine wp_seq ((wp_tellOne h (hs.told hf) List.not_mem_nil (hsay' _ (by simp)) (hl _)).mono ?_)
  intro _ s₁ w₁ h₁
  obtain ⟨rfl, h₁⟩ := h₁
  refine wp_seq ((wp_tellOne h₁ (hs.told hf) (by simp [h21]) (hsay' _ (by simp))
    (hl _)).mono ?_)
  intro _ s₂ w₂ h₂
  obtain ⟨rfl, h₂⟩ := h₂
  exact wp_tellOne h₂ (hs.told hf) (by simp [h32, h31]) (hsay' _ (by simp)) (hl _)

/-- An announcement changes nothing. -/
theorem wp_announce {what : String} (h : On V w) (hs : Fit G V s)
    (hV : ∀ q, q ≠ p → (V q).phase = .round) (hwhat : what ∈ announcements) :
    wp guests (Informed G) (Minds G) (toOthers p (announce p what) s)
      (fun _ s' w' => s' = s ∧ On V w') w := by
  obtain ⟨hwhole, hread, hno⟩ := announced p what hwhat
  have hsay : ∀ q, q ≠ p → plain.Says .hub (V q) (announce p what) (V q) := by
    intro q hq
    refine say (hV q hq) rfl hwhole hread ?_
    have hsame : ({ V q with phase := .round } : View) = V q := by rw [← hV q hq]
    exact congrArg some hsame
  have hsame : told [p + 3, p + 2, p + 1] (fun v => v) V = V := by
    funext q
    simp [told]
  have htold := wp_toOthers (f := fun v => v) h hs (fun _ => ⟨rfl, rfl⟩) hsay
    fun _ hc => absurd hc (not_concerns hno)
  rw [hsame] at htold
  exact htold

-- ========================================================================= drawing

/-- `decks[i] = shuffled_mjs[take_index++]`. -/
theorem wp_takeInto {i : Nat} {Q : Unit → Game → Floor → Prop} (hthere : w.lost = false)
    (h : Q () (s.takeInto p i) w) :
    wp guests (Informed G) (Minds G) (takeInto p i s) Q w := by
  refine wp_get_seq (wp_seq (wp_mark hthere fun _ => ⟨trivial, ?_⟩))
  exact wp_seq (wp_mark hthere fun _ => ⟨trivial, wp_modify h⟩)

/-- `flowers[flower_index++] = decks[i]`. -/
theorem wp_layFlower {i : Nat} {Q : Unit → Game → Floor → Prop} (hthere : w.lost = false)
    (h : Q () (s.update p fun pl => pl.pushFlower (pl.deck i)) w) :
    wp guests (Informed G) (Minds G) (layFlower p i s) Q w :=
  wp_player_seq (wp_seq (wp_mark hthere fun _ => ⟨trivial, wp_modify h⟩))

/-- `print_deck` tells nobody anything. -/
theorem wp_printDeck {Q : Unit → Game → Floor → Prop} (hthere : w.lost = false) (h : Q () s w) :
    wp guests (Informed G) (Minds G) (printDeck p s) Q w :=
  wp_player_seq (wp_mark hthere fun _ => ⟨trivial, h⟩)

/-- The writes to the door. -/
theorem wp_accessDoor {n : Nat} {Q : Unit → Game → Floor → Prop} (hthere : w.lost = false)
    (h : Q () s w) : wp guests (Informed G) (Minds G) (accessDoor p n s) Q w := by
  refine wp_player_seq ((wp_forM_range (fun _ s' w' => s' = s ∧ w' = w) ?_ ⟨rfl, rfl⟩).mono ?_)
  · intro j s' w' _ hj
    obtain ⟨rfl, rfl⟩ := hj
    exact wp_mark hthere fun _ => ⟨trivial, rfl, rfl⟩
  · intro _ s' w' hw
    obtain ⟨rfl, rfl⟩ := hw
    exact h

/-- A tile put into a slot is the tile read off the line about it. -/
theorem setDeck_bare (pl : Player) (i : Nat) (m : Mj) : (pl.setDeck i m).bare
    = Client.putTile i ((pl.setDeck i m).deck i).type ((pl.setDeck i m).deck i).number pl.bare := by
  rw [Player.bare_setDeck, Client.putTile]
  by_cases hi : i < pl.decks.length
  · have hdeck : (pl.setDeck i m).deck i = m := by
      simp [Player.deck, Player.setDeck, hi]
    rw [hdeck, Player.bare_deck]
    rfl
  · have hset : ∀ x : Mj, pl.bare.setDeck i x = pl.bare := by
      intro x
      have hlen : pl.bare.decks.length ≤ i := by
        simp only [Player.bare, List.length_map]
        omega
      rw [Player.setDeck, List.set_eq_of_length_le hlen]
    rw [hset, hset]

/-- The next tile has small numbers. -/
theorem small_taken (hwall : s.shuffledMjs = wall.tiles) (p : Seat) (i : Nat) :
    Small (((s.takeInto p i).players p).deck i) := by
  have hnext : Small (s.shuffledMjs.getD s.takeIndex Mj.null) := by
    rw [hwall]
    by_cases hlt : s.takeIndex < wall.tiles.length
    · rw [List.getD_eq_getElem _ _ hlt]
      exact small_of_wall wall (List.getElem_mem hlt)
    · rw [List.getD_eq_default _ _ (by omega)]
      exact small_null
  have hplayer : (s.takeInto p i).players p
      = (s.players p).setDeck i (s.shuffledMjs.getD s.takeIndex Mj.null) :=
    Game.update_players_self s p fun pl =>
      pl.setDeck i (s.shuffledMjs.getD s.takeIndex Mj.null)
  rw [hplayer]
  by_cases hi : i < (s.players p).decks.length
  · have hdeck : ((s.players p).setDeck i (s.shuffledMjs.getD s.takeIndex Mj.null)).deck i
        = s.shuffledMjs.getD s.takeIndex Mj.null := by
      simp [Player.deck, Player.setDeck, hi]
    rw [hdeck]
    exact hnext
  · have hdeck : ((s.players p).setDeck i (s.shuffledMjs.getD s.takeIndex Mj.null)).deck i
        = Mj.null := by
      simp only [Player.deck, Player.setDeck]
      exact List.getD_eq_default _ _ (by rw [List.length_set]; omega)
    rw [hdeck]
    exact small_null

/-- A player has been told a tile, and has laid it down if it is a flower. -/
def Drawn (wall : Wall) (r : Nat) (p : Seat) (own : Bool) (s : Game) (w : Floor) : Prop :=
  ∃ V v, On (Function.update V p (v.drawn own)) w ∧ Seated wall r (Function.update V p v) s
    ∧ ∀ q, q ≠ p → (V q).phase = .round

/-- The next tile, as it is told. -/
theorem wp_tellDrawn {own : Bool} (h : In wall r p (.drawing own) s w) :
    wp guests (Informed G) (Minds G)
      (tellDrawn p (s.takeInto p (s.players p).normalCapacity))
      (fun _ s' w' => Drawn wall r p own s' w') w := by
  obtain ⟨V, hon, hs, hphases⟩ := h
  set s₁ := s.takeInto p (s.players p).normalCapacity with hs₁
  have hothers : ∀ q, q ≠ p → s₁.players q = s.players q :=
    fun q hq => Game.takeInto_players_ne s _ hq
  have hself : s₁.players p = (s.players p).setDeck (s.players p).normalCapacity s.next :=
    Game.takeInto_players_self s p _
  have hnc : (s₁.players p).normalCapacity = (s.players p).normalCapacity := by rw [hself]; rfl
  have hsmall : Small ((s₁.players p).deck (s₁.players p).normalCapacity) := by
    rw [hnc]
    exact small_taken hs.wall_eq p _
  generalize hm : (s₁.players p).deck (s₁.players p).normalCapacity = m at hsmall
  have hcap : (V p).hand.normalCapacity = (s.players p).normalCapacity := by
    rw [← hs.hand p]
    rfl
  have hput : (s₁.players p).bare = ((V p).put m.type m.number).hand := by
    show _ = Client.putTile (V p).hand.normalCapacity m.type m.number (V p).hand
    rw [← hm, hnc, hself, setDeck_bare, hs.hand p, hcap]
  have hfit : Fit G V s₁ := by
    refine ⟨fun q hq => ?_, fun hgang => absurd hgang.choose_spec (hphases.speaks nofun _)⟩
    have hne : q ≠ p := by
      intro he
      rw [he, hphases.active] at hq
      cases hq
    rw [hothers q hne]
    exact hs.hand q
  have hline : plain.Says .hub (V p) (tileLine m) (((V p).put m.type m.number).drawn own) :=
    say hphases.active rfl (whole_tileLine hsmall) (read_drawing own hsmall) rfl
  refine wp_player_seq ?_
  rw [show (s₁.players p).deck (s₁.players p).normalCapacity = m from hm]
  refine (wp_tell hon hfit hline (fun hc => absurd hc (not_concerns_phase ?_))).mono ?_
  · rw [hphases.active]
    nofun
  intro _ s₂ w₂ h₂
  obtain ⟨rfl, h₂⟩ := h₂
  refine ⟨V, (V p).put m.type m.number, h₂, ?_, hphases.others⟩
  exact hs.move (hs.round p) rfl rfl hothers hput

/-- `draw`. -/
theorem wp_draw {own : Bool} (h : In wall r p (.drawing own) s w) :
    wp guests (Informed G) (Minds G) (draw p s)
      (fun _ s' w' => In wall r p (.verdict own) s' w') w := by
  obtain ⟨V, hon, hs, hphases⟩ := h
  refine wp_seq (wp_mark hon.there fun _ => ⟨hon.not_mute (hphases.speaks nofun), ?_⟩)
  refine wp_player_seq (wp_seq (wp_takeInto hon.there ?_))
  refine wp_seq ((wp_tellDrawn ⟨V, hon, hs, hphases⟩).mono ?_)
  intro _ s₁ w₁ h₁
  refine wp_forever (fun s' w' => Drawn wall r p own s' w') ?_ h₁
  intro s₂ w₂ h₂
  obtain ⟨V, v, hon, hs, hothers⟩ := h₂
  have hhand : (s₂.players p).bare = v.hand := by
    have := hs.hand p
    rw [Function.update_self] at this
    exact this
  have hround : v.round = r := by
    have := hs.round p
    rw [Function.update_self] at this
    exact this
  have htype : (v.hand.deck v.hand.normalCapacity).type
      = ((s₂.players p).deck (s₂.players p).normalCapacity).type := by
    rw [← hhand, Player.bare_deck, Player.bare_normalCapacity, Mj.bare_type]
  refine wp_player_seq ?_
  unfold View.drawn at hon
  rw [htype] at hon
  by_cases hflower : ((s₂.players p).deck (s₂.players p).normalCapacity).type = flower
  · rw [if_pos hflower] at hon ⊢
    refine wp_seq (wp_layFlower hon.there ?_)
    set s₃ := s₂.update p fun pl => pl.pushFlower (pl.deck (s₂.players p).normalCapacity) with hs₃
    have hcap : (s₃.players p).normalCapacity = (s₂.players p).normalCapacity := by
      rw [hs₃, Game.update_players_self]
      rfl
    have hin : In wall r p (.drawing own) s₃ w₂ := by
      refine ⟨_, hon, ?_, ⟨by rw [Function.update_self], fun q hq => ?_⟩⟩
      · have hseated := hs.update (p := p) (v := { v with
            phase := .drawing own,
            hand := v.hand.pushFlower (v.hand.deck v.hand.normalCapacity) })
          (g := fun pl => pl.pushFlower (pl.deck (s₂.players p).normalCapacity)) hround ?_
        · rw [Function.update_idem] at hseated
          exact hseated
        · rw [Player.bare_pushFlower, ← Player.bare_deck, hhand, ← hhand]
          rfl
      · rw [Function.update_of_ne hq]
        exact hothers q hq
    refine wp_seq (wp_takeInto hon.there ?_)
    have htell := wp_tellDrawn (G := G) hin
    rw [hcap] at htell
    refine wp_seq (htell.mono ?_)
    intro _ s₄ w₄ h₄
    exact wp_pure h₄
  · rw [if_neg hflower] at hon ⊢
    refine wp_pure ⟨_, hon, ?_, ⟨by rw [Function.update_self], fun q hq => ?_⟩⟩
    · have hseated := hs.to (p := p) (v := { v with phase := .verdict own })
        (by rw [Function.update_self]) (by rw [Function.update_self])
      rw [Function.update_idem] at hseated
      exact hseated
    · rw [Function.update_of_ne hq]
      exact hothers q hq

-- =================================================================== the win test

/-- What is counted is real. -/
theorem real_of_counts {tiles : List Mj} (h : Informed G (.note (.counts tiles)) s) :
    (∀ m ∈ tiles, m.Real) ∧ ∀ q, (s.players q).normalCapacity < (s.players q).decks.length := by
  obtain ⟨ho, hknown⟩ := h
  obtain ⟨-, hknown⟩ := hknown ho
  refine ⟨hknown.real tiles rfl, fun q => ?_⟩
  obtain ⟨k, hk⟩ := hknown.books q
  exact capacity_lt hk

/-- `is_hu`. -/
theorem wp_isHu {own : Bool} (h : In wall r p (.verdict own) s w) :
    wp guests (Informed G) (Minds G) (isHu p s)
      (fun i s' w' => (i = 1 ∧ Calm wall r s' w')
        ∨ (i = 0 ∧ In wall r p (View.goOn own) s' w' ∧ Counted p s')) w := by
  obtain ⟨V, hon, hs, hphases⟩ := h
  have hfit : Fit G V s := hphases.fit nofun hs
  have hquiet : ∀ {l : Line}, ¬ Concerns (V p) l := by
    intro l
    refine not_concerns_phase ?_
    rw [hphases.active]
    nofun
  refine wp_player_seq (wp_seq (wp_mark hon.there fun hA => ⟨trivial, ?_⟩))
  have hcounted : Counted p s := ⟨(real_of_counts hA).1, (real_of_counts hA).2 p⟩
  split
  · have hline : plain.Says .hub (V p) (str "can hu\n") { V p with phase := .huAnswer own } :=
      say hphases.active rfl (by decide) rfl rfl
    have hasked : Fit G (Function.update V p { V p with phase := .huAnswer own }) s :=
      (hphases.to _).fit nofun (hs.to rfl rfl)
    refine wp_seq ((wp_ask hon hfit hline (fun hc => absurd hc hquiet) hasked rfl rfl rfl
      rfl).mono ?_)
    intro b s₁ w₁ h₁
    obtain ⟨rfl, h₁⟩ := h₁
    cases b with
    | true =>
        have hphases₁ := hphases.to { V p with phase := .round }
        refine wp_seq (wp_mark h₁.there fun _ => ⟨h₁.not_mute (hphases₁.speaks nofun), ?_⟩)
        refine wp_modify_seq (wp_pure (Or.inl ⟨rfl, _, h₁, ?_, hphases₁.all⟩))
        have hseated := hs.to (p := p) (v := { V p with phase := .round }) rfl rfl
        exact ⟨hseated.wall_eq, Or.inr ⟨p, rfl⟩, hseated.hand, hseated.round⟩
    | false =>
        exact wp_pure (Or.inr ⟨rfl, .intro h₁ (hs.to rfl rfl) hphases rfl, hcounted⟩)
  · have hline : plain.Says .hub (V p) (str "cannot hu\n")
        { V p with phase := View.goOn own } :=
      say hphases.active rfl (by decide) rfl rfl
    refine wp_seq ((wp_tell hon hfit hline fun hc => absurd hc hquiet).mono ?_)
    intro _ s₁ w₁ h₁
    obtain ⟨rfl, h₁⟩ := h₁
    exact wp_pure (Or.inr ⟨rfl, .intro h₁ (hs.to rfl rfl) hphases rfl, hcounted⟩)

-- ================================================================= the quiet gang

/-- A gang on the server and in the client. -/
theorem gangTiles_eq {t : Mj} {pl : Player}
    (hcount : 3 ≤ (faces (pl.decks.take pl.normalCapacity)).count t.face) :
    (gangTiles t pl).bare = Client.gangTiles t.bare pl.bare := by
  rw [← Client.gangTiles_bare, gangTiles, Client.gangTiles, layCopies_eq (by omega) hcount]

/-- A pong on the server and in the client. -/
theorem pongTiles_eq {t : Mj} {pl : Player}
    (hcount : 2 ≤ (faces (pl.decks.take pl.normalCapacity)).count t.face) :
    (pongTiles t pl).bare = Client.pongTiles t.bare pl.bare := by
  rw [← Client.pongTiles_bare, pongTiles, Client.pongTiles, layCopies_eq (by omega) hcount]

theorem Counted.hand (h : Counted p s) :
    ∀ m ∈ (s.players p).decks.take (s.players p).normalCapacity, m.Real :=
  fun m hm => h.real m (List.take_subset_take_left _ (Nat.le_succ _) hm)

/-- `quiet_gang` returns 0: with the tiles as they were, or to a player
nobody is to speak to. -/
theorem wp_quietGang (h : In wall r p .quietVerdict s w) (hcounted : Counted p s) :
    wp guests (Informed G) (Minds G) (quietGang p s)
      (fun i s' w' => i = 0 ∧ ((In wall r p .discarding s' w' ∧ Counted p s')
        ∨ (G ∧ In wall r p .ganged s' w'))) w := by
  obtain ⟨V, hon, hs, hphases⟩ := h
  have hfit : Fit G V s := hphases.fit nofun hs
  have hquiet : ∀ {l : Line}, ¬ Concerns (V p) l := by
    intro l
    refine not_concerns_phase ?_
    rw [hphases.active]
    nofun
  refine wp_player_seq (wp_seq (wp_mark hon.there fun hA => ⟨trivial, ?_⟩))
  split
  next hcan =>
    have hline : plain.Says .hub (V p) (str "You can quietly-gang.\n")
        { V p with phase := .quietAnswer } :=
      say hphases.active rfl (by decide) rfl rfl
    have hasked : Fit G (Function.update V p { V p with phase := .quietAnswer }) s :=
      (hphases.to _).fit nofun (hs.to rfl rfl)
    refine wp_seq ((wp_ask hon hfit hline (fun hc => absurd hc hquiet) hasked rfl rfl rfl
      rfl).mono ?_)
    intro b s₁ w₁ h₁
    obtain ⟨rfl, h₁⟩ := h₁
    cases b with
    | false =>
        exact wp_pure ⟨rfl, Or.inl ⟨.intro h₁ (hs.to rfl rfl) hphases rfl, hcounted⟩⟩
    | true =>
        have hself : w₁.state p = .turn { V p with
            phase := .ganged
            hand := Client.quietGangTiles (V p).hand
            table := Mj.null } := by
          rw [h₁.state, Function.update_self]
        refine wp_seq (wp_mark h₁.there fun hA => ⟨⟨_, hself, rfl⟩, ?_⟩)
        have hG : G := hA.1
        refine wp_seq (wp_accessDoor h₁.there ?_)
        -- the server lays down what the view has
        have hreal : ((s₁.players p).deck (s₁.players p).normalCapacity).Real := by
          have hdeck := hcounted.deck (i := (s₁.players p).normalCapacity) (by omega)
          rw [show slotIndex ((s₁.players p).normalCapacity : Int)
            = (s₁.players p).normalCapacity from if_neg (by omega)] at hdeck
          exact hdeck
        rw [countAt_countTable hcounted.hand hreal] at hcan
        have hhand : (quietGangTiles (s₁.players p)).bare = Client.quietGangTiles (V p).hand := by
          rw [quietGangTiles, gangTiles_eq hcan, ← hs.hand p]
          simp [Client.quietGangTiles]
        have hseated := hs.update (p := p) (g := quietGangTiles) (v := { V p with
            phase := .ganged
            hand := Client.quietGangTiles (V p).hand
            table := Mj.null }) (hs.round p) hhand
        have hphases₁ := hphases.to { V p with
            phase := .ganged
            hand := Client.quietGangTiles (V p).hand
            table := Mj.null }
        refine wp_modify_seq (wp_seq ((wp_announce h₁ (hseated.fit fun _ => hG) hphases₁.others
          (by decide)).mono ?_))
        intro _ s₂ w₂ h₂
        obtain ⟨rfl, h₂⟩ := h₂
        exact wp_modify_seq (wp_pure ⟨rfl, Or.inr ⟨hG, _, h₂, hseated.same rfl rfl rfl, hphases₁⟩⟩)
  next =>
    have hline : plain.Says .hub (V p) (str "You cannot quietly-gang.\n")
        { V p with phase := .discarding } :=
      say hphases.active rfl (by decide) rfl rfl
    refine wp_seq ((wp_tell hon hfit hline fun hc => absurd hc hquiet).mono ?_)
    intro _ s₁ w₁ h₁
    obtain ⟨rfl, h₁⟩ := h₁
    exact wp_pure ⟨rfl, Or.inl ⟨.intro h₁ (hs.to rfl rfl) hphases rfl, hcounted⟩⟩

-- ====================================================================== discarding

/-- An index is read off the line of a discard. -/
theorem heard_discarding (hphase : v.phase = .discarding) (h : plain.Says .peer v l v') :
    ∃ i, sscanf1 l = some i ∧ (0 ≤ i ∧ i < v.hand.normalCapacity + 1) ∧ v' = v.discard i := by
  obtain ⟨m, hread, hafter⟩ := said hphase h
  obtain ⟨i, hi, rfl⟩ := Option.map_eq_some_iff.mp hread
  have hif : (if 0 ≤ i ∧ i < v.hand.normalCapacity + 1 then
      some (({ v with phase := .discarding } : View).discard i) else none) = some v' := hafter
  split_ifs at hif with hrange
  cases hif
  exact ⟨i, hi, hrange, rfl⟩

/-- `broadcast_discard_mj`. -/
theorem wp_broadcastDiscardMj (hon : On V w) (hs : Seated wall r V s)
    (hall : ∀ q, (V q).phase = .round) (hreal : s.discardedMj.Real)
    (hself : s.discardedMj.bare = (V p).table) :
    wp guests (Informed G) (Minds G) (broadcastDiscardMj p s)
      (fun _ s' w' => Tabled wall r s' w') w := by
  obtain ⟨l, hl, hwhole, hhead, -⟩ := broadcast (p := p) hreal
  let f : View → View := fun v => { v with table := s.discardedMj.bare }
  have hsay : ∀ q, q ≠ p → plain.Says .hub (V q) l (f (V q)) := by
    intro q _
    refine say (m := .discarded s.discardedMj.bare) (hall q) rfl hwhole ?_ ?_
    · show roundOf l = _
      rw [roundOf_broadcast hhead, discardOf_discardLine hreal hl]
      rfl
    · have hsame : ({ V q with phase := .round, table := s.discardedMj.bare } : View)
          = f (V q) := by
        rw [← hall q]
      exact congrArg some hsame
  have hfit : Fit G V s := hs.fit fun hgang => by
    obtain ⟨q, hq⟩ := hgang
    rw [hall q] at hq
    cases hq
  refine wp_get_seq ?_
  rw [hl]
  refine (wp_toOthers (f := f) hon hfit (fun _ => ⟨rfl, rfl⟩) hsay
    fun v _ => (shown_broadcast hreal hl v).symm).mono ?_
  intro _ s₁ w₁ h₁
  obtain ⟨rfl, h₁⟩ := h₁
  refine ⟨_, h₁, ⟨hs.wall_eq, hs.winner, fun q => ?_, fun q => ?_⟩, fun q => ?_, ⟨fun q => ?_, hreal⟩⟩
  all_goals
    unfold told
    split
  · exact hs.hand q
  · exact hs.hand q
  · exact hs.round q
  · exact hs.round q
  · exact hall q
  · exact hall q
  · rfl
  next hq =>
    rw [others, not_not] at hq
    rw [hq]
    exact hself

/-- `discard`: a tile of the hand comes on the table, and everybody sees
it. A player nobody is to speak to is waited for in vain. -/
theorem wp_discard (h : (In wall r p .discarding s w ∧ Counted p s)
    ∨ (G ∧ In wall r p .ganged s w)) :
    wp guests (Informed G) (Minds G) (discard p s) (fun _ s' w' => Tabled wall r s' w') w := by
  cases h with
  | inr h =>
      obtain ⟨hG, V, hon, hs, hphases⟩ := h
      have hturn : (V p).phase.speaker = none := by
        rw [hphases.active]
        rfl
      refine wp_seq ((wp_hear hon (hs.fit fun _ => hG) (by rw [hturn]; nofun)
        (by rw [hphases.active]; nofun)).mono ?_)
      intro l s₁ w₁ h₁
      obtain ⟨-, v', hsaid, -⟩ := h₁
      have hno : (V p).phase.speaker = some .peer := hsaid.turn
      rw [hturn] at hno
      cases hno
  | inl h =>
      obtain ⟨⟨V, hon, hs, hphases⟩, hcounted⟩ := h
      refine wp_seq ((wp_hear hon (hphases.fit nofun hs) (by rw [hphases.active]; nofun)
        (by rw [hphases.active]; nofun)).mono ?_)
      intro l s₁ w₁ h₁
      obtain ⟨rfl, v', hsaid, h₁⟩ := h₁
      obtain ⟨i, hscan, hi, rfl⟩ := heard_discarding hphases.active hsaid
      rw [hscan]
      have hphases₁ := hphases.to ((V p).discard i)
      have hcap : (V p).hand.normalCapacity = (s₁.players p).normalCapacity := by
        rw [← hs.hand p]
        rfl
      rw [hcap] at hi
      have hrange : 0 ≤ i ∧ i ≤ (s₁.players p).normalCapacity := ⟨hi.1, by omega⟩
      have hslot : slotIndex i = i.toNat := if_neg (by omega)
      have htile : ((s₁.players p).deck (slotIndex i)).bare = ((V p).discard i).table := by
        rw [hslot, ← Player.bare_deck, hs.hand p]
        rfl
      have hstate : w₁.state p = .turn ((V p).discard i) := by
        rw [h₁.state, Function.update_self]
      refine wp_seq (wp_pure (wp_seq (wp_mark h₁.there fun _ =>
        ⟨⟨h₁.not_mute (hphases₁.speaks nofun), hrange, _, hstate, rfl, htile⟩, ?_⟩)))
      refine wp_player_seq (wp_seq (wp_mark h₁.there fun _ => ⟨trivial, ?_⟩))
      refine wp_seq (wp_mark h₁.there fun _ => ⟨trivial, wp_modify_seq (wp_modify_seq ?_)⟩)
      have hreal : ((s₁.players p).deck (slotIndex i)).Real := hcounted.deck hrange
      have hhand : (discardTile i (s₁.players p)).bare = ((V p).discard i).hand := by
        rw [discardTile_bare, hs.hand p]
        rfl
      have hset : Seated wall r V (s₁.setDiscarded ((s₁.players p).deck (slotIndex i))) :=
        hs.same rfl rfl rfl
      refine wp_broadcastDiscardMj h₁ (hset.update (hs.round p) hhand) hphases₁.all ?_ ?_
      · exact hreal.congr rfl
      · rw [Function.update_self, ← htile]
        rfl

-- ========================================================================= a turn

/-- `draw_n_discard`. -/
theorem wp_drawNDiscard (h : Calm wall r s w) :
    wp guests (Informed G) (Minds G) (drawNDiscard p s)
      (fun i s' w' => (i = 1 ∧ Calm wall r s' w') ∨ (i = 0 ∧ Tabled wall r s' w')) w := by
  obtain ⟨V, hon, hs, hphases⟩ := h.at p
  have hline : plain.Says .hub (V p) (str "your turn\n") { V p with phase := .drawing true } :=
    say hphases.active rfl (by decide) rfl rfl
  refine wp_seq ((wp_tell hon (hphases.fit nofun hs) hline fun hc =>
    absurd hc (not_concerns (by decide))).mono ?_)
  intro _ s₁ w₁ h₁
  obtain ⟨rfl, h₁⟩ := h₁
  have hin : In wall r p (.drawing true) s₁ w₁ := .intro h₁ (hs.to rfl rfl) hphases rfl
  refine wp_seq ((wp_draw hin).mono ?_)
  intro _ s₂ w₂ h₂
  refine wp_seq ((wp_isHu h₂).mono ?_)
  intro i s₃ w₃ h₃
  cases h₃ with
  | inl hwon =>
      obtain ⟨rfl, hcalm⟩ := hwon
      exact wp_pure (Or.inl ⟨rfl, hcalm⟩)
  | inr h₃ =>
      obtain ⟨rfl, h₃, hcounted⟩ := h₃
      have hstart : In wall r p .quietVerdict s₃ w₃ ∧ Counted p s₃ := ⟨h₃, hcounted⟩
      have hthere : w₃.lost = false := by
        obtain ⟨V, hon, -⟩ := h₃
        exact hon.there
      refine wp_seq (wp_printDeck hthere ?_)
      refine wp_seq (wp.mono (Q := fun won s' w' => won = false
          ∧ ((In wall r p .discarding s' w' ∧ Counted p s') ∨ (G ∧ In wall r p .ganged s' w')))
        (wp_forever (fun s' w' => In wall r p .quietVerdict s' w' ∧ Counted p s') ?_ hstart) ?_)
      · -- it returns 0, so the loop is left at once
        intro s₄ w₄ h₄
        refine wp_seq ((wp_quietGang h₄.1 h₄.2).mono ?_)
        intro i s₅ w₅ h₅
        obtain ⟨rfl, h₅⟩ := h₅
        exact wp_pure ⟨rfl, h₅⟩
      · intro won s₄ w₄ h₄
        obtain ⟨rfl, h₄⟩ := h₄
        refine wp_seq ((wp_discard h₄).mono fun _ s₅ w₅ h₅ => ?_)
        have hthere : w₅.lost = false := by
          obtain ⟨V, hon, -⟩ := h₅
          exact hon.there
        exact wp_seq (wp_printDeck hthere (wp_pure (Or.inr ⟨rfl, h₅⟩)))

-- ======================================================================== the claims

/-- How a block of a pass ends. -/
def Passed (wall : Wall) (r : Nat) : Option Outcome → Game → Floor → Prop
  | some (.done _ _) => Calm wall r
  | _ => Tabled wall r

/-- The tail of a claim. -/
theorem wp_huOrDiscard (h : In wall r p (.verdict false) s w) :
    wp guests (Informed G) (Minds G) (huOrDiscard p s) (Passed wall r) w := by
  refine wp_seq ((wp_isHu h).mono ?_)
  intro i s₁ w₁ h₁
  cases h₁ with
  | inl hwon =>
      obtain ⟨rfl, hcalm⟩ := hwon
      exact wp_pure hcalm
  | inr h₁ =>
      obtain ⟨rfl, h₁, hcounted⟩ := h₁
      exact wp_seq ((wp_discard (Or.inl ⟨h₁, hcounted⟩)).mono fun _ s₂ w₂ h₂ => wp_pure h₂)

/-- The lines of the offers. -/
theorem offered (c : Offer) : WholeLine limit c.line ∧ roundOf c.line = some (.offer c) := by
  cases c <;> decide

/-- An offer, and the answer: it is taken, or all is as before. -/
theorem wp_offer (c : Offer) (hon : On V w) (hs : Seated wall r V s)
    (hall : ∀ q, (V q).phase = .round) (hsees : Sees V s) :
    wp guests (Informed G) (Minds G) (ask p c.line s) (fun b s' w' => s' = s ∧ match b with
      | true => On (Function.update V p ((V p).claim c)) w'
      | false => Tabled wall r s' w') w := by
  have hphases : Phases p .round V := ⟨hall p, fun q _ => hall q⟩
  have hline : plain.Says .hub (V p) c.line { V p with phase := .offered c } :=
    say hphases.active rfl (offered c).1 (offered c).2 rfl
  have hasked : Fit G (Function.update V p { V p with phase := .offered c }) s :=
    (hphases.to _).fit nofun (hs.to rfl rfl)
  have hclaim : ({ V p with phase := .offered c } : View).after .yes = some ((V p).claim c) := by
    have hsame : ({ V p with phase := .offered c } : View).claim c = (V p).claim c := by
      cases c <;> rfl
    exact congrArg some hsame
  have hshown : s.discardedMj.bare = shown (V p) c.line :=
    (hsees.table p).trans (Offers.shown (Or.inr ⟨c, rfl⟩) (V p)).symm
  refine (wp_ask hon (hphases.fit nofun hs) hline (fun _ => hshown) hasked rfl rfl hclaim
    rfl).mono ?_
  intro b s₁ w₁ h₁
  obtain ⟨rfl, h₁⟩ := h₁
  cases b with
  | true => exact ⟨rfl, h₁⟩
  | false =>
      have hback : Phases p .round (Function.update V p { V p with phase := .round }) :=
        hphases.goes rfl
      refine ⟨rfl, _, h₁, hs.to rfl rfl, hback.all, ⟨fun q => ?_, hsees.real⟩⟩
      by_cases hq : q = p
      · subst hq
        rw [Function.update_self]
        exact hsees.table q
      · rw [Function.update_of_ne hq]
        exact hsees.table q

/-- The mark of a count of a hand and the discard. -/
theorem wp_claimTiles {Q : Unit → Game → Floor → Prop} (hthere : w.lost = false)
    (h : (∀ m ∈ claimTiles (s.players p) s, m.Real) → Q () s w) :
    wp guests (Informed G) (Minds G)
      ((Io.note (.counts (claimTiles (s.players p) s)) : Server Unit) s) Q w :=
  wp_mark hthere fun hA => ⟨trivial, h (real_of_counts hA).1⟩

/-- A block of Case 0. -/
theorem wp_huClaim {d k : Seat} (h : Tabled wall r s w) :
    wp guests (Informed G) (Minds G) (huClaim d k s) (Passed wall r) w := by
  obtain ⟨V, hon, hs, hall, hsees⟩ := h
  refine wp_get_seq (wp_player_seq (wp_seq (wp_claimTiles hon.there fun _ => ?_)))
  split
  · refine wp_seq ((wp_offer .hu hon hs hall hsees).mono ?_)
    intro b s₁ w₁ h₁
    obtain ⟨rfl, h₁⟩ := h₁
    cases b with
    | false => exact wp_pure h₁
    | true =>
        have hphases : Phases (d + k) .round V := ⟨hall _, fun q _ => hall q⟩
        have hphases₁ : Phases (d + k) .round
            (Function.update V (d + k) ((V (d + k)).claim .hu)) := hphases.goes rfl
        have hseated : Seated wall r (Function.update V (d + k) ((V (d + k)).claim .hu)) s₁ :=
          hs.to rfl rfl
        refine wp_seq (wp_mark h₁.there fun _ => ⟨h₁.not_mute (hphases₁.speaks nofun), ?_⟩)
        refine wp_modify_seq (wp_pure ⟨_, h₁, ?_, hphases₁.all⟩)
        exact ⟨hseated.wall_eq, Or.inr ⟨d + k, rfl⟩, hseated.hand, hseated.round⟩
  · exact wp_pure ⟨V, hon, hs, hall, hsees⟩

/-- A claim that lays tiles down: the others are told, the tile is off the
table. -/
theorem wp_taken {c : Claim} {n : Nat} {g : Player → Player} {what : String} {Q : Option Outcome →
    Game → Floor → Prop} {rest : Server (Option Outcome)}
    (hon : On (Function.update V p v) w) (hs : Seated wall r (Function.update V p v) (s.update p g))
    (hphases : Phases p .round V) (hphase : v.phase = phase) (hne : phase ≠ .ganged)
    (hc : c ≠ .quietGang) (hwhat : what ∈ announcements)
    (hrest : ∀ s w, In wall r p phase s w → wp guests (Informed G) (Minds G) (rest s) Q w) :
    wp guests (Informed G) (Minds G) ((do
      Io.note (.accept c p)
      accessDoor p n
      update p g
      toOthers p (announce p what)
      Prog.modify Game.clearDiscarded
      rest : Server (Option Outcome)) s) Q w := by
  have hphases₁ := hphases.to v
  have hspeaks : ¬ Mute w := hon.not_mute (hphases₁.speaks (by rw [hphase]; exact hne))
  have hmark : Fits G (.note (.accept c p)) s w := by
    cases c with
    | quietGang => exact absurd rfl hc
    | _ => exact hspeaks
  refine wp_seq (wp_mark hon.there fun _ => ⟨hmark, ?_⟩)
  refine wp_seq (wp_accessDoor hon.there (wp_modify_seq ?_))
  have hfit : Fit G (Function.update V p v) (s.update p g) :=
    hphases₁.fit (by rw [hphase]; exact hne) hs
  refine wp_seq ((wp_announce hon hfit hphases₁.others hwhat).mono ?_)
  intro _ s₁ w₁ h₁
  obtain ⟨rfl, h₁⟩ := h₁
  exact wp_modify_seq (hrest _ _ (.intro h₁ (hs.same rfl rfl rfl) hphases hphase))

/-- The copies of the discard in a hand that has been counted. -/
theorem count_of_claimTiles {pl : Player} {n : Nat} (hreal : ∀ m ∈ claimTiles pl s, m.Real)
    (hcount : countAt (countTable (pl.decks.take pl.normalCapacity))
      (tileIndex s.discardedMj) ≥ n) :
    n ≤ (faces (pl.decks.take pl.normalCapacity)).count s.discardedMj.face := by
  rw [countAt_countTable (fun m hm => hreal m (List.mem_append_left _ hm))
    (hreal _ (List.mem_append_right _ (List.mem_singleton_self _)))] at hcount
  exact hcount

/-- A block of Case 1 (槓). -/
theorem wp_gangClaim {d k : Seat} (h : Tabled wall r s w) :
    wp guests (Informed G) (Minds G) (gangClaim d k s) (Passed wall r) w := by
  obtain ⟨V, hon, hs, hall, hsees⟩ := h
  refine wp_get_seq (wp_player_seq (wp_seq (wp_claimTiles hon.there fun hreal => ?_)))
  split
  next hcan =>
    have hcount := count_of_claimTiles hreal (of_decide_eq_true hcan)
    refine wp_seq ((wp_offer .gang hon hs hall hsees).mono ?_)
    intro b s₁ w₁ h₁
    obtain ⟨rfl, h₁⟩ := h₁
    cases b with
    | false => exact wp_pure h₁
    | true =>
        have hphases : Phases (d + k) .round V := ⟨hall _, fun q _ => hall q⟩
        have hhand : (gangTiles s₁.discardedMj (s₁.players (d + k))).bare
            = ((V (d + k)).claim .gang).hand := by
          rw [gangTiles_eq hcount, hs.hand, hsees.table (d + k)]
          rfl
        refine wp_taken h₁ (hs.update (hs.round _) hhand) hphases rfl nofun nofun (by decide) ?_
        intro s₂ w₂ h₂
        exact wp_seq ((wp_draw h₂).mono fun _ s₃ w₃ h₃ => wp_huOrDiscard h₃)
  · exact wp_pure ⟨V, hon, hs, hall, hsees⟩

/-- A block of Case 2 (碰). -/
theorem wp_pongClaim {d k : Seat} (h : Tabled wall r s w) :
    wp guests (Informed G) (Minds G) (pongClaim d k s) (Passed wall r) w := by
  obtain ⟨V, hon, hs, hall, hsees⟩ := h
  refine wp_get_seq (wp_player_seq (wp_seq (wp_claimTiles hon.there fun hreal => ?_)))
  split
  next hcan =>
    have hcount := count_of_claimTiles hreal (of_decide_eq_true hcan)
    refine wp_seq ((wp_offer .pong hon hs hall hsees).mono ?_)
    intro b s₁ w₁ h₁
    obtain ⟨rfl, h₁⟩ := h₁
    cases b with
    | false => exact wp_pure h₁
    | true =>
        have hphases : Phases (d + k) .round V := ⟨hall _, fun q _ => hall q⟩
        have hhand : (pongTiles s₁.discardedMj (s₁.players (d + k))).bare
            = ((V (d + k)).claim .pong).hand := by
          rw [pongTiles_eq hcount, hs.hand, hsees.table (d + k)]
          rfl
        refine wp_taken h₁ (hs.update (hs.round _) hhand) hphases rfl nofun nofun (by decide) ?_
        intro s₂ w₂ h₂
        exact wp_huOrDiscard h₂
  · exact wp_pure ⟨V, hon, hs, hall, hsees⟩

-- ------------------------------------------------------------------------- eating

theorem heard_eatAnswer (hphase : v.phase = .eatAnswer) (h : plain.Says .peer v l v') :
    v' = { v with phase := .eatVerdict (sscanf2 l) } := by
  obtain ⟨m, hread, hafter⟩ := said hphase h
  cases hread
  exact (Option.some.inj hafter).symm

/-- The loop of the eat block: it ends with the tiles laid down. -/
theorem wp_eatLoop (hon : On (Function.update V p { V p with phase := .eating }) w)
    (hs : Seated wall r V s) (hphases : Phases p .round V) (hsees : Sees V s) :
    wp guests (Informed G) (Minds G) (eatLoop p s)
      (fun _ s' w' => In wall r p (.verdict false) s' w') w := by
  refine wp_forever (fun s' w' => s' = s
    ∧ On (Function.update V p { V p with phase := .eating }) w') ?_ ⟨rfl, hon⟩
  intro s₁ w₁ h₁
  obtain ⟨rfl, h₁⟩ := h₁
  -- in whatever phase the player is, the hand is the same
  have hfit : ∀ phase, phase ≠ .ganged → Fit G (Function.update V p { V p with phase := phase }) s₁ :=
    fun phase hne => (hphases.goes rfl).fit hne (hs.to rfl rfl)
  have hself : ∀ phase, Function.update V p { V p with phase := phase } p
      = { V p with phase := phase } := fun _ => Function.update_self ..
  have hquiet : ∀ {phase : Phase} {l : Line}, phase ≠ .round →
      ¬ Concerns (Function.update V p { V p with phase := phase } p) l := by
    intro phase l hne
    refine not_concerns_phase ?_
    rw [hself]
    exact hne
  have hprompt : plain.Says .hub (Function.update V p { V p with phase := .eating } p)
      (str "Type which 2 of the mjs you want to eat with: \n") { V p with phase := .eatAnswer } := by
    rw [hself]
    exact move rfl (by decide) rfl rfl
  refine wp_seq ((wp_tell h₁ (hfit _ nofun) hprompt fun hc => absurd hc (hquiet nofun)).mono ?_)
  intro _ s₂ w₂ h₂
  obtain ⟨rfl, h₂⟩ := h₂
  rw [Function.update_idem] at h₂
  refine wp_seq ((wp_hear (p := p) h₂ (hfit _ nofun) (by rw [hself]; nofun)
    (by rw [hself]; nofun)).mono ?_)
  intro l s₃ w₃ h₃
  obtain ⟨rfl, v', hsaid, h₃⟩ := h₃
  rw [hself] at hsaid
  obtain rfl := heard_eatAnswer rfl hsaid
  rw [Function.update_idem] at h₃
  refine wp_seq (wp_mark h₃.there fun hchosen => ⟨trivial, ?_⟩)
  refine wp_seq (wp_mark h₃.there fun _ => ⟨trivial, ?_⟩)
  refine wp_seq (wp_mark h₃.there fun _ => ⟨trivial, wp_get_seq ?_⟩)
  -- both indices are there
  obtain ⟨i, j, hscan⟩ : ∃ i j, sscanf2 l = (some i, some j) := by
    obtain ⟨⟨hi, -⟩, hj, -⟩ := hchosen.1
    cases hscan : sscanf2 l with
    | mk i j =>
        rw [hscan] at hi hj
        cases i with
        | none => exact absurd hi (by simp)
        | some i =>
            cases j with
            | none => exact absurd hj (by simp)
            | some j => exact ⟨i, j, rfl⟩
  rw [hscan] at h₃ ⊢
  simp only [Option.getD_some]
  split
  · have hyes : plain.Says .hub
        (Function.update V p { V p with phase := .eatVerdict (some i, some j) } p)
        (str "eatable.\n") ((V p).eat i j) := by
      rw [hself]
      exact move rfl (by decide) rfl rfl
    refine wp_seq ((wp_tell h₃ (hfit _ nofun) hyes fun hc => absurd hc (hquiet nofun)).mono ?_)
    intro _ s₄ w₄ h₄
    obtain ⟨rfl, h₄⟩ := h₄
    rw [Function.update_idem] at h₄
    refine wp_seq (wp_mark h₄.there fun _ => ⟨trivial, ?_⟩)
    refine wp_seq (wp_accessDoor h₄.there (wp_modify_seq (wp_pure ?_)))
    refine .intro h₄ (hs.update (hs.round p) ?_) hphases rfl
    rw [eatTiles_bare, ← eatTemp_bare, hs.hand p, hsees.table p]
    rfl
  · have hno : plain.Says .hub
        (Function.update V p { V p with phase := .eatVerdict (some i, some j) } p)
        (str "invalid choice.\n") { V p with phase := .eating } := by
      rw [hself]
      exact move rfl (by decide) rfl rfl
    refine wp_seq ((wp_tell h₃ (hfit _ nofun) hno fun hc => absurd hc (hquiet nofun)).mono ?_)
    intro _ s₄ w₄ h₄
    obtain ⟨rfl, h₄⟩ := h₄
    rw [Function.update_idem] at h₄
    exact wp_seq (wp_mark h₄.there fun _ => ⟨trivial, wp_pure ⟨rfl, h₄⟩⟩)

/-- The block of Case 3. -/
theorem wp_eatClaim {d : Seat} (h : Tabled wall r s w) :
    wp guests (Informed G) (Minds G) (eatClaim d s) (Passed wall r) w := by
  obtain ⟨V, hon, hs, hall, hsees⟩ := h
  refine wp_get_seq (wp_player_seq (wp_seq (wp_claimTiles hon.there fun _ => ?_)))
  split
  · refine wp_seq ((wp_offer .eat hon hs hall hsees).mono ?_)
    intro b s₁ w₁ h₁
    obtain ⟨rfl, h₁⟩ := h₁
    cases b with
    | false => exact wp_pure h₁
    | true =>
        have hphases : Phases (d + 1) .round V := ⟨hall _, fun q _ => hall q⟩
        have hphases₁ : Phases (d + 1) .eating
            (Function.update V (d + 1) { V (d + 1) with phase := .eating }) := hphases.goes rfl
        refine wp_seq (wp_mark h₁.there fun _ => ⟨h₁.not_mute (hphases₁.speaks nofun), ?_⟩)
        refine wp_seq ((wp_eatLoop h₁ hs hphases hsees).mono ?_)
        intro _ s₂ w₂ h₂
        obtain ⟨V₂, hon₂, hs₂, hphases₂⟩ := h₂
        refine wp_seq ((wp_announce hon₂ (hphases₂.fit nofun hs₂) hphases₂.others
          (by decide)).mono ?_)
        intro _ s₃ w₃ h₃
        obtain ⟨rfl, h₃⟩ := h₃
        exact wp_modify_seq (wp_huOrDiscard ⟨V₂, h₃, hs₂.same rfl rfl rfl, hphases₂⟩)
  · exact wp_pure ⟨V, hon, hs, hall, hsees⟩

-- ==================================================================== the reaction

/-- Case 4. -/
theorem wp_noOneWantsIt {d : Seat} (h : Tabled wall r s w) :
    wp guests (Informed G) (Minds G) (noOneWantsIt d s)
      (fun o s' w' => Passed wall r (some o) s' w') w := by
  obtain ⟨V, hon, hs, hall, hsees⟩ := h
  have hphases : Phases d .round V := ⟨hall d, fun q _ => hall q⟩
  have hline : plain.Says .hub (V d) (str "no one wants it.\n")
      { V d with phase := .round, hand := (V d).hand.pushSea (V d).table } :=
    say hphases.active rfl (by decide) rfl rfl
  have hshown : s.discardedMj.bare = shown (V d) (str "no one wants it.\n") :=
    (hsees.table d).trans (Offers.shown (Or.inl rfl) (V d)).symm
  refine wp_seq ((wp_tell hon (hphases.fit nofun hs) hline fun _ => hshown).mono ?_)
  intro _ s₁ w₁ h₁
  obtain ⟨rfl, h₁⟩ := h₁
  refine wp_get_seq (wp_seq (wp_mark h₁.there fun _ => ⟨trivial, ?_⟩))
  have hhand : ((s₁.players d).pushSea s₁.discardedMj).bare
      = (V d).hand.pushSea (V d).table := by
    rw [Player.bare_pushSea, hs.hand, hsees.table]
  have hseated := hs.update (p := d) (g := fun pl => pl.pushSea s₁.discardedMj)
    (v := { V d with phase := .round, hand := (V d).hand.pushSea (V d).table }) (hs.round d) hhand
  have hback : Phases d .round (Function.update V d
      { V d with phase := .round, hand := (V d).hand.pushSea (V d).table }) := hphases.goes rfl
  exact wp_modify_seq (wp_modify_seq (wp_pure ⟨_, h₁, hseated.same rfl rfl rfl, hback.all⟩))

/-- Blocks in order. -/
theorem wp_firstOf {d : Seat} {blocks : List (Server (Option Outcome))}
    (hblocks : ∀ b ∈ blocks, ∀ s w, Tabled wall r s w →
      wp guests (Informed G) (Minds G) (b s) (Passed wall r) w) :
    ∀ {s w}, Tabled wall r s w → wp guests (Informed G) (Minds G)
      (firstOf blocks (noOneWantsIt d) s) (fun o s' w' => Passed wall r (some o) s' w') w := by
  induction blocks with
  | nil => exact fun h => wp_noOneWantsIt h
  | cons b blocks ih =>
      intro s w h
      refine wp_seq ((hblocks b (List.mem_cons_self ..) s w h).mono fun o s' w' ho => ?_)
      cases o with
      | none => exact ih (fun b hb => hblocks b (List.mem_cons_of_mem _ hb)) ho
      | some o => exact wp_pure ho

/-- One pass of `othersreaction`. -/
theorem wp_reaction {d : Seat} (h : Tabled wall r s w) :
    wp guests (Informed G) (Minds G) (reaction d s)
      (fun o s' w' => Passed wall r (some o) s' w') w := by
  obtain ⟨V, hon, hs, hall, hsees⟩ := h
  have hspeaks : ∀ q, (V q).phase ≠ .ganged := by
    intro q
    rw [hall q]
    nofun
  refine wp_seq (wp_mark hon.there fun _ => ⟨hon.not_mute hspeaks, ?_⟩)
  refine wp_firstOf ?_ ⟨V, hon, hs, hall, hsees⟩
  intro b hb s w h
  simp only [List.mem_cons, List.not_mem_nil, or_false] at hb
  rcases hb with rfl | rfl | rfl | rfl | rfl | rfl | rfl | rfl | rfl | rfl
  · exact wp_huClaim h
  · exact wp_huClaim h
  · exact wp_huClaim h
  · exact wp_gangClaim h
  · exact wp_gangClaim h
  · exact wp_gangClaim h
  · exact wp_pongClaim h
  · exact wp_pongClaim h
  · exact wp_pongClaim h
  · exact wp_eatClaim h

/-- `othersreaction`. -/
theorem wp_othersreaction {d : Seat} (h : Tabled wall r s w) :
    wp guests (Informed G) (Minds G) (othersreaction d s)
      (fun _ s' w' => Calm wall r s' w') w := by
  refine wp_iterate (fun _ s w => Tabled wall r s w) ?_ h
  intro x s w h
  refine wp_seq ((wp_reaction h).mono fun o s' w' ho => ?_)
  cases o with
  | recurse d' => exact wp_pure ho
  | done i d' => exact wp_pure ho

/-- The turns of a round. -/
theorem wp_turns (h : Calm wall r s w) :
    wp guests (Informed G) (Minds G) (turns p s) (fun _ s' w' => Calm wall r s' w') w := by
  refine wp_iterate (fun _ s w => Calm wall r s w) ?_ h
  intro p s w h
  refine wp_get_seq ?_
  split
  · refine wp_seq ((wp_drawNDiscard h).mono fun i s₁ w₁ h₁ => ?_)
    cases h₁ with
    | inl hwon =>
        obtain ⟨rfl, hcalm⟩ := hwon
        exact wp_pure hcalm
    | inr htabled =>
        obtain ⟨rfl, htabled⟩ := htabled
        refine wp_seq ((wp_othersreaction htabled).mono fun x s₂ w₂ h₂ => ?_)
        split
        · exact wp_pure h₂
        · refine wp_get_seq ?_
          split
          · exact wp_pure h₂
          · exact wp_pure h₂
  · exact wp_pure h

end Mahjong.Talk
