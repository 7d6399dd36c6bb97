/-
The deal: sixteen tiles to each player, the flowers replaced, the hands
sorted and sent.

Through the deal every player holds a number of tiles, real ones or
flowers, at the front of the array (`Dealt`), and the stock is the tile
set. The cursor is where the stock says (`Dealing.takeIndex_eq`): as
there are eight flowers, the deal ends at 72 at the latest, so it never
reads past the wall.
-/
import Mahjong.Proofs.Stock
import Mahjong.Proofs.Rules

namespace Mahjong.Server

open Process CString

/-- Nobody has won, the winner is unset and no win is marked; and the
books of all players are in order. -/
structure Undecided (s : Game) (w : Log) : Prop where
  winner : s.winner = -1
  declares : Declares w (-1)
  books : ∀ q, ∃ k, Books (s.players q) k

theorem Undecided.log {s : Game} {w : Log} {o : SOp} {r : o.Res}
    (h : Undecided s w) (ho : ¬ IsWin o) : Undecided s (⟨o, r⟩ :: w) :=
  ⟨h.winner, h.declares.cons ho, h.books⟩

theorem Undecided.relog {s : Game} {w w' : Log} (h : Undecided s w)
    (hw : Declares w' (-1)) : Undecided s w' :=
  ⟨h.winner, hw, h.books⟩

theorem Undecided.update {s : Game} {w : Log} (h : Undecided s w) {p : Seat}
    {g : Player → Player}
    (hb : ∀ k, Books (s.players p) k → ∃ k', Books (g (s.players p)) k') :
    Undecided (s.update p g) w := by
  refine ⟨h.winner, h.declares, fun q => ?_⟩
  by_cases hq : q = p
  · rw [hq, Game.update_players_self]
    obtain ⟨k, hk⟩ := h.books p
    exact hb k hk
  · rw [Game.update_players_ne _ _ _ _ hq]
    exact h.books q

theorem Undecided.setDiscarded {s : Game} {w : Log} (h : Undecided s w) (m : Mj) :
    Undecided (s.setDiscarded m) w :=
  ⟨h.winner, h.declares, h.books⟩

theorem Undecided.pushFlower {s : Game} {w : Log} (h : Undecided s w) {p : Seat} {i : Nat}
    (hi : ((s.players p).deck i).type = flower) (hroom : (s.players p).flowerIndex < 8) :
    Undecided (s.update p fun pl => pl.pushFlower (pl.deck i)) w :=
  h.update fun k hk => ⟨k, Books.pushFlower hk hi hroom⟩

-- =========================================================== while dealing

/-- A player who holds `n` tiles, flowers among them perhaps. -/
structure Dealt (p : Player) (n : Nat) : Prop where
  books : Books p 0
  seaIndex : p.seaIndex = 0
  hand : ∃ h rest, p.decks = h ++ rest ∧ h.length = n ∧ Nulls rest
    ∧ ∀ m ∈ h, m.Real ∨ m.type = flower

/-- The table while the players hold `c` tiles. -/
structure Dealing (wall : Wall) (c : Seat → Nat) (s : Game) (w : Log) : Prop where
  wall_eq : s.shuffledMjs = wall.tiles
  winner : s.winner = -1
  noDiscard : s.discardedMj.isNull = true
  takeIndex_le : s.takeIndex ≤ 144
  stock : s.stock = (tileSet : Multiset Face)
  players : ∀ q, Dealt (s.players q) (c q)
  declares : Declares w (-1)

theorem Dealing.undecided {wall : Wall} {c : Seat → Nat} {s : Game} {w : Log}
    (h : Dealing wall c s w) : Undecided s w :=
  ⟨h.winner, h.declares, fun q => ⟨0, (h.players q).books⟩⟩

theorem not_null_of_dealt {m : Mj} (h : m.Real ∨ m.type = flower) :
    m.isNull = false := by
  rcases h with h | h
  · exact h.not_null
  · simp [Mj.isNull, h]

/-- A player's share has a tile for each slot and each flower. -/
theorem Dealt.card {p : Player} {n : Nat} (h : Dealt p n) :
    Multiset.card p.stock = n + p.flowerIndex := by
  obtain ⟨hand, rest, hd, hlen, hrest, hreal⟩ := h.hand
  have hdoor : p.doorTiles = [] := by
    rw [Player.doorTiles, Nat.le_zero.mp h.books.doorIndex_le, List.take_zero]
  have hsea : p.seaTiles = [] := by
    rw [Player.seaTiles, h.seaIndex, List.take_zero]
  have hflowers : p.flowerTiles.length = p.flowerIndex := by
    rw [Player.flowerTiles, List.length_take, h.books.flowers_length,
      Nat.min_eq_left h.books.flowerIndex_le]
  rw [Player.stock, Player.rows, hd, filled_append, filled_nulls hrest,
    filled_of_not_null fun m hm => not_null_of_dealt (hreal m hm), hdoor, hsea]
  simp only [Multiset.card_add, card_faces, hflowers, hlen, faces_nil,
    add_zero]

section Table

variable {wall : Wall} {c : Seat → Nat} {s : Game} {w : Log}

/-- The cursor has passed the tiles that are in hands and rows. -/
theorem Dealing.takeIndex_eq (h : Dealing wall c s w) :
    s.takeIndex = ∑ q, (c q + (s.players q).flowerIndex) := by
  have hcard := congrArg Multiset.card h.stock
  have htable : s.onTable = [] := by
    rw [Game.onTable, if_pos h.noDiscard]
  have hplayers : ∀ q, Multiset.card (s.players q).stock
      = c q + (s.players q).flowerIndex := fun q => (h.players q).card
  rw [Game.stock, htable, faces_nil, add_zero, Multiset.card_add, card_faces,
    Multiset.card_sum, Multiset.coe_card, tileSet_length, Game.undrawn,
    List.length_drop, h.wall_eq, wall.length,
    Finset.sum_congr rfl fun q _ => hplayers q] at hcard
  have hle := h.takeIndex_le
  omega

theorem Dealing.flowers_le (h : Dealing wall c s w) :
    ∑ q, (s.players q).flowerIndex ≤ 8 := by
  calc ∑ q, (s.players q).flowerIndex
      = ∑ q, flowerCount (faces (s.players q).flowerTiles) :=
        Finset.sum_congr rfl fun q _ => (h.players q).books.flowerIndex_eq.symm
    _ ≤ ∑ q, flowerCount (s.players q).stock := by
        refine Finset.sum_le_sum fun q _ => ?_
        rw [Player.stock, Player.rows, flowerCount_add, flowerCount_add,
          flowerCount_add]
        omega
    _ = flowerCount (∑ q, (s.players q).stock) := (flowerCount_sum _).symm
    _ ≤ flowerCount s.stock := by
        rw [Game.stock, flowerCount_add, flowerCount_add]
        omega
    _ = 8 := by rw [h.stock, flowerCount_tileSet]

/-- Sixteen tiles each and eight flowers: the deal stays within the
wall. -/
theorem Dealing.takeIndex_lt (h : Dealing wall c s w) (hc : ∀ q, c q ≤ 16) :
    s.takeIndex ≤ 72 := by
  have hflowers := h.flowers_le
  have hhands : ∑ q, c q ≤ 64 := by
    calc ∑ q, c q ≤ ∑ _q : Seat, 16 := Finset.sum_le_sum fun q _ => hc q
      _ = 64 := by simp
  rw [h.takeIndex_eq, Finset.sum_add_distrib]
  omega

theorem Dealing.log {o : SOp} {r : o.Res} (h : Dealing wall c s w)
    (ho : ¬ IsWin o) : Dealing wall c s (⟨o, r⟩ :: w) :=
  ⟨h.wall_eq, h.winner, h.noDiscard, h.takeIndex_le, h.stock, h.players,
    h.declares.cons ho⟩

theorem Dealing.asked {p : Seat} {l ack : Line} (h : Dealing wall c s w) :
    Dealing wall c s (⟨.readline p maxline, ack⟩ :: ⟨.write p l, ()⟩ :: w) := by
  refine (h.log ?_).log ?_ <;> exact id

/-- One tile of the wall into the first empty slot of a player. -/
theorem Dealing.take (h : Dealing wall c s w) {p : Seat} (hp : c p < 16)
    (hlt : s.takeIndex < 144) :
    Dealing wall (Function.update c p (c p + 1)) (s.takeInto p (c p)) w := by
  obtain ⟨hand, rest, hd, hlen, hrest, hreal⟩ := (h.players p).hand
  have hdlen := (h.players p).books.decks_length
  obtain ⟨z, rest, rfl⟩ : ∃ z rest', rest = z :: rest' := by
    cases rest with
    | nil =>
        rw [hd, List.append_nil] at hdlen
        omega
    | cons z rest => exact ⟨z, rest, rfl⟩
  have hslot : (s.players p).deck (c p) = z := by
    rw [Player.deck, hd, ← hlen]
    exact getD_append_length hand rest z
  have hset : (s.players p).decks.set (c p) s.next = (hand ++ [s.next]) ++ rest := by
    rw [hd, ← hlen, List.set_append_right _ _ (Nat.le_refl _), Nat.sub_self,
      List.set_cons_zero]
    simp
  refine ⟨h.wall_eq, h.winner, h.noDiscard, hlt, ?_, ?_, h.declares⟩
  · have hstock := Game.stock_takeInto (p := p) (i := c p) h.wall_eq hlt (by omega)
    rw [hslot, filled_null (hrest z (List.mem_cons_self ..)), add_zero] at hstock
    rw [hstock, h.stock]
  · intro q
    by_cases hqp : q = p
    · subst hqp
      have hplayer : (s.takeInto q (c q)).players q
          = { s.players q with decks := (hand ++ [s.next]) ++ rest } := by
        rw [← hset]
        exact Game.takeInto_players_self s q _
      rw [hplayer, Function.update_self]
      refine ⟨?_, (h.players q).seaIndex, hand ++ [s.next], rest, rfl, by simp [hlen],
        fun m hm => hrest m (List.mem_cons_of_mem _ hm), ?_⟩
      · obtain ⟨h1, h2, h3, h4, h5, h6, h7, h8, h9, h10⟩ := (h.players q).books
        refine ⟨h1, ?_, h3, h4, h5, h6, h7, h8, h9, h10⟩
        rw [hd] at h2
        simpa using h2
      · intro m hm
        rcases List.mem_append.mp hm with hm | hm
        · exact hreal m hm
        · rw [List.mem_singleton.mp hm]
          exact wall.real_or_flower (Game.next_mem h.wall_eq hlt)
    · rw [Function.update_of_ne hqp]
      have hplayer : (s.takeInto p (c p)).players q = s.players q :=
        Game.takeInto_players_ne s _ hqp
      rw [hplayer]
      exact h.players q

/-- A flower goes to the row, a tile of the wall into its slot. -/
theorem Dealing.replace (h : Dealing wall c s w) {p : Seat} {i : Nat}
    (hi : ((s.players p).deck i).type = flower) (hlt : s.takeIndex < 144) :
    i < c p ∧ (s.players p).flowerIndex < 8
      ∧ Dealing wall c ((s.update p fun pl => pl.pushFlower (pl.deck i)).takeInto p i)
        w := by
  have hroom := flower_room h.stock (fun q => ⟨0, (h.players q).books⟩) hi
  have hlt8 : (s.players p).flowerIndex < 8 :=
    lt_of_le_of_lt (Finset.single_le_sum
      (f := fun q => (s.players q).flowerIndex) (fun q _ => Nat.zero_le _)
      (Finset.mem_univ p)) hroom
  obtain ⟨hand, rest, hd, hlen, hrest, hreal⟩ := (h.players p).hand
  -- the slot is one of the hand's
  have hdeck : (s.players p).deck i = (hand ++ rest).getD i Mj.null := by
    rw [Player.deck, hd]
  have hin : i < hand.length := by
    by_contra hge
    rw [hdeck, List.getD_eq_getElem?_getD,
      List.getElem?_append_right (by omega)] at hi
    cases hr : rest[i - hand.length]? with
    | none => rw [hr] at hi; exact absurd hi (by decide)
    | some m =>
        have hm := Mj.isNull_iff.mp (hrest m (List.mem_of_getElem? hr))
        rw [hr, Option.getD_some] at hi
        have : m.type = 0 := congrArg Prod.fst hm
        rw [this] at hi
        exact absurd hi (by decide)
  refine ⟨hlen ▸ hin, hlt8, ?_⟩
  have hb := (h.players p).books
  have hnull : ((s.players p).deck i).isNull = false := by simp [Mj.isNull, hi]
  set s' := s.update p fun pl => pl.pushFlower (pl.deck i) with hs'
  have hself : s'.players p = (s.players p).pushFlower ((s.players p).deck i) :=
    Game.update_players_self s p _
  have hother : ∀ q, q ≠ p → s'.players q = s.players q :=
    fun q hq => Game.update_players_ne s p q _ hq
  refine ⟨h.wall_eq, h.winner, h.noDiscard, hlt, ?_, ?_, h.declares⟩
  · have hpush : s'.stock = ((s.players p).deck i).face ::ₘ s.stock :=
      Game.stock_pushFlower ((s.players p).deck i)
        (by rw [hb.flowers_length]; exact hlt8)
    have htake := Game.stock_takeInto (s := s') (p := p) (i := i) h.wall_eq hlt
      (by rw [hself]; show i < (s.players p).decks.length; rw [hd]; simp; omega)
    have hold : (s'.players p).deck i = (s.players p).deck i := by
      rw [hself]
      rfl
    rw [hold, filled_singleton hnull, hpush, add_comm, Multiset.singleton_add] at htake
    rw [(Multiset.cons_inj_right _).mp htake, h.stock]
  · intro q
    by_cases hqp : q = p
    · subst hqp
      have hplayer : (s'.takeInto q i).players q
          = ((s.players q).pushFlower ((s.players q).deck i)).setDeck i s'.next := by
        rw [← hself]
        exact Game.takeInto_players_self s' q i
      rw [hplayer]
      refine ⟨?_, (h.players q).seaIndex, hand.set i s'.next, rest, ?_,
        by rw [List.length_set, hlen], hrest, ?_⟩
      · obtain ⟨h1, h2, h3, h4, h5, h6, h7, h8, h9, h10⟩ := hb
        refine ⟨h1, ?_, ?_, h4, h5, hlt8, h7, h8, ?_, h10⟩
        · show ((s.players q).decks.set i s'.next).length = 20
          rw [List.length_set]
          exact h2
        · show ((s.players q).flowers.set _ _).length = 8
          rw [List.length_set]
          exact h3
        · intro m hm
          have hrow : ((s.players q).pushFlower ((s.players q).deck i)).flowerTiles
              = (s.players q).flowerTiles ++ [(s.players q).deck i] :=
            take_set_succ (by rw [h3]; exact hlt8) _
          have hm' : m ∈ (s.players q).flowerTiles ++ [(s.players q).deck i] := by
            rw [← hrow]
            exact hm
          rcases List.mem_append.mp hm' with hm' | hm'
          · exact h9 m hm'
          · rw [List.mem_singleton.mp hm']
            exact hi
      · show (s.players q).decks.set i s'.next = _
        rw [hd, List.set_append_left _ _ hin]
      · intro m hm
        rcases List.mem_or_eq_of_mem_set hm with hm | rfl
        · exact hreal m hm
        · exact wall.real_or_flower (Game.next_mem h.wall_eq hlt)
    · have hplayer : (s'.takeInto p i).players q = s.players q := by
        rw [← hother q hqp]
        exact Game.takeInto_players_ne s' i hqp
      rw [hplayer]
      exact h.players q

end Table

-- ================================================================ the grabs

/-- How many tiles each player has after `time` rounds of grabs, `a`
players of the next round, and `g` tiles of the player after these. -/
def grabbed (playernow : Seat) (time a g : Nat) (q : Seat) : Nat :=
  4 * time + if (q - playernow).val < a then 4 else
    if (q - playernow).val = a then g else 0

theorem grabbed_le (playernow : Seat) {time a g : Nat} (ht : time < 4) (hg : g ≤ 4)
    (q : Seat) : grabbed playernow time a g q ≤ 16 := by
  unfold grabbed
  split
  · omega
  · split <;> omega

theorem grabbed_seat (playernow : Seat) {time a g : Nat} (ha : a < 4) :
    grabbed playernow time a g (playernow + Fin.ofNat 4 a) = 4 * time + g := by
  have hval : (playernow + Fin.ofNat 4 a - playernow).val = a := by
    rw [add_sub_cancel_left]
    exact Nat.mod_eq_of_lt ha
  unfold grabbed
  rw [if_neg (by omega), if_pos hval]

theorem grabbed_grab (playernow : Seat) {time a g : Nat} (ha : a < 4) :
    Function.update (grabbed playernow time a g) (playernow + Fin.ofNat 4 a)
        (4 * time + g + 1) = grabbed playernow time a (g + 1) := by
  funext q
  by_cases hq : q = playernow + Fin.ofNat 4 a
  · subst hq
    rw [Function.update_self, grabbed_seat playernow ha]
    omega
  · have hval : (q - playernow).val ≠ a := by
      intro he
      apply hq
      have hseat : q - playernow = Fin.ofNat 4 a := by
        apply Fin.ext
        rw [he]
        exact (Nat.mod_eq_of_lt ha).symm
      rw [← hseat, add_sub_cancel]
    rw [Function.update_of_ne hq]
    unfold grabbed
    rw [if_neg hval, if_neg hval]

theorem grabbed_player (playernow : Seat) (time a : Nat) :
    grabbed playernow time a 4 = grabbed playernow time (a + 1) 0 := by
  funext q
  unfold grabbed
  split_ifs <;> omega

theorem grabbed_time (playernow : Seat) (time : Nat) :
    grabbed playernow time 4 0 = grabbed playernow (time + 1) 0 0 := by
  funext q
  have hval := (q - playernow).isLt
  unfold grabbed
  split_ifs <;> omega

/-- An obligation that asks nothing at an access in range while there is
no winner; of a hand, only the first seventeen slots are used, but
`has_flower` looks at all of them. -/
structure FairAccess (P : SOp → Game → Log → Prop) : Prop where
  access : ∀ a i s w, 0 ≤ i → i < (a.size : Int) → (a = .decks → i ≤ 16) →
    Undecided s w → P (.note (.access a i)) s w
  scan : ∀ p i s w, i < 20 → Undecided s w → P (.note (.scan p i)) s w

section Deal

variable {ok : Log → Prop} {A : SOp → Game → Prop} {P : SOp → Game → Log → Prop} {wall : Wall}
  (hf : FairAccess P)
include hf

theorem twp_grabs {playernow : Seat} {s : Game} {w : Log}
    (h : Dealing wall (fun _ => 0) s w) :
    twp (within ok) A P (grabs playernow s)
      (fun _ s' w' => Dealing wall (fun _ => 16) s' w') w := by
  have h0 : grabbed playernow 0 0 0 = fun _ => 0 := by
    funext q
    unfold grabbed
    split_ifs <;> omega
  have h4 : grabbed playernow 4 0 0 = fun _ => 16 := by
    funext q
    unfold grabbed
    split_ifs <;> omega
  refine twp.mono (twp_forM_range
    (fun time s w => Dealing wall (grabbed playernow time 0 0) s w) ?_ (h0 ▸ h))
    fun _ s' w' h' => h4 ▸ h'
  intro time s w ht h
  refine twp.mono (twp_forM_range
    (fun a s w => Dealing wall (grabbed playernow time a 0) s w) ?_ h)
    fun _ s' w' h' => grabbed_time playernow time ▸ h'
  intro a s w ha h
  refine twp.mono (twp_forM_range
    (fun g s w => Dealing wall (grabbed playernow time a g) s w) ?_ h)
    fun _ s' w' h' => grabbed_player playernow time a ▸ h'
  intro g s w hg h
  have hindex : s.takeIndex ≤ 72 :=
    h.takeIndex_lt fun q => grabbed_le playernow ht (by omega) q
  have hseat : grabbed playernow time a g (playernow + Fin.ofNat 4 a) = _ :=
    grabbed_seat playernow ha
  have htake := h.take (p := playernow + Fin.ofNat 4 a) (by omega) (by omega)
  rw [hseat, grabbed_grab playernow ha, Nat.mul_comm 4 time] at htake
  refine twp_takeInto fun _ => ⟨hf.access _ _ _ _ (by omega) ?_ (fun he => nomatch he)
    h.undecided, fun _ => ⟨hf.access _ _ _ _ (by omega) ?_ (fun _ => by omega)
      (h.undecided.log id), ?_⟩⟩
  · show (s.takeIndex : Int) < (144 : Nat)
    omega
  · show ((time * 4 + g : Nat) : Int) < (20 : Nat)
    omega
  · refine (htake.log ?_).log ?_ <;> exact id

-- ========================================================== flowers replaced

/-- There is no flower in the player's hand. -/
def NoFlower (p : Player) : Prop := ∀ i < 20, (p.deck i).type ≠ flower

theorem twp_hasFlower {p : Seat} {s : Game} {w : Log}
    (h : Dealing wall (fun _ => 16) s w) :
    twp (within ok) A P (hasFlower p s)
      (fun n s' w' => Dealing wall (fun _ => 16) s' w'
        ∧ s'.takeIndex = s.takeIndex + n
        ∧ (n = 0 → s' = s ∧ NoFlower (s'.players p))) w := by
  refine twp.mono (twp_foldlM_range (fun i n s' w' => Dealing wall (fun _ => 16) s' w'
    ∧ s'.takeIndex = s.takeIndex + n
    ∧ (n = 0 → s' = s ∧ ∀ j < i, ((s'.players p).deck j).type ≠ flower)) ?_
    ⟨h, rfl, fun _ => ⟨rfl, fun j hj => absurd hj (by omega)⟩⟩)
    fun _ s' w' h' => h'
  rintro i n s' w' hi ⟨h', ht, hn⟩
  refine twp_seq (twp_note fun _ => ⟨hf.scan _ _ _ _ hi h'.undecided, ?_⟩)
  have h' := h'.log (o := .note (.scan p i)) (r := ()) id
  refine twp_player_seq ?_
  split
  next hflower =>
    have hindex : s'.takeIndex ≤ 72 := h'.takeIndex_lt fun _ => Nat.le_refl 16
    obtain ⟨hslot, hroom, hrep⟩ := h'.replace hflower (by omega)
    refine twp_seq (twp_layFlower fun _ => ⟨hf.access _ _ _ _ (by omega) ?_
      (fun he => nomatch he) h'.undecided, ?_⟩)
    · show ((s'.players p).flowerIndex : Int) < (8 : Nat)
      omega
    have hu : Undecided (s'.update p fun pl => pl.pushFlower (pl.deck i))
        (⟨.note (.access .flowers (s'.players p).flowerIndex), ()⟩
          :: ⟨.note (.scan p i), ()⟩ :: w') :=
      (h'.undecided.pushFlower hflower hroom).log id
    refine twp_seq (twp_takeInto fun _ => ⟨hf.access _ _ _ _ (by omega) ?_
      (fun he => nomatch he) hu, fun _ => ⟨hf.access _ _ _ _ (by omega) ?_
      (fun _ => by omega) (hu.log id), ?_⟩⟩)
    · show (s'.takeIndex : Int) < (144 : Nat)
      omega
    · show (i : Int) < (20 : Nat)
      omega
    · refine twp_pure ⟨?_, ?_, fun h0 => absurd h0 (by omega)⟩
      · refine ((hrep.log ?_).log ?_).log ?_ <;> exact id
      · show s'.takeIndex + 1 = _
        omega
  next hno =>
    refine twp_pure ⟨h', ht, fun h0 => ⟨(hn h0).1, fun j hj => ?_⟩⟩
    by_cases hji : j = i
    · exact hji ▸ hno
    · exact (hn h0).2 j (by omega)

omit hf in
theorem seat_sub_one : ∀ j : Seat, j ≠ 0 → (j - 1).val = j.val - 1 := by decide

/-- The loop ends when the last four players asked had no flower: then
nobody has one. -/
theorem twp_regrab {playernow : Seat} {s : Game} {w : Log}
    (h : Dealing wall (fun _ => 16) s w) :
    twp (within ok) A P (regrab playernow s)
      (fun _ s' w' => Dealing wall (fun _ => 16) s' w'
        ∧ ∀ q, NoFlower (s'.players q)) w := by
  -- a player with flowers draws some, one without is counted
  refine twp_iterate (fun (x : Nat × Seat) s (w : Log) =>
      Dealing wall (fun _ => 16) s w
        ∧ ∀ j : Seat, j.val < x.1 → NoFlower (s.players (playernow + x.2 - 1 - j)))
    (fun x s _ => (72 - s.takeIndex, 4 - x.1)) ?_ ⟨h, fun j hj => absurd hj (by omega)⟩
  rintro ⟨n, a⟩ s w ⟨h, hno⟩
  split
  next hlt =>
    refine twp_seq ((twp_hasFlower hf h).mono ?_)
    rintro m s' w' ⟨h', ht, hm⟩
    have hindex : s'.takeIndex ≤ 72 := h'.takeIndex_lt fun _ => Nat.le_refl 16
    split
    next =>
      refine twp_pure ⟨⟨h', fun j hj => absurd hj (by omega)⟩, Prod.Lex.left _ _ ?_⟩
      show 72 - s'.takeIndex < 72 - s.takeIndex
      omega
    next hm0 =>
      obtain ⟨rfl, hnow⟩ := hm (by omega)
      refine twp_pure ⟨⟨h', fun j hj => ?_⟩, Prod.Lex.right _ ?_⟩
      swap
      · show 4 - (n + 1) < 4 - n
        simp only at hlt
        omega
      by_cases hj0 : j = 0
      · subst hj0
        rw [show playernow + (a + 1) - 1 - 0 = playernow + a by
          rw [sub_zero, ← add_assoc, add_sub_cancel_right]]
        exact hnow
      · have hpos : j.val ≠ 0 := fun he => hj0 (Fin.ext he)
        have hsub := seat_sub_one j hj0
        have hj' := hno (j - 1) (by rw [hsub]; simp only at hj; omega)
        have hseat : playernow + (a + 1) - 1 - j = playernow + a - 1 - (j - 1) := by
          abel
        rw [hseat]
        exact hj'
  next hge =>
    refine twp_pure ⟨h, fun q => ?_⟩
    have hq := hno (playernow + a - 1 - q) (by simp only at hge ⊢; omega)
    rwa [sub_sub_cancel] at hq

-- ================================================================= the deal

omit hf in
/-- Sorting a dealt hand without flowers leaves a player at rest. -/
theorem Dealt.sorted {p : Player} (h : Dealt p 16) (hno : NoFlower p) :
    Books (p.sortDecks 15) 0 ∧ Rests (p.sortDecks 15)
      ∧ (p.sortDecks 15).stock = p.stock := by
  obtain ⟨hand, rest, hd, hlen, hrest, hreal⟩ := h.hand
  have hdlen := h.books.decks_length
  have hall : ∀ m ∈ hand, m.Real := by
    intro m hm
    refine (hreal m hm).resolve_right ?_
    obtain ⟨i, hi, rfl⟩ := List.getElem_of_mem hm
    have hno' := hno i (by omega)
    rw [Player.deck, hd, List.getD_eq_getElem?_getD, List.getElem?_append_left hi,
      List.getElem?_eq_getElem hi, Option.getD_some] at hno'
    exact hno'
  obtain ⟨hand', hs, hh, hf', hl⟩ := sort_hand (r := rest) hall hlen
  have hdecks : (p.sortDecks 15).decks = hand' ++ rest := by
    show decksQuickSort p.decks 0 15 = _
    rw [hd, hs]
  refine ⟨?_, ⟨hand', rest, hdecks, hrest, hh, ?_⟩, ?_⟩
  · obtain ⟨h1, h2, h3, h4, h5, h6, h7, h8, h9, h10⟩ := h.books
    refine ⟨h1, ?_, h3, h4, h5, h6, h7, h8, h9, h10⟩
    rw [hdecks, List.length_append, hl, ← List.length_append, ← hd, h2]
  · show hand'.length = p.normalCapacity
    have hcap := h.books.capacity
    omega
  · show filled (p.sortDecks 15).decks + p.rows = _
    rw [Player.stock, hdecks, hd, filled_append, filled_append, filled_real hh.real,
      filled_real hall, hf']

/-- The table after the deal. -/
structure AfterDeal (wall : Wall) (s : Game) (w : Log) : Prop where
  wall_eq : s.shuffledMjs = wall.tiles
  winner : s.winner = -1
  noDiscard : s.discardedMj.isNull = true
  takeIndex_le : s.takeIndex ≤ 72
  takeIndex_eq : s.takeIndex = 64 + ∑ q, (s.players q).flowerIndex
  stock : s.stock = (tileSet : Multiset Face)
  books : ∀ q, Books (s.players q) 0
  seaIndex : ∀ q, (s.players q).seaIndex = 0
  rests : ∀ q, Rests (s.players q)
  declares : Declares w (-1)

omit hf in
theorem AfterDeal.undecided {s : Game} {w : Log} (h : AfterDeal wall s w) :
    Undecided s w :=
  ⟨h.winner, h.declares, fun q => ⟨0, h.books q⟩⟩

omit hf in
theorem AfterDeal.log {s : Game} {w : Log} {o : SOp} {r : o.Res}
    (h : AfterDeal wall s w) (ho : ¬ IsWin o) :
    AfterDeal wall s (⟨o, r⟩ :: w) :=
  { h with declares := h.declares.cons ho }

omit hf in
/-- What the cursor has passed is with the players. -/
theorem AfterDeal.used {s : Game} {w : Log} (h : AfterDeal wall s w) :
    ∑ q, (s.players q).stock = faces (wall.tiles.take s.takeIndex) := by
  have hall : s.stock = faces wall.tiles :=
    h.stock.trans (Multiset.coe_eq_coe.mpr wall.perm.symm)
  have hsplit : faces wall.tiles = faces (wall.tiles.take s.takeIndex) + faces s.undrawn := by
    rw [Game.undrawn, h.wall_eq, ← faces_append, List.take_append_drop]
  have htable : s.onTable = [] := if_pos h.noDiscard
  rw [hsplit, Game.stock, htable, faces_nil, add_zero, add_comm] at hall
  exact add_right_cancel hall

omit hf in
/-- Before the first turn a player has a hand and flowers. -/
theorem Rests.stock_dealt {p : Player} (hr : Rests p) (hb : Books p 0)
    (hsea : p.seaIndex = 0) :
    p.stock = faces (p.decks.take 16) + faces p.flowerTiles := by
  obtain ⟨h, rest, hd, hrest, hh, hlen⟩ := hr
  have hcap : p.normalCapacity = 16 := hb.capacity
  have htake : p.decks.take 16 = h := by
    rw [hd, ← hcap, ← hlen, List.take_left]
  have hdoorTiles : p.doorTiles = [] := by
    rw [Player.doorTiles, Nat.le_zero.mp hb.doorIndex_le, List.take_zero]
  have hseaTiles : p.seaTiles = [] := by
    rw [Player.seaTiles, hsea, List.take_zero]
  rw [Player.stock, Player.rows, hdoorTiles, hseaTiles, htake, hd, filled_append,
    filled_nulls hrest, filled_real hh.real]
  simp

omit hf in
/-- All four hands sorted. -/
theorem Dealing.sorted {s : Game} {w : Log} (h : Dealing wall (fun _ => 16) s w)
    (hno : ∀ q, NoFlower (s.players q)) :
    AfterDeal wall ((((s.update 0 fun pl => pl.sortDecks 15).update 1
      fun pl => pl.sortDecks 15).update 2 fun pl => pl.sortDecks 15).update 3
      fun pl => pl.sortDecks 15) w := by
  have hq := fun q => (h.players q).sorted (hno q)
  have hplayers : ∀ q : Seat, ((((s.update 0 fun pl => pl.sortDecks 15).update 1
      fun pl => pl.sortDecks 15).update 2 fun pl => pl.sortDecks 15).update 3
      fun pl => pl.sortDecks 15).players q = (s.players q).sortDecks 15 := by
    intro q
    fin_cases q <;> simp [Game.update, Function.update]
  refine ⟨h.wall_eq, h.winner, h.noDiscard, h.takeIndex_lt fun _ => Nat.le_refl 16,
    ?_, ?_, fun q => ?_, fun q => ?_, fun q => ?_, h.declares⟩
  · simp only [hplayers]
    refine h.takeIndex_eq.trans ?_
    rw [Finset.sum_add_distrib]
    rfl
  · rw [← h.stock, Game.stock, Game.stock]
    simp only [hplayers, fun q => (hq q).2.2]
    rfl
  · rw [hplayers]
    exact (hq q).1
  · rw [hplayers]
    exact (h.players q).seaIndex
  · rw [hplayers]
    exact (hq q).2.1

omit hf in
/-- Sending lines leaves the table alone. -/
theorem twp_transfer (hq : Quiet Plain P Undecided) {p : Seat} {s : Game} {w : Log}
    (h : AfterDeal wall s w) :
    twp (within ok) A P (transfer p s) (fun _ s' w' => s' = s ∧ AfterDeal wall s' w') w := by
  have hlog : ∀ {l ack : Line} {s : Game} {w : Log}, AfterDeal wall s w →
      AfterDeal wall s (⟨.readline p maxline, ack⟩ :: ⟨.write p l, ()⟩ :: w) := by
    intro l ack s w h
    refine (h.log ?_).log ?_ <;> exact id
  refine twp_seq ((twp_forM_range (fun _ s' w' => s' = s ∧ AfterDeal wall s' w') ?_
    ⟨rfl, h⟩).mono ?_)
  · rintro j _ w' - ⟨rfl, h'⟩
    refine twp_player_seq (twp_writeMessageWaitAck hq h'.undecided
      (plain_tileLine _) fun r => ?_)
    exact ⟨rfl, hlog h'⟩
  rintro _ s₁ w₁ ⟨rfl, h₁⟩
  refine twp_player_seq (twp_seq ((twp_forM_range
    (fun _ s' w' => s' = s₁ ∧ AfterDeal wall s' w') ?_ ⟨rfl, h₁⟩).mono ?_))
  · rintro j _ w' - ⟨rfl, h'⟩
    refine twp_player_seq (twp_writeMessageWaitAck hq h'.undecided
      (plain_decimal _ _) fun r => ?_)
    exact ⟨rfl, hlog h'⟩
  rintro _ _ w₂ ⟨rfl, h₂⟩
  refine twp_writeMessageWaitAck hq h₂.undecided (by decide) fun r => ?_
  exact ⟨rfl, hlog h₂⟩

omit hf in
/-- The table as `game_init` leaves it, with the wall shuffled. -/
theorem dealing_init (wall : Wall) (w : Log) (hw : Declares w (-1)) :
    Dealing wall (fun _ => 0) (Game.init wall.tiles) w := by
  have hnulls : ∀ n, Nulls (List.replicate n Mj.null) := nulls_replicate
  have hstock : Player.gameinfoInit.stock = 0 := by
    rw [Player.stock, Player.rows, Player.gameinfoInit, Player.flowerTiles,
      Player.doorTiles, Player.seaTiles, List.take_zero, List.take_zero,
      List.take_zero, filled_nulls (hnulls 20)]
    rfl
  refine ⟨rfl, rfl, rfl, Nat.zero_le _, ?_, fun q => ?_, hw⟩
  · rw [Game.stock]
    have hsum : ∑ q, ((Game.init wall.tiles).players q).stock = 0 :=
      Finset.sum_eq_zero fun q _ => hstock
    have htable : (Game.init wall.tiles).onTable = [] := rfl
    have hundrawn : (Game.init wall.tiles).undrawn = wall.tiles := rfl
    rw [hsum, htable, hundrawn, faces_nil, add_zero, add_zero]
    exact Multiset.coe_eq_coe.mpr wall.perm
  · refine ⟨⟨rfl, rfl, rfl, rfl, rfl, Nat.zero_le _, Nat.zero_le _, Nat.zero_le _,
      fun m hm => ?_, ⟨[], rfl, by simp, ?_⟩⟩, rfl, [], _, rfl, rfl, hnulls 20,
      fun m hm => absurd hm List.not_mem_nil⟩
    · exact absurd hm List.not_mem_nil
    · rfl

/-- The deal ends, with everybody at rest. -/
theorem twp_deal (hq : Quiet Plain P Undecided) {playernow : Seat}
    {w : Log} (hw : Declares w (-1)) :
    twp (within ok) A P (deal playernow (Game.init wall.tiles))
      (fun _ s' w' => AfterDeal wall s' w') w := by
  refine twp_seq ((twp_grabs hf (dealing_init wall w hw)).mono fun _ s w h => ?_)
  refine twp_seq ((twp_regrab hf h).mono ?_)
  rintro _ s w ⟨h, hno⟩
  have hsorted := h.sorted hno
  refine twp_modify_seq (twp_modify_seq (twp_modify_seq (twp_modify_seq ?_)))
  refine twp_seq ((twp_transfer hq hsorted).mono ?_)
  rintro _ _ w ⟨rfl, h⟩
  refine twp_seq ((twp_transfer hq h).mono ?_)
  rintro _ _ w ⟨rfl, h⟩
  refine twp_seq ((twp_transfer hq h).mono ?_)
  rintro _ _ w ⟨rfl, h⟩
  exact (twp_transfer hq h).mono fun _ _ _ h => h.2

theorem wp_deal (hq : Quiet Plain P Undecided) {playernow : Seat}
    {w : Log} (hw : Declares w (-1)) :
    wp (within ok) A P (deal playernow (Game.init wall.tiles))
      (fun _ s' w' => AfterDeal wall s' w') w :=
  (twp_deal hf hq hw).wp

end Deal

end Mahjong.Server
