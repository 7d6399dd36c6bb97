/-
Tiles without their priorities, and one player's tiles in both programs.

Nothing either program does with a hand looks at a priority, so all of it
commutes with forgetting them (`Player.bare_layCopies` and so on). The
removal loop of a claim is written differently in the two programs: the
server lays a copy down for every tile it finds, the client lays all of
them down first. With enough copies in the hand, which is what the server
has counted, the result is the same (`layCopies_eq`).
-/
import Mahjong.Talk
import Mahjong.Proofs.Hand

namespace Mahjong

open QuickSort

-- ========================================================================= one tile

namespace Mj

variable (m m' : Mj)

@[simp] theorem bare_type : m.bare.type = m.type := rfl

@[simp] theorem bare_number : m.bare.number = m.number := rfl

@[simp] theorem bare_face : m.bare.face = m.face := rfl

@[simp] theorem bare_key : m.bare.key = m.key := rfl

@[simp] theorem bare_isNull : m.bare.isNull = m.isNull := rfl

@[simp] theorem bare_null : null.bare = null := rfl

@[simp] theorem bare_bare : m.bare.bare = m.bare := rfl

@[simp] theorem bare_zero : m.zero.bare = null := rfl

@[simp] theorem zero_bare : m.bare.zero = null := rfl

variable {m m'}

/-- Without its priority a tile is its face. -/
theorem bare_eq_iff : m.bare = m'.bare ↔ m.face = m'.face := by
  rw [face_eq_iff]
  simp [bare]

end Mj

@[simp] theorem mjCompare_bare (a b : Mj) : mjCompare a.bare b.bare = mjCompare a b := rfl

@[simp] theorem mjCompare_bare_left (a b : Mj) : mjCompare a.bare b = mjCompare a b := rfl

@[simp] theorem mjCompare_bare_right (a b : Mj) : mjCompare a b.bare = mjCompare a b := rfl

/-- A slot of an array. -/
theorem getD_map_bare (l : List Mj) (i : Nat) :
    (l.map Mj.bare).getD i Mj.null = (l.getD i Mj.null).bare := by
  rw [List.getD_eq_getElem?_getD, List.getD_eq_getElem?_getD, List.getElem?_map]
  cases l[i]? <;> rfl

-- ========================================================================== one hand

namespace Player

variable (p : Player)

@[simp] theorem bare_normalCapacity : p.bare.normalCapacity = p.normalCapacity := rfl

@[simp] theorem bare_flowerIndex : p.bare.flowerIndex = p.flowerIndex := rfl

@[simp] theorem bare_deck (i : Nat) : p.bare.deck i = (p.deck i).bare := getD_map_bare _ _

@[simp] theorem bare_bare : p.bare.bare = p.bare := by
  simp [bare, List.map_map, Function.comp_def]

@[simp] theorem bare_gameinfoInit : gameinfoInit.bare = gameinfoInit := by
  simp [bare, gameinfoInit]

/-- Writing a slot, and forgetting the priorities. -/
theorem bare_setDeck (i : Nat) (m : Mj) : (p.setDeck i m).bare = p.bare.setDeck i m.bare := by
  simp [bare, setDeck, List.map_set]

/-- The same of the door, -/
theorem bare_pushDoor (m : Mj) : (p.pushDoor m).bare = p.bare.pushDoor m.bare := by
  simp [bare, pushDoor, List.map_set]

/-- of the flowers, -/
theorem bare_pushFlower (m : Mj) : (p.pushFlower m).bare = p.bare.pushFlower m.bare := by
  simp [bare, pushFlower, List.map_set]

/-- and of the sea. -/
theorem bare_pushSea (m : Mj) : (p.pushSea m).bare = p.bare.pushSea m.bare := by
  simp [bare, pushSea, List.map_set]

/-- The sort compares keys, and these have no priority in them. -/
theorem decksQuickSort_bare (decks : List Mj) (start stop : Nat) :
    decksQuickSort (decks.map Mj.bare) start stop = (decksQuickSort decks start stop).map Mj.bare :=
  quickSort_map Mj.bare_key decks start stop

/-- Sorting a hand. -/
theorem bare_sortDecks (stop : Nat) : (p.sortDecks stop).bare = p.bare.sortDecks stop := by
  simp [bare, sortDecks, decksQuickSort_bare]

/-- Exchanging two slots. -/
theorem bare_swap (i j : Nat) : ({ p with decks := swap p.decks i j } : Player).bare
    = { p.bare with decks := swap p.bare.decks i j } := by
  simp [bare, map_swap]

/-- Emptying a slot. -/
theorem bare_empty (i : Nat) :
    (p.setDeck i (p.deck i).zero).bare = p.bare.setDeck i (p.bare.deck i).zero := by
  rw [bare_setDeck, bare_deck, Mj.bare_zero, Mj.zero_bare]

end Player

-- ===================================================================== whole operations

/-- Closing the gaps asks only which slots are empty. -/
theorem compactLoop_bare (nc k : Nat) (is : List Nat) : ∀ (need : Nat) (decks : List Mj),
    compactLoop nc k need is (decks.map Mj.bare) = (compactLoop nc k need is decks).map Mj.bare := by
  induction is with
  | nil => intro need decks; rfl
  | cons i is ih =>
      intro need decks
      simp only [compactLoop, getD_map_bare, Mj.bare_isNull, ← map_swap]
      split
      · split
        · rfl
        · exact ih _ _
      · exact ih _ _

/-- Taking copies out of a hand compares faces. -/
theorem Client.removeLoop_bare (t : Mj) (is : List Nat) : ∀ (need : Nat) (p : Player),
    (Client.removeLoop t need is p).bare = Client.removeLoop t.bare need is p.bare := by
  induction is with
  | nil => intro need p; rfl
  | cons i is ih =>
      intro need p
      have hset := p.bare_empty i
      simp only [Client.removeLoop, Player.bare_deck, mjCompare_bare]
      split
      · split
        · simpa using hset
        · rw [ih, hset, Player.bare_deck]
      · exact ih _ _

/-- Copies on the door have the priority of the tile they copy. -/
theorem Client.pushCopies_bare (t : Mj) (n : Nat) : ∀ p : Player,
    (Client.pushCopies t n p).bare = Client.pushCopies t.bare n p.bare := by
  induction n with
  | zero => intro p; rfl
  | succ n ih => intro p; rw [Client.pushCopies, ih, Player.bare_pushDoor, Client.pushCopies]

/-- A whole claim, up to the sort, -/
theorem Client.layCopies_bare (k : Nat) (t : Mj) (p : Player) :
    (Client.layCopies k t p).bare = Client.layCopies k t.bare p.bare := by
  have hnc : ∀ p : Player, (Client.pushCopies t (k + 1) p).normalCapacity
      = (Client.pushCopies t.bare (k + 1) p.bare).normalCapacity := by
    intro p
    rw [← Client.pushCopies_bare, Player.bare_normalCapacity]
  have hloop : ∀ p : Player, Client.removeLoop t.bare k
      (List.range (Client.pushCopies t.bare (k + 1) p.bare).normalCapacity)
      (Client.pushCopies t.bare (k + 1) p.bare)
      = (Client.removeLoop t k (List.range (Client.pushCopies t (k + 1) p).normalCapacity)
        (Client.pushCopies t (k + 1) p)).bare := by
    intro p
    rw [Client.removeLoop_bare, Client.pushCopies_bare, hnc]
  simp only [Client.layCopies, hloop, Player.bare_normalCapacity]
  simp [Player.bare, compactLoop_bare]

/-- with the sort of a gang, -/
theorem Client.gangTiles_bare (t : Mj) (p : Player) :
    (Client.gangTiles t p).bare = Client.gangTiles t.bare p.bare := by
  simp only [Client.gangTiles, Player.bare_sortDecks, ← Client.layCopies_bare,
    Player.bare_normalCapacity]

/-- and with that of a pong. -/
theorem Client.pongTiles_bare (t : Mj) (p : Player) :
    (Client.pongTiles t p).bare = Client.pongTiles t.bare p.bare := by
  simp only [Client.pongTiles, Player.bare_sortDecks, ← Client.layCopies_bare,
    Player.bare_normalCapacity]

/-- A quiet gang copies the tile in the slot behind the hand. -/
theorem Client.quietGangTiles_bare (p : Player) :
    (Client.quietGangTiles p).bare = Client.quietGangTiles p.bare := by
  simp only [Client.quietGangTiles, Client.gangTiles_bare, Player.bare_deck,
    Player.bare_normalCapacity]

/-- A line of the server sets type and number, and leaves the priority
of the slot. -/
theorem Client.putTile_bare (i : Nat) (t n : Int) (p : Player) :
    (Client.putTile i t n p).bare = Client.putTile i t n p.bare := by
  simp only [Client.putTile, Player.bare_setDeck, Player.bare_deck]
  rfl

/-- The same of a flower. -/
theorem Client.putFlower_bare (n : Int) (p : Player) :
    (Client.putFlower n p).bare = Client.putFlower n p.bare := by
  have hslot : p.bare.flowers.getD p.bare.flowerIndex Mj.null
      = (p.flowers.getD p.flowerIndex Mj.null).bare := getD_map_bare _ _
  simp only [Client.putFlower, Player.bare_pushFlower, hslot]
  rfl

/-- A discard empties a slot and sorts. -/
theorem discardTile_bare (i : Int) (p : Player) :
    (discardTile i p).bare = discardTile i p.bare := by
  unfold discardTile
  rw [Player.bare_sortDecks, Player.bare_empty, Player.bare_swap]
  rfl

/-- The three tiles of an eat, sorted. -/
theorem eatTemp_bare (p : Player) (t : Mj) (i j : Int) :
    eatTemp p.bare t.bare i j = (eatTemp p t i j).map Mj.bare := by
  simp only [eatTemp, Player.bare_deck, ← Player.decksQuickSort_bare]
  rfl

/-- The client runs the same on them as the server. -/
theorem eatTiles_bare (temp : List Mj) (i j : Int) (p : Player) :
    (eatTiles temp i j p).bare = eatTiles (temp.map Mj.bare) i j p.bare := by
  simp only [eatTiles, getD_map_bare, ← Player.bare_pushDoor, ← Player.bare_empty]
  rw [Player.bare_sortDecks]
  simp [Player.bare, map_swap]

-- ============================================================ the two removal loops

/-- Taking copies out of the hand and laying one down are independent,
-/
theorem Client.removeLoop_pushDoor (t m : Mj) (is : List Nat) : ∀ (need : Nat) (p : Player),
    Client.removeLoop t need is (p.pushDoor m) = (Client.removeLoop t need is p).pushDoor m := by
  induction is with
  | nil => intro need p; rfl
  | cons i is ih =>
      intro need p
      have hdeck : (p.pushDoor m).deck i = p.deck i := rfl
      have hset : (p.pushDoor m).setDeck i (p.deck i).zero
          = (p.setDeck i (p.deck i).zero).pushDoor m := rfl
      simp only [Client.removeLoop, hdeck, hset]
      split
      · split
        · rfl
        · exact ih _ _
      · exact ih _ _

/-- Laying down leaves the size of the hand to the caller. -/
theorem Client.pushCopies_normalCapacity (m : Mj) (n : Nat) : ∀ p : Player,
    (Client.pushCopies m n p).normalCapacity = p.normalCapacity := by
  induction n with
  | zero => intro p; rfl
  | succ n ih => intro p; rw [Client.pushCopies, ih]; rfl

/-- So does taking out. -/
theorem Client.removeLoop_normalCapacity (t : Mj) (is : List Nat) : ∀ (need : Nat) (p : Player),
    (Client.removeLoop t need is p).normalCapacity = p.normalCapacity := by
  induction is with
  | nil => intro need p; rfl
  | cons i is ih =>
      intro need p
      simp only [Client.removeLoop]
      split
      · split
        · rfl
        · rw [ih]; rfl
      · exact ih _ _

/-- A claim makes the hand three smaller. -/
theorem Client.layCopies_normalCapacity (k : Nat) (t : Mj) (p : Player) :
    (Client.layCopies k t p).normalCapacity = p.normalCapacity - 3 := by
  show (Client.removeLoop _ _ _ _).normalCapacity - 3 = _
  rw [Client.removeLoop_normalCapacity, Client.pushCopies_normalCapacity]

/-- and so are laying down all of them. -/
theorem Client.removeLoop_pushCopies (t m : Mj) (n need : Nat) (is : List Nat) : ∀ p : Player,
    Client.removeLoop t need is (Client.pushCopies m n p)
      = Client.pushCopies m n (Client.removeLoop t need is p) := by
  induction n with
  | zero => intro p; rfl
  | succ n ih =>
      intro p
      rw [Client.pushCopies, ih, Client.removeLoop_pushDoor, Client.pushCopies]

/-- Emptying a slot leaves the others. -/
theorem Player.deck_setDeck_ne (p : Player) {i j : Nat} (m : Mj) (h : j ≠ i) :
    (p.setDeck i m).deck j = p.deck j := by
  simp [Player.deck, Player.setDeck, Ne.symm h]

/-- With enough copies, the server lays down as many as it needs. -/
theorem removeLoop_eq (t : Mj) : ∀ (is : List Nat) (need : Nat) (p : Player), is.Nodup →
    1 ≤ need → need ≤ is.countP (fun i => mjCompare t (p.deck i) = 0) →
    removeLoop t need is p = Client.pushCopies t need (Client.removeLoop t need is p) := by
  intro is
  induction is with
  | nil => intro need p _ hneed hcount; simp at hcount; omega
  | cons i is ih =>
      intro need p hnodup hneed hcount
      obtain ⟨hi, hnodup⟩ := List.nodup_cons.mp hnodup
      rw [List.countP_cons] at hcount
      simp only [removeLoop, Client.removeLoop]
      by_cases hm : mjCompare t (p.deck i) = 0
      · rw [if_pos hm, if_pos hm]
        simp only [hm, decide_true, if_true] at hcount
        by_cases hlast : need - 1 = 0
        · obtain rfl : need = 1 := by omega
          rfl
        · rw [if_neg hlast, if_neg hlast]
          have hrest : is.countP (fun j =>
              mjCompare t (((p.pushDoor t).setDeck i (p.deck i).zero).deck j) = 0)
              = is.countP fun j => mjCompare t (p.deck j) = 0 := by
            refine List.countP_congr fun j hj => ?_
            have hne : j ≠ i := fun he => hi (by rw [← he]; exact hj)
            rw [Player.deck_setDeck_ne _ _ hne]
            rfl
          have h := ih (need - 1) ((p.pushDoor t).setDeck i (p.deck i).zero) hnodup (by omega)
            (by rw [hrest]; omega)
          have hset : (p.pushDoor t).setDeck i (p.deck i).zero
              = (p.setDeck i (p.deck i).zero).pushDoor t := rfl
          rw [hset, Client.removeLoop_pushDoor] at h
          rw [hset, h]
          obtain ⟨n, rfl⟩ : ∃ n, need = n + 1 := ⟨need - 1, by omega⟩
          rfl
      · rw [if_neg hm, if_neg hm]
        simp only [hm, decide_false, Bool.false_eq_true, if_false, Nat.add_zero] at hcount
        exact ih need p hnodup hneed hcount

/-- The copies of a tile in a hand, counted by slots. -/
theorem countP_slots (t : Mj) (p : Player) :
    (faces (p.decks.take p.normalCapacity)).count t.face
      ≤ (List.range p.normalCapacity).countP fun i => mjCompare t (p.deck i) = 0 := by
  generalize p.normalCapacity = n
  induction n with
  | zero => simp
  | succ n ih =>
      rw [List.range_succ, List.countP_append, List.take_add_one, faces_append, Multiset.count_add]
      refine Nat.add_le_add ih ?_
      cases hslot : p.decks[n]? with
      | none => simp
      | some m =>
          have hdeck : p.deck n = m := by simp [Player.deck, hslot]
          by_cases hm : mjCompare t m = 0
          · have hface : m.face = t.face := (mjCompare_eq_zero.mp hm).symm
            simp [hdeck, hm, faces_cons, hface]
          · have hface : m.face ≠ t.face := fun he => hm (mjCompare_eq_zero.mpr he.symm)
            simp [faces_cons, Ne.symm hface]

/-- A claim is the same on the server and in the client. -/
theorem layCopies_eq {k : Nat} {t : Mj} {p : Player} (hk : 1 ≤ k)
    (hcount : k ≤ (faces (p.decks.take p.normalCapacity)).count t.face) :
    layCopies k t p = Client.layCopies k t p := by
  have hloop := removeLoop_eq t (List.range p.normalCapacity) k (p.pushDoor t) List.nodup_range hk
    (hcount.trans (countP_slots t p))
  have hpush : Client.removeLoop t k (List.range p.normalCapacity) (Client.pushCopies t (k + 1) p)
      = Client.pushCopies t k (Client.removeLoop t k (List.range p.normalCapacity)
        (p.pushDoor t)) := by
    rw [Client.pushCopies, Client.removeLoop_pushCopies]
  unfold layCopies Client.layCopies
  simp only [Client.pushCopies_normalCapacity]
  rw [hpush, ← hloop]
  rfl

end Mahjong
