/-
The opening of a round: shuffle and deal, as everybody is told of it.

`shuffle_n_deal` takes its sixteen tiles for each player from the front of
the wall, four at a time, puts the next of the wall in place of every
flower, sorts, and tells each player its tiles, its flowers and the end of
the transfer. The tiles are followed along with the wall that is left
(`Deal.lean`), the lines along with the log; what the players are told is
what they have in the end.

Nothing is asked of the players in between, so with players who
acknowledge every line (`Polite`) it comes to its end, and there is a run
that does.
-/
import Mahjong.Proofs.Deal
import Mahjong.Proofs.Polite

namespace Mahjong

open QuickSort

-- ===================================================================== the shuffle

/-- The wall is the tile set, in the order of the random numbers. -/
theorem shuffle_spec (rand : Nat → Int) :
    ((shuffle rand).map Mj.face).Perm tileSet
      ∧ (shuffle rand).Pairwise fun a b => a.priority ≤ b.priority := by
  set tiles := tileSet.zipIdx.map fun x => (⟨x.1.1, x.1.2, rand x.2⟩ : Mj) with htiles
  have hlen : tiles.length = 143 + 1 := by
    rw [htiles, List.length_map, List.length_zipIdx, tileSet_length]
  have hface : tiles.map Mj.face = tileSet := by
    rw [htiles, List.map_map]
    exact List.zipIdx_map_fst 0 tileSet
  obtain ⟨sorted, hsort, hperm, hpair⟩ := quickSort_prefix (t := []) Mj.priority hlen
  have hshuffle : shuffle rand = sorted := by
    rw [List.append_nil, List.append_nil] at hsort
    exact hsort
  rw [hshuffle]
  refine ⟨?_, hpair⟩
  rw [← hface]
  exact hperm.map _

/-- What `shuffle` leaves is a wall. -/
def shuffledWall (rand : Nat → Int) : Wall := ⟨shuffle rand, (shuffle_spec rand).1⟩

/-- The key of the sort puts tiles in the order of `mj_compare`: by type,
then by number. -/
theorem Mj.Real.key_le {a b : Mj} (ha : a.Real) (hb : b.Real) :
    a.key ≤ b.key ↔ mjCompare a b ≠ -1 := by
  unfold Mj.Real at ha hb
  unfold Mj.key mjCompare
  split
  · simp
    omega
  · split
    · simp
      omega
    · simp
      omega

namespace Server

open Process CString

-- ========================================================================= the deal

/-- Every index is within its array. -/
def InBounds : SOp → Game → Log → Prop
  | .note (.access a i), _, _ => 0 ≤ i ∧ i < (a.size : Int)
  | _, _, _ => True

/-- A player as the deal leaves one: sixteen tiles in order, the flowers
next to them. -/
structure Served (p : Player) : Prop where
  capacity : p.normalCapacity = 16
  length : p.decks.length = 20
  real : ∀ m ∈ p.decks.take 16, m.Real
  sorted : (p.decks.take 16).Pairwise fun a b => mjCompare a b ≠ -1
  empty : Nulls (p.decks.drop 16)
  flowers : ∀ m ∈ p.flowerTiles, m.type = flower
  rows : p.doorIndex = 0 ∧ p.seaIndex = 0

/-- The table as the deal leaves it: the hands and the flowers are the
tiles the cursor has passed. -/
structure Opened (rand : Nat → Int) (s : Game) : Prop where
  wall : s.shuffledMjs = shuffle rand
  served : ∀ q, Served (s.players q)
  takeIndex : s.takeIndex = 64 + ∑ q, (s.players q).flowerIndex
  flowers : ∑ q, (s.players q).flowerIndex ≤ 8
  used : ∑ q, (faces ((s.players q).decks.take 16) + faces (s.players q).flowerTiles)
    = faces ((shuffle rand).take s.takeIndex)

theorem Rests.served {p : Player} (hr : Rests p) (hb : Books p 0) (hsea : p.seaIndex = 0) :
    Served p := by
  obtain ⟨h, rest, hd, hrest, hh, hlen⟩ := hr
  have hcap : p.normalCapacity = 16 := hb.capacity
  have htake : p.decks.take 16 = h := by
    rw [hd, ← hcap, ← hlen, List.take_left]
  have hdrop : p.decks.drop 16 = rest := by
    rw [hd, ← hcap, ← hlen, List.drop_left]
  have hdoor : p.doorIndex = 0 := Nat.le_zero.mp hb.doorIndex_le
  refine ⟨hcap, hb.decks_length, ?_, ?_, ?_, hb.flowerTiles, hdoor, hsea⟩
  · rw [htake]
    exact hh.real
  · rw [htake]
    refine hh.sorted.imp_of_mem ?_
    intro a b ha hb hle
    exact ((hh.real a ha).key_le (hh.real b hb)).mp hle
  · rw [hdrop]
    exact hrest

theorem AfterDeal.opened {rand : Nat → Int} {s : Game} {w : Log}
    (h : AfterDeal (shuffledWall rand) s w) : Opened rand s := by
  have hserved := fun q => Rests.served (h.rests q) (h.books q) (h.seaIndex q)
  have hwall : s.shuffledMjs = shuffle rand := h.wall_eq
  have htake := h.takeIndex_le
  refine ⟨hwall, hserved, h.takeIndex_eq, ?_, ?_⟩
  · have heq := h.takeIndex_eq
    omega
  · have hused : ∑ q, (s.players q).stock = faces ((shuffle rand).take s.takeIndex) := h.used
    rw [← hused]
    refine Finset.sum_congr rfl fun q _ => ?_
    exact (Rests.stock_dealt (h.rests q) (h.books q) (h.seaIndex q)).symm

theorem inBounds_quiet : Quiet Plain InBounds Undecided := by
  constructor
  · decide
  · intro o r s w h ho
    exact h.log ho
  · intros
    trivial
  · intro e s w he _
    cases e <;> trivial
  all_goals
    intros
    trivial

/-- Shuffle and deal, whatever `rand` returns and whoever begins. -/
theorem shuffle_n_deal (rand : Nat → Int) (start : Seat) :
    ((shuffle rand).map Mj.face).Perm tileSet
      ∧ ((shuffle rand).Pairwise fun a b => a.priority ≤ b.priority)
      ∧ Finishes (fun _ => True) Polite Any (deal start (Game.init (shuffle rand)))
        (fun _ s' _ => Opened rand s') []
      ∧ (∃ tr s' w, Run (within Polite) (deal start (Game.init (shuffle rand))) [] tr
        (.ret () s') w ∧ Opened rand s')
      ∧ Meets anyone Any InBounds (deal start (Game.init (shuffle rand)))
        (fun _ _ _ => True) [] := by
  have hfair : FairAccess InBounds :=
    ⟨fun a i s w hpos hlt _ _ => ⟨hpos, hlt⟩, fun _ _ _ _ _ _ => trivial⟩
  have hdeal : ∀ ok, twp (within ok) Any InBounds (deal start (Game.init (shuffle rand)))
      (fun _ s' w' => AfterDeal (shuffledWall rand) s' w') [] :=
    fun _ => twp_deal hfair inBounds_quiet Declares.nil
  refine ⟨(shuffle_spec rand).1, (shuffle_spec rand).2, ?_, ?_, ?_⟩
  · refine ((hdeal _).mono fun _ _ _ h => h.opened).finishes ?_
    exact (polite_closed free_polite_courteous).deal start |>.neverStuck _ _
  · obtain ⟨tr, _, s', w, hrun, h⟩ := (hdeal Polite).returning
      ((polite_closed polite_courteous).deal start |>.neverStuck _ _)
    exact ⟨tr, s', w, hrun, h.opened⟩
  · exact ((hdeal _).wp.mono fun _ _ _ _ => trivial).meets

end Server

end Mahjong
