/-
What the win test is for: a hand wins when its tiles are a pair and
melds. Faces only; how the program finds out is not spoken of here.
-/
import Mahjong.Tile
import Mahjong.Lib.Packing

namespace Mahjong

open Packing

/-- A meld: three equal tiles, or three consecutive numbers of one suit
(honours form no runs). -/
inductive IsMeld : Multiset Face → Prop
  | triplet (f : Face) : IsMeld {f, f, f}
  | run (t n : Int) (hlo : 1 ≤ t) (hhi : t ≤ 3) :
      IsMeld {(t, n), (t, n + 1), (t, n + 2)}

/-- A set on a player's door: a meld, or four equal tiles. -/
inductive IsSet : Multiset Face → Prop
  | meld {s : Multiset Face} (h : IsMeld s) : IsSet s
  | kong (f : Face) : IsSet {f, f, f, f}

/-- A set as it lies on the door, its tiles in order. -/
inductive Group : List Face → Prop
  | triplet (f : Face) : Group [f, f, f]
  | kong (f : Face) : Group [f, f, f, f]
  | run (t n : Int) (hlo : 1 ≤ t) (hhi : t ≤ 3) :
      Group [(t, n), (t, n + 1), (t, n + 2)]

theorem Group.isSet {g : List Face} (h : Group g) : IsSet g := by
  cases h with
  | triplet f => exact .meld (.triplet f)
  | kong f => exact .kong f
  | run t n hlo hhi => exact .meld (.run t n hlo hhi)

theorem Group.length_bounds {g : List Face} (h : Group g) :
    3 ≤ g.length ∧ g.length ≤ 4 := by
  cases h <;> simp

/-- Groups side by side have three or four tiles each. -/
theorem Group.flatten_length {gs : List (List Face)} (h : ∀ g ∈ gs, Group g) :
    3 * gs.length ≤ gs.flatten.length ∧ gs.flatten.length ≤ 4 * gs.length := by
  induction gs with
  | nil => decide
  | cons g gs ih =>
      have hg := (h g (List.mem_cons_self ..)).length_bounds
      have hgs := ih fun g hg => h g (List.mem_cons_of_mem _ hg)
      simp only [List.flatten_cons, List.length_append, List.length_cons]
      omega

/-- And they fill what they are made of. -/
theorem Group.covers {gs : List (List Face)} (h : ∀ g ∈ gs, Group g) :
    Covers IsSet gs.length (gs.flatten : Multiset Face) := by
  refine ⟨gs.map Multiset.ofList, List.length_map _, ?_, ?_⟩
  · intro s hs
    obtain ⟨g, hg, rfl⟩ := List.mem_map.mp hs
    exact (h g hg).isSet
  · induction gs with
    | nil => rfl
    | cons g gs ih =>
        rw [List.map_cons, List.sum_cons, ih fun g hg => h g (List.mem_cons_of_mem _ hg),
          List.flatten_cons, Multiset.coe_add]

/-- One pair and `m` melds. -/
def Complete (m : Nat) (tiles : Multiset Face) : Prop :=
  ∃ (f : Face) (melds : Multiset Face), Covers IsMeld m melds
    ∧ tiles = {f, f} + melds

/-- Five melds, `5 - k` of them concealed, and a pair: what a winner
with `k` sets on the door has to have. -/
def Winning (concealed door : Multiset Face) : Prop :=
  ∃ k ≤ 5, Covers IsSet k door ∧ Complete (5 - k) concealed

/-- The faces of tiles, in no order. -/
def faces (tiles : List Mj) : Multiset Face := (tiles.map Mj.face : List Face)

theorem IsMeld.card {s : Multiset Face} (h : IsMeld s) :
    Multiset.card s = 3 := by
  cases h <;> rfl

@[simp] theorem faces_nil : faces [] = 0 := rfl

@[simp] theorem faces_cons (m : Mj) (l : List Mj) :
    faces (m :: l) = m.face ::ₘ faces l := rfl

@[simp] theorem faces_append (l r : List Mj) :
    faces (l ++ r) = faces l + faces r := by
  simp [faces]

@[simp] theorem card_faces (l : List Mj) : Multiset.card (faces l) = l.length := by
  simp [faces]

theorem faces_perm {l r : List Mj} (h : l.Perm r) : faces l = faces r :=
  Multiset.coe_eq_coe.mpr (h.map _)

theorem mem_faces {l : List Mj} {f : Face} :
    f ∈ faces l ↔ ∃ m ∈ l, m.face = f := by
  simp [faces]

end Mahjong
