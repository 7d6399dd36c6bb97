/-
The two sorts and `hu_recursive_check` as the source runs them, loop turn
by loop turn and access by access, in arrays of which they may touch a
window only (`Lib/Window.lean`). `none` is a run that left its window or
ran out of fuel.

The rest of the model works with the functions of `Check.lean` and
`State.lean`; that these runs end with what those compute is proved in
`Proofs/Sorting.lean` and `Proofs/Backtrack.lean`.
-/
import Mahjong.Server.State
import Mahjong.Lib.Window

namespace Mahjong

open QuickSort

-- =================================================================== sorts

/-- `decks_quick_sort(mjs, start, stop)`; the client has the same. -/
def decksQuickSortIn (w : Window) (fuel : Nat) (mjs : List Mj) (start stop : Int) :
    Option (List Mj) :=
  quickSortIn w Mj.key fuel mjs start stop

/-- `priority_quick_sort(mjs, start, stop)`. -/
def priorityQuickSortIn (w : Window) (fuel : Nat) (mjs : List Mj)
    (start stop : Int) : Option (List Mj) :=
  quickSortIn w Mj.priority fuel mjs start stop

-- ======================================================= the win test proper

section HuRecursiveCheck

variable (w : Window)

/-- `a && b`: the right side runs only if the left side is true. -/
def andAlso (a b : Option Bool) : Option Bool :=
  a.bind fun a => if a then b else some false

/-- `count[i] >= k`. -/
def atLeast (count : List Nat) (i : Int) (k : Nat) : Option Bool :=
  (w.get count i).map fun c => decide (c ≥ k)

/-- The guard of a run (順子) from kind `i`. -/
def runGuardIn (count : List Nat) (i : Nat) : Option Bool :=
  andAlso (some (i < 27)) <| andAlso (atLeast w count i 1) <|
    andAlso (some (i + 1 < 27)) <| andAlso (atLeast w count (i + 1) 1) <|
    andAlso (some (i + 2 < 27)) <| andAlso (atLeast w count (i + 2) 1) <|
    some (i / 9 == (i + 1) / 9 && i / 9 == (i + 2) / 9)

/-- The three decrements of a run; the guard has seen that there is
something to take. -/
def takeRunIn (count : List Nat) (i : Nat) : Option (List Nat) :=
  (w.update count i (· - 1)).bind fun count =>
    (w.update count (i + 1) (· - 1)).bind fun count =>
      w.update count (i + 2) (· - 1)

/-- The three increments that undo a run. -/
def putRunIn (count : List Nat) (i : Nat) : Option (List Nat) :=
  (w.update count i (· + 1)).bind fun count =>
    (w.update count (i + 1) (· + 1)).bind fun count =>
      w.update count (i + 2) (· + 1)

/-- The loop over the kinds, with the recursive call as `self`. -/
def huScanIn (self : List Nat → Option (Bool × List Nat)) :
    List Nat → List Nat → Option (Bool × List Nat)
  | count, [] => some (false, count)
  | count, i :: is =>
      -- if there is 順子
      (runGuardIn w count i).bind fun guard =>
      (if guard then (takeRunIn w count i).bind self else some (false, count)).bind
        fun run =>
      if run.1 then some run
      else
        (if guard then putRunIn w run.2 i else some run.2).bind fun count =>
        -- if there is 刻子
        (atLeast w count i 3).bind fun guard =>
        (if guard then (w.update count i (· - 3)).bind self
          else some (false, count)).bind fun triplet =>
        if triplet.1 then some triplet
        else
          (if guard then w.update triplet.2 i (· + 3) else some triplet.2).bind
            fun count => huScanIn self count is

/-- `hu_recursive_check(count, n)`. -/
def huRecursiveCheckIn : Nat → List Nat → Int → Option (Bool × List Nat)
  | 0, _, _ => none
  | fuel + 1, count, n =>
      if n == 0 then some (true, count)
      else
        huScanIn w (fun count' => huRecursiveCheckIn fuel count' (n - 3)) count
          (List.range 34)

end HuRecursiveCheck

end Mahjong
