/-
The tests on a hand: `hu_recursive_check`, `hu_check`,
`is_gang_possible`, `is_pong_possible`, `is_eat_possible` and
`is_add_hu_possible`.

All of them work on a table `count[34]` of how many tiles of each kind
there are, indexed by `(type - 1) * 9 + number - 1`. The table is
indexed without a check. Here an index outside `0..33` falls outside
the 34 entries: such an increment is lost and such a lookup finds
nothing. Callers report the tiles they count (`Note.counts`), so that
whether an index was in range can be asked of a run.

`hu_recursive_check` changes its table in place and restores it on the
way back; it is modelled with the table passed along. Its recursion is
bounded by the sum of the table, from which each level takes three; a
table whose sum is used up has nothing left to take.
-/
import Mahjong.Tile

namespace Mahjong

-- ========================================================= the count table

/-- `(type - 1) * 9 + number - 1`. -/
def tileIndex (m : Mj) : Int := (m.type - 1) * 9 + m.number - 1

/-- `count[i]`. -/
def countAt (count : List Nat) (i : Int) : Nat :=
  if 0 ≤ i then count.getD i.toNat 0 else 0

/-- `count[i]++`. -/
def bump (count : List Nat) (i : Int) : List Nat :=
  if 0 ≤ i then count.modify i.toNat (· + 1) else count

/-- The loop that fills a fresh table from tiles. -/
def countTable (tiles : List Mj) : List Nat :=
  tiles.foldl (fun count m => bump count (tileIndex m)) (List.replicate 34 0)

/-- `count[i] -= d`. -/
def lower (count : List Nat) (i d : Nat) : List Nat := count.modify i (· - d)

/-- `count[i] += d`. -/
def raise (count : List Nat) (i d : Nat) : List Nat := count.modify i (· + d)

-- ======================================================= the win test proper

/-- The guard of a run (順子) from kind `i`. -/
def runGuard (count : List Nat) (i : Nat) : Bool :=
  i < 27 && count.getD i 0 ≥ 1 && i + 1 < 27 && count.getD (i + 1) 0 ≥ 1
    && i + 2 < 27 && count.getD (i + 2) 0 ≥ 1
    && i / 9 == (i + 1) / 9 && i / 9 == (i + 2) / 9

/-- The three decrements of a run. -/
def takeRun (count : List Nat) (i : Nat) : List Nat :=
  lower (lower (lower count i 1) (i + 1) 1) (i + 2) 1

/-- The three increments that undo a run. -/
def putRun (count : List Nat) (i : Nat) : List Nat :=
  raise (raise (raise count i 1) (i + 1) 1) (i + 2) 1

/-- The loop over the kinds, with the recursive call as `self`: the
answer and the table as it is left. -/
def huScan (self : List Nat → Bool × List Nat) :
    List Nat → List Nat → Bool × List Nat
  | count, [] => (false, count)
  | count, i :: is =>
      -- if there is 順子
      let run := if runGuard count i then self (takeRun count i) else (false, count)
      if run.1 then run
      else
        let count := if runGuard count i then putRun run.2 i else run.2
        -- if there is 刻子
        let triplet :=
          if count.getD i 0 ≥ 3 then self (lower count i 3) else (false, count)
        if triplet.1 then triplet
        else huScan self (if count.getD i 0 ≥ 3 then raise triplet.2 i 3 else triplet.2) is

/-- `hu_recursive_check` with a bound on the depth. -/
def huDepth : Nat → List Nat → Int → Bool × List Nat
  | 0, count, n => (n == 0, count)
  | depth + 1, count, n =>
      if n == 0 then (true, count)
      else huScan (fun count' => huDepth depth count' (n - 3)) count (List.range 34)

/-- `hu_recursive_check(count, n)`: what it returns and the table it
leaves. -/
def huRecursiveCheck (count : List Nat) (n : Int) : Bool × List Nat :=
  huDepth count.sum count n

/-- The loop over the pairs of `hu_check` and `is_add_hu_possible`. -/
def huPairs (n : Int) : List Nat → List Nat → Bool
  | _, [] => false
  | count, i :: is =>
      if count.getD i 0 ≥ 2 then
        let r := huRecursiveCheck (lower count i 2) n
        if r.1 then true else huPairs n (raise r.2 i 2) is
      else huPairs n count is

/-- The insertion loop of `hu_check`: shift greater tiles up from
`insertindex = j - 1` until the place of the gotten tile is found. -/
def insertLoop (gotten : Mj) : Nat → List Mj → Nat × List Mj
  | 0, carbon => (0, carbon)
  | j + 1, carbon =>
      if mjCompare (carbon.getD j Mj.null) gotten = -1 then
        insertLoop gotten j (carbon.set (j + 1) (carbon.getD j Mj.null))
      else (j + 1, carbon)

/-- `hu_check(decks, nc)`: can the tiles `decks[0..nc]` win? -/
def huCheck (decks : List Mj) (nc : Nat) : Bool :=
  let carbon := decks.take (nc + 1) ++ List.replicate (17 - (nc + 1)) Mj.null
  let gotten := carbon.getD nc Mj.null
  let shifted := insertLoop gotten nc carbon
  let carbon := shifted.2.set shifted.1 gotten
  huPairs ((nc : Int) - 1) (countTable (carbon.take (nc + 1))) (List.range 34)

-- ========================================================== the claim tests

/-- `is_gang_possible(deck, nc)`. -/
def isGangPossible (deck : List Mj) (nc : Nat) (discarded : Mj) : Bool :=
  countAt (countTable (deck.take nc)) (tileIndex discarded) ≥ 3

/-- `is_pong_possible(deck, nc)`. -/
def isPongPossible (deck : List Mj) (nc : Nat) (discarded : Mj) : Bool :=
  countAt (countTable (deck.take nc)) (tileIndex discarded) ≥ 2

/-- `is_eat_possible(deck, nc)`; C's division truncates. -/
def isEatPossible (deck : List Mj) (nc : Nat) (discarded : Mj) : Bool :=
  if discarded.type = dazi then false
  else
    let count := countTable (deck.take nc)
    let target := tileIndex discarded
    if target + 1 < 34 ∧ countAt count (target + 1) ≥ 1
        ∧ target + 2 < 34 ∧ countAt count (target + 2) ≥ 1
        ∧ target.tdiv 9 = (target + 1).tdiv 9
        ∧ target.tdiv 9 = (target + 2).tdiv 9 then true
    else if target + 1 < 34 ∧ countAt count (target + 1) ≥ 1
        ∧ target - 1 ≥ 0 ∧ countAt count (target - 1) ≥ 1
        ∧ target.tdiv 9 = (target + 1).tdiv 9
        ∧ target.tdiv 9 = (target - 1).tdiv 9 then true
    else if target - 2 ≥ 0 ∧ countAt count (target - 2) ≥ 1
        ∧ target - 1 ≥ 0 ∧ countAt count (target - 1) ≥ 1
        ∧ target.tdiv 9 = (target - 2).tdiv 9
        ∧ target.tdiv 9 = (target - 1).tdiv 9 then true
    else false

/-- `is_add_hu_possible(deck, nc)`. -/
def isAddHuPossible (deck : List Mj) (nc : Nat) (discarded : Mj) : Bool :=
  let count := bump (countTable (deck.take nc)) (tileIndex discarded)
  huPairs ((nc : Int) - 1) count (List.range 34)

end Mahjong
