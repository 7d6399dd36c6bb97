/-
`hu_recursive_check` as it runs: it ends, within its 34 entries, with
the right answer, and the table it leaves is all zero or untouched.

# The argument

The run (`huRecursiveCheckIn`) is the search of `Check.lean` with every
access seen. Each guard and each decrement stays below entry 34
(`runGuardIn_eq`, `takeRunIn_eq`), so a scan whose recursive calls agree
with the search agrees with the search (`huScanIn_eq`); here the entries
put back after a refused call have to be the old ones, which is what
`huDepth_spec` says. Every call takes three out of the table, so fuel
above the sum of the table is enough (`huRecursiveCheckIn_eq`), and when
the answer is yes three for every meld are gone (`huDepth_sum`).
-/
import Mahjong.Proofs.WinTest
import Mahjong.Server.Within

namespace Mahjong

open Packing

-- ======================================================= accesses in the table

/-- The entries of a count table. -/
abbrev entries : Window := ⟨0, 33⟩

theorem atLeast_eq {count : List Nat} (hlen : count.length = 34) {i : Nat}
    (hi : i < 34) (k : Nat) :
    atLeast entries count i k = some (decide (count.getD i 0 ≥ k)) := by
  have hlt : i < count.length := by omega
  unfold atLeast
  rw [Window.get_natCast (by simp) (by simp; omega), List.getD_eq_getElem?_getD,
    List.getElem?_eq_getElem hlt]
  rfl

theorem update_lower {count : List Nat} (hlen : count.length = 34) {i : Nat}
    (hi : i < 34) (d : Nat) :
    entries.update count i (· - d) = some (lower count i d) :=
  Window.update_natCast (by simp) (by simp; omega) (by omega) _

theorem update_raise {count : List Nat} (hlen : count.length = 34) {i : Nat}
    (hi : i < 34) (d : Nat) :
    entries.update count i (· + d) = some (raise count i d) :=
  Window.update_natCast (by simp) (by simp; omega) (by omega) _

@[simp] theorem andAlso_some (a b : Bool) : andAlso (some a) (some b) = some (a && b) := by
  cases a <;> rfl

@[simp] theorem andAlso_false (b : Option Bool) : andAlso (some false) b = some false := rfl

@[simp] theorem length_lower (count : List Nat) (i d : Nat) :
    (lower count i d).length = count.length := List.length_modify _ _ _

@[simp] theorem length_raise (count : List Nat) (i d : Nat) :
    (raise count i d).length = count.length := List.length_modify _ _ _

@[simp] theorem length_takeRun (count : List Nat) (i : Nat) :
    (takeRun count i).length = count.length := by
  simp [takeRun]

/-- The guard reads no entry past the suits: its bounds come first. -/
theorem runGuardIn_eq {count : List Nat} (hlen : count.length = 34) {i : Nat}
    (hi : i < 34) : runGuardIn entries count i = some (runGuard count i) := by
  have h0 := atLeast_eq hlen hi 1
  unfold runGuardIn
  by_cases h27 : i < 27
  case neg =>
    have hno : runGuard count i = false := by
      rw [Bool.eq_false_iff, Ne, runGuard_iff]
      omega
    rw [decide_eq_false h27, andAlso_false, hno]
  case pos =>
    have h1 := atLeast_eq hlen (by omega : i + 1 < 34) 1
    have h2 := atLeast_eq hlen (by omega : i + 2 < 34) 1
    push_cast at h1 h2
    rw [h0, h1, h2]
    simp only [andAlso_some, runGuard, Bool.and_assoc]

theorem takeRunIn_eq {count : List Nat} (hlen : count.length = 34) {i : Nat}
    (hi : i + 2 < 34) : takeRunIn entries count i = some (takeRun count i) := by
  have hlen1 : (lower count i 1).length = 34 := by rw [length_lower, hlen]
  have hlen2 : (lower (lower count i 1) (i + 1) 1).length = 34 := by
    rw [length_lower, hlen1]
  have h1 := update_lower hlen1 (by omega : i + 1 < 34) 1
  have h2 := update_lower hlen2 hi 1
  push_cast at h1 h2
  unfold takeRunIn takeRun
  rw [update_lower hlen (by omega) 1, Option.bind_some, h1, Option.bind_some, h2]

theorem putRunIn_eq {count : List Nat} (hlen : count.length = 34) {i : Nat}
    (hi : i + 2 < 34) : putRunIn entries count i = some (putRun count i) := by
  have hlen1 : (raise count i 1).length = 34 := by rw [length_raise, hlen]
  have hlen2 : (raise (raise count i 1) (i + 1) 1).length = 34 := by
    rw [length_raise, hlen1]
  have h1 := update_raise hlen1 (by omega : i + 1 < 34) 1
  have h2 := update_raise hlen2 hi 1
  push_cast at h1 h2
  unfold putRunIn putRun
  rw [update_raise hlen (by omega) 1, Option.bind_some, h1, Option.bind_some, h2]

-- ================================================================= the scan

/-- On tables with three tiles less than `count` the call `run` does what
`search` does, which puts back what it took when its answer is no. -/
structure Follows (run : List Nat → Option (Bool × List Nat))
    (search : List Nat → Bool × List Nat) (count : List Nat) : Prop where
  runs : ∀ c : List Nat, c.length = 34 → c.sum + 3 = count.sum → run c = some (search c)
  restores : ∀ c : List Nat, c.length = 34 → c.sum + 3 = count.sum →
    Restores search c

section Scan

variable {selfIn : List Nat → Option (Bool × List Nat)}
  {self : List Nat → Bool × List Nat} {count : List Nat} {i : Nat}

/-- A run is found. -/
theorem huScan_run (is : List Nat) (hg : runGuard count i = true)
    (hs : (self (takeRun count i)).1 = true) :
    huScan self count (i :: is) = self (takeRun count i) := by
  unfold huScan
  simp [hg, hs]

/-- No run is found, but a triplet. -/
theorem huScan_triplet (is : List Nat)
    (hrun : runGuard count i = true → (self (takeRun count i)).1 = false
      ∧ Restores self (takeRun count i))
    (ht : 3 ≤ count.getD i 0) (hs : (self (lower count i 3)).1 = true) :
    huScan self count (i :: is) = self (lower count i 3) := by
  unfold huScan
  by_cases hg : runGuard count i = true
  · obtain ⟨hno, hback⟩ := hrun hg
    simp [-List.getD_eq_getElem?_getD, hg, hno, hback hno, putRun_takeRun hg, ht, hs]
  · simp [-List.getD_eq_getElem?_getD, hg, ht, hs]

/-- A run that is not there, or leads nowhere, leaves the table. -/
theorem runIn_refused (hlen : count.length = 34) (hi : i < 34)
    (h : Follows selfIn self count)
    (hno : runGuard count i = true → (self (takeRun count i)).1 = false)
    (k : List Nat → Option (Bool × List Nat)) :
    ((if runGuard count i = true then (takeRunIn entries count i).bind selfIn
        else some (false, count)).bind fun run =>
      if run.1 = true then some run
      else (if runGuard count i = true then putRunIn entries run.2 i
        else some run.2).bind k) = k count := by
  by_cases hg : runGuard count i = true
  case pos =>
    have hlt := (runGuard_iff.mp hg).1
    have htake : (takeRun count i).length = 34 := by
      rw [length_takeRun, hlen]
    have hsum := sum_takeRun hg
    rw [if_pos hg, takeRunIn_eq hlen (by omega), Option.bind_some,
      h.runs _ htake hsum, Option.bind_some, hno hg, if_neg Bool.false_ne_true,
      if_pos hg, h.restores _ htake hsum (hno hg), putRunIn_eq htake (by omega),
      Option.bind_some, putRun_takeRun hg]
  case neg =>
    rw [if_neg hg, Option.bind_some, if_neg Bool.false_ne_true, if_neg hg,
      Option.bind_some]

/-- And so does a triplet. -/
theorem tripletIn_refused (hlen : count.length = 34) (hi : i < 34)
    (h : Follows selfIn self count)
    (hno : 3 ≤ count.getD i 0 → (self (lower count i 3)).1 = false)
    (k : List Nat → Option (Bool × List Nat)) :
    ((if 3 ≤ count.getD i 0 then (entries.update count i (· - 3)).bind selfIn
        else some (false, count)).bind fun triplet =>
      if triplet.1 = true then some triplet
      else (if 3 ≤ count.getD i 0 then entries.update triplet.2 i (· + 3)
        else some triplet.2).bind k) = k count := by
  by_cases ht : 3 ≤ count.getD i 0
  case pos =>
    have hlower : (lower count i 3).length = 34 := by
      rw [length_lower, hlen]
    have hsum := sum_modify count i 3 ht
    rw [if_pos ht, update_lower hlen hi, Option.bind_some, h.runs _ hlower hsum,
      Option.bind_some, hno ht, if_neg Bool.false_ne_true, if_pos ht,
      h.restores _ hlower hsum (hno ht), update_raise hlower hi, Option.bind_some,
      raise_lower ht]
  case neg =>
    rw [if_neg ht, Option.bind_some, if_neg Bool.false_ne_true, if_neg ht,
      Option.bind_some]

/-- The scan stays in the table and does what the search does. -/
theorem huScanIn_eq (hlen : count.length = 34) (h : Follows selfIn self count)
    (is : List Nat) (his : ∀ i ∈ is, i < 34) :
    huScanIn entries selfIn count is = some (huScan self count is) := by
  induction is with
  | nil => rfl
  | cons i is ih =>
      have hi := his i (List.mem_cons_self ..)
      have ih := ih fun j hj => his j (List.mem_cons_of_mem _ hj)
      have hrestores : runGuard count i = true → Restores self (takeRun count i) :=
        fun hg => h.restores _ (by rw [length_takeRun, hlen]) (sum_takeRun hg)
      rw [huScanIn, runGuardIn_eq hlen hi, Option.bind_some]
      by_cases hrun : runGuard count i = true ∧ (self (takeRun count i)).1 = true
      case pos =>
        obtain ⟨hg, hs⟩ := hrun
        have hlt := (runGuard_iff.mp hg).1
        rw [huScan_run is hg hs, if_pos hg, takeRunIn_eq hlen (by omega),
          Option.bind_some,
          h.runs _ (by rw [length_takeRun, hlen]) (sum_takeRun hg),
          Option.bind_some, if_pos hs]
      case neg =>
        have hno : runGuard count i = true → (self (takeRun count i)).1 = false :=
          fun hg => Bool.eq_false_iff.mpr fun hs => hrun ⟨hg, hs⟩
        rw [runIn_refused hlen hi h hno, atLeast_eq hlen hi, Option.bind_some]
        simp only [ge_iff_le, decide_eq_true_eq]
        by_cases htri : 3 ≤ count.getD i 0 ∧ (self (lower count i 3)).1 = true
        case pos =>
          obtain ⟨ht, hs⟩ := htri
          rw [huScan_triplet is (fun hg => ⟨hno hg, hrestores hg⟩) ht hs, if_pos ht,
            update_lower hlen hi, Option.bind_some,
            h.runs _ (by rw [length_lower, hlen]) (sum_modify count i 3 ht),
            Option.bind_some, if_pos hs]
        case neg =>
          have hno' : 3 ≤ count.getD i 0 → (self (lower count i 3)).1 = false :=
            fun ht => Bool.eq_false_iff.mpr fun hs => htri ⟨ht, hs⟩
          rw [tripletIn_refused hlen hi h hno', ih, huScan_skip _ hrestores]
          · intro ht
            exact h.restores _ (by rw [length_lower, hlen]) (sum_modify count i 3 ht)
          · intro hgo
            cases hgo with
            | inl hr => exact hrun hr
            | inr ht => exact htri ht

/-- A scan that says yes has found a run or a triplet, and leaves what the
recursive call left. -/
theorem huScan_value (hlen : count.length = 34)
    (hback : ∀ c : List Nat, c.length = 34 → c.sum + 3 = count.sum → Restores self c)
    (is : List Nat) (hyes : (huScan self count is).1 = true) :
    ∃ c : List Nat, c.length = 34 ∧ c.sum + 3 = count.sum ∧ (self c).1 = true
      ∧ huScan self count is = self c := by
  induction is with
  | nil => exact absurd hyes Bool.false_ne_true
  | cons i is ih =>
      have hrestores : runGuard count i = true → Restores self (takeRun count i) :=
        fun hg => hback _ (by rw [length_takeRun, hlen]) (sum_takeRun hg)
      by_cases hrun : runGuard count i = true ∧ (self (takeRun count i)).1 = true
      case pos =>
        obtain ⟨hg, hs⟩ := hrun
        exact ⟨takeRun count i, by rw [length_takeRun, hlen], sum_takeRun hg, hs,
          huScan_run is hg hs⟩
      case neg =>
        have hno : runGuard count i = true → (self (takeRun count i)).1 = false :=
          fun hg => Bool.eq_false_iff.mpr fun hs => hrun ⟨hg, hs⟩
        by_cases htri : 3 ≤ count.getD i 0 ∧ (self (lower count i 3)).1 = true
        case pos =>
          obtain ⟨ht, hs⟩ := htri
          exact ⟨lower count i 3, by rw [length_lower, hlen], sum_modify count i 3 ht,
            hs, huScan_triplet is (fun hg => ⟨hno hg, hrestores hg⟩) ht hs⟩
        case neg =>
          have hskip : huScan self count (i :: is) = huScan self count is := by
            apply huScan_skip _ hrestores
            · intro ht
              exact hback _ (by rw [length_lower, hlen]) (sum_modify count i 3 ht)
            · intro hgo
              cases hgo with
              | inl hr => exact hrun hr
              | inr ht => exact htri ht
          rw [hskip] at hyes ⊢
          exact ih hyes

end Scan

-- ====================================================== the table as kinds

/-- A meld of kinds: three of one kind, or one each of three neighbours
inside one of the blocks 0..8, 9..17 and 18..26. -/
inductive KindMeld : Multiset Nat → Prop
  | triplet (i : Nat) (hi : i < 34) : KindMeld {i, i, i}
  | run (block i : Nat) (hblock : block < 3) (hlo : 9 * block ≤ i)
      (hhi : i + 2 ≤ 9 * block + 8) : KindMeld {i, i + 1, i + 2}

/-- The kinds a table counts, each as often as it says. -/
def kinds (count : List Nat) : Multiset Nat :=
  ∑ i ∈ Finset.range 34, Multiset.replicate (count.getD i 0) i

theorem count_kinds (count : List Nat) {i : Nat} (hi : i < 34) :
    (kinds count).count i = count.getD i 0 := by
  unfold kinds
  rw [Multiset.count_sum']
  simp only [Multiset.count_replicate, Finset.sum_ite_eq', Finset.mem_range, if_pos hi]

theorem lt_of_mem_kinds {count : List Nat} {i : Nat} (h : i ∈ kinds count) : i < 34 := by
  unfold kinds at h
  obtain ⟨j, hj, hi⟩ := Multiset.mem_sum.mp h
  rw [Multiset.eq_of_mem_replicate hi]
  exact Finset.mem_range.mp hj

theorem sum_getD (count : List Nat) :
    ∑ i ∈ Finset.range count.length, count.getD i 0 = count.sum := by
  induction count with
  | nil => rfl
  | cons c count ih =>
      rw [List.length_cons, Finset.sum_range_succ', List.sum_cons, ← ih, add_comm]
      rfl

theorem card_kinds {count : List Nat} (hlen : count.length = 34) :
    Multiset.card (kinds count) = count.sum := by
  unfold kinds
  simp only [Multiset.card_sum, Multiset.card_replicate]
  rw [← hlen, sum_getD]

/-- The kinds' faces are what the table stands for. -/
theorem kinds_table {count : List Nat} (hlen : count.length = 34) :
    Table count ((kinds count).map faceOf) := by
  have hinj : Function.Injective faceOf := fun i j => faceOf_inj
  constructor
  case length => exact hlen
  case entry =>
    intro i hi
    rw [Multiset.count_map_eq_count' faceOf _ hinj, count_kinds count hi]
  case kinds =>
    intro f hf
    obtain ⟨i, hi, rfl⟩ := Multiset.mem_map.mp hf
    exact ⟨i, lt_of_mem_kinds hi, rfl⟩

/-- Melds of kinds are melds of their faces. -/
theorem covers_kinds {count : List Nat} (hlen : count.length = 34) {n : Nat} :
    Covers KindMeld n (kinds count) ↔ Covers IsMeld n ((kinds count).map faceOf) := by
  constructor
  · apply Covers.map
    intro s hs
    cases hs with
    | triplet i hi => exact .triplet (faceOf i)
    | run block i hblock hlo hhi => exact runAt_meld (by omega) (by omega) (by omega)
  · apply Covers.of_map
    · intro s hs hle
      obtain ⟨i, hi, hfound⟩ := (kinds_table hlen).meld_iff.mp ⟨hs, hle⟩
      cases hfound with
      | inl hrun =>
          obtain ⟨hlt, h1, h2, -⟩ := runGuard_iff.mp hrun.1
          exact ⟨{i, i + 1, i + 2}, .run (i / 9) i (by omega) (by omega) (by omega),
            hrun.2.symm⟩
      | inr htri => exact ⟨{i, i, i}, .triplet i hi, htri.2.symm⟩
    · exact fun i j => faceOf_inj

-- ============================================================ the recursion

/-- The recursive calls put back what they took. -/
theorem huDepth_restores {depth n : Nat} {c : List Nat} (hlen : c.length = 34)
    (hsum : c.sum ≤ depth) :
    Restores (fun c => huDepth depth c (3 * (n : Int))) c :=
  (huDepth_spec depth (kinds_table hlen) hsum).2

/-- A yes has taken three tiles for every meld. -/
theorem huDepth_sum (depth : Nat) : ∀ {n : Nat} {count : List Nat},
    count.length = 34 → count.sum ≤ depth →
      (huDepth depth count (3 * (n : Int))).1 = true →
      (huDepth depth count (3 * (n : Int))).2.length = 34
        ∧ (huDepth depth count (3 * (n : Int))).2.sum + 3 * n = count.sum := by
  induction depth with
  | zero =>
      intro n count hlen _ hyes
      cases n with
      | zero => exact ⟨hlen, rfl⟩
      | succ n =>
          rw [huDepth, beq_iff_eq] at hyes
          omega
  | succ depth ih =>
      intro n count hlen hsum hyes
      cases n with
      | zero =>
          rw [huDepth_none]
          exact ⟨hlen, rfl⟩
      | succ n =>
          rw [huDepth_scan] at hyes ⊢
          obtain ⟨c, hclen, hcsum, hcyes, hc⟩ := huScan_value hlen
            (fun c hclen hcsum => huDepth_restores hclen (by omega)) _ hyes
          obtain ⟨hlen', hsum'⟩ := ih hclen (by omega) hcyes
          rw [hc]
          exact ⟨hlen', by omega⟩

/-- Fuel above the sum of the table is enough for the run to end, inside
the table, with what the search computes. -/
theorem huRecursiveCheckIn_eq (fuel : Nat) : ∀ {depth n : Nat} {count : List Nat},
    count.length = 34 → count.sum ≤ depth → count.sum < fuel →
      huRecursiveCheckIn entries fuel count (3 * (n : Int))
        = some (huDepth depth count (3 * (n : Int))) := by
  induction fuel with
  | zero => intro depth n count _ _ h; omega
  | succ fuel ih =>
      intro depth n count hlen hdepth hfuel
      cases n with
      | zero =>
          rw [huDepth_none]
          rfl
      | succ n =>
          have hne : (3 * ((n + 1 : Nat) : Int) == 0) = false := by
            rw [beq_eq_false_iff_ne]
            omega
          have hn : 3 * ((n + 1 : Nat) : Int) - 3 = 3 * (n : Int) := by
            push_cast
            ring
          have hrange : ∀ i ∈ List.range 34, i < 34 := fun i => List.mem_range.mp
          rw [huRecursiveCheckIn, hne, if_neg Bool.false_ne_true, hn]
          cases depth with
          | zero =>
              -- nothing left to take: the scan finds nothing
              have hsearch : Follows
                  (fun c => huRecursiveCheckIn entries fuel c (3 * (n : Int)))
                  (fun c => huDepth 0 c (3 * (n : Int))) count :=
                ⟨fun c _ hc => by omega, fun c _ hc => by omega⟩
              have hno : (huScan (fun c => huDepth 0 c (3 * (n : Int))) count
                  (List.range 34)).1 = false := by
                rw [Bool.eq_false_iff]
                intro hyes
                obtain ⟨c, -, hc, -⟩ := huScan_value hlen hsearch.restores _ hyes
                omega
              have hsame := (huScan_spec
                (fun i hg => by have := sum_takeRun hg; omega)
                (fun i hc => by have := sum_modify count i 3 hc; omega)
                (List.range 34)).2 hno
              rw [huScanIn_eq hlen hsearch _ hrange, Option.some_inj, huDepth, hne]
              exact Prod.ext hno hsame
          | succ depth =>
              have hsearch : Follows
                  (fun c => huRecursiveCheckIn entries fuel c (3 * (n : Int)))
                  (fun c => huDepth depth c (3 * (n : Int))) count :=
                ⟨fun c hclen hc => ih hclen (by omega) (by omega),
                  fun c hclen hc => huDepth_restores hclen (by omega)⟩
              rw [huScanIn_eq hlen hsearch _ hrange, huDepth_scan]

-- ============================================================== backtracking

/-- On any table of a multiple of three tiles `hu_recursive_check` ends,
looks at entries of the table only, says yes exactly when the table is a
sum of melds, and leaves it empty after a yes and as it was after a no. -/
theorem huRecursiveCheck_backtracks (count : List Nat) (hlen : count.length = 34)
    (hsum : 3 ∣ count.sum) :
    ∃ (answer : Bool) (left : List Nat),
      (∃ enough, ∀ fuel ≥ enough,
        huRecursiveCheckIn ⟨0, 33⟩ fuel count count.sum = some (answer, left))
      ∧ huRecursiveCheck count count.sum = (answer, left)
      ∧ (answer = true ↔ Covers KindMeld (count.sum / 3) (kinds count))
      ∧ (answer = true → left = List.replicate 34 0)
      ∧ (answer = false → left = count) := by
  obtain ⟨n, hn⟩ := hsum
  have hcast : ((count.sum : Nat) : Int) = 3 * (n : Int) := by omega
  have htable := kinds_table hlen
  obtain ⟨hyes, hno⟩ := huRecursiveCheck_spec (n := n) htable
  refine ⟨(huRecursiveCheck count count.sum).1, (huRecursiveCheck count count.sum).2,
    ⟨count.sum + 1, ?_⟩, rfl, ?_, ?_, ?_⟩
  · intro fuel hfuel
    rw [hcast]
    exact huRecursiveCheckIn_eq fuel hlen le_rfl (by omega)
  · rw [hcast, hyes, covers_kinds hlen, show count.sum / 3 = n by omega]
    apply packs_iff_covers fun s => IsMeld.card
    rw [Multiset.card_map, card_kinds hlen]
    omega
  · intro h
    rw [hcast] at h ⊢
    obtain ⟨hlen', hsum'⟩ := huDepth_sum count.sum hlen le_rfl h
    rw [List.eq_replicate_iff]
    refine ⟨hlen', fun x hx => ?_⟩
    have hx := List.single_le_sum (fun _ _ => Nat.zero_le _) x hx
    unfold huRecursiveCheck at hx
    omega
  · intro h
    rw [hcast] at h ⊢
    exact hno h

/-- The run has to be taken before the third kind's triplet. -/
theorem huRecursiveCheck_backtracks_mixed :
    huRecursiveCheck ([1, 1, 4, 3] ++ List.replicate 30 0) 9
      = (true, List.replicate 34 0) := by
  obtain ⟨answer, left, -, hrun, hyes, hempty, -⟩ := huRecursiveCheck_backtracks
    ([1, 1, 4, 3] ++ List.replicate 30 0) rfl (by decide)
  have hcovers : Covers KindMeld 3 (kinds ([1, 1, 4, 3] ++ List.replicate 30 0)) := by
    refine ⟨[{0, 1, 2}, {2, 2, 2}, {3, 3, 3}], rfl, ?_, by decide +kernel⟩
    simp only [List.mem_cons, List.not_mem_nil, or_false, forall_eq_or_imp, forall_eq]
    exact ⟨.run 0 0 (by decide) (by decide) (by decide), .triplet 2 (by decide),
      .triplet 3 (by decide)⟩
  have htrue := hyes.mpr hcovers
  rw [hempty htrue, htrue] at hrun
  exact hrun

end Mahjong
