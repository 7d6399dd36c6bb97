/-
The win test decides `Complete`, and the two places it is made agree.

# The argument

A count table stands for a multiset of faces (`Table`): 34 entries, each
the multiplicity of its kind. Taking a run or a triplet out of the table
takes the meld out of the multiset, putting it back restores the table,
and the guards of the scan hold exactly for the melds that are there
(`meld_iff`). So the scan finds a meld after which the recursive call
succeeds if there is one, and otherwise leaves the table as it found it
(`huScan_spec`); by induction on the depth the recursion decides whether
`n` melds fit (`huDepth_spec`). Around it, `hu_check` first moves the
gotten tile to its place, which only permutes the tiles
(`insertLoop_perm`).
-/
import Mahjong.Server.State
import Mahjong.Meld

namespace Mahjong

open Packing QuickSort

-- ======================================================= kinds and their faces

/-- The face of the kind with index `i`. -/
def faceOf (i : Nat) : Face := ((i / 9 : Nat) + 1, (i % 9 : Nat) + 1)

theorem faceOf_inj {i j : Nat} (h : faceOf i = faceOf j) : i = j := by
  simp only [faceOf, Prod.mk.injEq] at h
  omega

theorem faceOf_succ {i : Nat} (h : i / 9 = (i + 1) / 9) :
    faceOf (i + 1) = ((faceOf i).1, (faceOf i).2 + 1) := by
  simp only [faceOf, Prod.mk.injEq]
  omega

/-- A tile that can stand in a hand has an index within the table. -/
theorem Mj.Real.index {m : Mj} (h : m.Real) :
    ∃ i : Nat, i < 34 ∧ tileIndex m = (i : Int) ∧ m.face = faceOf i := by
  refine ⟨(tileIndex m).toNat, ?_⟩
  unfold Mj.Real at h
  simp only [tileIndex, Mj.face, faceOf, Prod.mk.injEq]
  omega

-- ========================================================== tables as multisets

/-- `count` is the count table of the faces `T`. -/
structure Table (count : List Nat) (T : Multiset Face) : Prop where
  length : count.length = 34
  entry : ∀ i < 34, count.getD i 0 = T.count (faceOf i)
  kinds : ∀ f ∈ T, ∃ i < 34, f = faceOf i

theorem getD_modify (count : List Nat) (f : Nat → Nat) (i j : Nat)
    (hi : i < count.length) :
    (count.modify i f).getD j 0
      = if i = j then f (count.getD i 0) else count.getD j 0 := by
  rw [List.getD_eq_getElem?_getD, List.getD_eq_getElem?_getD,
    List.getD_eq_getElem?_getD, List.getElem?_modify]
  by_cases hij : i = j
  · subst hij
    rw [if_pos rfl, List.getElem?_eq_getElem hi]
    simp
  · rw [if_neg hij]
    cases count[j]? <;> simp [hij]

theorem Table.zero : Table (List.replicate 34 0) 0 := by
  refine ⟨List.length_replicate, fun i hi => ?_, fun f hf => ?_⟩
  · rw [List.getD_eq_getElem?_getD, List.getElem?_replicate, if_pos hi]
    rfl
  · exact absurd hf (Multiset.notMem_zero f)

/-- Counting one more tile. -/
theorem Table.bump {count : List Nat} {T : Multiset Face} (h : Table count T)
    {m : Mj} (hm : m.Real) :
    Table (bump count (tileIndex m)) (m.face ::ₘ T) := by
  obtain ⟨i, hi, hidx, hface⟩ := hm.index
  rw [hidx, hface, Mahjong.bump, if_pos (Int.natCast_nonneg i), Int.toNat_natCast]
  refine ⟨by rw [List.length_modify]; exact h.length, fun j hj => ?_, ?_⟩
  · rw [getD_modify _ _ _ _ (h.length ▸ hi), h.entry j hj, h.entry i hi,
      Multiset.count_cons]
    by_cases hij : i = j
    · rw [if_pos hij, if_pos (congrArg faceOf hij.symm), hij]
    · rw [if_neg hij, if_neg fun he => hij (faceOf_inj he).symm, add_zero]
  · intro f hf
    rcases Multiset.mem_cons.mp hf with rfl | hf
    · exact ⟨i, hi, rfl⟩
    · exact h.kinds f hf

theorem Table.foldl {tiles : List Mj} (hreal : ∀ m ∈ tiles, m.Real) :
    ∀ {count : List Nat} {T : Multiset Face}, Table count T →
      Table (tiles.foldl (fun count m => Mahjong.bump count (tileIndex m)) count)
        (T + faces tiles) := by
  induction tiles with
  | nil =>
      intro count T h
      rw [faces_nil, add_zero]
      exact h
  | cons m tiles ih =>
      intro count T h
      rw [List.foldl_cons, faces_cons]
      have h' := ih (fun x hx => hreal x (List.mem_cons_of_mem _ hx))
        (h.bump (hreal m (List.mem_cons_self ..)))
      rwa [Multiset.cons_add, ← Multiset.add_cons] at h'

/-- The loop that fills a table counts the tiles. -/
theorem countTable_table {tiles : List Mj} (hreal : ∀ m ∈ tiles, m.Real) :
    Table (countTable tiles) (faces tiles) := by
  have h := Table.foldl hreal Table.zero
  rwa [zero_add] at h

/-- The entry a tile is looked up at. -/
theorem countAt_countTable {tiles : List Mj} (hreal : ∀ m ∈ tiles, m.Real) {t : Mj}
    (ht : t.Real) :
    countAt (countTable tiles) (tileIndex t) = (faces tiles).count t.face := by
  obtain ⟨i, hi, hidx, hface⟩ := ht.index
  rw [countAt, hidx, if_pos (Int.natCast_nonneg i), Int.toNat_natCast, hface]
  exact (countTable_table hreal).entry i hi

-- ====================================================== taking and putting back

/-- Lowering an entry takes copies of its kind out. -/
theorem Table.lower {count : List Nat} {T : Multiset Face} (h : Table count T)
    {i : Nat} (hi : i < 34) (d : Nat) :
    Table (lower count i d) (T - Multiset.replicate d (faceOf i)) := by
  refine ⟨by rw [Mahjong.lower, List.length_modify]; exact h.length, ?_, ?_⟩
  · intro j hj
    rw [Mahjong.lower, getD_modify _ _ _ _ (h.length ▸ hi), Multiset.count_sub,
      Multiset.count_replicate, h.entry j hj, h.entry i hi]
    by_cases hij : i = j
    · rw [if_pos hij, if_pos (congrArg faceOf hij), hij]
    · rw [if_neg hij, if_neg fun he => hij (faceOf_inj he), Nat.sub_zero]
  · exact fun f hf => h.kinds f (Multiset.mem_of_le (Multiset.sub_le_self _ _) hf)

theorem raise_lower {count : List Nat} {i d : Nat} (h : d ≤ count.getD i 0) :
    raise (lower count i d) i d = count := by
  apply List.ext_getElem?
  intro j
  rw [raise, lower, List.getElem?_modify, List.getElem?_modify]
  rw [List.getD_eq_getElem?_getD] at h
  by_cases hij : i = j
  · subst hij
    cases hc : count[i]? with
    | none => rfl
    | some c =>
        rw [hc, Option.getD_some] at h
        simp [Nat.sub_add_cancel h]
  · cases count[j]? <;> simp [hij]

theorem raise_comm (count : List Nat) {i j : Nat} (hij : i ≠ j) (d e : Nat) :
    raise (raise count i d) j e = raise (raise count j e) i d := by
  apply List.ext_getElem?
  intro l
  simp only [raise, List.getElem?_modify]
  cases count[l]? <;> by_cases h : i = l <;> by_cases h' : j = l <;>
    simp_all

theorem sum_modify (count : List Nat) (i d : Nat) (h : d ≤ count.getD i 0) :
    (lower count i d).sum + d = count.sum := by
  induction count generalizing i with
  | nil =>
      rw [List.getD_nil, Nat.le_zero] at h
      rw [h]
      simp [lower]
  | cons c count ih =>
      cases i with
      | zero =>
          rw [List.getD_cons_zero] at h
          simp only [lower, List.modify_zero_cons, List.sum_cons]
          omega
      | succ i =>
          rw [List.getD_cons_succ] at h
          have hi := ih i h
          simp only [lower, List.modify_succ_cons, List.sum_cons] at hi ⊢
          omega

/-- The run that starts at kind `i`. -/
def runAt (i : Nat) : Multiset Face := {faceOf i, faceOf (i + 1), faceOf (i + 2)}

theorem lower_other (count : List Nat) {i j : Nat} (hij : i ≠ j) (d : Nat) :
    (lower count i d).getD j 0 = count.getD j 0 := by
  rw [List.getD_eq_getElem?_getD, List.getD_eq_getElem?_getD, lower,
    List.getElem?_modify]
  cases count[j]? <;> simp [hij]

/-- What the guard of a run says. -/
theorem runGuard_iff {count : List Nat} {i : Nat} :
    runGuard count i = true ↔ i + 2 < 27 ∧ i / 9 = (i + 1) / 9
      ∧ i / 9 = (i + 2) / 9 ∧ 1 ≤ count.getD i 0 ∧ 1 ≤ count.getD (i + 1) 0
      ∧ 1 ≤ count.getD (i + 2) 0 := by
  simp only [runGuard, Bool.and_eq_true, decide_eq_true_eq, beq_iff_eq, ge_iff_le]
  constructor
  · rintro ⟨⟨⟨⟨⟨⟨⟨-, h0⟩, -⟩, h1⟩, h⟩, h2⟩, hd⟩, hd'⟩
    exact ⟨h, hd, hd', h0, h1, h2⟩
  · rintro ⟨h, hd, hd', h0, h1, h2⟩
    exact ⟨⟨⟨⟨⟨⟨⟨by omega, h0⟩, by omega⟩, h1⟩, h⟩, h2⟩, hd⟩, hd'⟩

theorem putRun_takeRun {count : List Nat} {i : Nat} (h : runGuard count i = true) :
    putRun (takeRun count i) i = count := by
  obtain ⟨-, -, -, h0, h1, h2⟩ := runGuard_iff.mp h
  have h1' : 1 ≤ (lower count i 1).getD (i + 1) 0 := by
    rw [lower_other _ (by omega)]
    exact h1
  have h2' : 1 ≤ (lower (lower count i 1) (i + 1) 1).getD (i + 2) 0 := by
    rw [lower_other _ (by omega), lower_other _ (by omega)]
    exact h2
  rw [putRun, takeRun, raise_comm _ (by omega : i + 1 ≠ i + 2),
    raise_comm _ (by omega : i ≠ i + 2), raise_lower h2',
    raise_comm _ (by omega : i ≠ i + 1), raise_lower h1', raise_lower h0]

theorem sum_takeRun {count : List Nat} {i : Nat} (h : runGuard count i = true) :
    (takeRun count i).sum + 3 = count.sum := by
  obtain ⟨-, -, -, h0, h1, h2⟩ := runGuard_iff.mp h
  have e0 := sum_modify count i 1 h0
  have e1 := sum_modify (lower count i 1) (i + 1) 1
    (by rw [lower_other _ (by omega)]; exact h1)
  have e2 := sum_modify (lower (lower count i 1) (i + 1) 1) (i + 2) 1
    (by rw [lower_other _ (by omega), lower_other _ (by omega)]; exact h2)
  unfold takeRun
  omega

theorem Table.takeRun {count : List Nat} {T : Multiset Face} (h : Table count T)
    {i : Nat} (hi : i + 2 < 27) : Table (takeRun count i) (T - runAt i) := by
  have h' := ((h.lower (by omega : i < 34) 1).lower (by omega : i + 1 < 34) 1).lower
    (by omega : i + 2 < 34) 1
  rw [tsub_tsub, tsub_tsub] at h'
  exact h'

-- ================================================================ the melds

theorem runAt_meld {i : Nat} (hi : i + 2 < 27) (h1 : i / 9 = (i + 1) / 9)
    (h2 : i / 9 = (i + 2) / 9) : IsMeld (runAt i) := by
  have e1 := faceOf_succ h1
  have e2 : faceOf (i + 1 + 1) = _ := faceOf_succ (h1.symm.trans h2)
  rw [e1] at e2
  have h := IsMeld.run (faceOf i).1 (faceOf i).2 (by simp only [faceOf]; omega)
    (by simp only [faceOf]; omega)
  show IsMeld {faceOf i, faceOf (i + 1), faceOf (i + 1 + 1)}
  rw [e1, e2, show (faceOf i).2 + 1 + 1 = (faceOf i).2 + 2 by ring]
  exact h

theorem runAt_nodup (i : Nat) : (runAt i).Nodup := by
  have h1 : faceOf i ≠ faceOf (i + 1) := fun h => absurd (faceOf_inj h) (by omega)
  have h2 : faceOf i ≠ faceOf (i + 2) := fun h => absurd (faceOf_inj h) (by omega)
  have h3 : faceOf (i + 1) ≠ faceOf (i + 2) :=
    fun h => absurd (faceOf_inj h) (by omega)
  simp [runAt, h1, h2, h3]

theorem Table.mem_iff {count : List Nat} {T : Multiset Face} (h : Table count T)
    {i : Nat} (hi : i < 34) : faceOf i ∈ T ↔ 1 ≤ count.getD i 0 := by
  rw [h.entry i hi, Multiset.one_le_count_iff_mem]

/-- The guards of the scan hold for the melds that are there. -/
theorem Table.meld_iff {count : List Nat} {T : Multiset Face}
    (h : Table count T) {s : Multiset Face} :
    (IsMeld s ∧ s ≤ T) ↔ ∃ i < 34, (runGuard count i = true ∧ s = runAt i)
      ∨ (3 ≤ count.getD i 0 ∧ s = Multiset.replicate 3 (faceOf i)) := by
  constructor
  · rintro ⟨hs, hle⟩
    cases hs with
    | triplet f =>
        have hf : f ∈ T := Multiset.mem_of_le hle (by simp)
        obtain ⟨i, hi, rfl⟩ := h.kinds f hf
        refine ⟨i, hi, Or.inr ⟨?_, rfl⟩⟩
        rw [h.entry i hi]
        exact Multiset.le_count_iff_replicate_le.mpr hle
    | run t n hlo hhi =>
        obtain ⟨i, hi, hfi⟩ := h.kinds (t, n) (Multiset.mem_of_le hle (by simp))
        obtain ⟨j, hj, hfj⟩ := h.kinds (t, n + 1) (Multiset.mem_of_le hle (by simp))
        obtain ⟨l, hl, hfl⟩ := h.kinds (t, n + 2) (Multiset.mem_of_le hle (by simp))
        have ei := hfi
        have ej := hfj
        have el := hfl
        simp only [faceOf, Prod.mk.injEq] at ei ej el
        obtain rfl : j = i + 1 := by omega
        obtain rfl : l = i + 2 := by omega
        refine ⟨i, hi, Or.inl ⟨runGuard_iff.mpr ⟨by omega, by omega, by omega,
          (h.mem_iff hi).mp ?_, (h.mem_iff hj).mp ?_, (h.mem_iff hl).mp ?_⟩, ?_⟩⟩
        · exact hfi ▸ Multiset.mem_of_le hle (by simp)
        · exact hfj ▸ Multiset.mem_of_le hle (by simp)
        · exact hfl ▸ Multiset.mem_of_le hle (by simp)
        · rw [runAt, ← hfi, ← hfj, ← hfl]
  · rintro ⟨i, hi, ⟨hg, rfl⟩ | ⟨hc, rfl⟩⟩
    · obtain ⟨hlt, hd1, hd2, h0, h1, h2⟩ := runGuard_iff.mp hg
      refine ⟨runAt_meld hlt hd1 hd2, ?_⟩
      rw [Multiset.le_iff_subset (runAt_nodup i)]
      intro f hf
      simp only [runAt, Multiset.insert_eq_cons, Multiset.mem_cons,
        Multiset.mem_singleton] at hf
      rcases hf with rfl | rfl | rfl
      · exact (h.mem_iff hi).mpr h0
      · exact (h.mem_iff (by omega)).mpr h1
      · exact (h.mem_iff (by omega)).mpr h2
    · refine ⟨IsMeld.triplet (faceOf i), ?_⟩
      rw [h.entry i hi] at hc
      exact Multiset.le_count_iff_replicate_le.mp hc

-- =============================================================== the search

/-- `self` puts back what it took from `count` when its answer is no. -/
def Restores (self : List Nat → Bool × List Nat) (count : List Nat) : Prop :=
  (self count).1 = false → (self count).2 = count

/-- There is a run or triplet at kind `i` of `count` after which `self`
says yes. -/
def GoesOn (self : List Nat → Bool × List Nat) (count : List Nat) (i : Nat) :
    Prop :=
  (runGuard count i = true ∧ (self (takeRun count i)).1 = true)
    ∨ (3 ≤ count.getD i 0 ∧ (self (lower count i 3)).1 = true)

section Scan

variable {self : List Nat → Bool × List Nat} {count : List Nat}

theorem huScan_found {i : Nat} {is : List Nat} (h : GoesOn self count i)
    (hrun : runGuard count i = true → Restores self (takeRun count i)) :
    (huScan self count (i :: is)).1 = true := by
  unfold huScan
  by_cases hg : runGuard count i = true
  · cases hs : (self (takeRun count i)).1 with
    | true => simp [hg, hs]
    | false =>
        rcases h with h | h
        · rw [h.2] at hs
          exact nomatch hs
        · simp [-List.getD_eq_getElem?_getD, hg, hs, hrun hg hs, putRun_takeRun hg,
            h.1, h.2]
  · rcases h with h | h
    · exact absurd h.1 hg
    · simp [-List.getD_eq_getElem?_getD, hg, h.1, h.2]

theorem huScan_skip {i : Nat} {is : List Nat} (h : ¬ GoesOn self count i)
    (hrun : runGuard count i = true → Restores self (takeRun count i))
    (htri : 3 ≤ count.getD i 0 → Restores self (lower count i 3)) :
    huScan self count (i :: is) = huScan self count is := by
  have hg : runGuard count i = true →
      (self (takeRun count i)).1 = false ∧
        putRun (self (takeRun count i)).2 i = count := by
    intro hg
    have hs : (self (takeRun count i)).1 = false :=
      Bool.eq_false_iff.mpr fun hs => h (Or.inl ⟨hg, hs⟩)
    rw [hrun hg hs, putRun_takeRun hg]
    exact ⟨hs, rfl⟩
  have ht : 3 ≤ count.getD i 0 →
      (self (lower count i 3)).1 = false ∧
        raise (self (lower count i 3)).2 i 3 = count := by
    intro ht
    have hs : (self (lower count i 3)).1 = false :=
      Bool.eq_false_iff.mpr fun hs => h (Or.inr ⟨ht, hs⟩)
    rw [htri ht hs, raise_lower ht]
    exact ⟨hs, rfl⟩
  rw [huScan]
  by_cases hg' : runGuard count i = true <;> by_cases ht' : 3 ≤ count.getD i 0
  · simp [-List.getD_eq_getElem?_getD, hg', ht', hg hg', ht ht']
  · simp [-List.getD_eq_getElem?_getD, hg', ht', hg hg']
  · simp [-List.getD_eq_getElem?_getD, hg', ht', ht ht']
  · simp [-List.getD_eq_getElem?_getD, hg', ht']

/-- The loop over the kinds finds a meld after which the recursive call
succeeds, or leaves the table as it was. -/
theorem huScan_spec
    (hrun : ∀ i, runGuard count i = true → Restores self (takeRun count i))
    (htri : ∀ i, 3 ≤ count.getD i 0 → Restores self (lower count i 3))
    (is : List Nat) :
    ((huScan self count is).1 = true ↔ ∃ i ∈ is, GoesOn self count i)
      ∧ ((huScan self count is).1 = false → (huScan self count is).2 = count) := by
  induction is with
  | nil => simp [huScan]
  | cons i is ih =>
      by_cases h : GoesOn self count i
      · have hfound : (huScan self count (i :: is)).1 = true := huScan_found h (hrun i)
        refine ⟨iff_of_true hfound ⟨i, List.mem_cons_self .., h⟩, fun hf => ?_⟩
        rw [hfound] at hf
        exact nomatch hf
      · rw [huScan_skip h (hrun i) (htri i)]
        refine ⟨ih.1.trans ⟨?_, ?_⟩, ih.2⟩
        · rintro ⟨j, hj, hgo⟩
          exact ⟨j, List.mem_cons_of_mem _ hj, hgo⟩
        · rintro ⟨j, hj, hgo⟩
          rcases List.mem_cons.mp hj with rfl | hj
          · exact absurd hgo h
          · exact ⟨j, hj, hgo⟩

end Scan

/-- No melds are wanted: yes at once. -/
theorem huDepth_none (depth : Nat) (count : List Nat) :
    huDepth depth count (3 * ((0 : Nat) : Int)) = (true, count) := by
  rw [Nat.cast_zero, mul_zero]
  cases depth <;> simp [huDepth]

/-- One meld more is wanted: scan the kinds. -/
theorem huDepth_scan (depth n : Nat) (count : List Nat) :
    huDepth (depth + 1) count (3 * ((n + 1 : Nat) : Int))
      = huScan (fun count' => huDepth depth count' (3 * (n : Int))) count
        (List.range 34) := by
  have hn : 3 * ((n + 1 : Nat) : Int) - 3 = 3 * (n : Int) := by
    push_cast
    ring
  have hne : (3 * ((n + 1 : Nat) : Int) == 0) = false := by
    rw [beq_eq_false_iff_ne]
    omega
  rw [huDepth, hne, if_neg Bool.false_ne_true, hn]

/-- `hu_recursive_check` with enough depth decides whether `n` melds fit
into the tiles of the table. -/
theorem huDepth_spec (depth : Nat) : ∀ {n : Nat} {count : List Nat}
    {T : Multiset Face}, Table count T → count.sum ≤ depth →
      ((huDepth depth count (3 * (n : Int))).1 = true ↔ Packs IsMeld n T)
        ∧ ((huDepth depth count (3 * (n : Int))).1 = false →
          (huDepth depth count (3 * (n : Int))).2 = count) := by
  induction depth with
  | zero =>
      intro n count T h hsum
      cases n with
      | zero =>
          rw [huDepth_none]
          exact ⟨iff_of_true rfl packs_zero, fun _ => rfl⟩
      | succ n =>
          refine ⟨iff_of_false (by simp [huDepth]; omega) ?_, fun _ => rfl⟩
          -- an empty table has no meld to take
          intro hp
          obtain ⟨s, hs, hle, -⟩ := packs_succ.mp hp
          obtain ⟨i, hi, ⟨hg, -⟩ | ⟨hc, -⟩⟩ := h.meld_iff.mp ⟨hs, hle⟩
          · have := sum_takeRun hg
            omega
          · have := sum_modify count i 3 hc
            omega
  | succ depth ih =>
      intro n count T h hsum
      cases n with
      | zero =>
          rw [huDepth_none]
          exact ⟨iff_of_true rfl packs_zero, fun _ => rfl⟩
      | succ n =>
          -- the recursive calls get tables of the tiles left
          have hrun : ∀ i, runGuard count i = true → _ := fun i hg =>
            ih (n := n) (h.takeRun (runGuard_iff.mp hg).1)
              (by have := sum_takeRun hg; omega)
          have htri : ∀ i, i < 34 → 3 ≤ count.getD i 0 → _ := fun i hi hc =>
            ih (n := n) (h.lower hi 3) (by have := sum_modify count i 3 hc; omega)
          have hlt : ∀ i, 3 ≤ count.getD i 0 → i < 34 := by
            intro i hc
            by_contra hi
            rw [List.getD_eq_getElem?_getD, List.getElem?_eq_none
              (by rw [h.length]; omega)] at hc
            exact absurd hc (by decide)
          have hrestores : ∀ i, runGuard count i = true →
              Restores (fun count' => huDepth depth count' (3 * (n : Int)))
                (takeRun count i) := fun i hg => (hrun i hg).2
          obtain ⟨hscan, hback⟩ := huScan_spec hrestores
            (fun i hc => (htri i (hlt i hc) hc).2) (List.range 34)
          rw [huDepth_scan]
          refine ⟨?_, hback⟩
          rw [hscan, packs_succ]
          constructor
          · rintro ⟨i, hi, ⟨hg, hself⟩ | ⟨hc, hself⟩⟩
            · obtain ⟨hs, hle⟩ := h.meld_iff.mpr
                ⟨i, List.mem_range.mp hi, Or.inl ⟨hg, rfl⟩⟩
              exact ⟨_, hs, hle, (hrun i hg).1.mp hself⟩
            · obtain ⟨hs, hle⟩ := h.meld_iff.mpr
                ⟨i, List.mem_range.mp hi, Or.inr ⟨hc, rfl⟩⟩
              exact ⟨_, hs, hle, (htri i (List.mem_range.mp hi) hc).1.mp hself⟩
          · rintro ⟨s, hs, hle, hp⟩
            obtain ⟨i, hi, ⟨hg, rfl⟩ | ⟨hc, rfl⟩⟩ := h.meld_iff.mp ⟨hs, hle⟩
            · exact ⟨i, List.mem_range.mpr hi, Or.inl ⟨hg, (hrun i hg).1.mpr hp⟩⟩
            · exact ⟨i, List.mem_range.mpr hi,
                Or.inr ⟨hc, (htri i hi hc).1.mpr hp⟩⟩

theorem huRecursiveCheck_spec {n : Nat} {count : List Nat} {T : Multiset Face}
    (h : Table count T) :
    ((huRecursiveCheck count (3 * (n : Int))).1 = true ↔ Packs IsMeld n T)
      ∧ ((huRecursiveCheck count (3 * (n : Int))).1 = false →
        (huRecursiveCheck count (3 * (n : Int))).2 = count) :=
  huDepth_spec count.sum h (Nat.le_refl _)

-- ================================================================ the pairs

/-- The loop over the pairs undoes a pair that leads nowhere. -/
theorem huPairs_spec {n : Nat} {count : List Nat} {T : Multiset Face}
    (h : Table count T) (is : List Nat) (his : ∀ i ∈ is, i < 34) :
    huPairs (3 * (n : Int)) count is = true ↔
      ∃ i ∈ is, 2 ≤ count.getD i 0
        ∧ Packs IsMeld n (T - Multiset.replicate 2 (faceOf i)) := by
  induction is with
  | nil => simp [huPairs]
  | cons i is ih =>
      have hi := his i (List.mem_cons_self ..)
      have ih := ih fun j hj => his j (List.mem_cons_of_mem _ hj)
      obtain ⟨hyes, hno⟩ := huRecursiveCheck_spec (n := n) (h.lower hi 2)
      rw [huPairs, List.exists_mem_cons_iff]
      by_cases hc : 2 ≤ count.getD i 0
      · rw [if_pos hc]
        cases hr : (huRecursiveCheck (lower count i 2) (3 * (n : Int))).1 with
        | true =>
            simp only [hr, if_true, true_iff]
            exact Or.inl ⟨hc, hyes.mp hr⟩
        | false =>
            simp only [hr, hno hr, raise_lower hc, Bool.false_eq_true, if_false]
            rw [ih]
            refine ⟨Or.inr, fun h => h.resolve_left fun h => ?_⟩
            rw [hyes.mpr h.2] at hr
            exact nomatch hr
      · rw [if_neg hc, ih]
        exact ⟨Or.inr, fun h => h.resolve_left fun h => hc h.1⟩

/-- On a table of `3 n + 2` tiles the loop decides `Complete`. -/
theorem huPairs_complete {n : Nat} {count : List Nat} {T : Multiset Face}
    (h : Table count T) (hcard : Multiset.card T = 3 * n + 2) :
    huPairs (3 * (n : Int)) count (List.range 34) = true ↔ Complete n T := by
  rw [huPairs_spec h _ fun i hi => List.mem_range.mp hi]
  have hpair : ∀ f : Face, Multiset.replicate 2 f = {f, f} := fun f => rfl
  constructor
  · rintro ⟨i, hi, hc, hp⟩
    have hle : Multiset.replicate 2 (faceOf i) ≤ T := by
      rw [← Multiset.le_count_iff_replicate_le, ← h.entry i (List.mem_range.mp hi)]
      exact hc
    refine ⟨faceOf i, _, hp.covers (fun s => IsMeld.card) ?_, ?_⟩
    · rw [Multiset.card_sub hle, hcard, Multiset.card_replicate]
      omega
    · rw [← hpair, add_tsub_cancel_of_le hle]
  · rintro ⟨f, melds, hm, rfl⟩
    obtain ⟨i, hi, rfl⟩ := h.kinds f (by simp)
    refine ⟨i, List.mem_range.mpr hi, ?_, ?_⟩
    · rw [h.entry i hi, Multiset.le_count_iff_replicate_le, hpair]
      exact Multiset.le_add_right _ _
    · rw [hpair, add_tsub_cancel_left]
      obtain ⟨l, hlen, hl, hsum⟩ := hm
      exact ⟨l, hlen, hl, hsum.le⟩

-- ============================================================ the gotten tile

/-- Moving the gotten tile from slot `j` down to its place permutes the
slots `0..j`. -/
theorem insertLoop_seg (gotten : Mj) (j : Nat) : ∀ carbon : List Mj,
    j < carbon.length →
      SegPerm (carbon.set j gotten)
        ((insertLoop gotten j carbon).2.set (insertLoop gotten j carbon).1 gotten)
        0 j := by
  induction j with
  | zero => exact fun carbon _ => SegPerm.refl _ 0 0
  | succ j ih =>
      intro carbon hj
      rw [insertLoop]
      split
      · -- the tile in slot j is greater: it and the gotten tile change places
        have hset : (carbon.set (j + 1) (carbon.getD j Mj.null)).set j gotten
            = swap (carbon.set (j + 1) gotten) j (j + 1) := by
          have hne : (carbon.set (j + 1) gotten)[j]? = some (carbon.getD j Mj.null) := by
            rw [List.getElem?_set_ne (by omega), List.getD_eq_getElem?_getD,
              List.getElem?_eq_getElem (by omega)]
            rfl
          have heq : (carbon.set (j + 1) gotten)[j + 1]? = some gotten :=
            List.getElem?_set_self hj
          rw [swap, hne, heq]
          show _ = ((carbon.set (j + 1) gotten).set j gotten).set (j + 1) _
          rw [List.set_comm _ _ (by omega : j ≠ j + 1), List.set_set,
            List.set_comm _ _ (by omega : j + 1 ≠ j)]
        have hswap : SegPerm (carbon.set (j + 1) gotten)
            ((carbon.set (j + 1) (carbon.getD j Mj.null)).set j gotten) 0 (j + 1) := by
          rw [hset]
          exact SegPerm.swap (by rw [List.length_set]; omega)
            (by rw [List.length_set]; omega) (by omega) (by omega) (by omega)
            (by omega)
        refine hswap.trans ?_
        exact (ih (carbon.set (j + 1) (carbon.getD j Mj.null))
          (by rw [List.length_set]; omega)).widen (Nat.le_refl _) (by omega)
      · exact SegPerm.refl _ 0 (j + 1)

/-- `hu_check` on `3 n + 2` real tiles, in any order. -/
theorem huCheck_complete {n nc : Nat} (hnc : nc = 3 * n + 1) (hle : nc ≤ 16)
    {decks : List Mj} (hlen : nc < decks.length)
    (hreal : ∀ m ∈ decks.take (nc + 1), m.Real) :
    huCheck decks nc = true ↔ Complete n (faces (decks.take (nc + 1))) := by
  have htake : (decks.take (nc + 1)).length = nc + 1 := by
    rw [List.length_take]
    omega
  unfold huCheck
  generalize hcarbon : decks.take (nc + 1)
    ++ List.replicate (17 - (nc + 1)) Mj.null = carbon
  have hclen : carbon.length = 17 := by
    rw [← hcarbon, List.length_append, htake, List.length_replicate]
    omega
  -- the gotten tile is already where the loop puts it first
  have hself : carbon.set nc (carbon.getD nc Mj.null) = carbon := by
    rw [List.getD_eq_getElem?_getD, List.getElem?_eq_getElem (by omega),
      Option.getD_some, List.set_getElem_self]
  have hseg := insertLoop_seg (carbon.getD nc Mj.null) nc carbon (by omega)
  rw [hself] at hseg
  have hperm := hseg.take_perm
  have hctake : carbon.take (nc + 1) = decks.take (nc + 1) := by
    rw [← hcarbon, List.take_append_of_le_length (by omega), List.take_take,
      Nat.min_self]
  rw [hctake] at hperm
  have htable := countTable_table (fun m hm => hreal m (hperm.mem_iff.mp hm))
  rw [faces_perm hperm] at htable
  have hn : (nc : Int) - 1 = 3 * (n : Int) := by omega
  rw [hn]
  refine huPairs_complete htable ?_
  rw [card_faces, htake]
  omega

/-- `is_add_hu_possible` counts the discard in. -/
theorem isAddHuPossible_complete {n nc : Nat} (hnc : nc = 3 * n + 1)
    {deck : List Mj} (hlen : nc ≤ deck.length)
    (hreal : ∀ m ∈ deck.take nc, m.Real) {discarded : Mj} (hd : discarded.Real) :
    isAddHuPossible deck nc discarded = true
      ↔ Complete n (discarded.face ::ₘ faces (deck.take nc)) := by
  have hn : (nc : Int) - 1 = 3 * (n : Int) := by omega
  unfold isAddHuPossible
  rw [hn]
  refine huPairs_complete ((countTable_table hreal).bump hd) ?_
  rw [Multiset.card_cons, card_faces, List.length_take]
  omega

-- ============================================================== the win test

/-- The win test is exact, the test on a discard is the same test, and
the order of the tiles does not matter. -/
theorem winTest_exact {k nc : Nat} (hk : k ≤ 5) (hnc : nc = 16 - 3 * k) :
    (∀ decks : List Mj, nc < decks.length → (∀ m ∈ decks.take (nc + 1), m.Real) →
        (huCheck decks nc = true ↔
          Complete ((nc - 1) / 3) (faces (decks.take (nc + 1)))))
      ∧ (∀ (hand : List Mj) (t : Mj), nc < hand.length →
          (∀ m ∈ hand.take nc, m.Real) → t.Real →
          isAddHuPossible hand nc t = huCheck (hand.set nc t) nc)
      ∧ (∀ decks decks' : List Mj, nc < decks.length → nc < decks'.length →
          (∀ m ∈ decks.take (nc + 1), m.Real) →
          (decks'.take (nc + 1)).Perm (decks.take (nc + 1)) →
          huCheck decks' nc = huCheck decks nc) := by
  have hn : nc = 3 * ((nc - 1) / 3) + 1 := by omega
  have hexact : ∀ decks : List Mj, nc < decks.length →
      (∀ m ∈ decks.take (nc + 1), m.Real) →
      (huCheck decks nc = true ↔
        Complete ((nc - 1) / 3) (faces (decks.take (nc + 1)))) :=
    fun decks hlen hreal => huCheck_complete hn (by omega) hlen hreal
  refine ⟨hexact, ?_, ?_⟩
  · intro hand t hlen hreal ht
    have htake : (hand.set nc t).take (nc + 1) = hand.take nc ++ [t] := by
      rw [List.take_succ_eq_append_getElem (by rw [List.length_set]; exact hlen),
        List.getElem_set_self, List.take_set_of_le (Nat.le_refl nc)]
    rw [Bool.eq_iff_iff, isAddHuPossible_complete hn (Nat.le_of_lt hlen) hreal ht,
      hexact (hand.set nc t) (by rw [List.length_set]; exact hlen), htake,
      faces_append, faces_cons, faces_nil, Multiset.add_cons, add_zero]
    intro m hm
    rw [htake, List.mem_append, List.mem_singleton] at hm
    rcases hm with hm | rfl
    · exact hreal m hm
    · exact ht
  · intro decks decks' hlen hlen' hreal hperm
    rw [Bool.eq_iff_iff, hexact decks hlen hreal,
      hexact decks' hlen' fun m hm => hreal m (hperm.mem_iff.mp hm),
      faces_perm hperm]

/-- Two, three and three fours of one suit: the pair is not where the
triplet is. -/
theorem winTest_exact_shared :
    huCheck ([⟨1, 4, 0⟩, ⟨1, 2, 0⟩, ⟨1, 4, 0⟩, ⟨1, 3, 0⟩, ⟨1, 4, 0⟩]
      ++ List.replicate 15 Mj.null) 4 = true := by
  refine ((winTest_exact (k := 4) (by decide) rfl).1 _ (by decide) (by decide)).mpr ?_
  refine ⟨(1, 4), _, ⟨[{(1, 2), (1, 2 + 1), (1, 2 + 2)}], rfl, ?_, rfl⟩, by decide⟩
  intro s hs
  rw [List.mem_singleton] at hs
  rw [hs]
  exact .run 1 2 (by decide) (by decide)

end Mahjong
