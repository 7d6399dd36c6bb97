/-
The lobby starts full tables.

Between two passes every slot is empty or holds a descriptor that is
open, different slots hold different ones, and nothing else is open
(`Slots`). `rset` keeps the descriptors of clients that have left; as
`accept` gives the lowest unused descriptor, all numbers in it are among
the four lowest that are free for players (`rank`), and a full table
uses these four up.
-/
import Mahjong.Server.Lobby
import Mahjong.Lib.Replay

namespace Mahjong.Lobby

open Process CString

-- ================================================================ what is shown

/-- A slot holds an accepted descriptor which was not seen at end of file
or in error in this pass. -/
abbrev Seated (w : Log) (fd : Int) : Prop := 0 ≤ fd ∧ fd ∈ live w ∧ fd ∉ down w

/-- What is shown at the points of a run. -/
def Obligation (assigns : Finset Int → Int → Prop) : Op → Lobby → Log → Prop
  | .set fd, _, w => 0 ≤ fd ∧ fd ∈ live w
  | .isset fd, _, w => 0 ≤ fd ∧ fd ∈ live w
  | .read fd, _, w => 0 ≤ fd ∧ fd ∈ live w
  | .decide count, s, w =>
      count = ((Finset.univ.filter fun i => Seated w (s.fd i)).card : Int)
  | .write _ l, s, w => l = startLine → ∀ i, Seated w (s.fd i)
  | .established, s, w => (∀ i, Seated w (s.fd i))
      ∧ (Lowest assigns → s.rset = Finset.univ.image s.fd)
  | _, _, _ => True

/-- A reply that is neither an interrupted `accept` nor a failed
`read`. -/
def Calm : (o : Op) × o.Res → Prop
  | ⟨.accept, .interrupted⟩ => False
  | ⟨.read _, .error⟩ => False
  | _ => True

/-- Surroundings that interrupt no `accept` and fail no `read`. -/
abbrev calm (others : Finset Int) (assigns : Finset Int → Int → Prop) :
    Env Op Op.Res :=
  Env.logged Op Op.Res fun w => Sound others assigns w ∧ ∀ x ∈ w, Calm x

-- =================================================================== the ranks

/-- How many numbers up to `d` are free for players. -/
noncomputable def rank (others : Finset Int) (d : Int) : Nat :=
  ((Finset.Icc 0 d).filter fun e => e ∉ others).card

variable {others : Finset Int} {assigns : Finset Int → Int → Prop}

/-- A set of free numbers has no more elements than the rank of its
greatest. -/
theorem card_le_rank {D : Finset Int} {n : Nat} (hfree : ∀ d ∈ D, 0 ≤ d ∧ d ∉ others)
    (hrank : ∀ d ∈ D, rank others d ≤ n) : D.card ≤ n := by
  rcases D.eq_empty_or_nonempty with rfl | hne
  · exact Nat.zero_le n
  refine (Finset.card_le_card ?_).trans (hrank _ (D.max'_mem hne))
  intro d hd
  obtain ⟨hpos, hother⟩ := hfree d hd
  exact Finset.mem_filter.mpr ⟨Finset.mem_Icc.mpr ⟨hpos, D.le_max' d hd⟩, hother⟩

/-- The lowest number that is not in use has a small rank. -/
theorem rank_lowest {used : Finset Int} {d : Int}
    (hlow : ∀ e, 0 ≤ e → e < d → e ∈ others ∪ used) :
    rank others d ≤ used.card + 1 := by
  refine (Finset.card_le_card ?_).trans (Finset.card_insert_le d used)
  intro e he
  obtain ⟨he, hother⟩ := Finset.mem_filter.mp he
  obtain ⟨hpos, hle⟩ := Finset.mem_Icc.mp he
  rcases eq_or_lt_of_le hle with rfl | hlt
  · exact Finset.mem_insert_self _ _
  · have hused := (Finset.mem_union.mp (hlow e hpos hlt)).resolve_left hother
    exact Finset.mem_insert_of_mem hused

-- ==================================================================== the slots

/-- The slots and the open descriptors. -/
structure Slots (others : Finset Int) (assigns : Finset Int → Int → Prop)
    (s : Lobby) (w : Log) : Prop where
  slot : ∀ i, s.fd i = -1 ∨ s.fd i ∈ live w
  inj : ∀ i j, s.fd i = s.fd j → s.fd i = -1 ∨ i = j
  held : ∀ d ∈ live w, ∃ i, s.fd i = d
  free : ∀ d ∈ live w, 0 ≤ d ∧ d ∉ others
  watched : ∀ i, s.fd i = -1 ∨ s.fd i ∈ s.rset
  low : Lowest assigns → ∀ d ∈ s.rset, 0 ≤ d ∧ d ∉ others ∧ rank others d ≤ 4

theorem slots_boot : Slots others assigns boot [] := by
  refine ⟨fun _ => Or.inl rfl, fun _ _ _ => Or.inl rfl, fun d hd => ?_, fun d hd => ?_,
    fun _ => Or.inl rfl, fun _ d hd => ?_⟩
  all_goals exact absurd hd (Finset.notMem_empty d)

namespace Slots

variable {s : Lobby} {w w' : Log}

theorem log (h : Slots others assigns s w) (hw : live w' = live w) :
    Slots others assigns s w' := by
  refine ⟨?_, h.inj, ?_, ?_, h.watched, h.low⟩
  · rw [hw]
    exact h.slot
  · rw [hw]
    exact h.held
  · rw [hw]
    exact h.free

theorem nonneg (h : Slots others assigns s w) {i : Seat} (hi : s.fd i ≠ -1) :
    0 ≤ s.fd i ∧ s.fd i ∈ live w := by
  have hlive := (h.slot i).resolve_left hi
  exact ⟨(h.free _ hlive).1, hlive⟩

/-- With an empty slot, at most three descriptors are open. -/
theorem card_live (h : Slots others assigns s w) {i : Seat} (hi : s.fd i = -1) :
    (live w).card ≤ 3 := by
  have hsub : live w ⊆ (Finset.univ.erase i).image s.fd := by
    intro d hd
    obtain ⟨j, rfl⟩ := h.held d hd
    refine Finset.mem_image_of_mem _ (Finset.mem_erase.mpr ⟨?_, Finset.mem_univ j⟩)
    rintro rfl
    have hpos := (h.free _ hd).1
    omega
  refine (Finset.card_le_card hsub).trans (Finset.card_image_le.trans ?_)
  rw [Finset.card_erase_of_mem (Finset.mem_univ i), Finset.card_univ, Fintype.card_fin]

/-- The first half of an `accept`: the slot is filled. -/
theorem fill (h : Slots others assigns s w) {i : Seat} {fd : Int}
    (hpos : 0 ≤ fd) (hnew : fd ∉ others ∪ live w) :
    (∀ j, (s.setFd i fd).fd j = -1 ∨ (s.setFd i fd).fd j ∈ insert fd (live w))
      ∧ ∀ j k, (s.setFd i fd).fd j = (s.setFd i fd).fd k →
          (s.setFd i fd).fd j = -1 ∨ j = k := by
  rw [Finset.mem_union, not_or] at hnew
  have hself : (s.setFd i fd).fd i = fd := Function.update_self ..
  have hne : ∀ j, j ≠ i → (s.setFd i fd).fd j = s.fd j :=
    fun j hj => Function.update_of_ne hj ..
  -- no other slot holds the new descriptor
  have hother : ∀ j, s.fd j ≠ fd := by
    intro j hj
    rcases h.slot j with hj' | hj'
    · omega
    · exact hnew.2 (hj ▸ hj')
  constructor
  · intro j
    by_cases hj : j = i
    · rw [hj, hself]
      exact Or.inr (Finset.mem_insert_self _ _)
    · rw [hne j hj]
      exact (h.slot j).imp_right Finset.mem_insert_of_mem
  · intro j k hjk
    by_cases hj : j = i
    · by_cases hk : k = i
      · exact Or.inr (hj.trans hk.symm)
      · rw [hj, hself, hne k hk] at hjk
        exact absurd hjk.symm (hother k)
    · by_cases hk : k = i
      · rw [hk, hself, hne j hj] at hjk
        exact absurd hjk (hother j)
      · rw [hne j hj, hne k hk] at hjk
        rw [hne j hj]
        exact h.inj j k hjk

/-- An accepted client in an empty slot. -/
theorem seat (h : Slots others assigns s w) {i : Seat} (hi : s.fd i = -1) {fd : Int}
    (hfresh : Fresh assigns) (ha : assigns (others ∪ live w) fd)
    (hw : live w' = insert fd (live w)) :
    Slots others assigns ((s.setFd i fd).watch fd) w' := by
  obtain ⟨hpos, hnew⟩ := hfresh _ _ ha
  obtain ⟨hslot, hinj⟩ := h.fill (i := i) hpos hnew
  have hself : (s.setFd i fd).fd i = fd := Function.update_self ..
  have hne : ∀ j, j ≠ i → (s.setFd i fd).fd j = s.fd j :=
    fun j hj => Function.update_of_ne hj ..
  refine ⟨hw ▸ hslot, hinj, fun d hd => ?_, fun d hd => ?_, fun j => ?_,
    fun hlow d hd => ?_⟩
  · rw [hw] at hd
    rcases Finset.mem_insert.mp hd with rfl | hd
    · exact ⟨i, hself⟩
    · obtain ⟨j, rfl⟩ := h.held d hd
      refine ⟨j, hne j ?_⟩
      rintro rfl
      have hpos' := (h.free _ hd).1
      omega
  · rw [hw] at hd
    rcases Finset.mem_insert.mp hd with rfl | hd
    · exact ⟨hpos, fun ho => hnew (Finset.mem_union_left _ ho)⟩
    · exact h.free d hd
  · show (s.setFd i fd).fd j = -1 ∨ (s.setFd i fd).fd j ∈ insert fd s.rset
    by_cases hj : j = i
    · rw [hj, hself]
      exact Or.inr (Finset.mem_insert_self _ _)
    · rw [hne j hj]
      exact (h.watched j).imp_right Finset.mem_insert_of_mem
  · rcases Finset.mem_insert.mp hd with rfl | hd
    · refine ⟨hpos, fun ho => hnew (Finset.mem_union_left _ ho), ?_⟩
      have hrank := rank_lowest (hlow _ _ ha)
      have hcard := h.card_live hi
      omega
    · exact h.low hlow d hd

/-- A slot given up, its descriptor closed. -/
theorem unseat (h : Slots others assigns s w) (i : Seat) (r : Unit) :
    Slots others assigns (s.setFd i (-1)) (⟨.close (s.fd i), r⟩ :: w) := by
  have hlive : live (⟨.close (s.fd i), r⟩ :: w) = (live w).erase (s.fd i) := rfl
  have hself : (s.setFd i (-1)).fd i = -1 := Function.update_self ..
  have hne : ∀ j, j ≠ i → (s.setFd i (-1)).fd j = s.fd j :=
    fun j hj => Function.update_of_ne hj ..
  refine ⟨fun j => ?_, fun j k hjk => ?_, fun d hd => ?_, fun d hd => ?_, fun j => ?_,
    h.low⟩
  · by_cases hj : j = i
    · exact Or.inl (hj ▸ hself)
    · rw [hne j hj, hlive]
      rcases h.slot j with hj' | hj'
      · exact Or.inl hj'
      · by_cases hsame : s.fd j = s.fd i
        · exact Or.inl ((h.inj j i hsame).resolve_right hj)
        · exact Or.inr (Finset.mem_erase.mpr ⟨hsame, hj'⟩)
  · by_cases hj : j = i
    · exact Or.inl (hj ▸ hself)
    · by_cases hk : k = i
      · rw [hk, hself] at hjk
        exact Or.inl hjk
      · rw [hne j hj, hne k hk] at hjk
        rw [hne j hj]
        exact h.inj j k hjk
  · rw [hlive] at hd
    obtain ⟨hdi, hd⟩ := Finset.mem_erase.mp hd
    obtain ⟨j, rfl⟩ := h.held d hd
    refine ⟨j, hne j ?_⟩
    rintro rfl
    exact hdi rfl
  · rw [hlive] at hd
    exact h.free d (Finset.mem_of_mem_erase hd)
  · by_cases hj : j = i
    · exact Or.inl (hj ▸ hself)
    · rw [hne j hj]
      exact h.watched j

/-- With all slots filled, `rset` holds the players' descriptors and no
other. -/
theorem rset_eq (h : Slots others assigns s w) (hfull : ∀ i, s.fd i ≠ -1)
    (hlow : Lowest assigns) : s.rset = Finset.univ.image s.fd := by
  have hwatched : Finset.univ.image s.fd ⊆ s.rset := by
    intro d hd
    obtain ⟨i, -, rfl⟩ := Finset.mem_image.mp hd
    exact (h.watched i).resolve_left (hfull i)
  refine Finset.Subset.antisymm (fun d hd => ?_) hwatched
  by_contra hout
  have hinj : Function.Injective s.fd :=
    fun i j hij => (h.inj i j hij).resolve_left (hfull i)
  have hcard : (insert d (Finset.univ.image s.fd)).card = 5 := by
    rw [Finset.card_insert_of_notMem hout, Finset.card_image_of_injective _ hinj,
      Finset.card_univ, Fintype.card_fin]
  have hall : ∀ e ∈ insert d (Finset.univ.image s.fd),
      0 ≤ e ∧ e ∉ others ∧ rank others e ≤ 4 := by
    intro e he
    rcases Finset.mem_insert.mp he with rfl | he
    · exact h.low hlow e hd
    · exact h.low hlow e (hwatched he)
  have hle := card_le_rank (n := 4) (fun e he => ⟨(hall e he).1, (hall e he).2.1⟩)
    fun e he => (hall e he).2.2
  omega

end Slots

-- ===================================================================== the passes

section Passes

variable {s : Lobby} {w : Log} {A : Op → Lobby → Prop}

/-- How many slots are filled. -/
def filledSlots (s : Lobby) : Nat := (Finset.univ.filter fun i => s.fd i ≠ -1).card

/-- An operation in calm surroundings. -/
theorem wp_calm {o : Op} {P : Op → Lobby → Log → Prop} {Q : o.Res → Lobby → Log → Prop}
    (hP : P o s w)
    (hQ : ∀ r, Sound others assigns (⟨o, r⟩ :: w) → Calm ⟨o, r⟩ →
      Q r s (⟨o, r⟩ :: w)) :
    wp (calm others assigns) A P ((call o : Listener o.Res) s) Q w := by
  refine wp_call fun _ => ⟨hP, ?_⟩
  rintro r w' ⟨rfl, hsound, hcalm⟩
  exact hQ r hsound (hcalm _ (List.mem_cons_self ..))

theorem wp_acceptSlot (hfresh : Fresh assigns) {count : Int} {i : Seat}
    (h : Slots others assigns s w) (hdown : down w = ∅) :
    wp (calm others assigns) A (Obligation assigns) (acceptSlot count i s)
      (fun c s' w' => Slots others assigns s' w' ∧ down w' = ∅ ∧ c = count + 1
        ∧ s'.fd i ≠ -1 ∧ ∀ j, j ≠ i → s'.fd j = s.fd j) w := by
  refine wp_get_seq ?_
  split
  next hi =>
    refine wp_seq (wp_calm trivial fun r hsound hcalm => ?_)
    cases r with
    | connected fd =>
        obtain ⟨hpos, -⟩ := hfresh _ _ hsound
        have hself : (s.setFd i fd).fd i = fd := Function.update_self ..
        have hfill : ∀ {fd' l r r'}, live (⟨.set fd', r'⟩ :: ⟨.write fd l, r⟩
            :: ⟨.accept, .connected fd⟩ :: w) = insert fd (live w) := rfl
        refine wp_modify_seq (wp_seq (wp_calm ?_ fun _ _ _ => ?_))
        · intro hl
          have hj : some '(' = some 's' := congrArg List.head? hl
          exact absurd hj (by decide)
        refine wp_seq (wp_calm ⟨hpos, ?_⟩ fun _ _ _ => ?_)
        · exact Finset.mem_insert_self _ _
        refine wp_modify_seq (wp_pure ⟨h.seat hi hfresh hsound hfill, hdown, rfl, ?_,
          fun j hj => Function.update_of_ne hj ..⟩)
        show (s.setFd i fd).fd i ≠ -1
        omega
    | interrupted => exact hcalm.elim
    | failed => exact wp_op fun _ => ⟨trivial, fun r => nomatch r⟩
  next hi => exact wp_pure ⟨h, hdown, rfl, hi, fun j _ => rfl⟩

/-- A slot that was filled and is given up. -/
theorem filledSlots_unseat {i : Seat} (hi : s.fd i ≠ -1) :
    filledSlots (s.setFd i (-1)) + 1 = filledSlots s := by
  have herase : Finset.univ.filter (fun j => (s.setFd i (-1)).fd j ≠ -1)
      = (Finset.univ.filter fun j => s.fd j ≠ -1).erase i := by
    ext j
    rw [Finset.mem_erase, Finset.mem_filter, Finset.mem_filter]
    by_cases hj : j = i
    · subst hj
      simp [setFd]
    · simp [setFd, hj]
  rw [filledSlots, herase, filledSlots]
  exact Finset.card_erase_add_one (Finset.mem_filter.mpr ⟨Finset.mem_univ i, hi⟩)

theorem wp_checkSlot {count : Int} {i : Seat} (h : Slots others assigns s w)
    (hcount : count = filledSlots s) (hdown : ∀ j, s.fd j ≠ -1 → s.fd j ∉ down w)
    (hi : s.fd i ≠ -1) :
    wp (calm others assigns) A (Obligation assigns) (checkSlot count i s)
      (fun c s' w' => Slots others assigns s' w' ∧ c = filledSlots s'
        ∧ (∀ j, s'.fd j ≠ -1 → s'.fd j ∉ down w') ∧ ∀ j, j ≠ i → s'.fd j = s.fd j) w := by
  have hpos := h.nonneg hi
  refine wp_get_seq (wp_seq (wp_calm hpos fun r _ _ => ?_))
  have h₁ : Slots others assigns s (⟨.isset (s.fd i), r⟩ :: w) := h.log rfl
  rw [if_neg (by omega)]
  refine wp_seq (wp_pure ?_)
  dsimp only
  split
  next =>
    refine wp_seq (wp_calm hpos fun r' _ hcalm => ?_)
    have h₂ : Slots others assigns s (⟨.read (s.fd i), r'⟩ :: ⟨.isset (s.fd i), r⟩ :: w) :=
      h₁.log rfl
    cases r' with
    | data => exact wp_pure ⟨h₂, hcount, hdown, fun j _ => rfl⟩
    | error => exact hcalm.elim
    | eof =>
        refine wp_seq (wp_calm trivial fun r'' _ _ => ?_)
        refine wp_modify_seq (wp_pure ⟨h₂.unseat i r'', ?_, fun j => ?_,
          fun j hj => Function.update_of_ne hj ..⟩)
        · have hfill := filledSlots_unseat hi
          omega
        · intro hj
          have hji : j ≠ i := by
            rintro rfl
            exact hj (Function.update_self ..)
          have hne : (s.setFd i (-1)).fd j = s.fd j := Function.update_of_ne hji ..
          rw [hne] at hj ⊢
          show s.fd j ∉ insert (s.fd i) (down w)
          rw [Finset.mem_insert, not_or]
          exact ⟨fun he => (h.inj j i he).elim hj hji, hdown j hj⟩
  next => exact wp_pure ⟨h₁, hcount, hdown, fun j _ => rfl⟩

/-- The first loop fills all slots. -/
theorem wp_acceptSlots (hfresh : Fresh assigns) (h : Slots others assigns s w)
    (hdown : down w = ∅) :
    wp (calm others assigns) A (Obligation assigns)
      ((List.range 4).foldlM (fun count i => acceptSlot count (Fin.ofNat 4 i)) 0 s)
      (fun c s' w' => Slots others assigns s' w' ∧ down w' = ∅ ∧ c = 4
        ∧ ∀ j, s'.fd j ≠ -1) w := by
  refine wp.mono (wp_foldlM_range (fun n (c : Int) s w => Slots others assigns s w
    ∧ down w = ∅ ∧ c = n ∧ ∀ j : Seat, j.val < n → s.fd j ≠ -1) ?_
    ⟨h, hdown, rfl, fun j hj => absurd hj (by omega)⟩) ?_
  · rintro n c s w hn ⟨h, hdown, hc, hfull⟩
    refine (wp_acceptSlot hfresh h hdown).mono ?_
    rintro c' s' w' ⟨h', hdown', hc', hi, hother⟩
    refine ⟨h', hdown', by push_cast; omega, fun j hj => ?_⟩
    by_cases hji : j = Fin.ofNat 4 n
    · rw [hji]
      exact hi
    · rw [hother j hji]
      refine hfull j (lt_of_le_of_ne (by omega) fun he => hji (Fin.ext ?_))
      rw [he]
      exact (Nat.mod_eq_of_lt hn).symm
  · rintro c s w ⟨h, hdown, hc, hfull⟩
    exact ⟨h, hdown, hc, fun j => hfull j j.isLt⟩

/-- The second loop counts the slots that stay filled. -/
theorem wp_checkSlots {count : Int} (h : Slots others assigns s w)
    (hcount : count = 4) (hdown : down w = ∅) (hfull : ∀ j, s.fd j ≠ -1) :
    wp (calm others assigns) A (Obligation assigns)
      ((List.range 4).foldlM (fun count i => checkSlot count (Fin.ofNat 4 i)) count s)
      (fun c s' w' => Slots others assigns s' w' ∧ c = filledSlots s'
        ∧ ∀ j, s'.fd j ≠ -1 → s'.fd j ∉ down w') w := by
  refine wp.mono (wp_foldlM_range (fun n (c : Int) s w => Slots others assigns s w
    ∧ c = filledSlots s ∧ (∀ j, s.fd j ≠ -1 → s.fd j ∉ down w)
    ∧ ∀ j : Seat, n ≤ j.val → s.fd j ≠ -1) ?_
    ⟨h, ?_, fun j _ => ?_, fun j _ => hfull j⟩) ?_
  · rintro n c s w hn ⟨h, hc, hdown, hfull⟩
    have hval : (Fin.ofNat 4 n).val = n := Nat.mod_eq_of_lt hn
    refine (wp_checkSlot h hc hdown (hfull _ hval.ge)).mono ?_
    rintro c' s' w' ⟨h', hc', hdown', hother⟩
    refine ⟨h', hc', hdown', fun j hj => ?_⟩
    rw [hother j fun he => ?_]
    · exact hfull j (by omega)
    · rw [he, hval] at hj
      omega
  · rw [hcount, filledSlots, Finset.filter_true_of_mem fun j _ => hfull j,
      Finset.card_univ, Fintype.card_fin]
    rfl
  · rw [hdown]
    exact Finset.notMem_empty _
  · rintro c s w ⟨h, hc, hdown, -⟩
    exact ⟨h, hc, hdown⟩

/-- A slot is filled if and only if somebody is seated there. -/
theorem Slots.seated_iff (h : Slots others assigns s w)
    (hdown : ∀ j, s.fd j ≠ -1 → s.fd j ∉ down w) (i : Seat) :
    Seated w (s.fd i) ↔ s.fd i ≠ -1 := by
  constructor
  · rintro ⟨hpos, -⟩
    omega
  · intro hi
    obtain ⟨hpos, hlive⟩ := h.nonneg hi
    exact ⟨hpos, hlive, hdown i hi⟩

theorem wp_toSlots {l : Line} (hl : l = startLine → ∀ i, Seated w (s.fd i)) :
    wp (calm others assigns) A (Obligation assigns) (toSlots l s)
      (fun _ s' w' => s' = s ∧ live w' = live w ∧ down w' = down w) w := by
  refine wp.mono (wp_forM_range (fun _ s' w' => s' = s ∧ live w' = live w
    ∧ down w' = down w) ?_ ⟨rfl, rfl, rfl⟩) fun _ _ _ h => h
  rintro n s' w' hn ⟨rfl, hlive, hdown⟩
  refine wp_get_seq (wp_calm ?_ fun r _ _ => ?_)
  · intro he i
    show 0 ≤ s'.fd i ∧ s'.fd i ∈ live w' ∧ s'.fd i ∉ down w'
    rw [hlive, hdown]
    exact hl he i
  · exact ⟨rfl, hlive, hdown⟩

/-- A table is full when the function returns. -/
theorem wp_connectionEstablish (hfresh : Fresh assigns)
    (h : Slots others assigns s w) :
    wp (calm others assigns) A (Obligation assigns) (connectionEstablish s)
      (fun r s' w' => r = 0 ∧ Slots others assigns s' w'
        ∧ ∀ i, Seated w' (s'.fd i)) w := by
  refine wp_forever (fun s w => Slots others assigns s w) ?_ h
  intro s w h
  refine wp_seq (wp_calm trivial fun r _ _ => ?_)
  have hpass : Slots others assigns s (⟨.pass, r⟩ :: w) := h.log rfl
  refine wp_seq ((wp_acceptSlots hfresh hpass rfl).mono ?_)
  rintro c s₁ w₁ ⟨h₁, hdown₁, hc₁, hfull₁⟩
  refine wp_get_seq (wp_seq (wp_calm trivial fun ready _ _ => wp_modify_seq ?_))
  have h₂ : Slots others assigns { s₁ with
      testset := s₁.rset.filter fun d => ready d }
      (⟨.select (s₁.maxfd + 1) s₁.rset, ready⟩ :: w₁) :=
    ⟨h₁.slot, h₁.inj, h₁.held, h₁.free, h₁.watched, h₁.low⟩
  refine wp_seq ((wp_checkSlots h₂ hc₁ hdown₁ hfull₁).mono ?_)
  rintro c s₃ w₃ ⟨h₃, hc₃, hdown₃⟩
  have hseated := h₃.seated_iff hdown₃
  refine wp_seq (wp_calm ?_ fun r _ _ => ?_)
  · show c = ((Finset.univ.filter fun i => Seated w₃ (s₃.fd i)).card : Int)
    simp only [hseated]
    exact hc₃
  split
  next hfour =>
    have hall : ∀ i, Seated w₃ (s₃.fd i) := by
      have hcard : (Finset.univ.filter fun i => s₃.fd i ≠ -1).card
          = (Finset.univ : Finset Seat).card := by
        rw [Finset.card_univ, Fintype.card_fin]
        rw [filledSlots] at hc₃
        omega
      intro i
      rw [hseated]
      exact Finset.filter_card_eq hcard i (Finset.mem_univ i)
    refine wp_seq ((wp_toSlots (w := ⟨.decide c, r⟩ :: w₃) fun _ => hall).mono ?_)
    rintro _ s₄ w₄ ⟨rfl, hlive, hdown⟩
    refine wp_pure ⟨rfl, h₃.log hlive, fun i => ?_⟩
    show 0 ≤ s₄.fd i ∧ s₄.fd i ∈ live w₄ ∧ s₄.fd i ∉ down w₄
    rw [hlive, hdown]
    exact hall i
  next =>
    refine wp_seq ((wp_toSlots fun he => ?_).mono ?_)
    · have hw : some 'w' = some 's' := congrArg List.head? he
      exact absurd hw (by decide)
    rintro _ s₄ w₄ ⟨rfl, hlive, -⟩
    exact wp_pure (h₃.log hlive)

theorem wp_release (h : Slots others assigns s w) :
    wp (calm others assigns) A (Obligation assigns) (release s)
      (fun _ s' w' => Slots others assigns s' w') w := by
  refine wp.mono (wp_forM_range (fun _ s' w' => Slots others assigns s' w') ?_ h)
    fun _ _ _ h => h
  intro n s w _ h
  refine wp_get_seq (wp_seq (wp_calm trivial fun r _ _ => wp_modify ?_))
  exact h.unseat _ r

theorem wp_main (hfresh : Fresh assigns) :
    wp (calm others assigns) A (Obligation assigns) (main boot)
      (fun _ _ _ => True) [] := by
  refine wp_forever (fun s w => Slots others assigns s w) ?_ slots_boot
  intro s w h
  refine wp_seq ((wp_connectionEstablish hfresh h).mono ?_)
  rintro _ s₁ w₁ ⟨rfl, h₁, hall⟩
  rw [if_pos rfl]
  refine wp_seq (wp_calm ⟨hall, h₁.rset_eq fun i => ?_⟩ fun r _ _ => ?_)
  · have hpos := (hall i).1
    omega
  refine wp_seq (wp_calm trivial fun r' _ _ => ?_)
  have h₂ : Slots others assigns s₁ (⟨.fork, r'⟩ :: ⟨.established, r⟩ :: w₁) :=
    h₁.log rfl
  exact wp_seq ((wp_release h₂).mono fun _ s₃ w₃ h₃ => wp_pure h₃)

end Passes

-- ===================================================================== the tables

/-- Along every run of the listening process in which no `accept` was
interrupted and no `read` failed: the descriptors it uses are accepted
ones, the count it decides by is the number of players seated, and when
it sends the start line or returns all four are, and, with the lowest
descriptors given out, `rset` is their set. -/
theorem starts_full {others : Finset Int} {assigns : Finset Int → Int → Prop}
    (hfresh : Fresh assigns) {tr : List (Op × Lobby)} {o : Op} {s : Lobby}
    {k : o.Res → Proc Op Op.Res Lobby Unit} {w : Log}
    (hrun : Run (sockets others assigns) (main boot) [] tr (.op o s k) w)
    (hcalm : ∀ x ∈ w, Calm x) : Obligation assigns o s w := by
  have hrun' : Run (calm others assigns) (main boot) [] tr (.op o s k) w := by
    refine hrun.relog fun v hv hsound => ⟨hsound, fun x hx => ?_⟩
    exact hcalm x (hv.subset hx)
  exact wp_op_obligation (wp_run (A := fun _ _ => True) (wp_main hfresh) hrun'
    fun _ _ => trivial) trivial

-- ================================================================ three runs

/-- The lowest unused descriptor is given out. -/
abbrev lowest (used : Finset Int) (fd : Int) : Prop :=
  0 ≤ fd ∧ fd ∉ used ∧ ∀ e < fd.toNat, (e : Int) ∈ used

theorem lowest_fresh : Fresh lowest := fun _ _ h => ⟨h.1, h.2.1⟩

theorem lowest_lowest : Lowest lowest := by
  intro used fd h e hpos hlt
  have he := h.2.2 e.toNat (by omega)
  rwa [Int.toNat_of_nonneg hpos] at he

/-- Standard input, output and error, and the listening socket. -/
def inUse : Finset Int := {0, 1, 2, 3}

/-- Clients connect as soon as they can, the first after an interrupt
perhaps; all are ready to be read from, with the outcome `received`. -/
def arrivals (interrupt : Bool) (received : Received) (w : Log) :
    (o : Op) → Option o.Res
  | .accept =>
      let fd : Int := ((inUse ∪ live w).card : Nat)
      if interrupt ∧ w.length = 1 then some .interrupted
      else if lowest (inUse ∪ live w) fd then some (.connected fd) else none
  | .select _ _ => some fun _ => true
  | .read _ => some received
  | .indeterminate | .exit => none
  | .write _ _ | .close _ | .fork | .pass | .set _ | .isset _ | .decide _
  | .established => some ()

theorem arrivals_sound {interrupt : Bool} {received : Received} (w : Log) (o : Op)
    (r : o.Res) (h : arrivals interrupt received w o = some r) :
    Sound inUse lowest (⟨o, r⟩ :: w) := by
  cases o with
  | accept =>
      simp only [arrivals] at h
      split at h
      · cases h
        exact trivial
      · split at h
        next hlow =>
          cases h
          exact hlow
        next => exact nomatch h
  | _ => exact trivial

/-- The goal of a replay: an operation, with no trouble before it. -/
def quietly (o : Op) (w : Log) (o' : Op) (_ : Lobby) : Bool :=
  decide (o' = o) && w.all fun x => match x with
    | ⟨.accept, .interrupted⟩ => false
    | ⟨.read _, .error⟩ => false
    | _ => true

theorem quietly_calm {o o' : Op} {w : Log} {s : Lobby} (h : quietly o w o' s = true) :
    o' = o ∧ ∀ x ∈ w, Calm x := by
  rw [quietly, Bool.and_eq_true, decide_eq_true_eq, List.all_eq_true] at h
  refine ⟨h.1, fun x hx => ?_⟩
  have hx' := h.2 x hx
  unfold Calm
  split <;> simp_all

/-- Four clients that stay are seated on the descriptors after those in
use. -/
theorem starts_full_four : ∃ tr o s k w,
    Run (sockets inUse lowest) (main boot) [] tr (.op o s k) w ∧ o = .established
      ∧ (∀ i, Seated w (s.fd i)) ∧ s.rset = Finset.univ.image s.fd := by
  have hreplay : (main boot).replay (fromLog (arrivals false .data)) (fun _ _ => true)
      (quietly .established) 60 [] = true := by decide +kernel
  obtain ⟨tr, o, s, k, w, hrun, hgoal, -⟩ := Proc.replay_logged arrivals_sound hreplay
  obtain ⟨rfl, hcalm⟩ := quietly_calm hgoal
  obtain ⟨hseated, hrset⟩ := starts_full lowest_fresh hrun hcalm
  exact ⟨tr, _, s, k, w, hrun, rfl, hseated, hrset lowest_lowest⟩

/-- A client whose connection breaks is sent the start line. -/
theorem starts_with_broken : ¬ ∀ (others : Finset Int)
    (assigns : Finset Int → Int → Prop) (tr : List (Op × Lobby)) (o : Op) (s : Lobby)
    (k : o.Res → Proc Op Op.Res Lobby Unit) (w : Log), Fresh assigns →
    Run (sockets others assigns) (main boot) [] tr (.op o s k) w →
    Obligation assigns o s w := by
  intro hall
  have hreplay : (main boot).replay (fromLog (arrivals false .error)) (fun _ _ => true)
      (fun w o s => decide (o = .write 4 startLine ∧ ¬ ∀ i, Seated w (s.fd i)))
      60 [] = true := by decide +kernel
  obtain ⟨tr, o, s, k, w, hrun, hgoal, -⟩ := Proc.replay_logged arrivals_sound hreplay
  rw [decide_eq_true_eq] at hgoal
  obtain ⟨rfl, hbroken⟩ := hgoal
  exact hbroken (hall _ _ _ _ _ _ _ lowest_fresh hrun rfl)

/-- After an interrupted `accept` the slot's -1 is looked up in the
set. -/
theorem interrupted_isset : ∃ tr s k w,
    Run (sockets inUse lowest) (main boot) [] tr (.op (.isset (-1)) s k) w := by
  have hreplay : (main boot).replay (fromLog (arrivals true .data)) (fun _ _ => true)
      (fun _ o _ => decide (o = .isset (-1))) 60 [] = true := by decide +kernel
  obtain ⟨tr, o, s, k, w, hrun, hgoal, -⟩ := Proc.replay_logged arrivals_sound hreplay
  rw [decide_eq_true_eq] at hgoal
  subst hgoal
  exact ⟨tr, s, k, w, hrun⟩

end Mahjong.Lobby
