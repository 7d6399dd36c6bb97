/-
The end of a round: the announcement, the four answers, and whether a next
round is played.

# The wait

The players answer in any order, and the server waits for all who have not
answered yet. Each wait is ended by one of these, whose answer is read and
who is waited for no more (`Collecting`), so it is the last wait that finds
all four: the number of players still waited for is the measure of the
loop, and as it is not zero there is always somebody to wait for.

# The decision

A next round is played exactly when all four have said yes (`unanimous`).
-/
import Mahjong.Proofs.Polite

namespace Mahjong.Server

open Process CString

-- ==================================================================== the exchanges

section Display

variable {ok : Log → Prop} {A : SOp → Game → Prop} {P : SOp → Game → Log → Prop}
  {s s' : Game} {w w' : Log} {p : Seat} {l : Line}

theorem answers_select {fds : List Seat} {ready : Seat → Bool} :
    answers (⟨.select fds, ready⟩ :: w) = answers w :=
  answers_cons fun _ he => nomatch he

/-- Nothing is asked of an exchange. -/
theorem quiet_nothing : Quiet (fun _ => True) (fun _ _ _ => True) (fun _ _ => True) := by
  constructor <;> intros <;> trivial

/-- A line to all players is no answer. -/
theorem twp_tellAll (hx : Exchanges ok A P) (hl : l ≠ str "ACK\n") :
    twp (within ok) A P (toAll l s) (fun _ s' w' => s' = s ∧ answers w' = answers w) w := by
  have htell : ∀ {w₁ : Log}, answers w₁ = answers w → ∀ p, twp (within ok) A P
      (writeMessageWaitAck p l s) (fun _ s' w' => s' = s ∧ answers w' = answers w) w₁ :=
    fun h p => hx.tell hl fun r => ⟨rfl, (answers_told hl).trans h⟩
  refine twp_seq ((htell rfl 0).mono fun _ s₁ w₁ h₁ => ?_)
  obtain ⟨rfl, h₁⟩ := h₁
  refine twp_seq ((htell h₁ 1).mono fun _ s₂ w₂ h₂ => ?_)
  obtain ⟨rfl, h₂⟩ := h₂
  refine twp_seq ((htell h₂ 2).mono fun _ s₃ w₃ h₃ => ?_)
  obtain ⟨rfl, h₃⟩ := h₃
  exact htell h₃ 3

-- ===================================================================== the four answers

/-- While the answers are collected: `x` counts the yeses and the answers,
and lists the players who have not answered. -/
structure Collecting (s : Game) (w : Log) (x : Nat × Nat × List Seat) (s' : Game) (w' : Log) :
    Prop where
  same : s' = s
  read : ∃ new, answers w' = new ++ answers w ∧ (new.map Prod.fst ++ x.2.2).Perm [0, 1, 2, 3]
    ∧ x.1 = new.countP (isYes ·.2) ∧ x.2.1 = new.length

variable {x : Nat × Nat × List Seat}

theorem Collecting.length (h : Collecting s w x s' w') : x.2.1 + x.2.2.length = 4 := by
  obtain ⟨new, -, hperm, -, hcount⟩ := h.read
  have hlen := hperm.length_eq
  simp at hlen
  omega

theorem Collecting.select {fds : List Seat} (h : Collecting s w x s' w') (ready : Seat → Bool) :
    Collecting s w x s' (⟨.select fds, ready⟩ :: w') := by
  have hanswers : answers (⟨.select fds, ready⟩ :: w') = answers w' := answers_select
  obtain ⟨hsame, hread⟩ := h
  rw [← hanswers] at hread
  exact ⟨hsame, hread⟩

/-- A look at one player. -/
theorem twp_readAnswer (hx : Exchanges ok A P) {testset : Seat → Bool}
    (h : Collecting s w x s' w') (hp : testset p = true → p ∈ x.2.2) :
    twp (within ok) A P (readAnswer testset x p s')
      (fun x' s'' w'' => Collecting s w x' s'' w'' ∧ x.2.1 ≤ x'.2.1
        ∧ (testset p = true → x.2.1 < x'.2.1) ∧ ∀ q, q ≠ p → (q ∈ x'.2.2 ↔ q ∈ x.2.2)) w' := by
  unfold readAnswer
  split
  next htest =>
    have hmem := hp htest
    refine twp_seq (hx.hear fun r => twp_pure ?_)
    refine ⟨⟨h.same, ?_⟩, Nat.le_succ _, fun _ => Nat.lt_succ_self _, fun q hq => by simp [hq]⟩
    obtain ⟨new, hnew, hperm, hyes, hcount⟩ := h.read
    refine ⟨(p, r) :: new, ?_, ?_, ?_, ?_⟩
    · rw [answers_ack, hnew, List.cons_append]
    · have hnodup : x.2.2.Nodup := by
        have hall := hperm.nodup_iff.mpr (by decide)
        exact hall.of_append_right
      have hrest : x.2.2.Perm (p :: x.2.2.filter (· ≠ p)) := by
        have herase := hnodup.erase_eq_filter p
        have hfilter : x.2.2.filter (· ≠ p) = x.2.2.erase p := by
          rw [herase]
          exact List.filter_congr fun q _ => by by_cases hq : q = p <;> simp [hq]
        rw [hfilter]
        exact List.perm_cons_erase hmem
      refine List.Perm.trans ?_ hperm
      refine List.Perm.trans ?_ (hrest.symm.append_left _)
      exact List.perm_middle.symm
    · rw [List.countP_cons, hyes]
    · rw [List.length_cons, hcount]
  next htest =>
    exact twp_pure ⟨h, Nat.le_refl _, fun ht => absurd ht htest, fun _ _ => Iff.rfl⟩

/-- The four answers: somebody is waited for until all have been read. -/
theorem twp_collectAnswers (hx : Exchanges ok A P) (hok : ∀ w, ok w → Woken w)
    (hselect : ∀ fds s w, fds ≠ [] → P (.select fds) s w) :
    twp (within ok) A P (collectAnswers s)
      (fun n s' w' => s' = s ∧ ∃ new, answers w' = new ++ answers w
        ∧ (new.map Prod.fst).Perm [0, 1, 2, 3] ∧ n = new.countP (isYes ·.2)) w := by
  have hstart : Collecting s w (0, 0, [0, 1, 2, 3]) s w :=
    ⟨rfl, [], rfl, List.Perm.refl _, rfl, rfl⟩
  refine twp_iterate (fun x s' w' => Collecting s w x s' w') (fun x _ _ => 4 - x.2.1) ?_ hstart
  intro x s' w' h
  split
  next hall =>
    obtain ⟨new, hnew, hperm, hyes, -⟩ := h.read
    have hnil : x.2.2 = [] := by
      have hlen := h.length
      exact List.length_eq_zero_iff.mp (by omega)
    rw [hnil, List.append_nil] at hperm
    exact twp_pure ⟨h.same, new, hnew, hperm, hyes⟩
  next hsome =>
    have hwaiting : x.2.2 ≠ [] := by
      intro hnil
      have hlen := h.length
      rw [hnil, List.length_nil] at hlen
      omega
    refine twp_seq (twp_call fun _ => ⟨hselect _ _ _ hwaiting, fun ready w₁ h₁ => ?_⟩)
    obtain ⟨rfl, hwoken⟩ := h₁
    obtain ⟨q, hq, hready⟩ := hok _ hwoken
    have hmem : ∀ q, (x.2.2.contains q && ready q) = true → q ∈ x.2.2 := by
      intro q hq
      exact List.contains_iff_mem.mp (Bool.and_eq_true_iff.mp hq).1
    refine twp_seq ((twp_readAnswer hx (h.select ready) (hmem 0)).mono fun x₀ s₂ w₂ h₂ => ?_)
    obtain ⟨h₂, hle₀, hlt₀, hmem₀⟩ := h₂
    refine twp_seq ((twp_readAnswer hx h₂ fun ht =>
      (hmem₀ 1 (by decide)).mpr (hmem 1 ht)).mono fun x₁ s₃ w₃ h₃ => ?_)
    obtain ⟨h₃, hle₁, hlt₁, hmem₁⟩ := h₃
    refine twp_seq ((twp_readAnswer hx h₃ fun ht => (hmem₁ 2 (by decide)).mpr
      ((hmem₀ 2 (by decide)).mpr (hmem 2 ht))).mono fun x₂ s₄ w₄ h₄ => ?_)
    obtain ⟨h₄, hle₂, hlt₂, hmem₂⟩ := h₄
    refine twp_seq ((twp_readAnswer hx h₄ fun ht => (hmem₂ 3 (by decide)).mpr
      ((hmem₁ 3 (by decide)).mpr ((hmem₀ 3 (by decide)).mpr (hmem 3 ht)))).mono
        fun x₃ s₅ w₅ h₅ => ?_)
    obtain ⟨h₅, hle₃, hlt₃, -⟩ := h₅
    -- the player who woke the server has been read
    have hread : x.2.1 < x₃.2.1 := by
      have htest : (x.2.2.contains q && ready q) = true := by simp [hq, hready]
      match q, htest with
      | 0, htest => have := hlt₀ htest; omega
      | 1, htest => have := hlt₁ htest; omega
      | 2, htest => have := hlt₂ htest; omega
      | 3, htest => have := hlt₃ htest; omega
    refine twp_pure ⟨h₅, ?_⟩
    have hlen := h₅.length
    show 4 - x₃.2.1 < 4 - x.2.1
    omega

-- ===================================================================== the end of a round

/-- `game_set_display` comes to its end: everybody has been asked once, and
it goes on exactly when all four have said yes. -/
theorem twp_gameSetDisplay (hx : Exchanges ok A P) (hok : ∀ w, ok w → Woken w)
    (hselect : ∀ fds s w, fds ≠ [] → P (.select fds) s w) :
    twp (within ok) A P (gameSetDisplay s)
      (fun i s' w' => s' = s ∧ ∃ new, answers w' = new ++ answers w
        ∧ (new.map Prod.fst).Perm [0, 1, 2, 3]
        ∧ i = if ∀ x ∈ new, isYes x.2 = true then 1 else 0) w := by
  refine twp_get_seq (twp_seq ((twp_tellAll hx (endLine_ne_ack _)).mono fun _ s₁ w₁ h₁ => ?_))
  obtain ⟨rfl, h₁⟩ := h₁
  refine twp_seq ((twp_collectAnswers hx hok hselect).mono fun n s₂ w₂ h₂ => ?_)
  obtain ⟨rfl, new, hnew, hperm, rfl⟩ := h₂
  have hlen : new.length = 4 := by simpa using hperm.length_eq
  have hall : new.countP (isYes ·.2) = 4 ↔ ∀ x ∈ new, isYes x.2 = true := by
    rw [← hlen, List.countP_eq_length]
  rw [h₁] at hnew
  have hfinish : ∀ (l : Line) (i : Int), l ≠ str "ACK\n" →
      (i = if ∀ x ∈ new, isYes x.2 = true then 1 else 0) →
      twp (within ok) A P ((do toAll l; pure i : Server Int) s₂)
        (fun i s' w' => s' = s₂ ∧ ∃ new, answers w' = new ++ answers w
          ∧ (new.map Prod.fst).Perm [0, 1, 2, 3]
          ∧ i = if ∀ x ∈ new, isYes x.2 = true then 1 else 0) w₂ := by
    intro l i hl hi
    refine twp_seq ((twp_tellAll hx hl).mono fun _ s₃ w₃ h₃ => ?_)
    obtain ⟨rfl, h₃⟩ := h₃
    exact twp_pure ⟨rfl, new, h₃.trans hnew, hperm, hi⟩
  split
  next hyes => exact hfinish _ _ (by decide) (if_pos (hall.mp hyes)).symm
  next hno => exact hfinish _ _ (by decide) (if_neg fun h => hno (hall.mpr h)).symm

end Display

/-- Polite players, one of whom wakes the server whenever it waits, do not
leave it stuck either. -/
theorem polite_gameSetDisplay (s : Game) (w : Log) :
    wp (within fun w => Woken w ∧ Polite w) Any (CanGoOn fun w => Woken w ∧ Polite w)
      (gameSetDisplay s) (fun _ _ _ => True) w := by
  have hselect : ∀ (fds : List Seat) (s : Game) (w : Log), fds ≠ [] →
      CanGoOn (fun w => Woken w ∧ Polite w) (.select fds) s w := by
    intro fds s w hne
    obtain ⟨fd, rest, rfl⟩ := List.exists_cons_of_ne_nil hne
    exact ⟨fun _ => true, _, rfl, ⟨fd, List.mem_cons_self .., rfl⟩, trivial⟩
  have h := twp_gameSetDisplay (A := Any) (s := s) (w := w)
    (polite_exchanges woken_polite_courteous) (fun _ h => h.1) hselect
  exact h.wp.mono fun _ _ _ _ => trivial

/-- A next round is played exactly when all four players, each asked once,
have said yes, in whatever order they answer; and while they are polite,
the four are asked and told. -/
theorem unanimous (s : Game) (w : Log) :
    Finishes Woken Polite Any (gameSetDisplay s) (fun i s' w' => s' = s ∧ ∃ new,
      answers w' = new ++ answers w ∧ (new.map Prod.fst).Perm [0, 1, 2, 3]
      ∧ i = if ∀ x ∈ new, isYes x.2 = true then 1 else 0) w := by
  have hplain : Exchanges Woken Any fun _ _ _ => True := quiet_exchanges quiet_nothing
  refine (twp_gameSetDisplay hplain (fun _ h => h) fun _ _ _ _ => trivial).finishes ?_
  exact (polite_gameSetDisplay s w).neverStuck

end Mahjong.Server
