/-
The wall is never over-drawn, and a round without a winner ends when it
is used up, as long as every draw finds a tile that is no flower
(`Finds`). A draw that does not finds the end of the wall: it lays down
what flowers there are and reads on.

The turns stop when the cursor is at 144 behind a discard. With every
draw in order the cursor cannot be anywhere else beyond the wall, so the
test is enough.
-/
import Mahjong.Proofs.Offers

namespace Mahjong.Server

open Process CString

-- ================================================================ the cursor moves on

section Cursor

variable {s s' t : Game} {p d : Seat} {c : Claim} {o : Outcome} {w w' : Log}

/-- No claim takes the cursor back. -/
theorem Claims.takeIndex_le (h : Claims s p c t) : s.takeIndex ≤ t.takeIndex := by
  cases h with
  | gang => exact Nat.le_succ_of_le (Nat.le_add_right _ _)
  | pong => exact Nat.le_refl _
  | eat => exact Nat.le_refl _

theorem PassEnds.takeIndex_le (h : PassEnds s d w o s' w') : s.takeIndex ≤ s'.takeIndex := by
  rcases h with ⟨-, rfl, -⟩ | ⟨xs, x, ys, w₁, -, -, -, ⟨-, -, rfl⟩ | ⟨t, hc, he⟩⟩
  · exact Nat.le_refl _
  · exact Nat.le_refl _
  · rcases he with ⟨-, rfl⟩ | ⟨-, i, -, rfl⟩
    · exact hc.takeIndex_le
    · exact hc.takeIndex_le

/-- A pass that reports a win has a winner. -/
theorem PassEnds.winner_of_one {r : Int} {q : Seat} (h : PassEnds s d w (.done r q) s' w')
    (hr : r = 1) : s'.winner ≠ -1 := by
  intro hwin
  have hzero := (h.unwanted hwin).2.1
  omega

theorem Slots.takeIndex_lt (hs : Slots s) (h : s.undrawn ≠ []) : s.takeIndex < 144 := by
  by_contra hge
  apply h
  apply List.drop_eq_nil_of_le
  have hwall := hs.wall
  omega

end Cursor

-- =================================================================== the obligation

/-- What is shown of a round: no tile is read beyond the wall, a turn
begins with tiles left and no winner, and the round is over with a winner
or with the wall used up. -/
def Exhausting : SOp → Game → Log → Prop
  | .note (.access .shuffledMjs i), _, _ => i < 144
  | .write _ l, s, _ => l = str "your turn\n" → s.winner = -1 ∧ s.takeIndex < 144
  | .note .gameSet, s, _ => s.winner ≠ -1 ∨ s.takeIndex = 144
  | _, _, _ => True

section Obligation

variable {b : Seat → Nat} {d : Seat} {s : Game} {w : Log}

theorem exhausting_write {q : Seat} {l : Line} (h : l ≠ str "your turn\n") :
    Exhausting (.write q l) s w :=
  fun he => absurd he h

theorem exhausting_quiet {L : Line → Prop} {U : Game → Log → Prop} (hack : L (str "ACK\n"))
    (hturn : ¬ L (str "your turn\n"))
    (hU : ∀ (o : SOp) (r : o.Res) s w, U s w → ¬ IsWin o → U s (⟨o, r⟩ :: w)) :
    Quiet L Exhausting U := by
  constructor
  · exact hack
  · exact hU
  · intro p l s w hl _
    apply exhausting_write
    intro he
    exact hturn (he ▸ hl)
  · intro e s w he _
    cases e <;> first | exact trivial | exact (Bool.false_ne_true he).elim
  all_goals
    intros
    trivial

theorem exhausting_light : Light b Exhausting where
  quiet := exhausting_quiet (by decide) (by decide) fun _ _ _ _ h _ => h
  access := by
    intro a i s w ha _
    cases a with
    | shuffledMjs => exact absurd rfl ha
    | _ => exact trivial
  counts := fun _ _ _ _ => trivial
  win := fun _ _ _ _ => trivial
  print := fun _ _ _ _ _ _ => trivial
  quietGang := fun _ p _ _ _ => exhausting_write fun he => nomatch he

theorem exhausting_feed : Feed b Finds Exhausting Findable where
  draw := fun _ _ h => h rfl
  read := by
    intro s w hlen _ h _
    refine ⟨h.ne_nil, ?_⟩
    show (s.takeIndex : Int) < 144
    by_contra hge
    apply h.ne_nil
    apply List.drop_eq_nil_of_le
    omega
  next := fun _ _ h hm => h.tail hm

theorem exhausting_watch : Watch Exhausting d s w where
  offer := by
    intro xs x ys w₁ _ _ _
    apply exhausting_write
    cases x.1 <;> decide
  gang := fun _ _ _ _ _ => exhausting_write fun he => nomatch he
  pong := fun _ _ _ _ _ => exhausting_write fun he => nomatch he
  eat := fun _ _ _ _ _ _ => exhausting_write fun he => nomatch he
  unwanted := fun _ _ => exhausting_write (by decide)

end Obligation

-- ======================================================================== the turns

section Round

variable {g : Nat → Nat} {wall : Wall} {start d p : Seat} {s s₀ : Game} {w : Log}

/-- A chain of claims moves the cursor on, and reports a win only if
there is a winner. -/
theorem twp_othersreaction_exhausting (hs : Slots s) :
    twp (within (patient g)) Finds Exhausting (othersreaction d s)
      (fun r s' _ => Slots s' ∧ s.takeIndex ≤ s'.takeIndex ∧ (r.1 = 1 → s'.winner ≠ -1)) w := by
  refine (twp_othersreaction (fun _ s' _ => s.takeIndex ≤ s'.takeIndex) ?_ hs
    (Nat.le_refl _)).mono ?_
  · intro d' s' w' hs' hle
    refine (twp_reaction exhausting_light exhausting_feed hs' (below_sixteen hs') trivial
      exhausting_watch).mono ?_
    intro o s'' w'' h
    exact ⟨h, fun _ _ => hle.trans h.takeIndex_le⟩
  · rintro ⟨r, q⟩ s' w' ⟨nested, d₁, s₁, w₁, r₁, hs₁, hle, h, hr⟩
    refine ⟨h.slots hs₁, hle.trans h.takeIndex_le, fun hone => h.winner_of_one ?_⟩
    cases nested with
    | true =>
        rw [if_pos rfl] at hr
        omega
    | false => exact hr.symm.trans hone

/-- The turns come to an end, with a winner or at the end of the wall. -/
theorem twp_turns_exhausting (hs : Slots s) (hlt : s.winner = -1 → s.takeIndex < 144) :
    twp (within (patient g)) Finds Exhausting (turns p s)
      (fun _ s' _ => s'.winner ≠ -1 ∨ s'.takeIndex = 144) w := by
  have hfeed : Feed (fun _ => 16) Finds Exhausting Findable := exhausting_feed
  refine twp_iterate (fun _ s (_ : Log) => Slots s ∧ (s.winner = -1 → s.takeIndex < 144))
    (fun _ s _ => 144 - s.takeIndex) ?_ ⟨hs, hlt⟩
  intro p s w h
  obtain ⟨hs, hlt⟩ := h
  refine twp_get_seq ?_
  split
  next hwin =>
    refine twp_seq ((twp_drawNDiscard exhausting_light hfeed.toSupply (hs.fits p)
      (below_sixteen hs) (hfeed.draw _ _) fun _ => ⟨hwin, hlt hwin⟩).mono ?_)
    rintro r s' w' ⟨⟨flowers, x, rest, _, _, hwall, -, -, -, hends⟩, -⟩
    rcases hends with ⟨rfl, -, rfl⟩ | ⟨rfl, i, t, -, rfl, ht⟩
    · exact twp_pure (Or.inl (by show (p.val : Int) ≠ -1; omega))
    have hdrew := hs.drew (p := p) hwall
    have ht' : Slots t ∧ s.takeIndex < t.takeIndex := by
      have hmoved : s.takeIndex < (s.drew p flowers x).takeIndex :=
        Nat.lt_succ_of_le (Nat.le_add_right _ _)
      rcases ht with rfl | ⟨ht, -⟩
      · exact ⟨hdrew, hmoved⟩
      · obtain ⟨-, -, rfl⟩ := id ht
        exact ⟨ht.slots hdrew, hmoved⟩
    refine twp_seq ((twp_othersreaction_exhausting (ht'.1.discarded p i)).mono ?_)
    intro r s'' w'' h
    obtain ⟨hs'', hle, hone⟩ := h
    have hmoved : s.takeIndex < s''.takeIndex := ht'.2.trans_le hle
    split
    next hr => exact twp_pure (Or.inl (hone hr))
    next =>
      refine twp_get_seq ?_
      have hmost := hs''.takeIndex
      split
      next hend => exact twp_pure (Or.inr hend)
      next hend =>
        refine twp_pure ⟨⟨hs'', fun _ => by omega⟩, ?_⟩
        show 144 - s''.takeIndex < 144 - s.takeIndex
        have hbefore := hlt hwin
        omega
  next hwin => exact twp_pure (Or.inl hwin)

theorem twp_playRound_exhausting :
    twp (within (patient g)) Finds Exhausting (playRound wall.tiles start s₀)
      (fun _ _ _ => True) [] := by
  have hquiet : Quiet Plain Exhausting Undecided :=
    exhausting_quiet (by decide) (by decide) fun _ _ _ _ h ho => h.log ho
  have haccess : FairAccess Exhausting := by
    refine ⟨fun a i s w _ hlt _ _ => ?_, fun _ _ _ _ _ _ => trivial⟩
    cases a with
    | shuffledMjs => exact hlt
    | _ => exact trivial
  have hdeal : twp (within (patient g)) Finds Exhausting (deal start (Game.init wall.tiles))
      (fun _ s w => AfterDeal wall s w) [] := twp_deal haccess hquiet Declares.nil
  refine twp_modify_seq (twp_seq (hdeal.mono fun _ s w h => ?_))
  have hdealt : s.takeIndex < 144 := by
    have hle := h.takeIndex_le
    omega
  refine twp_seq ((twp_turns_exhausting h.slots fun _ => hdealt).mono fun _ s w h => ?_)
  exact twp_note fun _ => ⟨h, trivial⟩

/-- A round that reads the wall to its end and no further. -/
structure Exhausts (wall : Wall) (start : Seat) (s₀ : Game) : Prop where
  /-- Every tile is read from the wall. -/
  reads : ∀ tr i s k w, Run anyone (playRound wall.tiles start s₀) [] tr
      (.op (.note (.access .shuffledMjs i)) s k) w →
    (∀ x ∈ tr, Finds x.1 x.2) → i < 144
  /-- A turn begins with tiles left. -/
  turns : ∀ tr p s k w, Run anyone (playRound wall.tiles start s₀) [] tr
      (.op (.write p (str "your turn\n")) s k) w →
    (∀ x ∈ tr, Finds x.1 x.2) → s.winner = -1 ∧ s.takeIndex < 144
  /-- Without a winner the round is over when the wall is used up. -/
  ends : ∀ tr s k w, Run anyone (playRound wall.tiles start s₀) [] tr
      (.op (.note .gameSet) s k) w →
    (∀ x ∈ tr, Finds x.1 x.2) → s.winner ≠ -1 ∨ s.takeIndex = 144
  /-- It is over at last, if every eat prompt is answered at last. -/
  stops : ∀ f : Nat → Proc SOp IoOp.Res Game Unit × Log,
    f 0 = (playRound wall.tiles start s₀, []) → Answered (fun n => (f n).2) →
    ¬ ∀ n, Step anyone Finds (f n) (f (n + 1))

/-- While every draw finds a tile that is no flower, the wall is never
over-drawn and the round ends with it. -/
theorem wall_exhausted (wall : Wall) (start : Seat) (s₀ : Game) : Exhausts wall start s₀ := by
  have hobliged : ∀ {tr : List (SOp × Game)} {o : SOp} {s : Game} {w : Log}
      {k : o.Res → Proc SOp IoOp.Res Game Unit},
      Run anyone (playRound wall.tiles start s₀) [] tr (.op o s k) w →
      (∀ x ∈ tr, Finds x.1 x.2) → isDraw o = false → Exhausting o s w := by
    intro tr o s w k hrun hfinds ho
    obtain ⟨g, hrun⟩ := Run.patient hrun
    refine wp_op_obligation (wp_run twp_playRound_exhausting.wp hrun hfinds) fun hdraw => ?_
    exact absurd (ho.symm.trans hdraw) Bool.false_ne_true
  constructor
  · exact fun tr i s k w hrun hfinds => hobliged hrun hfinds rfl
  · exact fun tr p s k w hrun hfinds => hobliged hrun hfinds rfl rfl
  · exact fun tr s k w hrun hfinds => hobliged hrun hfinds rfl
  · intro f h0 hanswered hstep
    obtain ⟨g, hg⟩ := hanswered.patient fun n => eats_step_le (hstep n)
    exact (twp_playRound_exhausting (g := g)).no_infinite_run f h0 fun n =>
      step_patient (hstep n) (hg (n + 1))

end Round

-- =============================================================== flowers at the end

/-- Four hands that want nothing of what is drawn, and the flowers at the
end of the wall. -/
def flowerWall : Wall where
  tiles := stacked (arranged (fun _ => scattered)
    ([1, 2, 3].flatMap fun type => [2, 3, 5, 6, 8, 9].flatMap fun number =>
      List.replicate 4 (type, number)))
  perm := by decide +kernel

/-- A tile read from beyond the wall. -/
def beyond : SOp → Bool
  | .note (.access .shuffledMjs i) => 144 ≤ i
  | _ => false

set_option maxRecDepth 100000 in
/-- The last draw finds flowers only. -/
theorem wall_overdrawn : ¬ ∀ (wall : Wall) (start : Seat) (s₀ s : Game) (w : Log)
    (tr : List (SOp × Game)) (i : Int) (k : Unit → Proc SOp IoOp.Res Game Unit),
    Run anyone (playRound wall.tiles start s₀) [] tr
      (.op (.note (.access .shuffledMjs i)) s k) w → i < 144 := by
  intro h
  have hreplay : (playRound flowerWall.tiles 0 (Game.init [])).replay scripted
      (fun _ _ => true) (fun _ o _ => beyond o) 30000 ((false, []), []) = true := by
    decide +kernel
  obtain ⟨tr, o, s, k, w, hrun, hgoal, -⟩ := scripted_run (fun _ o _ => beyond o) hreplay
  obtain ⟨i, rfl, hi⟩ : ∃ i, o = .note (.access .shuffledMjs i) ∧ 144 ≤ i := by
    unfold beyond at hgoal
    split at hgoal
    · exact ⟨_, rfl, of_decide_eq_true hgoal⟩
    · exact absurd hgoal Bool.false_ne_true
  have hlt := h flowerWall 0 _ s w tr i k hrun
  omega

end Mahjong.Server
