/-
Whole games of the server, and that a game comes to an end.

A game is at most four rounds, and a round that starts with any record
behind it is like one that starts with none (`twp.relog`), so the game ends
where its rounds do: while every draw finds a tile that is no flower and
every eat prompt is answered at last. Between two rounds the players are
asked (`Display.lean`).
-/
import Mahjong.Proofs.Exhaust
import Mahjong.Proofs.Display

namespace Mahjong.Server

open Process CString

-- ====================================================================== whole games

section Whole

variable {g : Nat → Nat} {v w : Log} {wall : Nat → Wall} {s₀ : Game}

theorem eats_append (v w : Log) : eats (v ++ w) = eats v + eats w := by
  induction v with
  | nil => exact (Nat.zero_add _).symm
  | cons x v ih =>
      obtain ⟨o, r⟩ := x
      cases o with
      | note e => cases e <;> simp [eats, ih, Nat.add_right_comm]
      | _ => exact ih

theorem tries_le_append (v w : Log) : tries v ≤ tries (v ++ w) := by
  induction v with
  | nil => exact Nat.zero_le _
  | cons x v ih =>
      obtain ⟨o, r⟩ := x
      cases o with
      | note e => cases e <;> simp [tries, ih]
      | _ => exact ih

/-- Who is patient in all is patient in a part. -/
theorem patient_append (h : patient g (v ++ w)) : patient (fun k => g (k + eats w)) v := by
  unfold patient at h ⊢
  rw [eats_append] at h
  exact (tries_le_append v w).trans h

/-- The surroundings of a whole game. -/
def Timely (g : Nat → Nat) (w : Log) : Prop := patient g w ∧ Woken w

/-- A round, whatever has been before it. -/
theorem twp_playRound_behind (wall : Wall) (start : Seat) (s₀ : Game) (w : Log) :
    twp (within (Timely g)) Finds (fun _ _ _ => True) (playRound wall.tiles start s₀)
      (fun _ _ _ => True) w := by
  have hround : twp (within (patient fun k => g (k + eats w))) Finds Exhausting
      (playRound wall.tiles start s₀) (fun _ _ _ => True) [] := twp_playRound_exhausting
  exact (hround.relog w fun v hv => patient_append hv.1).mono fun _ _ _ _ => trivial

theorem twp_game : twp (within (Timely g)) Finds (fun _ _ _ => True) (game wall s₀)
    (fun _ _ _ => True) [] := by
  refine twp_seq ((twp_forM_range (fun _ _ _ => True) (fun i s w _ _ => ?_) trivial).mono ?_)
  · exact twp_writeMessageWaitAck quiet_nothing trivial trivial fun _ => trivial
  intro _ s w _
  refine twp_iterate (fun _ _ _ => True) (fun n _ _ => 4 - n) ?_ trivial
  intro n s w _
  split
  next hn =>
    refine twp_seq ((twp_playRound_behind _ _ s w).mono fun _ s₁ w₁ _ => ?_)
    refine twp_seq ((twp_gameSetDisplay (quiet_exchanges quiet_nothing) (fun _ h => h.2)
      fun _ _ _ _ => trivial).mono fun i s₂ w₂ _ => ?_)
    split
    · refine twp_pure ⟨trivial, ?_⟩
      show 4 - (n + 1) < 4 - n
      omega
    · exact twp_pure trivial
  next => exact twp_pure trivial

/-- A step is one in any surroundings that are fine with its record. -/
theorem step_within {α : Type} {A : SOp → Game → Prop} {ok : Log → Prop}
    {c c' : Proc SOp IoOp.Res Game α × anyone.World} (h : Step anyone A c c') (hok : ok c'.2) :
    Step (within ok) A c c' := by
  cases h with
  | op ho hr => exact .op ho ⟨hr.1, hok⟩
  | loop => exact .loop

/-- A game comes to an end, if every draw finds a tile that is no flower,
every eat prompt is answered at last and whoever waits for somebody is woken
by one of them. -/
theorem game_ends (wall : Nat → Wall) (s₀ : Game) :
    ¬ ∃ f : Nat → Proc SOp IoOp.Res Game Unit × Log, f 0 = (game wall s₀, [])
      ∧ Answered (fun n => (f n).2) ∧ (∀ n, Woken (f n).2)
      ∧ ∀ n, Step anyone Finds (f n) (f (n + 1)) := by
  intro h
  obtain ⟨f, h0, hanswered, hwoken, hstep⟩ := h
  obtain ⟨g, hg⟩ := hanswered.patient fun n => eats_step_le (hstep n)
  refine (twp_game (g := g)).no_infinite_run f h0 fun n => ?_
  exact step_within (hstep n) ⟨hg (n + 1), hwoken (n + 1)⟩

end Whole

end Mahjong.Server
