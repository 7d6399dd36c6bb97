/-
Scripted players: they acknowledge every line, and answer what they are
asked from a list.

A run in which everybody follows the script is one that the server can
see. Following it is evaluation (`Proc.replay`), so one run of many
hundred lines refutes a statement about all runs, or shows that the
hypotheses of one are met.
-/
import Mahjong.Proofs.Rules
import Mahjong.Lib.Replay

namespace Mahjong.Server

open Process CString

/-- The reply of scripted players: whether a line waits for its `ACK`,
and the answers still to come. At the end of the list they discard the
tile just drawn, which also declines what is offered. All have something
to say whenever the server waits. -/
def reply : Bool × List Line → (o : SOp) → Option (o.Res × (Bool × List Line))
  | (_, answers), .write _ l => some ((), (l != str "ACK\n", answers))
  | (true, answers), .readline _ _ => some (str "ACK\n", (false, answers))
  | (false, answer :: answers), .readline _ _ => some (answer, (false, answers))
  | (false, []), .readline _ _ => some (str "16\n", (false, []))
  | state, .note _ => some ((), state)
  | state, .select _ => some (fun _ => true, state)
  | _, _ => none

/-- The replies, and the log of them. -/
def scripted (t : (Bool × List Line) × Log) (o : SOp) :
    Option (o.Res × ((Bool × List Line) × Log)) :=
  (reply t.1 o).map fun x => (x.1, (x.2, ⟨o, x.1⟩ :: t.2))

theorem scripted_resp (t : (Bool × List Line) × Log) (o : SOp) (r : o.Res)
    (t' : (Bool × List Line) × Log) (w : anyone.World) (h : scripted t o = some (r, t'))
    (hw : t.2 = w) : ∃ w' : anyone.World, anyone.resp w o r w' ∧ t'.2 = w' := by
  subst hw
  obtain ⟨x, -, he⟩ := Option.map_eq_some_iff.mp h
  cases he
  exact ⟨_, ⟨rfl, trivial⟩, rfl⟩

section Scripted

variable {α : Type} {S : Proc SOp IoOp.Res Game α} {answers : List Line} {n : Nat}

theorem scripted_run {fine : SOp → Game → Bool} (goal : Log → SOp → Game → Bool)
    (h : S.replay scripted fine (fun t => goal t.2) n ((false, answers), []) = true) :
    ∃ tr o s k w, Run anyone S [] tr (.op o s k) w ∧ goal w o s = true
      ∧ ∀ x ∈ tr, fine x.1 x.2 = true := by
  obtain ⟨tr, o, s, k, t, w, hrun, rfl, hrest⟩ :=
    Proc.replay_run (w := ([] : Log)) scripted_resp rfl h
  exact ⟨tr, o, s, k, _, hrun, hrest⟩

theorem scripted_return {fine : SOp → Game → Bool} (good : Log → α → Game → Bool)
    (h : S.playOut scripted fine (fun t => good t.2) n ((false, answers), []) = true) :
    ∃ tr a s w, Run anyone S [] tr (.ret a s) w ∧ good w a s = true
      ∧ ∀ x ∈ tr, fine x.1 x.2 = true := by
  obtain ⟨tr, a, s, t, w, hrun, rfl, hrest⟩ :=
    Proc.playOut_run (w := ([] : Log)) scripted_resp rfl h
  exact ⟨tr, a, s, _, hrun, hrest⟩

end Scripted

/-- Is this the line being written? -/
def writes (l : Line) : SOp → Bool
  | .write _ l' => l' == l
  | _ => false

/-- A wall by its faces. -/
def stacked (faces : List Face) : List Mj := faces.map fun f => ⟨f.1, f.2, 0⟩

/-- The tiles in the order in which `shuffle` lists them. -/
def unshuffled : Wall where
  tiles := stacked tileSet
  perm := by
    have hface : ∀ l : List Face, (stacked l).map Mj.face = l := by
      intro l
      rw [stacked, List.map_map]
      exact List.map_id l
    rw [hface]

/-- A wall from which these hands are dealt, seat 0 first, and these
tiles drawn; the others come in order. -/
def arranged (hands : Seat → List Face) (next : List Face) : List Face :=
  let dealt := (List.range 4).flatMap fun time =>
    (List.finRange 4).flatMap fun p => ((hands p).drop (4 * time)).take 4
  dealt ++ next ++ tileSet.diff (dealt ++ next)

/-- A hand with which nothing can be claimed but a pair. -/
def scattered : List Face :=
  [(1, 1), (1, 4), (1, 7), (2, 1), (2, 4), (2, 7), (3, 1), (3, 4), (3, 7),
    (4, 1), (4, 2), (4, 3), (4, 4), (4, 5), (4, 6), (4, 7)]

/-- A hand that ends in 8 8 9 WAN. -/
def closing : List Face :=
  [(1, 1), (1, 3), (1, 5), (1, 7), (1, 9), (2, 1), (2, 3), (2, 5), (2, 7), (2, 9),
    (3, 1), (3, 3), (3, 5), (3, 8), (3, 8), (3, 9)]

/-- Player 0 draws the 7 WAN that player 1 can eat with the last tiles of
the hand. -/
def eatWall : Wall where
  tiles := stacked (arranged (fun p => if p = 1 then closing else scattered) [(3, 7)])
  perm := by decide +kernel

end Mahjong.Server
