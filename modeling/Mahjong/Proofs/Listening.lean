/-
The client and its one read buffer.

What the server sends and what is typed go through one buffer, and the
loop of `game` decides by `select`, which looks at the descriptors and not
at the buffer. Two things can go wrong: a byte of one of them is read for
a line of the other, and the client sleeps on a line that is in the buffer
already.

The server speaks in its turn and waits for an `ACK`, so two lines of it
come at once in one way only: its `ACK` to an answer and the line behind
it. Mostly the client reads on. Behind some answers it goes back to
`select`: a claim that is declined, a win, a discard. There the `ACK` must
come alone (`Rests`).

With both provided for (`attentive`) no line is taken for another's, left
behind or acknowledged twice, whatever the server says and the user types
(`lines_handled`). That is `Run.handles` of the client, which keeps to the
conversation (`game_obeys`). Without, a player who declines a pong and can
eat instead is not asked (`prompt_slept_on`).
-/
import Mahjong.Proofs.ClientTalk
import Mahjong.Proofs.Script
import Mahjong.Lib.Inbox

namespace Mahjong.Client

open Process CString Talk

-- ================================================================== the surroundings

/-- What is on its way to the client. -/
abbrev Mail := Net Fd Note

/-- Between two turns the client sleeps. -/
def Rests (v : View) : Prop := v.phase = .round

/-- A server that keeps to its part of the conversation; no line is read
while bytes of the other descriptor are in the buffer; and an `ACK` behind
which the client sleeps comes without a second line. -/
abbrev attentive : Env COp IoOp.Res :=
  attended plain (str "ACK\n") .peer Fd.server (.turn greeting) Rests Note

/-- Where the conversation is. -/
abbrev standing (w : Mail) : talk.State :=
  w.standing plain (str "ACK\n") .peer Fd.server (.turn greeting)

/-- What comes from the server is its part of the conversation. -/
abbrev Civil : Mail → (o : COp) → o.Res → Mail → Prop :=
  Fed plain (str "ACK\n") .peer Fd.server (.turn greeting)

/-- The same server, however the lines come. -/
abbrev served : Env COp IoOp.Res := wired Fd Note Civil

/-- The client deals with every line: each is its sender's, every line is
acknowledged once and in order, and no line of the server waits in the
buffer while the client sleeps. -/
abbrev Deals (wire : Wire Fd) (S : Proc COp IoOp.Res Table Int) (w : Mail) : Prop :=
  Handles (str "ACK\n") .peer Fd.server wire.ahead S w

/-- No line is lost, mistaken or slept on. -/
theorem lines_handled (expand : Line → Line) (wire : Wire Fd) (t₀ : Table)
    (tr : List (COp × Table)) (S : Proc COp IoOp.Res Table Int) (w : Mail)
    (hrun : Run attentive (game expand t₀) (Net.start wire : Mail) tr S w)
    (htyped : ∀ x ∈ tr, Sane x.1 x.2)
    (hearly : talk.Timely .hub (.turn greeting) (wire.buffered .server)) :
    Deals wire S w := by
  have hobeys : talk.Obeys .peer talks Sane Shows (game expand t₀) (beginning Fd) :=
    game_obeys (v := greeting) expand ⟨rfl, rfl⟩ rfl rfl
  refine hrun.handles whole_ack htyped hobeys rfl nofun (fun fds s => ⟨trivial, ?_⟩) hearly
  exact fun stand hshows => hshows.sleeps fds rfl

-- ============================================================= an ACK and the next line

/-- A hand with 7 8 8 9 WAN. -/
def nearby : List Face :=
  [(1, 1), (1, 3), (1, 5), (1, 7), (1, 9), (2, 1), (2, 3), (2, 5), (2, 7), (2, 9),
    (3, 1), (3, 3), (3, 7), (3, 8), (3, 8), (3, 9)]

/-- Player 0 discards an 8 WAN, and player 1 does not pong it; then come
these reads. -/
def declined (last : List (Fd × List Char)) : Chunked Fd where
  reads :=
    let deal (f : Face) := (Fd.server, Server.tileLine ⟨f.1, f.2, 0⟩)
    (.server, str "1-th\n") :: (nearby.map deal
      ++ [(.server, str "transfer complete\n"),
        (.server, str "(Discard) Player 0 discarded 8 WAN.\n"),
        (.server, str "You can pong.\n"), (.stdin, str "n\n")] ++ last)
  buf := []

/-- The server says what it may say. -/
def civil (q : talk.State) (_ : Chunked Fd) : (o : COp) → o.Res → Chunked Fd → Bool
  | .readline .server _, r, t' => r.isEmpty || (talk.allowed .hub q r).any fun q' =>
      talk.fresh .hub q' (t'.wire.buffered .server)
  | _, _, _ => true

/-- Besides, nothing is mixed up, and one line at a time is read from the
server. -/
def singly (q : talk.State) (t : Chunked Fd) (o : COp) (r : o.Res) (t' : Chunked Fd) : Bool :=
  civil q t o r t' && match o with
    | .readline fd _ => t.buf.all (fun b => decide (b.1 = fd))
        && decide (((t.wire.rest .server).take ((t.wire.rest .server).length
          - (t'.wire.rest .server).length)).count '\n' ≤ 1)
    | _ => true

theorem fed_of_civil (t : Chunked Fd) (o : COp) (r : o.Res) (t' : Chunked Fd) (w w' : Mail)
    (_ : w.wire = t.wire) (hw' : w'.wire = t'.wire)
    (h : civil (standing w) t o r t' = true) : Civil w o r w' := by
  cases o with
  | readline fd n =>
      intro hfd hr
      subst hfd
      unfold civil at h
      rw [Bool.or_eq_true, List.isEmpty_iff] at h
      obtain ⟨q', hq', hfresh⟩ := (Option.any_eq_true _ _).mp (h.resolve_left hr)
      rw [← hw'] at hfresh
      exact ⟨q', Protocol.says_of_allowed hq', Protocol.timely_of_fresh hfresh⟩
  | _ => exact trivial

theorem attentive_of_singly (t : Chunked Fd) (o : COp) (r : o.Res) (t' : Chunked Fd)
    (w w' : Mail) (hw : w.wire = t.wire) (hw' : w'.wire = t'.wire)
    (h : singly (standing w) t o r t' = true) :
    Unmixed w o ∧ Civil w o r w'
      ∧ Alone plain (str "ACK\n") .peer Fd.server (.turn greeting) Rests w o w' := by
  obtain ⟨hcivil, h⟩ := Bool.and_eq_true_iff.mp h
  refine ⟨?_, fed_of_civil t o r t' w w' hw hw' hcivil, ?_⟩
  · cases o with
    | readline fd n =>
        intro b hb
        rw [hw] at hb
        exact of_decide_eq_true (List.all_eq_true.mp (Bool.and_eq_true_iff.mp h).1 b hb)
    | _ => exact trivial
  · cases o with
    | readline fd n =>
        intro hfd v v' _ _ bytes hbytes
        subst hfd
        have hcount := of_decide_eq_true (Bool.and_eq_true_iff.mp h).2
        rw [← hw, ← hw', hbytes] at hcount
        simpa using hcount
    | _ => exact trivial

/-- Nothing is typed at the eat prompt. -/
def untyped : COp → Table → Bool
  | .note _, _ => false
  | _, _ => true

theorem sane_of_untyped {o : COp} {s : Table} (h : untyped o s = true) : Sane o s := by
  cases o with
  | note e => exact absurd h Bool.false_ne_true
  | _ => exact trivial

/-- The client sleeps, and the next offer is still to come. -/
def sleepsBefore (t : Chunked Fd) : COp → Bool
  | .select _ => decide (t.wire.rest .server = str "You can eat.\n")
  | _ => false

/-- The client sleeps on a line. -/
def sleepsOn (t : Chunked Fd) : COp → Bool
  | .select _ => decide ('\n' ∈ t.wire.buffered .server)
  | _ => false

set_option maxRecDepth 100000 in
/-- The next offer comes in a read of its own. -/
theorem lines_handled_alone :
    let wire := (declined [(.server, str "ACK\n"), (.server, str "You can eat.\n")]).wire
    ∃ tr fds s k, ∃ w : Mail, Run attentive (game id ⟨0, Player.gameinfoInit, Mj.null⟩)
        (Net.start wire : Mail) tr (.op (.select fds) s k) w
      ∧ w.wire.rest .server = str "You can eat.\n" ∧ Deals wire (.op (.select fds) s k) w := by
  intro wire
  have hreplay : (game id ⟨0, Player.gameinfoInit, Mj.null⟩).replay
      (Chunked.followed talk .peer Fd.server singly) untyped
      (fun t o _ => sleepsBefore t.1.1 o) 600
      ((declined [(.server, str "ACK\n"), (.server, str "You can eat.\n")], []),
        .turn greeting) = true := by
    decide +kernel
  obtain ⟨tr, o, s, k, t', w, hrun, hwire, hgoal, hsane⟩ :=
    Chunked.followed_run (D := talk) attentive_of_singly
      (fun _ t o => sleepsBefore t o) hreplay
  cases o with
  | select fds =>
      refine ⟨tr, fds, s, k, w, hrun, ?_, ?_⟩
      · rw [hwire]
        exact of_decide_eq_true hgoal
      · exact lines_handled id wire _ tr _ w hrun (fun x hx => sane_of_untyped (hsane x hx)) (.nil _)
  | _ => exact absurd hgoal Bool.false_ne_true

set_option maxRecDepth 100000 in
/-- Player 1 declines a pong, and the server's `ACK` comes with the next
offer: the client sleeps on it. -/
theorem prompt_slept_on : ¬ ∀ (expand : Line → Line) (wire : Wire Fd) (t₀ : Table)
    (tr : List (COp × Table)) (S : Proc COp IoOp.Res Table Int) (w : Mail),
    Run served (game expand t₀) (Net.start wire : Mail) tr S w → (∀ x ∈ tr, Sane x.1 x.2) →
    talk.Timely .hub (.turn greeting) (wire.buffered .server) → Deals wire S w := by
  have hreplay : (game id ⟨0, Player.gameinfoInit, Mj.null⟩).replay
      (Chunked.followed talk .peer Fd.server civil) untyped
      (fun t o _ => sleepsOn t.1.1 o) 600
      ((declined [(.server, str "ACK\nYou can eat.\n")], []), .turn greeting) = true := by
    decide +kernel
  obtain ⟨tr, o, s, k, t', w, hrun, hwire, hgoal, hsane⟩ :=
    Chunked.followed_run (D := talk) fed_of_civil
      (fun _ t o => sleepsOn t o) hreplay
  intro h
  cases o with
  | select fds =>
      have hawake := (h _ _ _ tr _ w hrun (fun x hx => sane_of_untyped (hsane x hx)) (.nil _)).awake
        fds s k rfl
      rw [hwire] at hawake
      exact hawake.1 (of_decide_eq_true hgoal)
  | _ => exact absurd hgoal Bool.false_ne_true

end Mahjong.Client
