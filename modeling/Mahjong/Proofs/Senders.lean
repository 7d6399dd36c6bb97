/-
The server and its one read buffer.

The lines of four players go through one buffer, and nothing in it tells
whose bytes they are. As long as the server never goes on to another
player with bytes left over (`Unmixed`), every line is its sender's next
one whatever the program does; that is a fact about the buffer
(`Run.attributed`). What is shown here is about the program.

# What an exit is due to

An exit is the doing of the player whose line was read last (`Blames`):
the line is empty, or it is no `ACK` behind a message. Both exchanges
with a player end in the line read last, so this holds of all functions
(`attends_closed`).

# What `game_set_display` waits for

In `select` it must not wait for an answer that has been read already.
Two kinds of bytes can be in the buffer there. Behind an answer they are
of the player who gave it, who is not waited for any more; so the
invariant of the loop is that the player read last has answered, or has
sent no whole line yet (`Abreast`). At the first `select` the player read
last is player 3, told last of the announcement, and this is where the
reads count: if those that bring its `ACK` bring no second line
(`Single`), none is in the buffer (`TellEnds.unanswered`), for player 2
was read before with nothing of player 3 in it.

If the bytes come otherwise, both fail at the first announcement.
-/
import Mahjong.Proofs.Closed
import Mahjong.Proofs.Script
import Mahjong.Lib.Readline

namespace Mahjong.Server

open Process CString

/-- What is on its way to the server. -/
abbrev Post := Net Seat Note

/-- Player 3 has just been sent the announcement, and is the last to be
sent it. -/
def Announced (w : Post) : Prop :=
  ∃ winner rest, w.log = ⟨.write 3 (endLine winner), ()⟩ :: rest

/-- What the `read`s take off the descriptor of player 3 ends at most one
line. -/
def Single (w w' : Post) : Prop :=
  ∀ bytes, w.wire.rest 3 = bytes ++ w'.wire.rest 3 → bytes.count '\n' ≤ 1

/-- Nobody's line is read while bytes of another player are in the
buffer, and the `ACK` of player 3 to the announcement comes without a
second line. -/
abbrev orderly : Env SOp IoOp.Res :=
  wired Seat Note fun w o _ w' => Unmixed w o ∧ ∀ n, o = .readline 3 n → Announced w → Single w w'

-- ===================================================================== the exchanges

/-- The line read last is why the server gives up. -/
def Blames (w : Post) : Prop :=
  ∃ x xs, w.lines = x :: xs ∧ (x.text = [] ∨ strncmpEq x.text (str "ACK\n") 4 = false
    ∧ ∃ l rest, w.log = ⟨.readline x.fd maxline, x.text⟩ :: ⟨.write x.fd l, ()⟩ :: rest)

/-- No complete line of a player is in the buffer. -/
def Unanswered (w : Post) (q : Seat) : Prop := '\n' ∉ w.wire.buffered q

/-- What is shown of an operation. -/
def Attentive : SOp → Game → Post → Prop
  | .exit, _, w => Blames w
  | .select fds, _, w => ∀ q ∈ fds, Unanswered w q
  | _, _, _ => True

/-- The line read last is a player's, and the buffer holds nothing of
anybody else. -/
def LastOf (p : Seat) (w : Post) : Prop :=
  (∃ x xs, w.lines = x :: xs ∧ x.fd = p) ∧ w.wire.Own p

section Exchanges

variable {p : Seat} {l : Line} {s : Game} {w w' : Post}

theorem lastOf_readline {n : Nat} {r : Line}
    (h : orderly.resp w (.readline p n) r w') : LastOf p w' := by
  obtain ⟨⟨hown, -⟩, ⟨bytes, hline, -, hlines⟩, -⟩ := h
  exact ⟨⟨_, _, hlines, rfl⟩, (hline.own hown).1⟩

theorem LastOf.same (h : LastOf p w) (hwire : w'.wire = w.wire) (hlines : w'.lines = w.lines) :
    LastOf p w' := by
  obtain ⟨hlast, hown⟩ := h
  rw [← hlines] at hlast
  rw [← hwire] at hown
  exact ⟨hlast, hown⟩

/-- What there is to say of `write_message_wait_ack` when it returns: the
line was written, and the next one read is an `ACK`. -/
def TellEnds (p : Seat) (l : Line) (w w' : Post) : Prop :=
  ∃ w₁ ack, w₁.wire = w.wire ∧ w₁.log = ⟨.write p l, ()⟩ :: w.log
    ∧ orderly.resp w₁ (.readline p maxline) ack w' ∧ strncmpEq ack (str "ACK\n") 4 = true

theorem TellEnds.lastOf (h : TellEnds p l w w') : LastOf p w' := by
  obtain ⟨w₁, ack, -, -, hresp, -⟩ := h
  exact lastOf_readline hresp

/-- An `ACK` ends a line. -/
theorem newline_of_ack {line : Line} (h : strncmpEq line (str "ACK\n") 4 = true) :
    '\n' ∈ line := by
  have htake : (line ++ ['\x00']).take 4 = (str "ACK\n" ++ ['\x00']).take 4 :=
    beq_iff_eq.mp h
  have hmem : '\n' ∈ (line ++ ['\x00']).take 4 := by
    rw [htake]
    decide
  rcases List.mem_append.mp (List.mem_of_mem_take hmem) with hline | hnul
  · exact hline
  · exact absurd hnul (by decide)

/-- Player 3 has acknowledged the announcement, player 2 was read before:
the reads have brought one line, and that is the `ACK`. -/
theorem TellEnds.unanswered {winner : Int} (h : TellEnds 3 (endLine winner) w w')
    (htwo : LastOf 2 w) : Unanswered w' 3 := by
  obtain ⟨w₁, ack, hwire, hlog, ⟨⟨hown, hsingle⟩, ⟨line, hline, hack, -⟩, -⟩, hstrn⟩ := h
  obtain ⟨bytes, hrest, hbuffered⟩ := hline.taken hown
  have hempty : w₁.wire.buffered 3 = [] := by
    rw [hwire]
    exact htwo.2.buffered_ne (by decide)
  rw [hempty, List.nil_append, ← hack] at hbuffered
  have hcount : bytes.count '\n' ≤ 1 := hsingle _ rfl ⟨winner, w.log, hlog⟩ bytes hrest
  have hend : 0 < ack.count '\n' := List.count_pos_iff.mpr (newline_of_ack hstrn)
  rw [hbuffered, List.count_append] at hcount
  exact List.count_eq_zero.mp (by omega)

theorem wp_tellLine (w : Post) :
    wp orderly Any Attentive (writeMessageWaitAck p l s) (fun _ _ w' => TellEnds p l w w') w := by
  refine wp_seq (wp_call fun _ => ⟨trivial, fun _ w₁ h₁ => ?_⟩)
  refine wp_seq (wp_call fun _ => ⟨trivial, fun recvline w₂ h₂ => ?_⟩)
  obtain ⟨-, ⟨hwire₁, -⟩, hlog₁⟩ := h₁
  have hread := h₂
  obtain ⟨-, ⟨bytes, -, hr, hlines⟩, hlog₂⟩ := h₂
  rw [hlog₁] at hlog₂
  have hexit : (bytes.map Prod.snd = [] ∨ strncmpEq (bytes.map Prod.snd) (str "ACK\n") 4 = false)
      → wp orderly Any Attentive ((Io.exit : Server Unit) s)
        (fun _ _ w' => TellEnds p l w w') w₂ := by
    intro hwhy
    subst hr
    refine wp_op fun _ => ⟨⟨_, _, hlines, ?_⟩, fun r => nomatch r⟩
    rcases hwhy with hempty | hack
    · exact Or.inl hempty
    · exact Or.inr ⟨hack, l, w.log, hlog₂⟩
  split
  · split
    next hack => exact wp_pure ⟨w₁, recvline, hwire₁, hlog₁, hread, hack⟩
    next hack => exact hexit (Or.inr (hr ▸ Bool.eq_false_of_not_eq_true hack))
  next hempty => exact hexit (Or.inl (hr ▸ List.length_eq_zero_iff.mp (by omega)))

theorem wp_hearLine (w : Post) :
    wp orderly Any Attentive (readAndAck p s) (fun _ _ w' => LastOf p w') w := by
  refine wp_seq (wp_call fun _ => ⟨trivial, fun recvline w₁ h₁ => ?_⟩)
  have hlast : LastOf p w₁ := lastOf_readline h₁
  obtain ⟨-, ⟨bytes, -, hr, hlines⟩, -⟩ := h₁
  subst hr
  split
  · refine wp_seq (wp_call fun _ => ⟨trivial, fun _ w₂ h₂ => ?_⟩)
    obtain ⟨-, ⟨hwire, hlines'⟩, -⟩ := h₂
    exact wp_pure (hlast.same hwire hlines')
  next hempty =>
    have hnil : bytes.map Prod.snd = [] := List.length_eq_zero_iff.mp (by omega)
    exact wp_op fun _ => ⟨⟨_, _, hlines, Or.inl hnil⟩, fun r => nomatch r⟩

/-- A function that gives up for nothing else, and does not wait. -/
abbrev Attends {α : Type} (m : Server α) : Prop :=
  ∀ s w, wp orderly Any Attentive (m s) (fun _ _ _ => True) w

theorem attends_call {o : SOp} (h : ∀ s w, Attentive o s w) : Attends (Io.call o) :=
  fun s w => wp_call fun _ => ⟨h s w, fun _ _ _ => trivial⟩

/-- All functions but the last. -/
theorem attends_closed : Closed fun _ m => Attends m where
  pure := fun _ _ _ => wp_pure trivial
  bind := fun hm hf s w => wp_seq ((hm s w).mono fun a s' w' _ => hf a s' w')
  get := fun _ _ => wp_ret trivial
  modify := fun _ _ _ => wp_modify trivial
  iterate := by
    intro β γ body hbody b s w
    refine wp_iterate (fun _ _ _ => True) (fun b s w _ => (hbody b s w).mono ?_) trivial
    intro r s' w' _
    cases r with
    | inl _ => exact trivial
    | inr _ => exact trivial
  mark := fun _ _ => attends_call fun _ _ => trivial
  indeterminate := attends_call fun _ _ => trivial
  tell := fun _ _ _ _ w => (wp_tellLine w).mono fun _ _ _ _ => trivial
  hear := fun _ _ w => (wp_hearLine w).mono fun _ _ _ _ => trivial

end Exchanges

-- ======================================================================= the answers

/-- If the player read last is still waited for, it has not answered. -/
def Abreast (fds : List Seat) (w : Post) : Prop :=
  ∃ p, LastOf p w ∧ (Unanswered w p ∨ p ∉ fds)

section Answers

variable {s : Game} {w : Post} {fds : List Seat}

theorem Abreast.attentive (h : Abreast fds w) : Attentive (.select fds) s w := by
  obtain ⟨p, ⟨-, hown⟩, hp⟩ := h
  intro q hq
  by_cases he : q = p
  · subst he
    rcases hp with hquiet | hnot
    · exact hquiet
    · exact absurd hq hnot
  · rw [Unanswered, hown.buffered_ne he]
    exact List.not_mem_nil

theorem wp_readAnswer_abreast {testset : Seat → Bool} {x : Nat × Nat × List Seat} {p : Seat}
    (h : Abreast x.2.2 w) : wp orderly Any Attentive (readAnswer testset x p s)
      (fun x' _ w' => Abreast x'.2.2 w') w := by
  rw [readAnswer]
  split
  · refine wp_seq ((wp_hearLine w).mono fun recvline s' w' hlast => ?_)
    refine wp_pure ⟨p, hlast, Or.inr ?_⟩
    simp
  · exact wp_pure h

theorem wp_collectAnswers_abreast (h : LastOf 3 w) (hquiet : Unanswered w 3) :
    wp orderly Any Attentive (collectAnswers s) (fun _ _ _ => True) w := by
  refine wp_iterate (fun x _ w => Abreast x.2.2 w) (fun x s w h => ?_) ⟨3, h, Or.inl hquiet⟩
  split
  · exact wp_pure trivial
  refine wp_seq (wp_call fun _ => ⟨h.attentive, fun ready w' hr => ?_⟩)
  obtain ⟨-, ⟨hwire, hlines⟩, -⟩ := hr
  have h' : Abreast x.2.2 w' := by
    obtain ⟨p, hlast, hp⟩ := h
    refine ⟨p, hlast.same hwire hlines, hp.imp_left fun hquiet => ?_⟩
    show '\n' ∉ w'.wire.buffered p
    rw [hwire]
    exact hquiet
  refine wp_seq ((wp_readAnswer_abreast h').mono fun x s w h => ?_)
  refine wp_seq ((wp_readAnswer_abreast h).mono fun x s w h => ?_)
  refine wp_seq ((wp_readAnswer_abreast h).mono fun x s w h => ?_)
  exact wp_seq ((wp_readAnswer_abreast h).mono fun x s w h => wp_pure h)

/-- Player 3 is told last, with nothing of its own in the buffer. -/
theorem wp_announced {winner : Int} :
    wp orderly Any Attentive (toAll (endLine winner) s)
      (fun _ _ w' => LastOf 3 w' ∧ Unanswered w' 3) w := by
  refine wp_seq ((wp_tellLine w).mono fun _ s w _ => ?_)
  refine wp_seq ((wp_tellLine w).mono fun _ s w _ => ?_)
  refine wp_seq ((wp_tellLine w).mono fun _ s w htwo => ?_)
  exact (wp_tellLine w).mono fun _ s w' hthree => ⟨hthree.lastOf, hthree.unanswered htwo.lastOf⟩

theorem attends_gameSetDisplay : Attends gameSetDisplay := by
  intro s w
  refine wp_get_seq (wp_seq (wp_announced.mono fun _ s w ⟨hlast, hquiet⟩ => ?_))
  refine wp_seq ((wp_collectAnswers_abreast hlast hquiet).mono fun n s w _ => ?_)
  split
  · exact attends_closed.bind (attends_closed.toAll (by decide)) (fun _ => attends_closed.pure _)
      s w
  · exact attends_closed.bind (attends_closed.toAll (by decide)) (fun _ => attends_closed.pure _)
      s w

theorem attends_game (wall : Nat → Wall) : Attends (game wall) :=
  attends_closed.game (fun _ => attends_call fun _ _ => trivial) attends_gameSetDisplay wall

end Answers

-- ======================================================================== the process

/-- Every line read so far is its sender's next one; the server does not
wait in `select` for an answer that is in the buffer; it exits only
because of a player whose line ends the connection or is no `ACK` when
one is due. -/
structure Attributes (streams : Seat → List Char) {α : Type} (S : Proc SOp IoOp.Res Game α)
    (w : Post) : Prop where
  lines : Attributed streams w
  awake : ∀ fds s k, S = .op (.select fds) s k → ∀ q ∈ fds, Unanswered w q
  blames : ∀ s k, S = .op .exit s k → Blames w

/-- While the server goes on to another player with an empty buffer only,
and player 3 does not answer with its `ACK`, every line is attributed to
its sender. -/
theorem lines_attributed (wall : Nat → Wall) (wire : Wire Seat) (s₀ : Game)
    (tr : List (SOp × Game)) (S : Proc SOp IoOp.Res Game Unit) (w : Post)
    (hrun : Run orderly (game wall s₀) (Net.start wire : Post) tr S w) :
    Attributes wire.ahead S w := by
  have hwp := wp_run (attends_game wall s₀ (Net.start wire : Post)) hrun fun _ _ => trivial
  constructor
  · exact hrun.attributed (fun _ _ _ _ h => h.1) (attributed_start wire)
  · intro fds s k hS
    subst hS
    exact wp_op_obligation hwp trivial
  · intro s k hS
    subst hS
    exact wp_op_obligation hwp trivial

-- ================================================================ two lines in one read

/-- Player 0 wins with the first tile drawn, 8 TONG. -/
def triplets : List Face :=
  [(1, 2), (1, 2), (1, 2), (1, 3), (1, 3), (1, 3), (1, 5), (1, 5), (1, 5),
    (1, 6), (1, 6), (1, 6), (1, 8), (1, 8), (1, 9), (1, 9)]

def tripletWall : Wall where
  tiles := stacked (arranged (fun p => if p = 0 then triplets else scattered) [(1, 8)])
  perm := by decide +kernel

/-- Everybody acknowledges every line, one line a read, up to the
announcement; then come these reads. -/
def upTo (last : List (Seat × List Char)) : Chunked Seat where
  reads :=
    let ack (p : Seat) := (p, str "ACK\n")
    [0, 1, 2, 3].map ack ++ [0, 1, 2, 3].flatMap (fun p => List.replicate 17 (ack p))
      ++ [ack 0, ack 0, ack 0, (0, str "YES!\n")] ++ last
  buf := []

/-- A line is read with nothing of anybody else in the buffer, and one
line at a time is read from player 3. -/
def ownOnly (t : Chunked Seat) (o : SOp) (_ : o.Res) (t' : Chunked Seat) : Bool :=
  match o with
  | .readline p _ => t.buf.all (fun b => b.1 == p)
      && ((t.wire.rest 3).take ((t.wire.rest 3).length - (t'.wire.rest 3).length)).count '\n' ≤ 1
  | _ => true

theorem orderly_of_ownOnly (t : Chunked Seat) (o : SOp) (r : o.Res) (t' : Chunked Seat)
    (w w' : Post) (hw : w.wire = t.wire) (hw' : w'.wire = t'.wire)
    (h : ownOnly t o r t' = true) :
    Unmixed w o ∧ ∀ n, o = .readline 3 n → Announced w → Single w w' := by
  cases o with
  | readline p n =>
      obtain ⟨hown, hcount⟩ := Bool.and_eq_true_iff.mp h
      refine ⟨fun b hb => ?_, fun _ _ _ bytes hbytes => ?_⟩
      · rw [hw] at hb
        exact beq_iff_eq.mp (List.all_eq_true.mp hown b hb)
      · rw [← hw, ← hw', hbytes] at hcount
        simpa using hcount
  | _ => exact ⟨trivial, fun _ ho => nomatch ho⟩

def isSelect : SOp → Bool
  | .select _ => true
  | _ => false

set_option maxRecDepth 100000 in
/-- Player 0's answer comes in a read of its own: all is well at
`select`. -/
theorem lines_attributed_punctual :
    let reads := upTo ([0, 1, 2, 3].map fun p => (p, str "ACK\n"))
    let start := game (fun _ => tripletWall) (Game.init [])
    ∃ tr fds s k, ∃ w : Post, Run orderly start (Net.start reads.wire : Post) tr
        (.op (.select fds) s k) w ∧ Attributes reads.wire.ahead (.op (.select fds) s k) w := by
  intro reads start
  have hreplay : start.replay (Chunked.timed ownOnly) (fun _ _ => true)
      (fun _ o _ => isSelect o) 3000 (reads, []) = true := by
    decide +kernel
  obtain ⟨tr, o, s, k, -, w, hrun, -, hsel⟩ := Chunked.timed_run orderly_of_ownOnly
    (fun _ _ o => isSelect o) hreplay
  cases o with
  | select fds => exact ⟨tr, fds, s, k, w, hrun, lines_attributed _ _ _ tr _ w hrun⟩
  | _ => exact absurd hsel Bool.false_ne_true

/-- A line with a byte of somebody else. -/
def mixed (x : Reading Seat) : Bool := x.bytes.any fun b => b.1 != x.fd

def isExit : SOp → Bool
  | .exit => true
  | _ => false

set_option maxRecDepth 100000 in
/-- Player 0 has answered the announcement when its `ACK` is read: the
answer is taken for the `ACK` of player 1, and the server exits. -/
theorem lines_misattributed : ¬ ∀ (wall : Nat → Wall) (wire : Wire Seat) (s₀ : Game)
    (tr : List (SOp × Game)) (S : Proc SOp IoOp.Res Game Unit) (w : Post),
    Run (wired Seat Note fun _ _ _ _ => True) (game wall s₀) (Net.start wire : Post) tr S w →
    Attributes wire.ahead S w := by
  intro h
  have hreplay : (game (fun _ => tripletWall) (Game.init [])).replay (Chunked.timed fun _ _ _ _ => true)
      (fun _ _ => true) (fun t o _ => isExit o && t.2.any mixed) 3000
      (upTo [(0, str "ACK\nYES!\n")], []) = true := by
    decide +kernel
  obtain ⟨tr, o, s, k, t, w, hrun, -, hgoal⟩ := Chunked.timed_run
    (fun _ _ _ _ _ _ _ _ _ => trivial) (fun _ lines o => isExit o && lines.any mixed) hreplay
  obtain ⟨-, hmixed⟩ := Bool.and_eq_true_iff.mp hgoal
  obtain ⟨x, hx, hbyte⟩ := List.any_eq_true.mp hmixed
  obtain ⟨b, hb, hne⟩ := List.any_eq_true.mp hbyte
  have hsender := (h _ _ _ tr _ w hrun).lines.sender x hx b hb
  exact bne_iff_ne.mp hne hsender

end Mahjong.Server
