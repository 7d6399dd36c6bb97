/-
While the players keep to the protocol, the server is never stuck.

# Where it could be

The server breaks off in two places: `write_message_wait_ack` exits when
what it reads is no acknowledgement, and `read_and_ack` when it reads
nothing. And `select` does not return before a player it waits for has
sent something.

# The protocol

A player who acknowledges each line and sends one when asked (`Polite`)
gives the two exchanges no reason to exit (`polite_exchanges`). All
functions of the server are made of them (`Closed`), so none of these is
ever stuck (`polite_closed`), the wait of `game_set_display` left to its
own proof: there somebody has to be waited for.
-/
import Mahjong.Proofs.Closed

namespace Mahjong.Server

open Process CString

-- ==================================================================== the protocol

/-- The player who has just been told a line, and is to acknowledge it. -/
def told : Log → Option Seat
  | ⟨.write p l, _⟩ :: _ => if l = str "ACK\n" then none else some p
  | _ => none

/-- The last reply is that of a player who keeps to the protocol: whoever is
told a line acknowledges it, and whoever is asked for one sends it. -/
def Polite : Log → Prop
  | ⟨.readline p _, r⟩ :: w =>
      r ≠ [] ∧ (told w = some p → strncmpEq r (str "ACK\n") 4 = true)
  | _ => True

/-- Who sleeps is woken by somebody. -/
def Woken : Log → Prop
  | ⟨.select fds, ready⟩ :: _ => ∃ fd ∈ fds, ready fd = true
  | _ => True

/-- All replies are polite, and any polite reply will do, but for those to a
wait. -/
structure Courteous (ok : Log → Prop) : Prop where
  polite : ∀ w, ok w → Polite w
  allows : ∀ (o : SOp) (r : o.Res) w, (∀ fds, o ≠ .select fds) → Polite (⟨o, r⟩ :: w) →
    ok (⟨o, r⟩ :: w)

theorem polite_courteous : Courteous Polite := ⟨fun _ h => h, fun _ _ _ _ h => h⟩

theorem free_polite_courteous : Courteous fun w => True ∧ Polite w :=
  ⟨fun _ h => h.2, fun _ _ _ _ h => ⟨trivial, h⟩⟩

theorem woken_polite_courteous : Courteous fun w => Woken w ∧ Polite w := by
  refine ⟨fun _ h => h.2, fun o r w ho h => ⟨?_, h⟩⟩
  cases o with
  | select fds => exact absurd rfl (ho fds)
  | _ => trivial

-- =================================================================== the exchanges

/-- The operation can be answered. -/
def CanGoOn (ok : Log → Prop) (o : SOp) (_ : Game) (w : Log) : Prop := (within ok).Answers w o

/-- The two exchanges with a player, where they go well. -/
structure Exchanges (ok : Log → Prop) (A : SOp → Game → Prop)
    (P : SOp → Game → Log → Prop) : Prop where
  tell : ∀ {p l s w} {Q : Unit → Game → Log → Prop}, l ≠ str "ACK\n" →
    (∀ r, Q () s (⟨.readline p maxline, r⟩ :: ⟨.write p l, ()⟩ :: w)) →
    twp (within ok) A P (writeMessageWaitAck p l s) Q w
  hear : ∀ {p s w} {Q : Line → Game → Log → Prop},
    (∀ r : Line, Q r s (⟨.write p (str "ACK\n"), ()⟩ :: ⟨.readline p maxline, r⟩ :: w)) →
    twp (within ok) A P (readAndAck p s) Q w

section Exchanges

variable {ok : Log → Prop} {A : SOp → Game → Prop} {P : SOp → Game → Log → Prop}

/-- Where nothing is asked of them, they go well enough. -/
theorem quiet_exchanges (hq : Quiet (fun _ => True) P fun _ _ => True) : Exchanges ok A P :=
  ⟨fun _ hQ => twp_writeMessageWaitAck hq trivial trivial hQ,
    fun hQ => twp_readAndAck hq trivial fun r _ => hQ r⟩

/-- A polite player is never waited for in vain, and the server does not
exit. -/
theorem polite_exchanges (hok : Courteous ok) : Exchanges ok A (CanGoOn ok) := by
  have hread : ∀ (p : Seat) (s : Game) (w : Log),
      CanGoOn ok (.readline p maxline) s w := by
    intro p s w
    have hne : str "ACK\n" ≠ [] := by decide
    have hack : strncmpEq (str "ACK\n") (str "ACK\n") 4 = true := by decide
    have hpolite : Polite (⟨.readline p maxline, str "ACK\n"⟩ :: w) := ⟨hne, fun _ => hack⟩
    exact ⟨_, _, rfl, hok.allows _ _ _ (fun _ he => nomatch he) hpolite⟩
  have hwrite : ∀ (p : Seat) (l : Line) (s : Game) (w : Log),
      CanGoOn ok (.write p l) s w :=
    fun p l s w => ⟨(), _, rfl, hok.allows _ _ _ (fun _ he => nomatch he) trivial⟩
  constructor
  · intro p l s w Q hl hQ
    refine twp_seq (twp_write (hwrite p l s w) ?_)
    refine twp_seq (twp_call fun _ => ⟨hread p s _, ?_⟩)
    rintro r w' ⟨rfl, hw'⟩
    obtain ⟨hne, hack⟩ := hok.polite _ hw'
    have htold : told (⟨.write p l, ()⟩ :: w) = some p := if_neg hl
    have hlen : r.length > 0 := List.length_pos_iff.mpr hne
    rw [if_pos hlen, if_pos (hack htold)]
    exact twp_pure (hQ r)
  · intro p s w Q hQ
    refine twp_seq (twp_call fun _ => ⟨hread p s _, ?_⟩)
    rintro r w' ⟨rfl, hw'⟩
    obtain ⟨hne, -⟩ := hok.polite _ hw'
    have hlen : r.length > 0 := List.length_pos_iff.mpr hne
    rw [if_pos hlen]
    exact twp_seq (twp_write (hwrite p _ s _) (twp_pure (hQ r)))

end Exchanges

-- ================================================================== all the programs

section Programs

variable {ok : Log → Prop} {α : Type}

/-- The program is never stuck, whatever the table and whatever has been
before. -/
def GoesOn (ok : Log → Prop) (m : Server α) : Prop :=
  ∀ s w, wp (within ok) Any (CanGoOn ok) (m s) (fun _ _ _ => True) w

theorem GoesOn.neverStuck {m : Server α} (h : GoesOn ok m) {A : SOp → Game → Prop} (s : Game)
    (w : Log) : NeverStuck (within ok) A (m s) w :=
  wp.neverStuck ((h s w).weaken (fun _ _ _ => trivial) fun _ _ _ _ h => h)

theorem polite_mark (hok : Courteous ok) (e : Note) : GoesOn ok (Io.note e) := by
  refine fun s w => wp_note fun _ => ⟨⟨(), _, rfl, ?_⟩, trivial⟩
  exact hok.allows _ _ _ (fun _ he => nomatch he) trivial

/-- The functions of the server are never stuck. -/
theorem polite_closed (hok : Courteous ok) : Closed fun _ m => GoesOn ok m where
  pure := fun _ _ _ => wp_pure trivial
  bind := fun hm hf s w => wp_seq ((hm s w).mono fun a s' w' _ => hf a s' w')
  get := fun _ _ => wp_ret trivial
  modify := fun _ _ _ => wp_ret trivial
  iterate := by
    intro β γ body hbody b s w
    refine wp_iterate (fun _ _ _ => True) (fun b s w _ => (hbody b s w).mono ?_) trivial
    intro r s' w' _
    cases r <;> trivial
  mark := fun e _ => polite_mark hok e
  indeterminate := by
    refine fun s w => wp_indeterminate ⟨0, _, rfl, ?_⟩ fun _ => trivial
    exact hok.allows _ _ _ (fun _ he => nomatch he) trivial
  tell := fun p l hl s w => ((polite_exchanges hok).tell hl fun _ => trivial).wp
  hear := fun p s w => ((polite_exchanges hok).hear fun _ => trivial).wp

end Programs

end Mahjong.Server
