/-
Conversations of two processes over a channel of lines: what may be said
when, and what a process does that keeps to it.

# The conversation

A `Protocol` has states. In each one of the two ends speaks, or nobody
does; `next` says which lines may be said and what state comes of them.
Both ends carry a state of their own, and the one who listens is behind
by the lines under way (`Channel`): at any time the lines under way were
all said by one end.

`Protocol.acked` makes a protocol of plain lines into one in which every
line is answered by an acknowledgement before anything else is said.

# The process

A process has descriptors, some of which are channels (`talks`). In the
surroundings `Protocol.party` whatever it hears over a channel is a line
the other end may say, or the end of file; `Obeys` says that it speaks
only in its turn, listens only out of its turn, and gives up only after an
end of file. What it does when it is run with a real wire, on which bytes
come in pieces, is `Act`; `Obeys.act` is the step that keeps its state and
the channels in accord.
-/
import Mahjong.Lib.Readline

namespace Process

open CString

-- ======================================================================== the two ends

/-- The two ends of a channel. -/
inductive Side
  | hub
  | peer
deriving DecidableEq

namespace Side

def other : Side → Side
  | hub => peer
  | peer => hub

@[simp] theorem other_other (side : Side) : side.other.other = side := by
  cases side <;> rfl

theorem other_ne (side : Side) : side.other ≠ side := by
  cases side <;> simp [other]

end Side

-- =========================================================================== the lines

/-- A line that ends at its only newline and is not too long. -/
structure WholeLine (limit : Nat) (l : Line) : Prop where
  body : ∃ cs, l = cs ++ ['\n'] ∧ '\n' ∉ cs
  fits : l.length ≤ limit

instance (limit : Nat) (l : Line) : Decidable (WholeLine limit l) :=
  decidable_of_iff (l.getLast? = some '\n' ∧ '\n' ∉ l.dropLast ∧ l.length ≤ limit) <| by
    constructor
    · intro h
      rcases h with ⟨hlast, hbody, hfits⟩
      exact ⟨⟨l.dropLast, (List.dropLast_append_getLast? _ hlast).symm, hbody⟩, hfits⟩
    · intro h
      rcases h with ⟨⟨cs, rfl, hcs⟩, hfits⟩
      exact ⟨by simp, by simpa using hcs, hfits⟩

theorem takeLine_nil (n : Nat) : takeLine n [] = [] := by
  cases n <;> rfl

theorem takeLine_body {cs rest : List Char} (h : '\n' ∉ cs) :
    ∀ {n : Nat}, cs.length < n → takeLine n (cs ++ '\n' :: rest) = cs ++ ['\n'] := by
  induction cs with
  | nil =>
      intro n hn
      cases n with
      | zero => simp at hn
      | succ n => simp [takeLine]
  | cons c cs ih =>
      intro n hn
      simp only [List.mem_cons, not_or] at h
      cases n with
      | zero => simp at hn
      | succ n =>
          simp only [List.length_cons, Nat.add_lt_add_iff_right] at hn
          simp only [List.cons_append, takeLine, if_neg (Ne.symm h.1), ih h.2 hn]

namespace WholeLine

variable {limit n : Nat} {l rest : Line}

theorem ne_nil (h : WholeLine limit l) : l ≠ [] := by
  obtain ⟨cs, rfl, -⟩ := h.body
  simp

theorem newline_mem (h : WholeLine limit l) : '\n' ∈ l := by
  obtain ⟨cs, rfl, -⟩ := h.body
  simp

/-- It is read as one line, whatever comes behind it. -/
theorem takeLine (h : WholeLine limit l) (hn : limit ≤ n) :
    Process.takeLine n (l ++ rest) = l := by
  obtain ⟨cs, rfl, hcs⟩ := h.body
  have hfits := h.fits
  rw [List.length_append, List.length_singleton] at hfits
  rw [List.append_assoc]
  exact takeLine_body hcs (by omega)

end WholeLine

-- ==================================================================== the conversation

/-- What the two ends of a channel may say: who speaks in a state, what a
line makes of it, and where the conversation is over. -/
structure Protocol where
  State : Type
  limit : Nat
  speaker : State → Option Side
  next : State → Line → Option State
  Final : State → Prop
  silent : ∀ q l, Final q → next q l = none

namespace Protocol

variable (D : Protocol)

/-- One end may say a line. -/
structure Says (side : Side) (q : D.State) (l : Line) (q' : D.State) : Prop where
  turn : D.speaker q = some side
  whole : WholeLine D.limit l
  next : D.next q l = some q'

/-- Something is said. -/
def Goes (q q' : D.State) : Prop := ∃ side l, D.Says side q l q'

/-- It is not this end's turn, and there is more to come. -/
def Listens (side : Side) (q : D.State) : Prop := D.speaker q ≠ some side ∧ ¬ D.Final q

/-- Lines one end has said, from the state of the other, who has not heard
them yet, to its own. -/
inductive Pending (side : Side) : D.State → List Char → D.State → Prop
  | nil (q : D.State) : Pending side q [] q
  | cons {q q₁ q' : D.State} {l : Line} {cs : List Char} (h : D.Says side q l q₁)
      (hrest : Pending side q₁ cs q') : Pending side q (l ++ cs) q'

/-- A channel, seen from one end: its state, the state of the other, the
bytes on their way in and those on their way out. -/
inductive Channel (side : Side) (q q' : D.State) : List Char → List Char → Prop
  | unheard {out : List Char} (h : D.Pending side q' out q) : Channel side q q' [] out
  | coming {inn : List Char} (h : D.Pending side.other q inn q') : Channel side q q' inn []

variable {D}
variable {side : Side} {q q₁ q' : D.State} {l : Line} {cs inn out : List Char}

theorem Says.silent (h : D.Says side q l q') : ¬ D.Final q := by
  intro hfin
  have hnext := h.next
  rw [D.silent q l hfin] at hnext
  cases hnext

/-- Where nobody is to speak nothing is said any more. -/
theorem stuck (hq : D.speaker q = none) (h : Relation.ReflTransGen D.Goes q q') : q' = q := by
  induction h with
  | refl => rfl
  | tail _ hgo ih =>
      obtain ⟨side, l, hsaid⟩ := hgo
      rw [ih] at hsaid
      rw [hsaid.turn] at hq
      cases hq

theorem Pending.snoc (h : D.Pending side q cs q₁) (hl : D.Says side q₁ l q') :
    D.Pending side q (cs ++ l) q' := by
  induction h with
  | nil q =>
      have hone := Pending.cons hl (.nil q')
      rw [List.append_nil] at hone
      exact hone
  | cons h _ ih =>
      rw [List.append_assoc]
      exact .cons h (ih hl)

/-- Nothing has been said where it was not this end's turn. -/
theorem Pending.of_speaker (h : D.Pending side q cs q') (hq : D.speaker q ≠ some side) :
    cs = [] ∧ q = q' := by
  cases h with
  | nil => exact ⟨rfl, rfl⟩
  | cons h _ => exact absurd h.turn hq

/-- Nothing is left of lines that have all been heard. -/
theorem Pending.of_nil (h : D.Pending side q cs q') (hcs : '\n' ∉ cs) : cs = [] ∧ q = q' := by
  cases h with
  | nil => exact ⟨rfl, rfl⟩
  | cons h _ =>
      rw [List.mem_append, not_or] at hcs
      exact absurd h.whole.newline_mem hcs.1

theorem Pending.of_final (h : D.Pending side q cs q') (hq : D.Final q) : cs = [] ∧ q = q' := by
  cases h with
  | nil => exact ⟨rfl, rfl⟩
  | cons h _ => exact absurd hq h.silent

namespace Channel

theorem start (q : D.State) : D.Channel side q q [] [] := .coming (.nil q)

/-- The other end's view. -/
theorem swap (h : D.Channel side q q' inn out) : D.Channel side.other q' q out inn := by
  cases h with
  | unheard h =>
      refine .coming ?_
      rw [Side.other_other]
      exact h
  | coming h => exact .unheard h

/-- What is said goes behind what is on its way. -/
theorem say (h : D.Channel side q q' inn out) (hl : D.Says side q l q₁) :
    D.Channel side q₁ q' inn (out ++ l) := by
  cases h with
  | unheard h => exact .unheard (h.snoc hl)
  | coming h =>
      have hturn : D.speaker q ≠ some side.other := by
        rw [hl.turn]
        exact fun he => side.other_ne (Option.some.inj he).symm
      obtain ⟨rfl, rfl⟩ := h.of_speaker hturn
      exact .unheard (Pending.snoc (.nil q) hl)

/-- Who listens hears the next line of the other end, if there is one. -/
theorem hear (h : D.Channel side q q' inn out) :
    (inn = [] ∧ D.Pending side q' out q) ∨ ∃ l rest q₁, inn = l ++ rest
      ∧ D.Says side.other q l q₁ ∧ D.Channel side q₁ q' rest out := by
  cases h with
  | unheard h => exact Or.inl ⟨rfl, h⟩
  | coming h =>
      cases h with
      | nil => exact Or.inl ⟨rfl, .nil q⟩
      | cons h hrest => exact Or.inr ⟨_, _, _, rfl, h, .coming hrest⟩

/-- Where the other end is not to speak nothing comes in, and it has not
finished before this one. -/
theorem quiet (h : D.Channel side q q' inn out) (hq : D.speaker q ≠ some side.other) :
    inn = [] ∧ (D.Final q' → D.Final q) := by
  cases h with
  | unheard h =>
      refine ⟨rfl, fun hfin => ?_⟩
      rw [(h.of_final hfin).2] at hfin
      exact hfin
  | coming h =>
      obtain ⟨hnone, hsame⟩ := h.of_speaker hq
      exact ⟨hnone, fun hfin => hsame ▸ hfin⟩

/-- With nothing under way, both ends are in one state. -/
theorem settled (h : D.Channel side q q' inn out) (hinn : '\n' ∉ inn) (hout : '\n' ∉ out) :
    q = q' := by
  cases h with
  | unheard h => exact (h.of_nil hout).2.symm
  | coming h => exact (h.of_nil hinn).2

end Channel

-- --------------------------------------------------------------------- acknowledgements

/-- A state of a protocol with acknowledgements: somebody's turn in the
plain one, or an acknowledgement is due of `side`. -/
inductive Acked (S : Type)
  | turn (v : S)
  | owes (side : Side) (v v' : S)

/-- The state of the plain protocol as far as it is acknowledged. -/
def Acked.held {S : Type} : Acked S → S
  | .turn v => v
  | .owes _ v _ => v

/-- Every line is acknowledged by the other end before anything else is
said. -/
def acked (D : Protocol) (ack : Line) : Protocol where
  State := Acked D.State
  limit := D.limit
  speaker
    | .turn v => D.speaker v
    | .owes side _ _ => some side
  next
    | .turn v, l => (D.speaker v).bind fun side => (D.next v l).map (.owes side.other v)
    | .owes _ _ v', l => if l = ack then some (.turn v') else none
  Final
    | .turn v => D.Final v
    | .owes _ _ _ => False
  silent q l h := by
    cases q with
    | turn v =>
        have hnext : D.next v l = none := D.silent v l h
        simp [hnext]
    | owes side v v' => cases h

section Acked

variable {ack : Line} {v v' : D.State} {x : (D.acked ack).State}

theorem acked_says_turn :
    (D.acked ack).Says side (.turn v) l x ↔ ∃ v', D.Says side v l v' ∧ x = .owes side.other v v' := by
  constructor
  · intro h
    have hturn : D.speaker v = some side := h.turn
    have hnext : (D.speaker v).bind (fun side => (D.next v l).map (Acked.owes side.other v))
        = some x := h.next
    rw [hturn, Option.bind_some] at hnext
    obtain ⟨v', hv', hx⟩ := Option.map_eq_some_iff.mp hnext
    exact ⟨v', ⟨hturn, h.whole, hv'⟩, hx.symm⟩
  · intro h
    obtain ⟨v', h, rfl⟩ := h
    have hnext : (D.speaker v).bind (fun side => (D.next v l).map (Acked.owes side.other v))
        = some (Acked.owes side.other v v') := by
      rw [h.turn, Option.bind_some, h.next, Option.map_some]
    exact ⟨h.turn, h.whole, hnext⟩

theorem acked_says_owes {side' : Side} (hack : WholeLine D.limit ack) :
    (D.acked ack).Says side (.owes side' v v') l x ↔ side' = side ∧ l = ack ∧ x = .turn v' := by
  constructor
  · intro h
    have hturn : some side' = some side := h.turn
    have hnext : (if l = ack then some (Acked.turn v') else none) = some x := h.next
    split at hnext
    next hl =>
      cases hnext
      exact ⟨Option.some.inj hturn, hl, rfl⟩
    next => cases hnext
  · intro h
    obtain ⟨rfl, rfl, rfl⟩ := h
    exact ⟨rfl, hack, if_pos rfl⟩

/-- An end that has heard all from one that has nothing left to acknowledge
has acknowledged as much. -/
theorem Channel.held {x : (D.acked ack).State} (h : (D.acked ack).Channel side (.turn v) x inn out)
    (hout : '\n' ∉ out) : Acked.held x = v := by
  cases h.hear with
  | inl h =>
      rw [(h.2.of_nil hout).2]
      rfl
  | inr h =>
      obtain ⟨l, rest, q₁, -, hsaid, hchannel⟩ := h
      obtain ⟨v', -, rfl⟩ := acked_says_turn.mp hsaid
      have hturn : (D.acked ack).speaker (.owes side.other.other v v') ≠ some side.other := by
        rw [Side.other_other]
        exact fun he => side.other_ne (Option.some.inj he).symm
      have hnone := (hchannel.quiet hturn).1
      rw [← hchannel.settled (hnone ▸ List.not_mem_nil) hout]
      rfl

end Acked

-- ========================================================================= the process

variable {Fd : Type}

/-- Where a process is in its conversations: the state of each channel,
whether the end of file has come over one, and whether it has come from
the user. -/
structure Standing (Fd S : Type) where
  state : Fd → S
  lost : Bool
  left : Bool

/-- The conversation over one channel goes on. -/
def Standing.to {S : Type} [DecidableEq Fd] (w : Standing Fd S) (fd : Fd) (q : S) :
    Standing Fd S :=
  { w with state := Function.update w.state fd q }

section To

variable {S : Type} [DecidableEq Fd] (w : Standing Fd S) (fd : Fd) (v : S)

@[simp] theorem Standing.to_state_self : (w.to fd v).state fd = v := by
  simp [Standing.to]

theorem Standing.to_state_ne {fd' : Fd} (h : fd' ≠ fd) :
    (w.to fd v).state fd' = w.state fd' := by
  simp [Standing.to, h]

theorem Standing.to_to (v' : S) : (w.to fd v).to fd v' = w.to fd v' := by
  simp [Standing.to]

@[simp] theorem Standing.to_lost : (w.to fd v).lost = w.lost := rfl

@[simp] theorem Standing.to_left : (w.to fd v).left = w.left := rfl

end To

variable (D) (side : Side) (talks : Fd → Bool)

section Party

variable [DecidableEq Fd] {ε : Type}

/-- What may be heard, and what comes of what is said. -/
def Heard (w : Standing Fd D.State) : (o : IoOp Fd ε) → o.Res → Standing Fd D.State → Prop
  | .write fd l, _, w' => ∃ q, D.Says side (w.state fd) l q ∧ w' = w.to fd q
  | .readline fd _, r, w' =>
      if talks fd then
        (∃ q, D.Says side.other (w.state fd) r q ∧ w' = w.to fd q)
          ∨ (r = [] ∧ w' = { w with lost := true })
      else w' = { w with left := w.left || r.isEmpty }
  | .scanf, r, w' => w' = { w with left := w.left || (match r with | .eof => true | _ => false) }
  | _, _, w' => w' = w

/-- The surroundings of a process that has the other ends keep to the
protocol. -/
def party (ε : Type) : Env (IoOp Fd ε) IoOp.Res where
  World := Standing Fd D.State
  resp := D.Heard side talks

/-- What a process may do: speak in its turn, listen out of it, and give
up when an end of file has come over a channel, or from the user when it
was to speak. -/
def May : IoOp Fd ε → Standing Fd D.State → Prop
  | .write fd l, w => w.lost = false ∧ talks fd = true ∧ ∃ q, D.Says side (w.state fd) l q
  | .readline fd n, w => w.lost = false ∧ 1 < n
      ∧ (talks fd = true → D.limit < n ∧ D.Listens side (w.state fd))
  | .select fds, w => w.lost = false ∧ fds ≠ []
      ∧ ∀ fd ∈ fds, talks fd = true → D.Listens side (w.state fd)
  | .exit, w => w.lost = true
      ∨ (w.left = true ∧ ∃ fd, talks fd = true ∧ D.speaker (w.state fd) = some side)
  | _, w => w.lost = false

/-- A process keeps to the protocol, and meets `R` at its operations; it
returns when all is said. -/
def Obeys {σ α : Type} (A : IoOp Fd ε → σ → Prop)
    (R : IoOp Fd ε → σ → Standing Fd D.State → Prop) (S : Proc (IoOp Fd ε) IoOp.Res σ α)
    (w : Standing Fd D.State) : Prop :=
  wp (D.party side talks ε) A (fun o s w => D.May side talks o w ∧ R o s w) S
    (fun _ _ w => ∀ fd, talks fd = true → D.Final (w.state fd)) w

end Party

end Protocol

-- =============================================================== the process when it is run

section Acts

variable {Fd ε σ α : Type} [DecidableEq Fd]

/-- A process that has returned or left. -/
def Proc.Over : Proc (IoOp Fd ε) IoOp.Res σ α → Prop
  | .ret _ _ => True
  | .op .exit _ _ => True
  | _ => False

/-- A line that needs no end of file to be read: it is as long as may be,
or has its newline. -/
def Ended (n : Nat) (bytes : List (Fd × Char)) : Prop :=
  bytes.length = n ∨ ∃ b ∈ bytes, b.2 = '\n'

omit [DecidableEq Fd] in
/-- What needs no end of file is something. -/
theorem Ended.ne_nil {n : Nat} {bytes : List (Fd × Char)} (h : Ended (n - 1) bytes)
    (hn : 1 < n) : bytes ≠ [] := by
  rintro rfl
  cases h with
  | inl hlen =>
      rw [List.length_nil] at hlen
      omega
  | inr hmem =>
      obtain ⟨b, hb, -⟩ := hmem
      cases hb

/-- One step of a process with its wire: the operation it does, if any,
and the line it sends. `closed` are the descriptors whose other end is
gone, `eof` says that standard input is at its end. -/
inductive Act (closed : Fd → Prop) (eof : Prop) :
    Proc (IoOp Fd ε) IoOp.Res σ α → Wire Fd → Option (IoOp Fd ε × σ) → Option (Fd × Line) →
      Proc (IoOp Fd ε) IoOp.Res σ α → Wire Fd → Prop
  | loop {β γ : Type} {body : β → σ → Proc (IoOp Fd ε) IoOp.Res σ (β ⊕ γ)} {b : β} {s : σ}
      {k : γ → σ → Proc (IoOp Fd ε) IoOp.Res σ α} {w : Wire Fd} :
      Act closed eof (.loop body b s k) w none none (Proc.unroll body b s k) w
  | write {fd : Fd} {l : Line} {s : σ} {k : Unit → Proc (IoOp Fd ε) IoOp.Res σ α} {w : Wire Fd} :
      Act closed eof (.op (.write fd l) s k) w (some (.write fd l, s)) (some (fd, l)) (k ()) w
  | readline {fd : Fd} {n : Nat} {s : σ} {k : Line → Proc (IoOp Fd ε) IoOp.Res σ α}
      {w w' : Wire Fd} {bytes : List (Fd × Char)} (h : Readline fd (n - 1) w bytes w')
      (hend : Ended (n - 1) bytes ∨ closed fd) :
      Act closed eof (.op (.readline fd n) s k) w (some (.readline fd n, s)) none
        (k (bytes.map Prod.snd)) w'
  | select {fds : List Fd} {s : σ} {k : (Fd → Bool) → Proc (IoOp Fd ε) IoOp.Res σ α}
      {w : Wire Fd} {ready : Fd → Bool}
      (h : ∀ fd, ready fd = true → fd ∈ fds ∧ (w.rest fd ≠ [] ∨ closed fd))
      (hsome : ∃ fd, ready fd = true) :
      Act closed eof (.op (.select fds) s k) w (some (.select fds, s)) none (k ready) w
  | scanf {s : σ} {k : Scanned → Proc (IoOp Fd ε) IoOp.Res σ α} {w : Wire Fd} {r : Scanned}
      (h : r = .eof → eof) :
      Act closed eof (.op .scanf s k) w (some (.scanf, s)) none (k r) w
  | indeterminate {s : σ} {k : Int → Proc (IoOp Fd ε) IoOp.Res σ α} {w : Wire Fd} {i : Int} :
      Act closed eof (.op .indeterminate s k) w (some (.indeterminate, s)) none (k i) w
  | note {e : ε} {s : σ} {k : Unit → Proc (IoOp Fd ε) IoOp.Res σ α} {w : Wire Fd} :
      Act closed eof (.op (.note e) s k) w (some (.note e, s)) none (k ()) w

/-- The buffer is no trap: when a line is read it holds nothing of another
descriptor, and when the process sleeps on descriptors no line of theirs is
in it. -/
def Wire.Tidy (w : Wire Fd) : IoOp Fd ε → Prop
  | .readline fd _ => w.Own fd
  | .select fds => ∀ fd ∈ fds, '\n' ∉ w.buffered fd
  | _ => True

/-- A line can always be read, a byte at a time. -/
theorem Readline.exists (fd : Fd) (n : Nat) (w : Wire Fd) :
    ∃ bytes w', Readline fd n w bytes w' := by
  induction n generalizing w with
  | zero => exact ⟨[], w, .full w⟩
  | succ n ih =>
      have hstep : (∃ w', MyRead fd w none w') ∨ ∃ b w', MyRead fd w (some b) w' := by
        cases hbuf : w.buf with
        | cons b bs => exact Or.inr ⟨_, _, .buffered hbuf⟩
        | nil =>
            cases hrest : w.rest fd with
            | nil => exact Or.inl ⟨w, .eof hbuf hrest⟩
            | cons c cs =>
                have hone : w.rest fd = c :: ([] ++ cs) := hrest
                exact Or.inr ⟨_, _, .filled hbuf hone (by simp [bufSize])⟩
      cases hstep with
      | inl h => exact ⟨[], h.choose, .eof h.choose_spec⟩
      | inr h =>
          obtain ⟨b, w', h⟩ := h
          by_cases hb : b.2 = '\n'
          · exact ⟨[b], w', .newline h hb⟩
          · obtain ⟨bytes, w'', hrest⟩ := ih w'
            exact ⟨b :: bytes, w'', .char h hb hrest⟩

/-- With a newline to come, it needs no end of file. -/
theorem takeLine_ended {cs : List Char} (h : '\n' ∈ cs) (n : Nat) :
    (takeLine n cs).length = n ∨ '\n' ∈ takeLine n cs := by
  induction cs generalizing n with
  | nil => simp at h
  | cons c cs ih =>
      cases n with
      | zero => exact Or.inl rfl
      | succ n =>
          rw [takeLine]
          split
          next hc => exact Or.inr (by simp [hc])
          next hc =>
            have hcs : '\n' ∈ cs := (List.mem_cons.mp h).resolve_left (Ne.symm hc)
            cases ih hcs n with
            | inl hlen => exact Or.inl (by simp [hlen])
            | inr hmem => exact Or.inr (List.mem_cons_of_mem _ hmem)

/-- The operation waits for what is not there. -/
def Wire.Asleep (w : Wire Fd) (closed : Fd → Prop) : IoOp Fd ε → Prop
  | .readline fd _ => '\n' ∉ w.ahead fd ∧ ¬ closed fd
  | .select fds => ∀ fd ∈ fds, w.rest fd = [] ∧ ¬ closed fd
  | _ => False

/-- A process is over, or can go on, or is asleep. -/
theorem Act.progress (closed : Fd → Prop) (eof : Prop) (S : Proc (IoOp Fd ε) IoOp.Res σ α)
    (w : Wire Fd) (htidy : ∀ o s k, S = .op o s k → w.Tidy o) :
    S.Over ∨ (∃ x sent S' w', Act closed eof S w x sent S' w')
      ∨ ∃ o s k, S = .op o s k ∧ w.Asleep closed o := by
  cases S with
  | ret a s => exact Or.inl trivial
  | loop body b s k => exact Or.inr (Or.inl ⟨_, _, _, _, .loop⟩)
  | op o s k =>
      cases o with
      | exit => exact Or.inl trivial
      | write fd l => exact Or.inr (Or.inl ⟨_, _, _, _, .write⟩)
      | scanf => exact Or.inr (Or.inl ⟨_, _, _, _, .scanf (r := .mismatch) nofun⟩)
      | indeterminate => exact Or.inr (Or.inl ⟨_, _, _, _, .indeterminate (i := 0)⟩)
      | note e => exact Or.inr (Or.inl ⟨_, _, _, _, .note⟩)
      | readline fd n =>
          by_cases hasleep : '\n' ∉ w.ahead fd ∧ ¬ closed fd
          · exact Or.inr (Or.inr ⟨_, s, k, rfl, hasleep⟩)
          · obtain ⟨bytes, w', hline⟩ := Readline.exists fd (n - 1) w
            refine Or.inr (Or.inl ⟨_, _, _, _, .readline hline ?_⟩)
            by_cases hclosed : closed fd
            · exact Or.inr hclosed
            · have hnew : '\n' ∈ w.ahead fd := by
                by_contra hnew
                exact hasleep ⟨hnew, hclosed⟩
              obtain ⟨-, -, -, htext, -⟩ := hline.own (htidy _ _ _ rfl)
              have hended := takeLine_ended hnew (n - 1)
              rw [← htext, List.length_map] at hended
              refine Or.inl (hended.imp_right fun hmem => ?_)
              obtain ⟨b, hb, he⟩ := List.mem_map.mp hmem
              exact ⟨b, hb, he⟩
      | select fds =>
          by_cases hasleep : ∀ fd ∈ fds, w.rest fd = [] ∧ ¬ closed fd
          · exact Or.inr (Or.inr ⟨_, s, k, rfl, hasleep⟩)
          · simp only [not_forall] at hasleep
            obtain ⟨fd, hfd, hawake⟩ := hasleep
            have hready : ∀ q, decide (q = fd) = true → q ∈ fds ∧ (w.rest q ≠ [] ∨ closed q) := by
              intro q hq
              obtain rfl : q = fd := of_decide_eq_true hq
              exact ⟨hfd, by tauto⟩
            exact Or.inr (Or.inl ⟨_, _, _, _, .select hready ⟨fd, decide_eq_true rfl⟩⟩)

/-- What is sent over a descriptor. -/
def sentOver (sent : Option (Fd × Line)) (fd : Fd) : Line :=
  match sent with
  | some x => if x.1 = fd then x.2 else []
  | none => []

@[simp] theorem sentOver_none (fd : Fd) : sentOver none fd = [] := rfl

@[simp] theorem sentOver_self (fd : Fd) (l : Line) : sentOver (some (fd, l)) fd = l :=
  if_pos rfl

theorem sentOver_ne {fd fd' : Fd} (l : Line) (h : fd ≠ fd') :
    sentOver (some (fd, l)) fd' = [] :=
  if_neg h

/-- Bytes come in over a descriptor. -/
def Wire.feed (w : Wire Fd) (fd : Fd) (cs : List Char) : Wire Fd :=
  { w with rest := Function.update w.rest fd (w.rest fd ++ cs) }

/-- What is still to come over a descriptor is something else now. -/
def Wire.retype (w : Wire Fd) (fd : Fd) (cs : List Char) : Wire Fd :=
  { w with rest := Function.update w.rest fd cs }

theorem Wire.ahead_retype_ne (w : Wire Fd) {fd fd' : Fd} (cs : List Char) (h : fd' ≠ fd) :
    (w.retype fd cs).ahead fd' = w.ahead fd' := by
  simp [Wire.ahead, Wire.retype, Wire.buffered, Function.update_of_ne h]

theorem Wire.ahead_feed (w : Wire Fd) (fd : Fd) (cs : List Char) :
    (w.feed fd cs).ahead fd = w.ahead fd ++ cs := by
  simp [Wire.ahead, Wire.feed, Wire.buffered]

theorem Wire.ahead_feed_ne (w : Wire Fd) {fd fd' : Fd} (cs : List Char) (h : fd' ≠ fd) :
    (w.feed fd cs).ahead fd' = w.ahead fd' := by
  simp [Wire.ahead, Wire.feed, Wire.buffered, Function.update_of_ne h]

end Acts

-- ================================================================= keeping the channels

namespace Protocol

variable {D : Protocol} {side : Side} {Fd ε σ α : Type} {talks : Fd → Bool} [DecidableEq Fd]

/-- What a step of a process leaves of its conversations: they go on as
the protocol has it, a line is sent over a channel only, and there is a
reason for every end of file. -/
structure Kept (talks : Fd → Bool) (closed : Fd → Prop) (eof blame : Prop)
    (w w' : Standing Fd D.State) (sent : Option (Fd × Line)) : Prop where
  goes : ∀ fd, Relation.ReflTransGen D.Goes (w.state fd) (w'.state fd)
  sender : ∀ x ∈ sent, talks x.1 = true
  lost : w'.lost = true → w.lost = true ∨ (blame ∧ ∃ fd, talks fd = true ∧ closed fd)
  left : w'.left = true → w.left = true ∨ eof ∨ ∃ fd, talks fd = false ∧ closed fd

variable {A : IoOp Fd ε → σ → Prop} {R : IoOp Fd ε → σ → Standing Fd D.State → Prop}
  {S S' : Proc (IoOp Fd ε) IoOp.Res σ α} {w : Standing Fd D.State} {closed : Fd → Prop}
  {eof blame : Prop}

section Kept

omit [DecidableEq Fd]

theorem Kept.same : Kept talks closed eof blame w w none where
  goes := fun _ => .refl
  sender := fun _ hx => nomatch hx
  lost := Or.inl
  left := Or.inl

/-- The end of file has come from the user. -/
theorem Kept.input {b : Bool} (h : b = true → eof ∨ ∃ fd, talks fd = false ∧ closed fd) :
    Kept talks closed eof blame w { w with left := w.left || b } none where
  goes := fun _ => .refl
  sender := fun _ hx => nomatch hx
  lost := Or.inl
  left := fun hleft => (Bool.or_eq_true_iff.mp hleft).imp_right h

/-- The end of file has come over a channel. -/
theorem Kept.gone (hblame : blame) {fd : Fd} (hfd : talks fd = true) (hgone : closed fd) :
    Kept talks closed eof blame w { w with lost := true } none where
  goes := fun _ => .refl
  sender := fun _ hx => nomatch hx
  lost := fun _ => Or.inr ⟨hblame, fd, hfd, hgone⟩
  left := Or.inl

end Kept

/-- A line has been said over a channel, by this end or the other. -/
theorem Kept.said {fd : Fd} {q : D.State} {sent : Option (Fd × Line)}
    (h : D.Goes (w.state fd) q) (hsent : ∀ x ∈ sent, talks x.1 = true) :
    Kept talks closed eof blame w (w.to fd q) sent where
  goes := fun fd' => by
    by_cases hne : fd' = fd
    · subst hne
      rw [Standing.to_state_self]
      exact .single h
    · rw [Standing.to_state_ne _ _ _ hne]
  sender := hsent
  lost := Or.inl
  left := Or.inl

theorem Obeys.unroll {β γ : Type} {body : β → σ → Proc (IoOp Fd ε) IoOp.Res σ (β ⊕ γ)} {b : β}
    {s : σ} {k : γ → σ → Proc (IoOp Fd ε) IoOp.Res σ α}
    (h : D.Obeys side talks A R (.loop body b s k) w) :
    D.Obeys side talks A R (Proc.unroll body b s k) w :=
  fun n => h (n + 1)

theorem Obeys.op {o : IoOp Fd ε} {s : σ} {k : o.Res → Proc (IoOp Fd ε) IoOp.Res σ α}
    (h : D.Obeys side talks A R (.op o s k) w) (ho : A o s) :
    D.May side talks o w ∧ R o s w :=
  wp_op_obligation h ho

theorem Obeys.reply {o : IoOp Fd ε} {s : σ} {k : o.Res → Proc (IoOp Fd ε) IoOp.Res σ α}
    {r : o.Res} {w' : Standing Fd D.State} (h : D.Obeys side talks A R (.op o s k) w)
    (ho : A o s) (hr : D.Heard side talks w o r w') : D.Obeys side talks A R (k r) w' :=
  fun n => (h (n + 1) ho).2 r w' hr

section Readings

variable {fd : Fd} {n : Nat} {s : σ} {k : Line → Proc (IoOp Fd ε) IoOp.Res σ α} {l : Line}

/-- A line of the other end has been read, -/
theorem Obeys.line (h : D.Obeys side talks A R (.op (.readline fd n) s k) w)
    (ho : A (.readline fd n) s) (htalks : talks fd = true)
    (hsaid : D.Says side.other (w.state fd) l q) : D.Obeys side talks A R (k l) (w.to fd q) := by
  refine h.reply (r := l) ho ?_
  simp only [Heard, htalks, if_true]
  exact Or.inl ⟨q, hsaid, rfl⟩

/-- or the end of file, -/
theorem Obeys.gone (h : D.Obeys side talks A R (.op (.readline fd n) s k) w)
    (ho : A (.readline fd n) s) (htalks : talks fd = true) :
    D.Obeys side talks A R (k []) { w with lost := true } := by
  refine h.reply (r := []) ho ?_
  simp [Heard, htalks]

/-- or what is typed. -/
theorem Obeys.input (h : D.Obeys side talks A R (.op (.readline fd n) s k) w)
    (ho : A (.readline fd n) s) (htalks : talks fd = false) (l : Line) :
    D.Obeys side talks A R (k l) { w with left := w.left || l.isEmpty } :=
  h.reply (r := l) ho (by simp [Heard, htalks])

end Readings

/-- What is typed is nothing to the channels. -/
theorem Obeys.typed {fd : Fd} {n : Nat} {s : σ} {k : Line → Proc (IoOp Fd ε) IoOp.Res σ α}
    {bytes : List (Fd × Char)} (h : D.Obeys side talks A R (.op (.readline fd n) s k) w)
    (ho : A (.readline fd n) s) (htalks : talks fd = false)
    (hend : Ended (n - 1) bytes ∨ closed fd) :
    ∃ b, D.Obeys side talks A R (k (bytes.map Prod.snd)) { w with left := w.left || b }
      ∧ Kept talks closed eof blame w { w with left := w.left || b } none := by
  refine ⟨_, h.input ho htalks _, .input fun hnil => Or.inr ⟨fd, htalks, ?_⟩⟩
  have hnil : bytes = [] := by simpa using hnil
  exact hend.resolve_left fun he => he.ne_nil (h.op ho).1.2.1 hnil

/-- What is read over a channel is the next line of the other end, or the
end of file behind one who has a reason. -/
theorem Obeys.heard {fd : Fd} {n : Nat} {s : σ} {k : Line → Proc (IoOp Fd ε) IoOp.Res σ α}
    {bytes : List (Fd × Char)} {wire wire' : Wire Fd} {far : D.State} {out : List Char}
    (h : D.Obeys side talks A R (.op (.readline fd n) s k) w) (ho : A (.readline fd n) s)
    (hown : wire.Own fd) (htalks : talks fd = true)
    (hline : Readline fd (n - 1) wire bytes wire') (hend : Ended (n - 1) bytes ∨ closed fd)
    (hchan : D.Channel side (w.state fd) far (wire.ahead fd) out)
    (hclosed : closed fd → D.Final far ∨ blame) :
    ∃ w', D.Obeys side talks A R (k (bytes.map Prod.snd)) w'
      ∧ Kept talks closed eof blame w w' none
      ∧ (∀ fd', fd' ≠ fd → w'.state fd' = w.state fd')
      ∧ D.Channel side (w'.state fd) far (wire'.ahead fd) out := by
  obtain ⟨-, -, -, htext, hahead⟩ := hline.own hown
  obtain ⟨-, hroom, hlisten⟩ := (h.op ho).1
  obtain ⟨hlimit, -, hmore⟩ := hlisten htalks
  cases hchan.hear with
  | inl hnone =>
      -- nothing is on its way: the other end is gone
      obtain ⟨hnil, hpend⟩ := hnone
      have hempty : bytes.map Prod.snd = [] := by
        rw [htext, hnil, takeLine_nil]
      have hbytes : bytes = [] := List.map_eq_nil_iff.mp hempty
      have hgone : closed fd := hend.resolve_left fun he => he.ne_nil hroom hbytes
      have hblame : blame := by
        refine (hclosed hgone).resolve_left fun hfin => ?_
        rw [(hpend.of_final hfin).2] at hfin
        exact hmore hfin
      rw [hempty]
      refine ⟨_, h.gone ho htalks, .gone hblame htalks hgone, fun _ _ => rfl, ?_⟩
      rw [hahead, hnil, List.drop_nil]
      exact .unheard hpend
  | inr hsome =>
      obtain ⟨l, rest, q, hinn, hsaid, hcoming⟩ := hsome
      have hl : bytes.map Prod.snd = l := by
        rw [htext, hinn]
        exact hsaid.whole.takeLine (by omega)
      have hlen : bytes.length = l.length := by rw [← hl, List.length_map]
      rw [hl]
      refine ⟨_, h.line ho htalks hsaid, .said ⟨_, l, hsaid⟩ nofun,
        fun fd' hne => Standing.to_state_ne _ _ _ hne, ?_⟩
      rw [Standing.to_state_self, hahead, hinn, hlen, List.drop_left]
      exact hcoming

/-- A process keeps its channels in accord. `far` are the states of the
other ends, `out` what is on its way to them. -/
theorem Obeys.act {wire wire' : Wire Fd} {x : Option (IoOp Fd ε × σ)}
    {sent : Option (Fd × Line)} (blame : Prop) (far : Fd → D.State) (out : Fd → List Char)
    (h : D.Obeys side talks A R S w) (hact : Act closed eof S wire x sent S' wire')
    (hx : ∀ y ∈ x, A y.1 y.2 ∧ wire.Tidy y.1)
    (hchan : ∀ fd, talks fd = true →
      D.Channel side (w.state fd) (far fd) (wire.ahead fd) (out fd))
    (hclosed : ∀ fd, talks fd = true → closed fd → D.Final (far fd) ∨ blame) :
    ∃ w', D.Obeys side talks A R S' w' ∧ Kept talks closed eof blame w w' sent
      ∧ ∀ fd, talks fd = true →
        D.Channel side (w'.state fd) (far fd) (wire'.ahead fd) (out fd ++ sentOver sent fd) := by
  have hquiet : ∀ fd, talks fd = true →
      D.Channel side (w.state fd) (far fd) (wire.ahead fd) (out fd ++ sentOver none fd) := by
    intro fd hfd
    rw [sentOver_none, List.append_nil]
    exact hchan fd hfd
  cases hact with
  | loop => exact ⟨w, h.unroll, .same, hquiet⟩
  | @write fd l s k =>
      have ho := (hx _ rfl).1
      obtain ⟨-, htalks, q, hsaid⟩ := (h.op ho).1
      refine ⟨w.to fd q, h.reply ho ⟨q, hsaid, rfl⟩, .said ⟨side, l, hsaid⟩ fun y hy => ?_,
        fun fd' hfd' => ?_⟩
      · cases hy
        exact htalks
      · by_cases hne : fd' = fd
        · subst hne
          rw [sentOver_self, Standing.to_state_self]
          exact (hchan fd' hfd').say hsaid
        · rw [sentOver_ne l (Ne.symm hne), List.append_nil, Standing.to_state_ne _ _ _ hne]
          exact hchan fd' hfd'
  | @readline fd n s k _ _ bytes hline hend =>
      obtain ⟨ho, hown⟩ := hx _ rfl
      have hothers := (hline.own hown).2.1
      cases htalks : talks fd with
      | false =>
          -- the user: nothing is known of what is typed
          obtain ⟨b, hobeys, hkept⟩ := h.typed ho htalks hend
          refine ⟨_, hobeys, hkept, fun fd' hfd' => ?_⟩
          have hne : fd' ≠ fd := fun he => by rw [he, htalks] at hfd'; cases hfd'
          rw [hothers fd' hne]
          exact hquiet fd' hfd'
      | true =>
          obtain ⟨w', hobeys, hkept, hframe, hnew⟩ :=
            h.heard ho hown htalks hline hend (hchan fd htalks) (hclosed fd htalks)
          refine ⟨w', hobeys, hkept, fun fd' hfd' => ?_⟩
          by_cases hne : fd' = fd
          · subst hne
            rw [sentOver_none, List.append_nil]
            exact hnew
          · rw [hframe fd' hne, hothers fd' hne]
            exact hquiet fd' hfd'
  | select => exact ⟨w, h.reply (hx _ rfl).1 rfl, .same, hquiet⟩
  | @scanf s k _ r heof =>
      refine ⟨_, h.reply (hx _ rfl).1 rfl, .input fun hleft => ?_, hquiet⟩
      cases r with
      | eof => exact Or.inl (heof rfl)
      | mismatch => cases hleft
      | number i => cases hleft
  | indeterminate => exact ⟨w, h.reply (hx _ rfl).1 rfl, .same, hquiet⟩
  | note => exact ⟨w, h.reply (hx _ rfl).1 rfl, .same, hquiet⟩

end Protocol

end Process
