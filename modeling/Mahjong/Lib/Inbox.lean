/-
A process with one channel and a user, who both come through its one
buffer.

# What has been said

`exchanged` is read off the log: the lines that have gone over the channel
either way. Followed from the beginning they give the state of the
conversation (`behind`), so that it is known from the log alone what may
come next.

# What the reads bring

The other end says what it may say and nothing ahead of its time (`Fed`):
a line read is its next one, and what is left in the buffer can have been
said by now. That leaves one way for two lines to come at once, the
acknowledgement of a line and the line after it. A process that reads on
takes both. One that sleeps behind the acknowledgement does not hear of
the second, and these are the acknowledgements that must come `Alone`.

# The invariant

`Inbox` says what is in the buffer of the channel in each state: nothing
before an acknowledgement of the other end, no complete line where the
process may sleep. A read that is `Alone` takes the first to the second
(`Inbox.heard`). With the bookkeeping of `Answered` it goes through every
run of a process that keeps to the conversation (`Run.inbox`), and every
line is dealt with (`Handles`).
-/
import Mahjong.Lib.Dialogue

namespace Process

open CString

variable {Fd ε : Type} [DecidableEq Fd]

-- ==================================================================== what has been said

/-- The line an operation has brought over the channel or sent, and who
said it. The end of file is no line. -/
def spoken (sock : Fd) (side : Side) : (o : IoOp Fd ε) → o.Res → Option (Side × Line)
  | .write fd l, _ => if fd = sock then some (side, l) else none
  | .readline fd _, r => if fd = sock ∧ r ≠ [] then some (side.other, r) else none
  | _, _ => none

/-- The lines that have gone over the channel, the latest first. -/
def exchanged (sock : Fd) (side : Side) (log : List ((o : IoOp Fd ε) × o.Res)) :
    List (Side × Line) :=
  log.filterMap fun x => spoken sock side x.1 x.2

/-- Where the conversation is behind these lines. -/
def Protocol.behind (D : Protocol) (q : D.State) (es : List (Side × Line)) : D.State :=
  es.foldr (fun x q => (D.next q x.2).getD q) q

/-- These bytes can have come from this end by now. -/
def Protocol.Timely (D : Protocol) (side : Side) (q : D.State) (cs : List Char) : Prop :=
  ∃ more q', D.Pending side q (cs ++ more) q'

/-- Every line has its acknowledgement behind it. -/
inductive Acknowledged (ack : Line) : List (Side × Line) → Prop
  | nil : Acknowledged ack []
  | pair {es : List (Side × Line)} (side : Side) (l : Line) (h : Acknowledged ack es) :
      Acknowledged ack ((side.other, ack) :: (side, l) :: es)

namespace Protocol

variable {D : Protocol} {side : Side} {q q' : D.State} {l : Line} {es : List (Side × Line)}

theorem Timely.nil (q : D.State) : D.Timely side q [] := ⟨[], q, .nil q⟩

/-- Nothing has come from an end that is not to speak. -/
theorem Timely.silent {cs : List Char} (h : D.Timely side q cs) (hq : D.speaker q ≠ some side) :
    cs = [] := by
  obtain ⟨more, q', h⟩ := h
  exact (List.append_eq_nil_iff.mp (h.of_speaker hq).1).1

theorem Says.behind {q₀ : D.State} (h : D.Says side q l q') (hq : D.behind q₀ es = q) :
    D.behind q₀ ((side, l) :: es) = q' := by
  show (D.next (D.behind q₀ es) l).getD (D.behind q₀ es) = q'
  rw [hq, h.next]
  rfl

variable {ack : Line} {x x' : (D.acked ack).State}

/-- What has been said and not been acknowledged is the last line, if the
other end owes. -/
def Answered : (D.acked ack).State → List (Side × Line) → Prop
  | .turn _, es => Acknowledged ack es
  | .owes side _ _, es => ∃ l es', es = (side.other, l) :: es' ∧ Acknowledged ack es'

theorem Answered.said (hack : WholeLine D.limit ack) (hsaid : (D.acked ack).Says side x l x')
    (h : Answered x es) : Answered x' ((side, l) :: es) := by
  cases x with
  | turn v =>
      obtain ⟨v', -, rfl⟩ := acked_says_turn.mp hsaid
      exact ⟨l, es, by rw [Side.other_other], h⟩
  | owes s v v' =>
      obtain ⟨rfl, rfl, rfl⟩ := (acked_says_owes hack).mp hsaid
      obtain ⟨l', es', rfl, h'⟩ := h
      have hpair := h'.pair s.other l'
      rw [Side.other_other] at hpair
      exact hpair

end Protocol

-- ================================================================== the surroundings

section Surroundings

variable (D : Protocol) (ack : Line) (side : Side) (sock : Fd) (q₀ : (D.acked ack).State)
  (Rests : D.State → Prop)

/-- Where the conversation is. -/
abbrev Net.standing (w : Net Fd ε) : (D.acked ack).State :=
  (D.acked ack).behind q₀ (exchanged sock side w.log)

/-- What is read over the channel is a line the other end may say, or the
end of file, and nothing is behind it that cannot have been said by now. -/
def Fed (w : Net Fd ε) : (o : IoOp Fd ε) → o.Res → Net Fd ε → Prop
  | .readline fd _, r, w' => fd = sock → r ≠ [] →
      ∃ q, (D.acked ack).Says side.other (w.standing D ack side sock q₀) r q
        ∧ (D.acked ack).Timely side.other q (w'.wire.buffered sock)
  | _, _, _ => True

/-- The `read`s for an acknowledgement behind which the process may sleep
end no second line. -/
def Alone (w : Net Fd ε) : IoOp Fd ε → Net Fd ε → Prop
  | .readline fd _, w' => fd = sock →
      ∀ v v', w.standing D ack side sock q₀ = .owes side.other v v' → Rests v' →
        ∀ bytes, w.wire.rest sock = bytes ++ w'.wire.rest sock → bytes.count '\n' ≤ 1
  | _, _ => True

/-- The surroundings of a process with one channel, when its reads do not
get mixed up. -/
abbrev attended (ε : Type) : Env (IoOp Fd ε) IoOp.Res :=
  wired Fd ε fun w o r w' => Unmixed w o ∧ Fed D ack side sock q₀ w o r w'
    ∧ Alone D ack side sock q₀ Rests w o w'

/-- Every line that is read was sent over the descriptor it was read from;
on the channel a line is acknowledged before another is said, the last one
perhaps not yet; and when the process sleeps, all are, and no complete line
of the channel is in the buffer. -/
structure Handles {σ α : Type} (streams : Fd → List Char) (S : Proc (IoOp Fd ε) IoOp.Res σ α)
    (w : Net Fd ε) : Prop where
  lines : Attributed streams w
  acks : Acknowledged ack (exchanged sock side w.log) ∨
    ∃ x es, exchanged sock side w.log = x :: es ∧ Acknowledged ack es
  awake : ∀ fds s k, S = .op (.select fds) s k →
    '\n' ∉ w.wire.buffered sock ∧ Acknowledged ack (exchanged sock side w.log)

-- ===================================================================== the invariant

/-- What is in the buffer of the channel in a state of the conversation. -/
structure Inbox (w : Net Fd ε) (q : (D.acked ack).State) : Prop where
  stands : w.standing D ack side sock q₀ = q
  timely : (D.acked ack).Timely side.other q (w.wire.buffered sock)
  due : ∀ v v', q = .owes side.other v v' → w.wire.buffered sock = []
  quiet : ∀ v, q = .turn v → Rests v → '\n' ∉ w.wire.buffered sock
  answered : Protocol.Answered q (exchanged sock side w.log)

end Surroundings

variable {D : Protocol} {ack : Line} {side : Side} {sock : Fd} {q₀ : (D.acked ack).State}
  {Rests : D.State → Prop} {w w' : Net Fd ε} {q q' : (D.acked ack).State} {l : Line}

/-- A state with nothing in the buffer. -/
theorem Inbox.empty (hstands : w.standing D ack side sock q₀ = q)
    (hanswered : Protocol.Answered q (exchanged sock side w.log))
    (hnone : w.wire.buffered sock = []) : Inbox D ack side sock q₀ Rests w q where
  stands := hstands
  timely := by
    rw [hnone]
    exact .nil q
  due := fun _ _ _ => hnone
  quiet := fun _ _ _ => by
    rw [hnone]
    exact List.not_mem_nil
  answered := hanswered

/-- Before anything has been said. -/
theorem Inbox.start {v : D.State} {wire : Wire Fd} (hv : ¬ Rests v)
    (htimely : (D.acked ack).Timely side.other (.turn v) (wire.buffered sock)) :
    Inbox D ack side sock (.turn v) Rests (Net.start wire : Net Fd ε) (.turn v) where
  stands := rfl
  timely := htimely
  due := fun _ _ he => nomatch he
  quiet := fun _ he hrests => by
    cases he
    exact absurd hrests hv
  answered := Acknowledged.nil

/-- The process says a line. -/
theorem Inbox.said (hack : WholeLine D.limit ack) (h : Inbox D ack side sock q₀ Rests w q)
    (hsaid : (D.acked ack).Says side q l q') (hwire : w'.wire = w.wire)
    (hlog : exchanged sock side w'.log = (side, l) :: exchanged sock side w.log) :
    Inbox D ack side sock q₀ Rests w' q' := by
  have hturn : (D.acked ack).speaker q ≠ some side.other := by
    rw [hsaid.turn]
    exact fun he => side.other_ne (Option.some.inj he).symm
  refine .empty ?_ ?_ ?_
  · rw [Net.standing, hlog]
    exact hsaid.behind h.stands
  · rw [hlog]
    exact h.answered.said hack hsaid
  · rw [hwire]
    exact h.timely.silent hturn

/-- The process hears a line. -/
theorem Inbox.heard (hack : WholeLine D.limit ack) (h : Inbox D ack side sock q₀ Rests w q)
    (hsaid : (D.acked ack).Says side.other q l q')
    (htimely : (D.acked ack).Timely side.other q' (w'.wire.buffered sock))
    (halone : ∀ v v', q = .owes side.other v v' → Rests v' →
      ∀ bytes, w.wire.rest sock = bytes ++ w'.wire.rest sock → bytes.count '\n' ≤ 1)
    (htaken : ∃ bytes, w.wire.rest sock = bytes ++ w'.wire.rest sock
      ∧ w.wire.buffered sock ++ bytes = l ++ w'.wire.buffered sock)
    (hlog : exchanged sock side w'.log = (side.other, l) :: exchanged sock side w.log) :
    Inbox D ack side sock q₀ Rests w' q' := by
  refine ⟨?_, htimely, fun v v' he => ?_, fun v' he hrests => ?_, ?_⟩
  · rw [Net.standing, hlog]
    exact hsaid.behind h.stands
  · -- its own line is not what the other end owes an acknowledgement of
    subst he
    cases q with
    | turn u =>
        obtain ⟨u', -, he⟩ := Protocol.acked_says_turn.mp hsaid
        injection he with hside
        rw [Side.other_other] at hside
        exact absurd hside side.other_ne
    | owes s u u' =>
        obtain ⟨-, -, he⟩ := (Protocol.acked_says_owes hack).mp hsaid
        cases he
  · subst he
    cases q with
    | turn u =>
        obtain ⟨u', -, he⟩ := Protocol.acked_says_turn.mp hsaid
        cases he
    | owes s u u' =>
        obtain ⟨rfl, rfl, he⟩ := (Protocol.acked_says_owes hack).mp hsaid
        cases he
        obtain ⟨bytes, hrest, hbuffered⟩ := htaken
        have hcount := halone u v' rfl hrests bytes hrest
        rw [h.due u v' rfl, List.nil_append] at hbuffered
        have hend : 0 < l.count '\n' := List.count_pos_iff.mpr hack.newline_mem
        rw [hbuffered, List.count_append] at hcount
        exact List.count_eq_zero.mp (by omega)
  · rw [hlog]
    exact h.answered.said hack hsaid

/-- Nothing is said, and what was in the buffer of the channel still is,
or nothing is in it. -/
theorem Inbox.same (h : Inbox D ack side sock q₀ Rests w q)
    (hwire : w'.wire.buffered sock = w.wire.buffered sock ∨ w'.wire.buffered sock = [])
    (hlog : exchanged sock side w'.log = exchanged sock side w.log) :
    Inbox D ack side sock q₀ Rests w' q := by
  have hstands : w'.standing D ack side sock q₀ = q := by
    rw [Net.standing, hlog]
    exact h.stands
  have hanswered : Protocol.Answered q (exchanged sock side w'.log) := by
    rw [hlog]
    exact h.answered
  rcases hwire with hsame | hnone
  · refine ⟨hstands, ?_, fun v v' he => ?_, fun v he hrests => ?_, hanswered⟩
    · rw [hsame]
      exact h.timely
    · rw [hsame]
      exact h.due v v' he
    · rw [hsame]
      exact h.quiet v he hrests
  · exact .empty hstands hanswered hnone

-- ========================================================================== the runs

section Runs

variable {σ α : Type} {S S' : Proc (IoOp Fd ε) IoOp.Res σ α} {A : IoOp Fd ε → σ → Prop}
  {R : IoOp Fd ε → σ → Protocol.Standing Fd (D.acked ack).State → Prop}
  {o : IoOp Fd ε} {s : σ}
  {k : o.Res → Proc (IoOp Fd ε) IoOp.Res σ α} {r : o.Res}

/-- The state of the process and what is in its buffer. -/
def Minding (A : IoOp Fd ε → σ → Prop)
    (R : IoOp Fd ε → σ → Protocol.Standing Fd (D.acked ack).State → Prop) (q₀ : (D.acked ack).State)
    (Rests : D.State → Prop) (side : Side) (sock : Fd) (S : Proc (IoOp Fd ε) IoOp.Res σ α)
    (w : Net Fd ε) : Prop :=
  ∃ stand, (D.acked ack).Obeys side (fun fd => fd = sock) A R S stand
    ∧ Inbox D ack side sock q₀ Rests w (stand.state sock)

/-- An empty line leaves nothing in the buffer. -/
theorem Readline.drained {fd : Fd} {n : Nat} {wire wire' : Wire Fd} (h : Readline fd n wire [] wire')
    (hn : 0 < n) (hown : wire.Own fd) : wire'.buffered fd = [] := by
  obtain ⟨-, -, -, htext, hahead⟩ := h.own hown
  have hnone : wire.ahead fd = [] := by
    cases hbytes : wire.ahead fd with
    | nil => rfl
    | cons c cs =>
        obtain ⟨m, rfl⟩ := Nat.exists_eq_succ_of_ne_zero hn.ne'
        rw [hbytes, takeLine] at htext
        split at htext <;> simp at htext
  rw [hnone] at hahead
  exact (List.append_eq_nil_iff.mp hahead).1

/-- One operation. -/
theorem Minding.step (hack : WholeLine D.limit ack)
    (h : Minding A R q₀ Rests side sock (.op o s k) w) (ho : A o s)
    (hresp : (attended D ack side sock q₀ Rests ε).resp w o r w') :
    Minding A R q₀ Rests side sock (k r) w' := by
  obtain ⟨stand, hobeys, hinbox⟩ := h
  have hmay := (hobeys.op ho).1
  obtain ⟨⟨hmix, hfed, halone⟩, hwired, hlog⟩ := hresp
  cases o with
  | exit => exact nomatch r
  | write fd l =>
      obtain ⟨-, htalks, q', hsaid⟩ := hmay
      obtain rfl : fd = sock := of_decide_eq_true htalks
      refine ⟨_, hobeys.reply ho ⟨q', hsaid, rfl⟩, ?_⟩
      rw [Protocol.Standing.to_state_self]
      exact hinbox.said hack hsaid hwired.1 (by rw [hlog]; simp [exchanged, spoken])
  | readline fd n =>
      obtain ⟨-, hroom, -⟩ := hmay
      obtain ⟨bytes, hline, rfl, -⟩ := hwired
      by_cases hfd : fd = sock
      · subst hfd
        by_cases hnil : bytes = []
        · -- the end of file
          subst hnil
          refine ⟨_, hobeys.gone ho (decide_eq_true rfl), hinbox.same ?_ ?_⟩
          · exact Or.inr (hline.drained (by omega) hmix)
          · rw [hlog]
            simp [exchanged, spoken]
        · obtain ⟨q', hsaid, htimely⟩ := hfed rfl (by simpa using hnil)
          rw [hinbox.stands] at hsaid
          refine ⟨_, hobeys.line ho (decide_eq_true rfl) hsaid, ?_⟩
          rw [Protocol.Standing.to_state_self]
          refine hinbox.heard hack hsaid htimely ?_ (hline.taken hmix) ?_
          · rw [← hinbox.stands]
            exact halone rfl
          · rw [hlog]
            simp [exchanged, spoken, hnil]
      · -- the user
        refine ⟨_, hobeys.input ho (decide_eq_false hfd) _, hinbox.same ?_ ?_⟩
        · exact Or.inr ((hline.own hmix).1.buffered_ne (Ne.symm hfd))
        · rw [hlog]
          simp [exchanged, spoken, hfd]
  | _ =>
      refine ⟨_, hobeys.reply ho rfl, hinbox.same (Or.inl (by rw [hwired.1])) ?_⟩
      rw [hlog]
      simp [exchanged, spoken]

/-- Along every run. -/
theorem Run.minding {tr : List (IoOp Fd ε × σ)}
    {w w' : (attended D ack side sock q₀ Rests ε).World}
    (hrun : Run (attended D ack side sock q₀ Rests ε) S w tr S' w')
    (hack : WholeLine D.limit ack) (hA : ∀ x ∈ tr, A x.1 x.2)
    (h : Minding A R q₀ Rests side sock S w) : Minding A R q₀ Rests side sock S' w' := by
  induction hrun with
  | refl => exact h
  | op hr _ ih =>
      exact ih (fun x hx => hA x (List.mem_cons_of_mem _ hx))
        (h.step hack (hA _ (List.mem_cons_self ..)) hr)
  | loop _ ih =>
      obtain ⟨stand, hobeys, hinbox⟩ := h
      exact ih hA ⟨stand, hobeys.unroll, hinbox⟩

/-- A process that keeps to the conversation and sleeps in a state of rest
only deals with every line. -/
theorem Run.handles {tr : List (IoOp Fd ε × σ)} {wire : Wire Fd} {w : Net Fd ε} {v : D.State}
    {stand : Protocol.Standing Fd (D.acked ack).State}
    (hrun : Run (attended D ack side sock (.turn v) Rests ε) S (Net.start wire : Net Fd ε) tr S' w)
    (hack : WholeLine D.limit ack) (hA : ∀ x ∈ tr, A x.1 x.2)
    (hobeys : (D.acked ack).Obeys side (fun fd => fd = sock) A R S stand)
    (hstand : stand.state sock = .turn v) (hv : ¬ Rests v)
    (hsleep : ∀ fds s, A (.select fds) s ∧ ∀ stand, R (.select fds) s stand →
      ∃ v, stand.state sock = .turn v ∧ Rests v)
    (htimely : (D.acked ack).Timely side.other (.turn v) (wire.buffered sock)) :
    Handles ack side sock wire.ahead S' w := by
  have hstart : Inbox D ack side sock (.turn v) Rests (Net.start wire : Net Fd ε)
      (stand.state sock) := by
    rw [hstand]
    exact .start hv htimely
  obtain ⟨stand', hobeys', hinbox⟩ := hrun.minding hack hA ⟨stand, hobeys, hstart⟩
  refine ⟨hrun.attributed (fun _ _ _ _ h => h.1) (attributed_start wire), ?_, ?_⟩
  · have hanswered := hinbox.answered
    cases hq : stand'.state sock with
    | turn u =>
        rw [hq] at hanswered
        exact Or.inl hanswered
    | owes s u u' =>
        rw [hq] at hanswered
        obtain ⟨l, es, hes, h⟩ := hanswered
        exact Or.inr ⟨_, es, hes, h⟩
  · intro fds s k hS
    subst hS
    obtain ⟨hA', hrest⟩ := hsleep fds s
    obtain ⟨u, hstate, hu⟩ := hrest _ (hobeys'.op hA').2
    have hanswered := hinbox.answered
    rw [hstate] at hanswered
    exact ⟨hinbox.quiet u hstate hu, hanswered⟩

end Runs

-- ================================================================== runs by evaluation

namespace Protocol

variable {D : Protocol} {side : Side} {q q' : D.State} {l : Line}

/-- The state behind a line, if this end may say it. -/
def allowed (D : Protocol) (side : Side) (q : D.State) (l : Line) : Option D.State :=
  if D.speaker q = some side ∧ WholeLine D.limit l then D.next q l else none

theorem says_of_allowed (h : D.allowed side q l = some q') : D.Says side q l q' := by
  unfold allowed at h
  split at h
  next hok => exact ⟨hok.1, hok.2, h⟩
  next => cases h

/-- Nothing, or one line this end may say. -/
def fresh (D : Protocol) (side : Side) (q : D.State) (cs : List Char) : Bool :=
  cs.isEmpty || (D.allowed side q cs).isSome

theorem timely_of_fresh {cs : List Char} (h : D.fresh side q cs = true) : D.Timely side q cs := by
  rw [fresh, Bool.or_eq_true, List.isEmpty_iff] at h
  rcases h with hnil | hsome
  · rw [hnil]
    exact .nil q
  · obtain ⟨q', hq'⟩ := Option.isSome_iff_exists.mp hsome
    refine ⟨[], q', ?_⟩
    rw [List.append_nil, ← List.append_nil cs]
    exact .cons (says_of_allowed hq') (.nil q')

end Protocol

namespace Chunked

variable {σ α : Type} {D : Protocol} {side : Side} {sock : Fd} {q₀ : D.State}
  {ok : Net Fd ε → (o : IoOp Fd ε) → o.Res → Net Fd ε → Prop}
  {fine : D.State → Chunked Fd → (o : IoOp Fd ε) → o.Res → Chunked Fd → Bool}

/-- The replies, and the state of the conversation over the channel, while
all is fine. -/
def followed (D : Protocol) (side : Side) (sock : Fd)
    (fine : D.State → Chunked Fd → (o : IoOp Fd ε) → o.Res → Chunked Fd → Bool)
    (t : Script Fd × D.State) (o : IoOp Fd ε) : Option (o.Res × (Script Fd × D.State)) :=
  ((reply t.1 o).filter fun x => fine t.2 t.1.1 o x.1 x.2.1).map fun x =>
    (x.1, (x.2, D.behind t.2 (spoken sock side o x.1).toList))

theorem exchanged_cons (o : IoOp Fd ε) (r : o.Res) (log : List ((o : IoOp Fd ε) × o.Res)) :
    exchanged sock side (⟨o, r⟩ :: log)
      = (spoken sock side o r).toList ++ exchanged sock side log := by
  unfold exchanged
  cases h : spoken sock side o r <;> simp [h]

/-- What a replay finds is a run. -/
theorem followed_run {S : Proc (IoOp Fd ε) IoOp.Res σ α} {t : Chunked Fd} {n : Nat}
    {sane : IoOp Fd ε → σ → Bool}
    (hfine : ∀ t o r t' (w w' : Net Fd ε), w.wire = t.wire → w'.wire = t'.wire →
      fine (D.behind q₀ (exchanged sock side w.log)) t o r t' = true → ok w o r w')
    (goal : D.State → Chunked Fd → IoOp Fd ε → Bool)
    (h : S.replay (followed D side sock fine) sane (fun t o _ => goal t.2 t.1.1 o) n
      ((t, []), q₀) = true) :
    ∃ tr o s k t', ∃ w : Net Fd ε, Run (wired Fd ε ok) S (Net.start t.wire : Net Fd ε) tr
      (.op o s k) w ∧ w.wire = t'.wire
      ∧ goal (D.behind q₀ (exchanged sock side w.log)) t' o = true
      ∧ ∀ x ∈ tr, sane x.1 x.2 = true := by
  have hstart : (Net.start t.wire : Net Fd ε).wire = t.wire
      ∧ (Net.start t.wire : Net Fd ε).lines = []
      ∧ D.behind q₀ (exchanged sock side (Net.start t.wire : Net Fd ε).log) = q₀ :=
    ⟨rfl, rfl, rfl⟩
  have hreact : ∀ (t : Script Fd × D.State) o r t' (w : (wired Fd ε ok).World),
      followed D side sock fine t o = some (r, t') →
      w.wire = t.1.1.wire ∧ w.lines = t.1.2 ∧ D.behind q₀ (exchanged sock side w.log) = t.2 →
      ∃ w', (wired Fd ε ok).resp w o r w' ∧ w'.wire = t'.1.1.wire ∧ w'.lines = t'.1.2
        ∧ D.behind q₀ (exchanged sock side w'.log) = t'.2 := by
    intro t o r t' w h hw
    obtain ⟨hwire, hlines, hq⟩ := hw
    obtain ⟨x, hx, he⟩ := Option.map_eq_some_iff.mp h
    cases he
    obtain ⟨hreply, hok⟩ := Option.filter_eq_some_iff.mp hx
    refine ⟨⟨x.2.1.wire, x.2.2, ⟨o, x.1⟩ :: w.log⟩, ⟨?_, wired_reply hreply hwire hlines, rfl⟩,
      rfl, rfl, ?_⟩
    · rw [← hq] at hok
      exact hfine _ _ _ _ _ _ hwire rfl hok
    · rw [exchanged_cons, Protocol.behind, List.foldr_append, ← hq]
      rfl
  obtain ⟨tr, o, s, k, t', w, hrun, ⟨hwire, -, hq⟩, hgoal, hsane⟩ :=
    Proc.replay_run (R := fun (t : Script Fd × D.State) (w : (wired Fd ε ok).World) =>
      w.wire = t.1.1.wire ∧ w.lines = t.1.2
        ∧ D.behind q₀ (exchanged sock side w.log) = t.2) hreact hstart h
  refine ⟨tr, o, s, k, t'.1.1, w, hrun, hwire, ?_, hsane⟩
  rw [hq]
  exact hgoal

end Chunked

end Process
