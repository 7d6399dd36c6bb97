/-
Rules for the server's exchanges with a player, in an environment that
may answer anything and whose world is the list of all replies so far.

Two lines are landmarks of a round, `"your turn\n"` and the announcement
at its end; a statement about runs may ask something of the table when
they are written. All other lines are `plain`: an obligation that is
`Quiet` asks nothing at them, nor where a line is read.
-/
import Mahjong.Server.Program
import Mahjong.Lib.Total

namespace Mahjong.Server

open Process CString

/-- The operations of the server. -/
abbrev SOp := IoOp Seat Note

/-- The replies so far, the latest first. -/
abbrev Log := List ((o : SOp) × o.Res)

/-- The surroundings of the server: any reply to anything, as long as
the log is `ok`. -/
abbrev within (ok : Log → Prop) : Env SOp IoOp.Res := Env.logged SOp IoOp.Res ok

/-- Any reply to anything. -/
abbrev anyone : Env SOp IoOp.Res := within fun _ => True

/-- Nothing is assumed of the run. -/
abbrev Any : SOp → Game → Prop := fun _ _ => True

/-- The question to a player who can win on a discard. -/
def huOffer : Line := str "(Hu) You actually can hu already, proceed? [Y/n]\n"

-- ============================================================== plain lines

/-- Neither `"your turn\n"` nor the announcement that ends a round. -/
def plain (l : Line) : Bool :=
  !(l.head? == some 'y' || l.take 2 == ['(', 'E'] || l.take 2 == ['(', 'G'])

/-- The first character is enough where it begins neither landmark. -/
theorem plain_cons {c : Char} {l : Line} (h : c ≠ 'y') (h' : c ≠ '(') :
    plain (c :: l) = true := by
  cases l <;> simp [plain, h, h']

/-- A line in brackets is told by its second character. -/
theorem plain_cons_cons {c d : Char} {l : Line} (h : c ≠ 'y') (hE : d ≠ 'E')
    (hG : d ≠ 'G') : plain (c :: d :: l) = true := by
  simp [plain, h, hE, hG]

/-- A number begins with a digit or a sign. -/
theorem plain_decimal (i : Int) (l : Line) : plain (decimal i ++ l) = true := by
  obtain ⟨c, cs, he, hc⟩ := decimal_head i
  rw [he, List.cons_append]
  refine plain_cons ?_ ?_
  · rintro rfl
    revert hc
    decide
  · rintro rfl
    revert hc
    decide

/-- A tile is no landmark. -/
theorem plain_tileLine (m : Mj) : plain (tileLine m) = true := plain_decimal _ _

/-- Nor is the announcement of a claim, which begins with `(A`. -/
theorem plain_announce (p : Seat) (what : String) :
    plain (announce p what) = true :=
  plain_cons_cons (by decide) (by decide) (by decide)

/-- A discard is announced as one. -/
theorem discardLine_head {p : Seat} {m : Mj} {l : Line} (h : discardLine p m = some l) :
    ∃ r, l = str "(Discard) Player " ++ r := by
  let Headed (l : Line) : Prop := ∃ r, l = str "(Discard) Player " ++ r
  have hite : ∀ (c : Prop) [Decidable c] (a b : Option Line),
      (∀ l ∈ a, Headed l) → (∀ l ∈ b, Headed l) →
      ∀ l ∈ (if c then a else b), Headed l := by
    intro c _ a b ha hb
    split
    · exact ha
    · exact hb
  have hnone : ∀ l ∈ (none : Option Line), Headed l := fun l hl => nomatch hl
  have hsome : ∀ r : Line, ∀ l ∈ some (str "(Discard) Player " ++ r), Headed l := by
    rintro r l ⟨⟩
    exact ⟨r, rfl⟩
  refine (?_ : ∀ l ∈ discardLine p m, Headed l) l h
  clear_value Headed
  simp only [discardLine, List.append_assoc]
  generalize str "(Discard) Player " = head at hsome
  repeat' apply hite
  all_goals first | exact hnone | exact hsome _

/-- Nor that of a discard, which begins with `(D`. -/
theorem plain_discardLine {p : Seat} {m : Mj} {l : Line}
    (h : discardLine p m = some l) : plain l = true := by
  obtain ⟨r, rfl⟩ := discardLine_head h
  exact plain_cons_cons (by decide) (by decide) (by decide)

-- ================================================================= lines that are told

/-- A line that does not begin like the acknowledgement of an answer. -/
theorem cons_ne_ack {c : Char} {l : Line} (h : c ≠ 'A') : c :: l ≠ str "ACK\n" :=
  fun he => h (List.cons.inj he).1

/-- A number does not begin with an `A`. -/
theorem decimal_ne_ack (i : Int) (l : Line) : decimal i ++ l ≠ str "ACK\n" := by
  obtain ⟨c, cs, he, hc⟩ := decimal_head i
  rw [he, List.cons_append]
  apply cons_ne_ack
  rintro rfl
  exact absurd hc (by decide)

/-- No tile is told with the line of an acknowledgement. -/
theorem tileLine_ne_ack (m : Mj) : tileLine m ≠ str "ACK\n" := decimal_ne_ack _ _

/-- Nor is a claim. -/
theorem announce_ne_ack (p : Seat) (what : String) : announce p what ≠ str "ACK\n" :=
  cons_ne_ack (by decide)

/-- Nor is a discard. -/
theorem discardLine_ne_ack {p : Seat} {m : Mj} {l : Line} (h : discardLine p m = some l) :
    l ≠ str "ACK\n" := by
  obtain ⟨r, rfl⟩ := discardLine_head h
  exact cons_ne_ack (by decide)

/-- Nor is the end of a round, with a winner or without. -/
theorem endLine_ne_ack (v : Int) : endLine v ≠ str "ACK\n" := by
  unfold endLine
  split
  · decide
  · rw [List.append_assoc]
    exact cons_ne_ack (by decide)

-- ============================================================ wins in the log

/-- The mark of a win. -/
def IsWin : SOp → Prop
  | .note (.win _) => True
  | _ => False

/-- The log declares `v` the winner: it has the mark of a win of `p` if
and only if `v` is `p`. -/
def Declares (w : Log) (v : Int) : Prop :=
  ∀ p : Seat, (⟨.note (.win p), ()⟩ : (o : SOp) × o.Res) ∈ w ↔ v = (p.val : Int)

/-- With nothing in the log nobody is the winner. -/
theorem Declares.nil : Declares [] (-1) := by
  intro p
  simp only [List.not_mem_nil, false_iff]
  omega

/-- What is no mark of a win declares nobody. -/
theorem Declares.cons {o : SOp} {r : o.Res} {w : Log} {v : Int}
    (h : Declares w v) (ho : ¬ IsWin o) : Declares (⟨o, r⟩ :: w) v := by
  intro p
  rw [List.mem_cons, ← h p]
  refine or_iff_right fun he => ho ?_
  cases he
  exact trivial

/-- The first mark of a win declares its player. -/
theorem Declares.win {w : Log} {p : Seat} (h : Declares w (-1)) :
    Declares (⟨.note (.win p), ()⟩ :: w) (p.val : Int) := by
  intro q
  rw [List.mem_cons, h q]
  constructor
  · rintro (he | he)
    · cases he
      rfl
    · omega
  · intro he
    have hqp : p = q := Fin.ext (by omega)
    exact Or.inl (hqp ▸ rfl)

-- ================================================================ the answers in a log

/-- Behind a line that was read it is acknowledged: the line is an answer. -/
def answerAt : (o : SOp) × o.Res → (o : SOp) × o.Res → Option (Seat × Line)
  | ⟨.write p l, _⟩, ⟨.readline q _, r⟩ => if p = q ∧ l = str "ACK\n" then some (q, r) else none
  | _, _ => none

/-- The answers in a log, the latest first. -/
def answers : Log → List (Seat × Line)
  | x :: y :: w => (answerAt x y).toList ++ answers (y :: w)
  | _ => []

section Answers

variable {p : Seat} {l : Line} {r : Line} {n : Nat} {w : Log}

/-- Only an acknowledgement adds an answer. -/
theorem answers_cons {o : SOp} {r : o.Res} (ho : ∀ p, o ≠ .write p (str "ACK\n")) :
    answers (⟨o, r⟩ :: w) = answers w := by
  cases w with
  | nil => rfl
  | cons x w =>
      obtain ⟨o', r'⟩ := x
      cases o with
      | write p l =>
          have hl : l ≠ str "ACK\n" := fun he => ho p (he ▸ rfl)
          cases o' <;> simp [answers, answerAt, hl]
      | _ => rfl

/-- A line that is told is no answer, -/
theorem answers_write {u : Unit} (hl : l ≠ str "ACK\n") :
    answers (⟨.write p l, u⟩ :: w) = answers w :=
  answers_cons fun _ he => hl (by cases he; rfl)

/-- a line read alone is none yet, -/
theorem answers_readline : answers (⟨.readline p n, r⟩ :: w) = answers w :=
  answers_cons fun _ he => nomatch he

/-- and a mark is none. -/
theorem answers_note {e : Note} {u : Unit} : answers (⟨.note e, u⟩ :: w) = answers w :=
  answers_cons fun _ he => nomatch he

/-- An answer is read and acknowledged. -/
theorem answers_ack {u : Unit} :
    answers (⟨.write p (str "ACK\n"), u⟩ :: ⟨.readline p n, r⟩ :: w) = (p, r) :: answers w := by
  simp [answers, answerAt, answers_readline]

/-- A line that is told, and acknowledged. -/
theorem answers_told {u : Unit} (hl : l ≠ str "ACK\n") :
    answers (⟨.readline p n, r⟩ :: ⟨.write p l, u⟩ :: w) = answers w := by
  rw [answers_readline, answers_write hl]

end Answers

/-- `YES!` is no number. -/
theorem sscanf1_isYes {l : Line} (h : isYes l = true) : sscanf1 l = none := by
  cases l with
  | nil => exact absurd h (by decide)
  | cons c r =>
      have hhead := congrArg List.head? (beq_iff_eq.mp h)
      obtain rfl : c = 'Y' := Option.some.inj hhead
      rfl

-- ============================================================== quiet exchanges

/-- Marks at which nothing is asked of the table. -/
def plainMark : Note → Bool
  | .draw _ | .accept _ _ | .eatindex _ _ _ | .eat _ _ _ | .invalid _
  | .discard _ _ => true
  | _ => false

/-- A plain line. -/
abbrev Plain (l : Line) : Prop := plain l = true

/-- An obligation that asks nothing at a line of the kind `L`, at a plain
mark and at a read while `U` holds. -/
structure Quiet (L : Line → Prop) (P : SOp → Game → Log → Prop)
    (U : Game → Log → Prop) : Prop where
  ack : L (str "ACK\n")
  log : ∀ (o : SOp) (r : o.Res) s w, U s w → ¬ IsWin o →
    U s (⟨o, r⟩ :: w)
  write : ∀ p l s w, L l → U s w → P (.write p l) s w
  note : ∀ e s w, plainMark e = true → U s w → P (.note e) s w
  readline : ∀ p n s w, U s w → P (.readline p n) s w
  select : ∀ fds s w, U s w → P (.select fds) s w
  indeterminate : ∀ s w, U s w → P .indeterminate s w
  exit : ∀ s w, U s w → P .exit s w

section Rules

variable {ok : Log → Prop} {A : SOp → Game → Prop} {P : SOp → Game → Log → Prop}
  {s : Game} {w : Log}

/-- `write` never fails. -/
theorem twp_write {p : Seat} {l : Line} {Q : Unit → Game → Log → Prop}
    (hP : P (.write p l) s w) (hQ : Q () s (⟨.write p l, ()⟩ :: w)) :
    twp (within ok) A P ((Io.write p l : Server Unit) s) Q w := by
  refine twp_call fun _ => ⟨hP, ?_⟩
  rintro r w' ⟨rfl, -⟩
  exact hQ

/-- `readline` may give any line. -/
theorem twp_readline {p : Seat} {n : Nat} {Q : Line → Game → Log → Prop}
    (hP : P (.readline p n) s w) (hQ : ∀ r : Line, Q r s (⟨.readline p n, r⟩ :: w)) :
    twp (within ok) A P ((Io.readline p n : Server Line) s) Q w := by
  refine twp_call fun _ => ⟨hP, ?_⟩
  rintro r w' ⟨rfl, -⟩
  exact hQ r

/-- A mark costs nothing, and a run may be asked something there. -/
theorem twp_note {e : Note} {Q : Unit → Game → Log → Prop}
    (h : A (.note e) s → P (.note e) s w ∧ Q () s (⟨.note e, ()⟩ :: w)) :
    twp (within ok) A P ((Io.note e : Server Unit) s) Q w := by
  refine twp_call fun hA => ⟨(h hA).1, ?_⟩
  rintro r w' ⟨rfl, -⟩
  exact (h hA).2

/-- An uninitialized variable may hold anything. -/
theorem twp_indeterminate {Q : Int → Game → Log → Prop} (hP : P .indeterminate s w)
    (hQ : ∀ r, Q r s (⟨.indeterminate, r⟩ :: w)) :
    twp (within ok) A P ((Io.indeterminate : Server Int) s) Q w := by
  refine twp_call fun _ => ⟨hP, ?_⟩
  rintro r w' ⟨rfl, -⟩
  exact hQ r

/-- Nothing has to be shown behind `exit`. -/
theorem twp_exit {α : Type} {Q : α → Game → Log → Prop} (hP : P .exit s w) :
    twp (within ok) A P ((Io.exit : Server α) s) Q w :=
  twp_op fun _ => ⟨hP, fun r => nomatch r⟩

/-- Looking at a player changes nothing. -/
theorem twp_player_seq {β : Type} {p : Seat} {f : Player → Server β}
    {Q : β → Game → Log → Prop} (h : twp (within ok) A P (f (s.players p) s) Q w) :
    twp (within ok) A P ((player p >>= f) s) Q w :=
  h

/-- `decks[i] = shuffled_mjs[take_index++]`. -/
theorem twp_takeInto {p : Seat} {i : Nat} {Q : Unit → Game → Log → Prop}
    (h : A (.note (.access .shuffledMjs s.takeIndex)) s →
      P (.note (.access .shuffledMjs s.takeIndex)) s w ∧
        (A (.note (.access .decks i)) s →
          P (.note (.access .decks i)) s
              (⟨.note (.access .shuffledMjs s.takeIndex), ()⟩ :: w) ∧
            Q () (s.takeInto p i) (⟨.note (.access .decks i), ()⟩
              :: ⟨.note (.access .shuffledMjs s.takeIndex), ()⟩ :: w))) :
    twp (within ok) A P (takeInto p i s) Q w := by
  refine twp_get_seq (twp_seq (twp_note fun hA => ⟨(h hA).1, ?_⟩))
  refine twp_seq (twp_note fun hA' => ⟨((h hA).2 hA').1, ?_⟩)
  exact twp_modify ((h hA).2 hA').2

/-- `flowers[flower_index++] = decks[i]`. -/
theorem twp_layFlower {p : Seat} {i : Nat} {Q : Unit → Game → Log → Prop}
    (h : A (.note (.access .flowers (s.players p).flowerIndex)) s →
      P (.note (.access .flowers (s.players p).flowerIndex)) s w ∧
        Q () (s.update p fun pl => pl.pushFlower (pl.deck i))
          (⟨.note (.access .flowers (s.players p).flowerIndex), ()⟩ :: w)) :
    twp (within ok) A P (layFlower p i s) Q w :=
  twp_player_seq (twp_seq (twp_note fun hA => ⟨(h hA).1, twp_modify (h hA).2⟩))

/-- The mark of `print_deck(players[p]->decks, players[p]->door, ...)`. -/
def printed (p : Seat) (s : Game) : Note :=
  .print p (handSlots (s.players p).decks (List.range 20))
    (doorSlots (s.players p).door (List.range 20))

/-- Printing leaves the table alone, and marks the slots looked at. -/
theorem twp_printDeck {p : Seat} {Q : Unit → Game → Log → Prop}
    (h : A (.note (printed p s)) s →
      P (.note (printed p s)) s w ∧ Q () s (⟨.note (printed p s), ()⟩ :: w)) :
    twp (within ok) A P (printDeck p s) Q w :=
  twp_player_seq (twp_note h)

variable {L : Line → Prop} {U : Game → Log → Prop} (hq : Quiet L P U) (hu : U s w)
include hq hu

/-- A line that is acknowledged. -/
theorem twp_writeMessageWaitAck' {p : Seat} {l : Line}
    {Q : Unit → Game → Log → Prop} (hl : P (.write p l) s w)
    (hQ : ∀ r : Line, Q () s (⟨.readline p maxline, r⟩ :: ⟨.write p l, ()⟩ :: w)) :
    twp (within ok) A P (writeMessageWaitAck p l s) Q w := by
  have hu1 : U s (⟨.write p l, ()⟩ :: w) := hq.log _ _ _ _ hu id
  refine twp_seq (twp_write hl ?_)
  refine twp_seq (twp_readline (hq.readline _ _ _ _ hu1) fun r => ?_)
  have hexit := hq.exit _ _ (hq.log (.readline p maxline) r _ _ hu1 id)
  split
  · split
    · exact twp_pure (hQ r)
    · exact twp_exit hexit
  · exact twp_exit hexit

/-- The same for a line at which nothing is asked. -/
theorem twp_writeMessageWaitAck {p : Seat} {l : Line}
    {Q : Unit → Game → Log → Prop} (hl : L l)
    (hQ : ∀ r : Line, Q () s (⟨.readline p maxline, r⟩ :: ⟨.write p l, ()⟩ :: w)) :
    twp (within ok) A P (writeMessageWaitAck p l s) Q w :=
  twp_writeMessageWaitAck' hq hu (hq.write _ _ _ _ hl hu) hQ

/-- What a player says, if it says anything, is acknowledged. -/
theorem twp_readAndAck {p : Seat} {Q : Line → Game → Log → Prop}
    (hQ : ∀ r : Line, 0 < r.length →
      Q r s (⟨.write p (str "ACK\n"), ()⟩ :: ⟨.readline p maxline, r⟩ :: w)) :
    twp (within ok) A P (readAndAck p s) Q w := by
  refine twp_seq (twp_readline (hq.readline _ _ _ _ hu) fun r => ?_)
  have hu1 : U s (⟨.readline p maxline, r⟩ :: w) :=
    hq.log _ _ _ _ hu id
  split
  next hr =>
    refine twp_seq (twp_write (hq.write _ _ _ _ hq.ack hu1) ?_)
    exact twp_pure (hQ r hr)
  next => exact twp_exit (hq.exit _ _ hu1)

omit hq hu in
/-- What a question and its answer leave in the log. -/
def asked (p : Seat) (prompt answer ack : Line) (w : Log) : Log :=
  ⟨.write p (str "ACK\n"), ()⟩ :: ⟨.readline p maxline, answer⟩
    :: ⟨.readline p maxline, ack⟩ :: ⟨.write p prompt, ()⟩ :: w

/-- A question, and what the answer says. -/
theorem twp_ask' {p : Seat} {prompt : Line} {Q : Bool → Game → Log → Prop}
    (hl : P (.write p prompt) s w)
    (hQ : ∀ answer ack, Q (isYes answer) s (asked p prompt answer ack w)) :
    twp (within ok) A P (ask p prompt s) Q w := by
  refine twp_seq (twp_writeMessageWaitAck' hq hu hl fun ack => ?_)
  have hu1 : U s (⟨.write p prompt, ()⟩ :: w) :=
    hq.log _ _ _ _ hu id
  have hu2 : U s (⟨.readline p maxline, ack⟩ :: ⟨.write p prompt, ()⟩ :: w) :=
    hq.log _ _ _ _ hu1 id
  refine twp_seq (twp_readAndAck hq hu2 fun r _ => ?_)
  exact twp_pure (hQ r ack)

/-- The same for a question at which nothing is asked of the table. -/
theorem twp_ask {p : Seat} {prompt : Line} {Q : Bool → Game → Log → Prop}
    (hl : L prompt)
    (hQ : ∀ answer ack, Q (isYes answer) s (asked p prompt answer ack w)) :
    twp (within ok) A P (ask p prompt s) Q w :=
  twp_ask' hq hu (hq.write _ _ _ _ hl hu) hQ

end Rules

/-- A question has the answer behind its acknowledgement. -/
theorem answers_asked {p : Seat} {prompt answer ack : Line} {w : Log}
    (hl : prompt ≠ str "ACK\n") :
    answers (asked p prompt answer ack w) = (p, answer) :: answers w := by
  rw [asked, answers_ack, answers_told hl]

/-- A question declares nobody. -/
theorem Declares.asked {p : Seat} {prompt answer ack : Line} {v : Int} {w : Log}
    (h : Declares w v) : Declares (asked p prompt answer ack w) v := by
  refine (((h.cons ?_).cons ?_).cons ?_).cons ?_ <;> exact id

-- ================================================= the rules without termination

section Partial

variable {ok : Log → Prop} {A : SOp → Game → Prop} {P : SOp → Game → Log → Prop}
  {s : Game} {w : Log}

theorem wp_note {e : Note} {Q : Unit → Game → Log → Prop}
    (h : A (.note e) s → P (.note e) s w ∧ Q () s (⟨.note e, ()⟩ :: w)) :
    wp (within ok) A P ((Io.note e : Server Unit) s) Q w :=
  (twp_note h).wp

theorem wp_indeterminate {Q : Int → Game → Log → Prop} (hP : P .indeterminate s w)
    (hQ : ∀ r, Q r s (⟨.indeterminate, r⟩ :: w)) :
    wp (within ok) A P ((Io.indeterminate : Server Int) s) Q w :=
  (twp_indeterminate hP hQ).wp

theorem wp_player_seq {β : Type} {p : Seat} {f : Player → Server β}
    {Q : β → Game → Log → Prop} (h : wp (within ok) A P (f (s.players p) s) Q w) :
    wp (within ok) A P ((player p >>= f) s) Q w :=
  h

theorem wp_takeInto {p : Seat} {i : Nat} {Q : Unit → Game → Log → Prop}
    (h : A (.note (.access .shuffledMjs s.takeIndex)) s →
      P (.note (.access .shuffledMjs s.takeIndex)) s w ∧
        (A (.note (.access .decks i)) s →
          P (.note (.access .decks i)) s
              (⟨.note (.access .shuffledMjs s.takeIndex), ()⟩ :: w) ∧
            Q () (s.takeInto p i) (⟨.note (.access .decks i), ()⟩
              :: ⟨.note (.access .shuffledMjs s.takeIndex), ()⟩ :: w))) :
    wp (within ok) A P (takeInto p i s) Q w :=
  (twp_takeInto h).wp

theorem wp_printDeck {p : Seat} {Q : Unit → Game → Log → Prop}
    (h : A (.note (printed p s)) s →
      P (.note (printed p s)) s w ∧ Q () s (⟨.note (printed p s), ()⟩ :: w)) :
    wp (within ok) A P (printDeck p s) Q w :=
  (twp_printDeck h).wp

theorem wp_layFlower {p : Seat} {i : Nat} {Q : Unit → Game → Log → Prop}
    (h : A (.note (.access .flowers (s.players p).flowerIndex)) s →
      P (.note (.access .flowers (s.players p).flowerIndex)) s w ∧
        Q () (s.update p fun pl => pl.pushFlower (pl.deck i))
          (⟨.note (.access .flowers (s.players p).flowerIndex), ()⟩ :: w)) :
    wp (within ok) A P (layFlower p i s) Q w :=
  (twp_layFlower h).wp

variable {L : Line → Prop} {U : Game → Log → Prop} (hq : Quiet L P U) (hu : U s w)
include hq hu

theorem wp_writeMessageWaitAck' {p : Seat} {l : Line}
    {Q : Unit → Game → Log → Prop} (hl : P (.write p l) s w)
    (hQ : ∀ r : Line, Q () s (⟨.readline p maxline, r⟩ :: ⟨.write p l, ()⟩ :: w)) :
    wp (within ok) A P (writeMessageWaitAck p l s) Q w :=
  (twp_writeMessageWaitAck' hq hu hl hQ).wp

theorem wp_writeMessageWaitAck {p : Seat} {l : Line}
    {Q : Unit → Game → Log → Prop} (hl : L l)
    (hQ : ∀ r : Line, Q () s (⟨.readline p maxline, r⟩ :: ⟨.write p l, ()⟩ :: w)) :
    wp (within ok) A P (writeMessageWaitAck p l s) Q w :=
  (twp_writeMessageWaitAck hq hu hl hQ).wp

theorem wp_readAndAck {p : Seat} {Q : Line → Game → Log → Prop}
    (hQ : ∀ r : Line, 0 < r.length →
      Q r s (⟨.write p (str "ACK\n"), ()⟩ :: ⟨.readline p maxline, r⟩ :: w)) :
    wp (within ok) A P (readAndAck p s) Q w :=
  (twp_readAndAck hq hu hQ).wp

theorem wp_ask {p : Seat} {prompt : Line} {Q : Bool → Game → Log → Prop}
    (hl : L prompt)
    (hQ : ∀ answer ack, Q (isYes answer) s (asked p prompt answer ack w)) :
    wp (within ok) A P (ask p prompt s) Q w :=
  (twp_ask hq hu hl hQ).wp

end Partial

end Mahjong.Server
