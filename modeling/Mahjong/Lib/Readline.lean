/-
`readline` of the socket library, byte by byte, and the surroundings of a
process that reads its descriptors with it.

# The reader

`my_read` hands out the bytes of one buffer that the whole process has,
and fills it with a `read` of its descriptor when it is empty. A `read`
gives some bytes of what the other end has sent, at least one, at most
as many as the buffer holds, or none at the end of file. `readline` takes
bytes until a newline, the limit, or the end of file. Nothing in the
buffer tells which descriptor it was filled from; here every byte is
marked with it (`Wire.buf`).

# What comes of it

While a line is read from the descriptor the bytes in the buffer came
from, the lines are those of that descriptor, however the bytes are
grouped (`Readline.own`). So in surroundings in which the buffer holds
nothing of another descriptor when a line is read (`Unmixed`), every line
is its sender's next one (`Attributed`), whatever the program does.
-/
import Mahjong.Lib.Io
import Mahjong.Lib.Replay

namespace Process

open CString

-- ================================================================= lines of a stream

/-- The first line of what is to come: up to a newline, at most `n`
characters. -/
def takeLine : Nat → List Char → Line
  | 0, _ => []
  | _, [] => []
  | n + 1, c :: cs => if c = '\n' then [c] else c :: takeLine n cs

/-- These are the first lines of the stream, one limit a line, and `rest`
is behind them. -/
def ReadOff : List Char → List (Nat × Line) → List Char → Prop
  | stream, [], rest => rest = stream
  | stream, (n, l) :: ls, rest =>
      l = takeLine n stream ∧ ReadOff (stream.drop l.length) ls rest

theorem ReadOff.snoc {n : Nat} {l : Line} {ls : List (Nat × Line)} :
    ∀ {stream rest : List Char}, ReadOff stream ls rest → l = takeLine n rest →
      ReadOff stream (ls ++ [(n, l)]) (rest.drop l.length) := by
  induction ls with
  | nil =>
      intro stream rest h hl
      obtain rfl : rest = stream := h
      exact ⟨hl, rfl⟩
  | cons x ls ih =>
      intro stream rest h hl
      exact ⟨h.1, ih h.2 hl⟩

-- ======================================================================= the reader

/-- What is on its way to a process: what will still be read of each
descriptor, and the buffer, each byte with the descriptor it was read
from. -/
structure Wire (Fd : Type) where
  rest : Fd → List Char
  buf : List (Fd × Char)

variable {Fd : Type} [DecidableEq Fd]

/-- The size of the buffer. -/
def bufSize : Nat := 4096

/-- `my_read`: a byte, or the end of file. -/
inductive MyRead (fd : Fd) : Wire Fd → Option (Fd × Char) → Wire Fd → Prop
  | buffered {w : Wire Fd} {b : Fd × Char} {bs : List (Fd × Char)} (h : w.buf = b :: bs) :
      MyRead fd w (some b) { w with buf := bs }
  | filled {w : Wire Fd} {c : Char} {chunk rest : List Char} (h : w.buf = [])
      (hrest : w.rest fd = c :: (chunk ++ rest)) (hlen : chunk.length < bufSize) :
      MyRead fd w (some (fd, c))
        { rest := Function.update w.rest fd rest, buf := chunk.map fun c => (fd, c) }
  | eof {w : Wire Fd} (h : w.buf = []) (hrest : w.rest fd = []) : MyRead fd w none w

/-- `readline`, with room for so many more characters: the line, each
byte with its descriptor. -/
inductive Readline (fd : Fd) : Nat → Wire Fd → List (Fd × Char) → Wire Fd → Prop
  | full (w : Wire Fd) : Readline fd 0 w [] w
  | eof {n : Nat} {w w' : Wire Fd} (h : MyRead fd w none w') : Readline fd (n + 1) w [] w'
  | newline {n : Nat} {w w' : Wire Fd} {b : Fd × Char} (h : MyRead fd w (some b) w')
      (hb : b.2 = '\n') : Readline fd (n + 1) w [b] w'
  | char {n : Nat} {w w' w'' : Wire Fd} {b : Fd × Char} {bs : List (Fd × Char)}
      (h : MyRead fd w (some b) w') (hb : b.2 ≠ '\n') (hrest : Readline fd n w' bs w'') :
      Readline fd (n + 1) w (b :: bs) w''

/-- The bytes in the buffer that came from a descriptor. -/
def Wire.buffered (w : Wire Fd) (fd : Fd) : List Char :=
  (w.buf.filter fun b => b.1 = fd).map Prod.snd

/-- All that is still to be handed out of a descriptor's bytes. -/
def Wire.ahead (w : Wire Fd) (fd : Fd) : List Char := w.buffered fd ++ w.rest fd

/-- The buffer holds nothing of another descriptor. -/
def Wire.Own (w : Wire Fd) (fd : Fd) : Prop := ∀ b ∈ w.buf, b.1 = fd

section Reader

variable {fd q : Fd} {w w' : Wire Fd}

theorem Wire.Own.buffered (h : w.Own fd) : w.buffered fd = w.buf.map Prod.snd := by
  rw [Wire.buffered, List.filter_eq_self.mpr]
  intro b hb
  exact decide_eq_true (h b hb)

theorem Wire.Own.buffered_ne (h : w.Own fd) (hq : q ≠ fd) : w.buffered q = [] := by
  rw [Wire.buffered, List.filter_eq_nil_iff.mpr, List.map_nil]
  intro b hb he
  exact hq ((of_decide_eq_true he).symm.trans (h b hb))

/-- What one step of the reader leaves of every descriptor: the byte
handed out is the first ahead of its own, nothing else is touched. -/
theorem MyRead.own {r : Option (Fd × Char)} (h : MyRead fd w r w') (hown : w.Own fd) :
    w'.Own fd ∧ (∀ q, q ≠ fd → w'.ahead q = w.ahead q) ∧ (∀ b ∈ r, b.1 = fd)
      ∧ w.ahead fd = (r.map Prod.snd).toList ++ w'.ahead fd := by
  cases h with
  | @buffered b bs hbuf =>
      have hb : b.1 = fd := hown b (hbuf ▸ List.mem_cons_self ..)
      have hown' : Wire.Own { w with buf := bs } fd := fun x hx =>
        hown x (hbuf ▸ List.mem_cons_of_mem _ hx)
      refine ⟨hown', fun q hq => ?_, fun x hx => ?_, ?_⟩
      · rw [Wire.ahead, hown'.buffered_ne hq, Wire.ahead, hown.buffered_ne hq]
      · cases hx
        exact hb
      · rw [Wire.ahead, hown.buffered, Wire.ahead, hown'.buffered, hbuf]
        rfl
  | @filled c chunk rest hbuf hrest _ =>
      have hown' : Wire.Own { rest := Function.update w.rest fd rest,
                              buf := chunk.map fun c => (fd, c) } fd := by
        intro x hx
        obtain ⟨d, -, rfl⟩ := List.mem_map.mp hx
        rfl
      refine ⟨hown', fun q hq => ?_, fun x hx => ?_, ?_⟩
      · rw [Wire.ahead, hown'.buffered_ne hq, Wire.ahead, hown.buffered_ne hq]
        show [] ++ Function.update w.rest fd rest q = _
        rw [Function.update_of_ne hq]
      · cases hx
        rfl
      · rw [Wire.ahead, hown.buffered, hbuf, Wire.ahead, hown'.buffered, hrest]
        simp [Function.comp_def]
  | eof hbuf hrest =>
      refine ⟨hown, fun _ _ => rfl, fun x hx => ?_, ?_⟩
      · cases hx
      · simp

/-- A line read while the buffer holds nothing of another descriptor is
the next line of its own. -/
theorem Readline.own {n : Nat} {l : List (Fd × Char)} (h : Readline fd n w l w')
    (hown : w.Own fd) :
    w'.Own fd ∧ (∀ q, q ≠ fd → w'.ahead q = w.ahead q) ∧ (∀ b ∈ l, b.1 = fd)
      ∧ l.map Prod.snd = takeLine n (w.ahead fd)
      ∧ w'.ahead fd = (w.ahead fd).drop l.length := by
  induction h with
  | full w =>
      refine ⟨hown, fun _ _ => rfl, fun b hb => ?_, ?_, ?_⟩
      · cases hb
      · rw [takeLine]
        rfl
      · rfl
  | @eof n w w' h =>
      obtain ⟨hown', hothers, -, hahead⟩ := h.own hown
      have hnil : w.ahead fd = [] := by
        cases h with
        | eof hbuf hrest => rw [Wire.ahead, hown.buffered, hbuf, hrest]; rfl
      refine ⟨hown', hothers, fun b hb => ?_, ?_, ?_⟩
      · cases hb
      · rw [hnil]
        rfl
      · rw [hahead]
        rfl
  | @newline n w w' b h hb =>
      obtain ⟨hown', hothers, hsender, hahead⟩ := h.own hown
      have hcons : w.ahead fd = b.2 :: w'.ahead fd := hahead
      refine ⟨hown', hothers, fun x hx => ?_, ?_, ?_⟩
      · rw [List.mem_singleton.mp hx]
        exact hsender b rfl
      · rw [hcons, takeLine, if_pos hb]
        rfl
      · rw [hcons]
        rfl
  | @char n w w' w'' b bs h hb _ ih =>
      obtain ⟨hown', hothers, hsender, hahead⟩ := h.own hown
      obtain ⟨hown'', hothers', hsenders, hline, hahead'⟩ := ih hown'
      have hcons : w.ahead fd = b.2 :: w'.ahead fd := hahead
      refine ⟨hown'', fun q hq => (hothers' q hq).trans (hothers q hq), fun x hx => ?_, ?_, ?_⟩
      · cases hx with
        | head => exact hsender b rfl
        | tail _ hx => exact hsenders x hx
      · rw [hcons, takeLine, if_neg hb, List.map_cons, hline]
      · rw [hcons, List.length_cons, List.drop_succ_cons]
        exact hahead'

/-- What a step of the reader takes off its descriptor. -/
theorem MyRead.taken {r : Option (Fd × Char)} (h : MyRead fd w r w') (hown : w.Own fd) :
    ∃ bytes, w.rest fd = bytes ++ w'.rest fd
      ∧ w.buffered fd ++ bytes = (r.map Prod.snd).toList ++ w'.buffered fd := by
  obtain ⟨hown', -⟩ := h.own hown
  cases h with
  | @buffered b bs hbuf =>
      refine ⟨[], rfl, ?_⟩
      rw [List.append_nil, hown.buffered, hown'.buffered, hbuf]
      rfl
  | @filled c chunk rest hbuf hrest _ =>
      refine ⟨c :: chunk, ?_, ?_⟩
      · rw [hrest]
        simp
      · rw [hown.buffered, hown'.buffered, hbuf]
        simp [Function.comp_def]
  | eof hbuf hrest => exact ⟨[], rfl, List.append_nil _⟩

/-- The `read`s for a line bring what the line and the buffer behind it
have beyond the buffer before. -/
theorem Readline.taken {n : Nat} {l : List (Fd × Char)} (h : Readline fd n w l w')
    (hown : w.Own fd) :
    ∃ bytes, w.rest fd = bytes ++ w'.rest fd
      ∧ w.buffered fd ++ bytes = l.map Prod.snd ++ w'.buffered fd := by
  induction h with
  | full w => exact ⟨[], rfl, List.append_nil _⟩
  | eof h => exact h.taken hown
  | newline h _ => exact h.taken hown
  | char h _ _ ih =>
      obtain ⟨first, hrest, hbuffered⟩ := h.taken hown
      obtain ⟨later, hrest', hbuffered'⟩ := ih (h.own hown).1
      refine ⟨first ++ later, ?_, ?_⟩
      · rw [hrest, hrest', List.append_assoc]
      · rw [← List.append_assoc, hbuffered, List.append_assoc, hbuffered']
        rfl

end Reader

-- =================================================================== a reader that is run

/-- What is on its way, cut up: what each `read` will give, in the order
of the reads, and the buffer. -/
structure Chunked (Fd : Type) where
  reads : List (Fd × List Char)
  buf : List (Fd × Char)

namespace Chunked

/-- The bytes, however they are cut. -/
def wire (t : Chunked Fd) : Wire Fd where
  rest fd := (t.reads.filter fun x => x.1 = fd).flatMap Prod.snd
  buf := t.buf

/-- `my_read`, when the next `read` is one of this descriptor. -/
def byte (fd : Fd) : Chunked Fd → Option ((Fd × Char) × Chunked Fd)
  | ⟨reads, b :: bs⟩ => some (b, ⟨reads, bs⟩)
  | ⟨(q, c :: cs) :: reads, []⟩ =>
      if q = fd ∧ cs.length < bufSize then some ((fd, c), ⟨reads, cs.map fun c => (fd, c)⟩)
      else none
  | _ => none

/-- `readline`. -/
def line (fd : Fd) : Nat → Chunked Fd → Option (List (Fd × Char) × Chunked Fd)
  | 0, t => some ([], t)
  | n + 1, t => match t.byte fd with
    | none => none
    | some (b, t') =>
        if b.2 = '\n' then some ([b], t')
        else (line fd n t').map fun x => (b :: x.1, x.2)

theorem myRead {fd : Fd} {t t' : Chunked Fd} {b : Fd × Char} (h : t.byte fd = some (b, t')) :
    MyRead fd t.wire (some b) t'.wire := by
  unfold byte at h
  split at h
  · cases h
    exact .buffered rfl
  next q c cs reads =>
    split at h
    next hq =>
      obtain ⟨rfl, hlen⟩ := hq
      cases h
      have hrest : (Chunked.mk ((q, c :: cs) :: reads) []).wire.rest q
          = c :: (cs ++ (Chunked.mk reads []).wire.rest q) := by
        simp [wire]
      have hothers : (Chunked.mk reads (cs.map fun c => (q, c))).wire.rest
          = Function.update (Chunked.mk ((q, c :: cs) :: reads) []).wire.rest q
            ((Chunked.mk reads []).wire.rest q) := by
        funext p
        by_cases hp : p = q
        · subst hp
          simp [wire]
        · simp [wire, Function.update_of_ne hp, Ne.symm hp]
      have hread := MyRead.filled rfl hrest hlen
      rw [← hothers] at hread
      exact hread
    next => cases h
  · cases h

theorem readline {fd : Fd} : ∀ {n : Nat} {t t' : Chunked Fd} {bytes : List (Fd × Char)},
    t.line fd n = some (bytes, t') → Readline fd n t.wire bytes t'.wire := by
  intro n
  induction n with
  | zero =>
      intro t t' bytes h
      cases h
      exact .full _
  | succ n ih =>
      intro t t' bytes h
      rw [line] at h
      split at h
      · cases h
      next b t₁ hbyte =>
        split at h
        next hb =>
          cases h
          exact .newline (myRead hbyte) hb
        next hb =>
          obtain ⟨x, hx, he⟩ := Option.map_eq_some_iff.mp h
          cases he
          exact .char (myRead hbyte) hb (ih hx)

end Chunked

-- ================================================================== the surroundings

/-- A line that has been read: from which descriptor, with which limit,
and its bytes. -/
structure Reading (Fd : Type) where
  fd : Fd
  limit : Nat
  bytes : List (Fd × Char)

def Reading.text (x : Reading Fd) : Line := x.bytes.map Prod.snd

/-- What is on its way, the lines read and all replies so far, the latest
first. -/
structure Net (Fd ε : Type) where
  wire : Wire Fd
  lines : List (Reading Fd)
  log : List ((o : IoOp Fd ε) × o.Res)

variable {ε : Type}

/-- No line has been read yet. -/
def Net.start (wire : Wire Fd) : Net Fd ε where
  wire := wire
  lines := []
  log := []

/-- The lines read from a descriptor, in order. -/
def Net.linesOf (w : Net Fd ε) (fd : Fd) : List (Nat × Line) :=
  (w.lines.filter fun x => x.fd = fd).reverse.map fun x => (x.limit, x.text)

/-- What an operation may do to the wire and the lines: a line is read by
`readline`, everything else leaves them alone. -/
def Wired (w : Net Fd ε) : (o : IoOp Fd ε) → o.Res → Net Fd ε → Prop
  | .readline fd n, r, w' => ∃ bytes, Readline fd (n - 1) w.wire bytes w'.wire
      ∧ r = bytes.map Prod.snd ∧ w'.lines = ⟨fd, n - 1, bytes⟩ :: w.lines
  | _, _, w' => w'.wire = w.wire ∧ w'.lines = w.lines

/-- If it is to read a line, no byte of another descriptor is left in the
buffer. -/
def Unmixed (w : Net Fd ε) : IoOp Fd ε → Prop
  | .readline fd _ => w.wire.Own fd
  | _ => True

/-- The surroundings of a process that reads with `readline`, in runs
whose operations are all `ok`, given what is on its way before and
behind. -/
def wired (Fd ε : Type) [DecidableEq Fd]
    (ok : Net Fd ε → (o : IoOp Fd ε) → o.Res → Net Fd ε → Prop) :
    Env (IoOp Fd ε) IoOp.Res where
  World := Net Fd ε
  resp w o r w' := ok w o r w' ∧ Wired w o r w' ∧ w'.log = ⟨o, r⟩ :: w.log

/-- Every line was sent over the descriptor it was read from, and the
lines of a descriptor are the first lines that were sent over it. -/
structure Attributed (streams : Fd → List Char) (w : Net Fd ε) : Prop where
  sender : ∀ x ∈ w.lines, ∀ b ∈ x.bytes, b.1 = x.fd
  order : ∀ fd, ReadOff (streams fd) (w.linesOf fd) (w.wire.ahead fd)

section Runs

variable {streams : Fd → List Char} {w w' : Net Fd ε} {σ α : Type}
  {ok : Net Fd ε → (o : IoOp Fd ε) → o.Res → Net Fd ε → Prop}

theorem attributed_start (wire : Wire Fd) :
    Attributed wire.ahead (Net.start wire : Net Fd ε) :=
  ⟨fun _ h => (List.not_mem_nil h).elim, fun _ => rfl⟩

/-- One operation keeps the lines with their senders. -/
theorem Attributed.step {o : IoOp Fd ε} {r : o.Res} (h : Attributed streams w)
    (hmix : Unmixed w o) (hwired : Wired w o r w') : Attributed streams w' := by
  cases o with
  | readline fd n =>
      obtain ⟨bytes, hline, -, hlines⟩ := hwired
      obtain ⟨-, hothers, hsender, htext, hahead⟩ := hline.own hmix
      refine ⟨fun x hx => ?_, fun q => ?_⟩
      · rw [hlines] at hx
        cases hx with
        | head => exact hsender
        | tail _ hx => exact h.sender x hx
      · by_cases hq : q = fd
        · subst hq
          have hsnoc : w'.linesOf q = w.linesOf q ++ [(n - 1, bytes.map Prod.snd)] := by
            rw [Net.linesOf, hlines, List.filter_cons_of_pos (by simp)]
            simp [Net.linesOf, Reading.text]
          have hread := (h.order q).snoc htext
          rw [List.length_map] at hread
          rw [hsnoc, hahead]
          exact hread
        · have hsame : w'.linesOf q = w.linesOf q := by
            rw [Net.linesOf, hlines, List.filter_cons_of_neg (by simpa using Ne.symm hq)]
            rfl
          rw [hsame, hothers q hq]
          exact h.order q
  | _ =>
      obtain ⟨hwire, hlines⟩ := hwired
      refine ⟨fun x hx => h.sender x (hlines ▸ hx), fun q => ?_⟩
      rw [Net.linesOf, hlines, hwire]
      exact h.order q

/-- Along every run in such surroundings. -/
theorem Run.attributed {S S' : Proc (IoOp Fd ε) IoOp.Res σ α} {tr : List (IoOp Fd ε × σ)}
    {w w' : (wired Fd ε ok).World} (hrun : Run (wired Fd ε ok) S w tr S' w')
    (hok : ∀ w o r w', ok w o r w' → Unmixed w o) (h : Attributed streams w) :
    Attributed streams w' := by
  induction hrun with
  | refl => exact h
  | op hr _ ih => exact ih (h.step (hok _ _ _ _ hr.1) hr.2.1)
  | loop _ ih => exact ih h

end Runs

-- ================================================================== runs by evaluation

namespace Chunked

variable {ε : Type}

/-- What is on its way, and the lines read. -/
abbrev Script (Fd : Type) := Chunked Fd × List (Reading Fd)

/-- The reply when the reads give these bytes. What is ready is what is
read next. -/
def reply (t : Script Fd) : (o : IoOp Fd ε) → Option (o.Res × Script Fd)
  | .write _ _ => some ((), t)
  | .readline fd n => (t.1.line fd (n - 1)).map fun x =>
      (x.1.map Prod.snd, (x.2, ⟨fd, n - 1, x.1⟩ :: t.2))
  | .select _ => some (fun fd => t.1.reads.head?.map Prod.fst = some fd, t)
  | .scanf => none
  | .indeterminate => some (0, t)
  | .note _ => some ((), t)
  | .exit => none

/-- The same while all is fine. -/
def timed (fine : Chunked Fd → (o : IoOp Fd ε) → o.Res → Chunked Fd → Bool) (t : Script Fd)
    (o : IoOp Fd ε) : Option (o.Res × Script Fd) :=
  (reply t o).filter fun x => fine t.1 o x.1 x.2.1

theorem wired_reply {t t' : Script Fd} {o : IoOp Fd ε} {r : o.Res} {w : Net Fd ε}
    (h : reply t o = some (r, t')) (hwire : w.wire = t.1.wire) (hlines : w.lines = t.2) :
    Wired w o r ⟨t'.1.wire, t'.2, ⟨o, r⟩ :: w.log⟩ := by
  cases o with
  | readline fd n =>
      obtain ⟨x, hx, he⟩ := Option.map_eq_some_iff.mp h
      cases he
      refine ⟨x.1, ?_, rfl, by rw [hlines]⟩
      rw [hwire]
      exact readline hx
  | scanf => exact nomatch h
  | exit => exact nomatch h
  | _ =>
      cases h
      exact ⟨hwire.symm, hlines.symm⟩

variable {σ α : Type} {ok : Net Fd ε → (o : IoOp Fd ε) → o.Res → Net Fd ε → Prop}
  {fine : Chunked Fd → (o : IoOp Fd ε) → o.Res → Chunked Fd → Bool}

theorem timed_resp
    (hfine : ∀ t o r t' (w w' : Net Fd ε), w.wire = t.wire → w'.wire = t'.wire →
      fine t o r t' = true → ok w o r w')
    (t : Script Fd) (o : IoOp Fd ε) (r : o.Res) (t' : Script Fd) (w : Net Fd ε)
    (h : timed fine t o = some (r, t')) (hw : w.wire = t.1.wire ∧ w.lines = t.2) :
    ∃ w', (wired Fd ε ok).resp w o r w' ∧ w'.wire = t'.1.wire ∧ w'.lines = t'.2 := by
  obtain ⟨h, hok⟩ := Option.filter_eq_some_iff.mp h
  refine ⟨⟨t'.1.wire, t'.2, ⟨o, r⟩ :: w.log⟩, ⟨?_, wired_reply h hw.1 hw.2, rfl⟩, rfl, rfl⟩
  exact hfine _ _ _ _ _ _ hw.1 rfl hok

/-- What a replay finds is a run. -/
theorem timed_run {S : Proc (IoOp Fd ε) IoOp.Res σ α} {t : Chunked Fd} {n : Nat}
    (hfine : ∀ t o r t' (w w' : Net Fd ε), w.wire = t.wire → w'.wire = t'.wire →
      fine t o r t' = true → ok w o r w')
    (goal : Chunked Fd → List (Reading Fd) → IoOp Fd ε → Bool)
    (h : S.replay (timed fine) (fun _ _ => true) (fun t o _ => goal t.1 t.2 o) n (t, []) = true) :
    ∃ tr o s k t', ∃ w : Net Fd ε, Run (wired Fd ε ok) S (Net.start t.wire : Net Fd ε) tr
      (.op o s k) w ∧ w.wire = t'.wire ∧ goal t' w.lines o = true := by
  have hstart : (Net.start t.wire : Net Fd ε).wire = t.wire
      ∧ (Net.start t.wire : Net Fd ε).lines = [] := ⟨rfl, rfl⟩
  obtain ⟨tr, o, s, k, t', w, hrun, ⟨hwire, hlines⟩, hgoal, -⟩ :=
    Proc.replay_run (R := fun (t : Script Fd) (w : (wired Fd ε ok).World) =>
      w.wire = t.1.wire ∧ w.lines = t.2) (timed_resp hfine) hstart h
  exact ⟨tr, o, s, k, t'.1, w, hrun, hwire, hlines ▸ hgoal⟩

end Chunked

end Process
