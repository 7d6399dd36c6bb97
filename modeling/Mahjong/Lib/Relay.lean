/-
Runs of a hub and its peers by evaluation: each line is delivered alone,
and the users answer from a list.

`Relay.play` lets the peers go on until they wait, and the hub only then;
from a marked step on it lets other peers go on, so that one of them may
be slow. What a user is asked is answered by the next of what the user is
to type.
What it finds is a run (`Relay.play_run`), so that one run of many hundred
lines is a matter of evaluating it.
-/
import Mahjong.Lib.Joint

namespace Process

open CString

-- ====================================================================== one process

section Advance

variable {Fd ε σ α : Type} [DecidableEq Fd]

/-- Where a process is after a step: the operation it has done, the line it
has sent, itself and its wire. -/
structure Advanced (Fd ε σ α : Type) where
  op : Option (IoOp Fd ε × σ)
  sent : Option (Fd × Line)
  proc : Proc (IoOp Fd ε) IoOp.Res σ α
  wire : Wire Fd

/-- The next step of a process that need not wait, its lines read a byte at
a time. -/
def Proc.advance (w : Wire Fd) : Proc (IoOp Fd ε) IoOp.Res σ α → Option (Advanced Fd ε σ α)
  | .loop body b s k => some ⟨none, none, Proc.unroll body b s k, w⟩
  | .op (.write fd l) s k => some ⟨some (.write fd l, s), some (fd, l), k (), w⟩
  | .op (.readline fd n) s k =>
      let l := takeLine (n - 1) (w.rest fd)
      if w.buf.isEmpty ∧ '\n' ∈ w.rest fd then
        some ⟨some (.readline fd n, s), none, k l,
          ⟨Function.update w.rest fd ((w.rest fd).drop l.length), []⟩⟩
      else none
  | .op (.select fds) s k =>
      let ready := fun fd => decide (fd ∈ fds) && !(w.rest fd).isEmpty
      if w.buf.isEmpty ∧ fds.any ready then some ⟨some (.select fds, s), none, k ready, w⟩
      else none
  | .op (.note e) s k => some ⟨some (.note e, s), none, k (), w⟩
  | .op .indeterminate s k => some ⟨some (.indeterminate, s), none, k 0, w⟩
  | _ => none

/-- A line that is there is read a byte at a time. -/
theorem Readline.bytewise {fd : Fd} : ∀ {cs : List Char} {n : Nat} {w : Wire Fd}, w.buf = [] →
    w.rest fd = cs → '\n' ∈ cs → Readline fd n w ((takeLine n cs).map fun c => (fd, c))
      ⟨Function.update w.rest fd (cs.drop (takeLine n cs).length), []⟩ := by
  intro cs
  induction cs with
  | nil => exact fun _ _ hnew => absurd hnew List.not_mem_nil
  | cons c cs ih =>
      intro n w hbuf hrest hnew
      cases n with
      | zero =>
          have hsame : (⟨Function.update w.rest fd (c :: cs), []⟩ : Wire Fd) = w := by
            rw [← hrest, Function.update_eq_self, ← hbuf]
          rw [takeLine, List.length_nil, List.drop_zero, hsame]
          exact .full w
      | succ n =>
          have hone : w.rest fd = c :: ([] ++ cs) := hrest
          have hread : MyRead fd w (some (fd, c)) ⟨Function.update w.rest fd cs, []⟩ :=
            .filled hbuf hone (by simp [bufSize])
          rw [takeLine]
          split
          next hc => exact .newline hread hc
          next hc =>
            have hnext := ih (n := n) (w := ⟨Function.update w.rest fd cs, []⟩) rfl
              (Function.update_self ..) ((List.mem_cons.mp hnew).resolve_left (Ne.symm hc))
            rw [Function.update_idem] at hnext
            exact .char hread hc hnext

theorem tidy_of_empty {w : Wire Fd} (h : w.buf = []) (o : IoOp Fd ε) : w.Tidy o := by
  cases o with
  | readline fd n =>
      intro b hb
      rw [h] at hb
      cases hb
  | select fds =>
      intro fd _
      rw [Wire.buffered, h]
      exact List.not_mem_nil
  | _ => trivial

/-- It is a step. -/
theorem Proc.advance_act {S : Proc (IoOp Fd ε) IoOp.Res σ α} {w : Wire Fd}
    {x : Advanced Fd ε σ α} (closed : Fd → Prop) (eof : Prop) (h : S.advance w = some x) :
    Act closed eof S w x.op x.sent x.proc x.wire ∧ ∀ y ∈ x.op, w.Tidy y.1 := by
  cases S with
  | ret a s => cases h
  | loop body b s k =>
      cases h
      exact ⟨.loop, nofun⟩
  | op o s k =>
      cases o with
      | write fd l =>
          cases h
          refine ⟨.write, fun y hy => ?_⟩
          cases hy
          trivial
      | readline fd n =>
          rw [Proc.advance] at h
          split at h
          next hready =>
            obtain ⟨hempty, hnew⟩ := hready
            have hbuf : w.buf = [] := List.isEmpty_iff.mp hempty
            cases h
            have hline := Readline.bytewise (n := n - 1) hbuf rfl hnew
            have hended : Ended (n - 1) ((takeLine (n - 1) (w.rest fd)).map fun c => (fd, c)) := by
              have hended := takeLine_ended hnew (n - 1)
              simpa [Ended] using hended
            have hact : Act closed eof (.op (.readline fd n) s k) w _ _ _ _ :=
              .readline hline (Or.inl hended)
            rw [List.map_map, show Prod.snd ∘ (fun c : Char => (fd, c)) = id from rfl,
              List.map_id] at hact
            refine ⟨hact, fun y hy => ?_⟩
            cases hy
            exact tidy_of_empty hbuf _
          next => cases h
      | select fds =>
          rw [Proc.advance] at h
          split at h
          next hready =>
            obtain ⟨hempty, hsome⟩ := hready
            have hbuf : w.buf = [] := List.isEmpty_iff.mp hempty
            cases h
            refine ⟨.select (fun fd hfd => ?_) ?_, fun y hy => ?_⟩
            · rw [Bool.and_eq_true, decide_eq_true_eq] at hfd
              refine ⟨hfd.1, Or.inl fun hnil => ?_⟩
              rw [hnil] at hfd
              cases hfd.2
            · obtain ⟨fd, -, hfd⟩ := List.any_eq_true.mp hsome
              exact ⟨fd, hfd⟩
            · cases hy
              exact tidy_of_empty hbuf _
          next => cases h
      | scanf => cases h
      | indeterminate =>
          cases h
          refine ⟨.indeterminate, fun y hy => ?_⟩
          cases hy
          trivial
      | note e =>
          cases h
          refine ⟨.note, fun y hy => ?_⟩
          cases hy
          trivial
      | exit => cases h

end Advance

-- ======================================================================== all of them

/-- What a user types: a line, or a number that is read by `scanf`. -/
inductive Typed
  | line (l : Line)
  | number (i : Int)

namespace Joint

variable {ι φ ε δ σ τ α β : Type} [DecidableEq ι] [DecidableEq φ]

/-- The next step of the hub. -/
def hubMove (sock : φ) (J : Joint ι φ ε δ σ τ α β) :
    Option (Joint ι φ ε δ σ τ α β × Event ι φ ε δ σ τ) :=
  (J.hub.advance J.hubWire).map fun x =>
    ({ J with hub := x.proc, hubWire := x.wire, peerWire := toPeers sock J.peerWire x.sent },
      .hub x.op)

/-- The next step of a peer. -/
def peerMove (sock : φ) (J : Joint ι φ ε δ σ τ α β) (p : ι) :
    Option (Joint ι φ ε δ σ τ α β × Event ι φ ε δ σ τ) :=
  ((J.peer p).advance (J.peerWire p)).map fun x =>
    ({ J with peer := Function.update J.peer p x.proc,
              peerWire := Function.update J.peerWire p x.wire,
              hubWire := toHub sock J.hubWire p x.sent }, .peer p x.op)

/-- A user types a line. -/
def typed (J : Joint ι φ ε δ σ τ α β) (p : ι) (fd : φ) (l : Line) : Joint ι φ ε δ σ τ α β :=
  { J with peerWire := Function.update J.peerWire p ((J.peerWire p).retype fd l) }

/-- A number is scanned. -/
def scanned (J : Joint ι φ ε δ σ τ α β) (p : ι) (S : Proc (IoOp φ δ) IoOp.Res τ β) :
    Joint ι φ ε δ σ τ α β :=
  { J with peer := Function.update J.peer p S,
           peerWire := Function.update J.peerWire p (J.peerWire p) }

/-- A user is asked for a line, and types it. -/
def answerLine (sock : φ) (J : Joint ι φ ε δ σ τ α β) (p : ι) (l : Line) :
    Option (Joint ι φ ε δ σ τ α β × Event ι φ ε δ σ τ) :=
  match J.peer p with
  | .op (.readline fd _) _ _ => if fd = sock then none else some (J.typed p fd l, .user p)
  | _ => none

/-- A user is asked for a number. -/
def answerNumber (J : Joint ι φ ε δ σ τ α β) (p : ι) (i : Int) :
    Option (Joint ι φ ε δ σ τ α β × Event ι φ ε δ σ τ) :=
  match J.peer p with
  | .op .scanf s k => some (J.scanned p (k (.number i)), .peer p (some (.scanf, s)))
  | _ => none

/-- A user answers. -/
def answer (sock : φ) (J : Joint ι φ ε δ σ τ α β) (p : ι) :
    Typed → Option (Joint ι φ ε δ σ τ α β × Event ι φ ε δ σ τ)
  | .line l => J.answerLine sock p l
  | .number i => J.answerNumber p i

/-- What a step assumes of the processes, and of the buffers. -/
def Assumed (A : IoOp ι ε → σ → Prop) (A' : ι → IoOp φ δ → τ → Prop) : Event ι φ ε δ σ τ → Prop
  | .hub x => ∀ y ∈ x, A y.1 y.2
  | .peer p x => ∀ y ∈ x, A' p y.1 y.2
  | .user _ => True

def TidyAt (J : Joint ι φ ε δ σ τ α β) : Event ι φ ε δ σ τ → Prop
  | .hub x => ∀ y ∈ x, J.hubWire.Tidy y.1
  | .peer p x => ∀ y ∈ x, (J.peerWire p).Tidy y.1
  | .user _ => True

variable {sock : φ} {A : IoOp ι ε → σ → Prop} {A' : ι → IoOp φ δ → τ → Prop}
  {J J' : Joint ι φ ε δ σ τ α β} {e : Event ι φ ε δ σ τ} {p : ι}

theorem Assumed.fair (h : Assumed A A' e) (htidy : J.TidyAt e) : Fair A A' J e := by
  cases e with
  | hub x => exact fun y hy => ⟨h y hy, htidy y hy⟩
  | peer p x => exact fun y hy => ⟨h y hy, htidy y hy⟩
  | user p => trivial

theorem hubMove_step (h : J.hubMove sock = some (J', e)) : Step sock J e J' ∧ J.TidyAt e := by
  obtain ⟨x, hx, he⟩ := Option.map_eq_some_iff.mp h
  cases he
  obtain ⟨hact, htidy⟩ := Proc.advance_act (fun p => (J.peer p).Over) False hx
  exact ⟨.hub hact, htidy⟩

theorem peerMove_step (h : J.peerMove sock p = some (J', e)) :
    Step sock J e J' ∧ J.TidyAt e := by
  obtain ⟨x, hx, he⟩ := Option.map_eq_some_iff.mp h
  cases he
  obtain ⟨hact, htidy⟩ := Proc.advance_act (J.gone sock p) (J.left p = true) hx
  exact ⟨.peer hact, htidy⟩

theorem answerLine_step {l : Line} (h : J.answerLine sock p l = some (J', e)) :
    Step sock J e J' ∧ J.TidyAt e := by
  unfold answerLine at h
  split at h
  next fd n s k hpeer =>
    split at h
    next => cases h
    next hfd =>
      cases h
      exact ⟨.types p hfd l, trivial⟩
  next => cases h

theorem answerNumber_step {i : Int} (h : J.answerNumber p i = some (J', e)) :
    Step sock J e J' ∧ J.TidyAt e := by
  unfold answerNumber at h
  split at h
  next s k hpeer =>
    cases h
    have hact : Act (J.gone sock p) (J.left p = true) (J.peer p) (J.peerWire p)
        (some (.scanf, s)) none (k (.number i)) (J.peerWire p) := by
      rw [hpeer]
      exact .scanf nofun
    refine ⟨.peer hact, fun y hy => ?_⟩
    cases hy
    trivial
  next => cases h

theorem answer_step {t : Typed} (h : J.answer sock p t = some (J', e)) :
    Step sock J e J' ∧ J.TidyAt e := by
  cases t with
  | line l => exact answerLine_step h
  | number i => exact answerNumber_step h

end Joint

-- ========================================================================= the relay

/-- A hub and its peers that are run, with what the users will type. -/
structure Relay (ι φ ε δ σ τ α β : Type) where
  joint : Joint ι φ ε δ σ τ α β
  typing : ι → List Typed

namespace Relay

variable {ι φ ε δ σ τ α β : Type} [DecidableEq ι] [DecidableEq φ]

/-- The first of some peers that can go on, or is answered, does. -/
def peers (sock : φ) (x : Relay ι φ ε δ σ τ α β) :
    List ι → Option (Relay ι φ ε δ σ τ α β × Event ι φ ε δ σ τ)
  | [] => none
  | p :: ps => match x.joint.peerMove sock p with
    | some y => some (⟨y.1, x.typing⟩, y.2)
    | none => match x.typing p with
      | [] => x.peers sock ps
      | t :: ts => match x.joint.answer sock p t with
        | some y => some (⟨y.1, Function.update x.typing p ts⟩, y.2)
        | none => x.peers sock ps

/-- The next step: of a peer, else of the hub. -/
def next (sock : φ) (ps : List ι) (x : Relay ι φ ε δ σ τ α β) :
    Option (Relay ι φ ε δ σ τ α β × Event ι φ ε δ σ τ) :=
  match x.peers sock ps with
  | some y => some y
  | none => (x.joint.hubMove sock).map fun y => (⟨y.1, x.typing⟩, y.2)

/-- Does the run, within so many steps that are all fine, pass a marked
step and then come to the goal? The peers that go on are `ps` before that
step, and `ps'` behind it. -/
def play (sock : φ) (ps ps' : List ι) (fine mark : Event ι φ ε δ σ τ → Bool)
    (goal : Joint ι φ ε δ σ τ α β → Bool) : Nat → Bool → Relay ι φ ε δ σ τ α β → Bool
  | 0, _, _ => false
  | n + 1, seen, x =>
    (seen && goal x.joint) || match x.next sock (if seen then ps' else ps) with
    | some y => fine y.2 && play sock ps ps' fine mark goal n (seen || mark y.2) y.1
    | none => false

variable {sock : φ} {ps ps' : List ι} {x y : Relay ι φ ε δ σ τ α β} {e : Event ι φ ε δ σ τ}

theorem peers_step (h : x.peers sock ps = some (y, e)) :
    Joint.Step sock x.joint e y.joint ∧ x.joint.TidyAt e := by
  induction ps with
  | nil => cases h
  | cons p ps ih =>
      rw [peers] at h
      split at h
      next z hz =>
        cases h
        exact Joint.peerMove_step hz
      next =>
        split at h
        next => exact ih h
        next t ts =>
          split at h
          next z hz =>
            cases h
            exact Joint.answer_step hz
          next => exact ih h

theorem next_step (h : x.next sock ps = some (y, e)) :
    Joint.Step sock x.joint e y.joint ∧ x.joint.TidyAt e := by
  rw [next] at h
  split at h
  next z hz =>
    cases h
    exact peers_step hz
  next =>
    obtain ⟨z, hz, he⟩ := Option.map_eq_some_iff.mp h
    cases he
    exact Joint.hubMove_step hz

/-- What is found is a run. -/
theorem play_run {A : IoOp ι ε → σ → Prop} {A' : ι → IoOp φ δ → τ → Prop}
    {fine mark : Event ι φ ε δ σ τ → Bool} {goal : Joint ι φ ε δ σ τ α β → Bool}
    (hfine : ∀ e, fine e = true → Joint.Assumed A A' e) {n : Nat} {seen : Bool}
    (h : x.play sock ps ps' fine mark goal n seen = true) :
    ∃ es J, Joint.Run sock (Joint.Fair A A') x.joint es J ∧ goal J = true
      ∧ (seen = true ∨ ∃ e ∈ es, mark e = true) := by
  induction n generalizing x seen with
  | zero => cases h
  | succ n ih =>
      rw [play, Bool.or_eq_true, Bool.and_eq_true] at h
      cases h with
      | inl hgoal => exact ⟨[], _, .refl, hgoal.2, Or.inl hgoal.1⟩
      | inr hnext =>
          split at hnext
          next y hy =>
            obtain ⟨hok, hrest⟩ := Bool.and_eq_true_iff.mp hnext
            obtain ⟨hstep, htidy⟩ := next_step hy
            obtain ⟨es, J, hrun, hgoal, hmark⟩ := ih hrest
            refine ⟨es ++ [y.2], J, hrun.cons ((hfine _ hok).fair htidy) hstep, hgoal, ?_⟩
            cases hmark with
            | inl hseen =>
                rw [Bool.or_eq_true] at hseen
                exact hseen.imp_right fun hy => ⟨y.2, by simp, hy⟩
            | inr hlater =>
                obtain ⟨e, he, hmark⟩ := hlater
                exact Or.inr ⟨e, by simp [he], hmark⟩
          next => cases hnext

end Relay

end Process
