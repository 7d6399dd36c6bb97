/-
Programs that come to an end when there is nothing more to read.

In surroundings that give a program no more than so many characters and
numbers (`Sparing`) a loop that reads something on every turn is left at
last. `Spends d m` says that a program comes to its end there and has read
no less than `d` says of its result, so a loop needs no measure of its own:
its body has to spend something before it goes round again
(`spends_iterate`).

The end of file is nothing to read: what is `live` does not come to it.
-/
import Mahjong.Lib.Io
import Mahjong.Lib.Total

namespace Process

open CString

-- ========================================================================== the budget

section Budget

variable {Fd ε σ α : Type}

/-- The replies of a process so far, the latest first. -/
abbrev Record (Fd ε : Type) := List ((o : IoOp Fd ε) × o.Res)

/-- What a reply takes from the input: its characters, or a number. -/
def IoOp.cost : (o : IoOp Fd ε) → o.Res → Nat
  | .readline _ _, l => l.length
  | .scanf, _ => 1
  | _, _ => 0

/-- What all replies have taken. -/
def volume : Record Fd ε → Nat
  | [] => 0
  | ⟨o, r⟩ :: log => o.cost r + volume log

/-- A reply as it is while nobody has left who is `live`: lines are not
empty, and who sleeps is woken by somebody. -/
def IoOp.Genuine (live : Fd → Prop) : (o : IoOp Fd ε) → o.Res → Prop
  | .readline fd n, l => live fd → 1 < n → l ≠ []
  | .select fds, ready => ∃ fd ∈ fds, ready fd = true
  | _, _ => True

/-- The surroundings of a process that is given so much to read and no
more. -/
def Sparing (live : Fd → Prop) (N : Nat) : Record Fd ε → Prop
  | [] => True
  | ⟨o, r⟩ :: log => o.Genuine live r ∧ o.cost r + volume log ≤ N

/-- By itself the process stops, in surroundings that keep its record
`ok`. -/
def Stops (ok : Record Fd ε → Prop) (A : IoOp Fd ε → σ → Prop)
    (S : Proc (IoOp Fd ε) IoOp.Res σ α) : Prop :=
  twp (Env.logged _ _ ok) A (fun _ _ _ => True) S (fun _ _ _ => True) []

end Budget

-- ================================================================ programs that read

section Spends

variable {Fd ε σ α β : Type} {live : Fd → Prop} {N : Nat}

/-- A program that comes to its end, having read no less than `d` says of
its result. -/
def Spends (live : Fd → Prop) (N : Nat) (d : α → Nat) (m : Io Fd ε σ α) : Prop :=
  ∀ (s : σ) (log : Record Fd ε), volume log ≤ N →
    twp (Env.logged _ _ (Sparing live N)) (fun _ _ => True) (fun _ _ _ => True) (m s)
      (fun a _ log' => volume log + d a ≤ volume log' ∧ volume log' ≤ N) log

variable {d : α → Nat} {c : β → Nat} {m : Io Fd ε σ α} {f : α → Io Fd ε σ β}

theorem Spends.stops (h : Spends live N d m) (s : σ) :
    Stops (Sparing live N) (fun _ _ => True) (m s) :=
  (h s [] (Nat.zero_le N)).mono fun _ _ _ _ => trivial

theorem Spends.less {d' : α → Nat} (h : Spends live N d m) (hd : ∀ a, d' a ≤ d a) :
    Spends live N d' m := by
  intro s log hlog
  refine (h s log hlog).mono fun a _ log' h => ⟨?_, h.2⟩
  have hle := hd a
  omega

-- ------------------------------------------------------------------------- sequences

theorem spends_pure {a : α} (ha : d a = 0) : Spends live N d (pure a : Io Fd ε σ α) :=
  fun _ _ hlog => twp_pure ⟨by rw [ha, Nat.add_zero], hlog⟩

theorem Spends.bind (h : Spends live N d m) (hf : ∀ a, Spends live N (fun b => c b - d a) (f a)) :
    Spends live N c (m >>= f) := by
  intro s log hlog
  refine twp_seq ((h s log hlog).mono fun a s' log' h => ?_)
  refine (hf a s' log' h.2).mono fun b _ log'' h' => ⟨?_, h'.2⟩
  have hfirst := h.1
  have hthen : volume log' + (c b - d a) ≤ volume log'' := h'.1
  omega

/-- What is read is read by what comes second. -/
theorem Spends.seq (h : Spends live N (fun _ => 0) m) (hf : ∀ a, Spends live N c (f a)) :
    Spends live N c (m >>= f) :=
  h.bind hf

/-- Something is read by what comes first. -/
theorem Spends.first (h : Spends live N (fun _ => 1) m)
    (hf : ∀ a, Spends live N (fun _ => 0) (f a)) (hc : ∀ b, c b ≤ 1) :
    Spends live N c (m >>= f) := by
  refine h.bind fun a => (hf a).less fun b => ?_
  have hle := hc b
  omega

-- ------------------------------------------------------------------------ operations

/-- A turn that goes round again has to spend something, one that leaves the
loop nothing. -/
theorem turn_le_one {γ : Type} (r : γ ⊕ β) : r.elim (fun _ => 1) (fun _ => 0) ≤ 1 := by
  cases r <;> simp

theorem option_turn_le_one (r : Option β) : r.elim 1 (fun _ => 0) ≤ 1 := by
  cases r <;> simp

/-- A loop that reads something before it goes round again. -/
theorem spends_iterate {γ : Type} {body : γ → Io Fd ε σ (γ ⊕ β)}
    (hbody : ∀ x, Spends live N (Sum.elim (fun _ => 1) c) (body x)) (x : γ) :
    Spends live N c (Prog.iterate body x) := by
  intro s log hlog
  refine twp_iterate (fun _ _ (log' : Record Fd ε) => volume log ≤ volume log' ∧ volume log' ≤ N)
    (fun _ _ (log' : Record Fd ε) => N - volume log') ?_ ⟨Nat.le_refl _, hlog⟩
  intro x s log' h
  refine (hbody x s log' h.2).mono fun r _ log'' h' => ?_
  have hle := h.1
  obtain ⟨hmore, hbound⟩ := h'
  cases r with
  | inl x =>
      simp only [Sum.elim_inl] at hmore
      refine ⟨⟨by omega, hbound⟩, ?_⟩
      show N - volume log'' < N - volume log'
      omega
  | inr b =>
      simp only [Sum.elim_inr] at hmore
      exact ⟨by omega, hbound⟩

theorem spends_forever {body : Io Fd ε σ (Option β)}
    (hbody : Spends live N (fun r => r.elim 1 c) body) : Spends live N c (Prog.forever body) := by
  refine spends_iterate (fun _ => hbody.bind fun r => ?_) ()
  cases r with
  | none => exact spends_pure rfl
  | some b => exact spends_pure (Nat.sub_self _)

/-- A loop whose turns begin with something that is read. -/
theorem Spends.forever {g : α → Io Fd ε σ (Option β)} (h : Spends live N (fun _ => 1) m)
    (hg : ∀ a, Spends live N (fun _ => 0) (g a)) :
    Spends live N (fun _ => 0) (Prog.forever (m >>= g)) := by
  exact spends_forever (h.first hg option_turn_le_one)

theorem Spends.iterate {γ : Type} {g : γ → α → Io Fd ε σ (γ ⊕ β)}
    (h : Spends live N (fun _ => 1) m) (hg : ∀ x a, Spends live N (fun _ => 0) (g x a)) (x : γ) :
    Spends live N (fun _ => 0) (Prog.iterate (fun x => m >>= g x) x) := by
  exact spends_iterate (fun x => h.first (hg x) turn_le_one) x

end Spends

end Process
