/-
What a program does after a certain operation, if it does nothing but
return.

`Returns S R` says that `S` comes to a result in `R` without any further
operation. `after E S R` says that whenever a run of `S` gets to an
operation of the kind `E`, what is left of the program behind it returns
in this sense. Nothing is assumed of the run, and nothing is said of the
other operations; `after E S` of the empty result means that `S` does
none of the kind.

The rules follow the program: what returns by itself is handed on by a
sequence and by a loop, until an operation comes that is not of the kind.
-/
import Mahjong.Lib.Process

namespace Process

variable {Op : Type} {Res : Op → Type} {σ : Type} {α β γ : Type}

-- ============================================================== silent returns

/-- The program comes to a result in `R` by itself. -/
inductive Returns (R : α → σ → Prop) : Proc Op Res σ α → Prop
  | ret {a : α} {s : σ} (h : R a s) : Returns R (.ret a s)
  | loop {β' γ' : Type} {body : β' → σ → Proc Op Res σ (β' ⊕ γ')} {b : β'}
      {s : σ} {k : γ' → σ → Proc Op Res σ α}
      (h : Returns R (Proc.unroll body b s k)) : Returns R (.loop body b s k)

theorem Returns.bind {R : α → σ → Prop} {Q : β → σ → Prop} {S : Proc Op Res σ α}
    {f : α → σ → Proc Op Res σ β} (h : Returns R S)
    (hf : ∀ a s, R a s → Returns Q (f a s)) : Returns Q (S.bind f) := by
  induction h with
  | ret h => exact hf _ _ h
  | loop _ ih =>
      apply Returns.loop
      rw [← Proc.unroll_bind]
      exact ih

theorem Returns.run {R : α → σ → Prop} {S : Proc Op Res σ α} (h : Returns R S)
    (env : Env Op Res) (w : env.World) : ∃ a s, R a s ∧ Run env S w [] (.ret a s) w := by
  induction h with
  | ret h => exact ⟨_, _, h, .refl _ _⟩
  | loop _ ih =>
      obtain ⟨a, s, h, hrun⟩ := ih
      exact ⟨a, s, h, .loop hrun⟩

-- ============================================================== after operations

/-- `after` for runs of at most `n` nodes. -/
def afterN (E : Op → Prop) (R : α → σ → Prop) : Nat → Proc Op Res σ α → Prop
  | 0, _ => True
  | _ + 1, .ret _ _ => True
  | n + 1, .op o _ k => ∀ r, (E o → Returns R (k r)) ∧ afterN E R n (k r)
  | n + 1, .loop body b s k => afterN E R n (Proc.unroll body b s k)

/-- Behind every operation of the kind `E` the program returns by itself
with a result in `R`. -/
def after (E : Op → Prop) (S : Proc Op Res σ α) (R : α → σ → Prop) : Prop :=
  ∀ n, afterN E R n S

variable {E : Op → Prop}

theorem after_ret {R : α → σ → Prop} {a : α} {s : σ} :
    after E (.ret a s : Proc Op Res σ α) R := by
  intro n
  cases n <;> exact trivial

theorem after_op {R : α → σ → Prop} {o : Op} {s : σ} {k : Res o → Proc Op Res σ α}
    (hret : E o → ∀ r, Returns R (k r)) (hk : ∀ r, after E (k r) R) :
    after E (.op o s k) R := by
  intro n
  cases n with
  | zero => exact trivial
  | succ n => exact fun r => ⟨fun ho => hret ho r, hk r n⟩

/-- Fewer nodes are easier. -/
theorem afterN_le {R : α → σ → Prop} : ∀ {n m : Nat} {S : Proc Op Res σ α}, m ≤ n →
    afterN E R n S → afterN E R m S := by
  intro n
  induction n with
  | zero =>
      intro m S hm h
      rw [Nat.le_zero.mp hm]
      exact trivial
  | succ n ih =>
      intro m S hm h
      cases m with
      | zero => exact trivial
      | succ m =>
          have hm' : m ≤ n := by omega
          cases S with
          | ret a s => exact trivial
          | op o s k => exact fun r => ⟨(h r).1, ih hm' (h r).2⟩
          | loop body b s k =>
              show afterN E R m (Proc.unroll body b s k)
              exact ih hm' h

theorem afterN_bind {R : α → σ → Prop} {Q : β → σ → Prop}
    {f : α → σ → Proc Op Res σ β} (n : Nat)
    (hret : ∀ a s, R a s → Returns Q (f a s)) (hf : ∀ a s, ∀ m ≤ n, afterN E Q m (f a s)) :
    ∀ m ≤ n, ∀ S : Proc Op Res σ α, afterN E R m S → afterN E Q m (S.bind f) := by
  intro m
  induction m with
  | zero => exact fun _ _ _ => trivial
  | succ m ih =>
      intro hm S h
      cases S with
      | ret a s => exact hf a s _ hm
      | op o s k => exact fun r => ⟨fun ho => ((h r).1 ho).bind hret, ih (by omega) _ (h r).2⟩
      | loop body b s k =>
          have h' := ih (by omega) _ h
          rw [Proc.unroll_bind] at h'
          exact h'

/-- Sequencing: a result that comes by itself is handed on. -/
theorem after_bind {R : α → σ → Prop} {Q : β → σ → Prop} {S : Proc Op Res σ α}
    {f : α → σ → Proc Op Res σ β} (h : after E S R)
    (hret : ∀ a s, R a s → Returns Q (f a s)) (hf : ∀ a s, after E (f a s) Q) :
    after E (S.bind f) Q :=
  fun n => afterN_bind n hret (fun a s m _ => hf a s m) n (Nat.le_refl n) S (h n)

theorem after.mono {R Q : α → σ → Prop} {S : Proc Op Res σ α} (h : after E S R)
    (hRQ : ∀ a s, R a s → Q a s) : after E S Q := by
  have hbind := after_bind h (fun a s hr => Returns.ret (hRQ a s hr)) fun _ _ => after_ret
  rwa [Proc.bind_pure] at hbind

/-- The loop rule, for bodies that are what they are in every state. -/
theorem after_loop {R : β ⊕ γ → σ → Prop} {Q : α → σ → Prop}
    {body : β → σ → Proc Op Res σ (β ⊕ γ)} {k : γ → σ → Proc Op Res σ α}
    (hbody : ∀ b s, after E (body b s) R)
    (hagain : ∀ b s, R (.inl b) s → Returns Q (.loop body b s k))
    (hleave : ∀ c s, R (.inr c) s → Returns Q (k c s))
    (hk : ∀ c s, after E (k c s) Q) (b : β) (s : σ) : after E (.loop body b s k) Q := by
  intro n
  induction n generalizing b s with
  | zero => exact trivial
  | succ n ih =>
      refine afterN_bind (R := R) n ?_ ?_ n (Nat.le_refl n) (body b s) (hbody b s n)
      · intro r s' hr
        cases r with
        | inl b' => exact hagain b' s' hr
        | inr c => exact hleave c s' hr
      · intro r s' m hm
        cases r with
        | inl b' => exact afterN_le hm (ih b' s')
        | inr c => exact hk c s' m

/-- Soundness, for runs in any surroundings. -/
theorem after.run {env : Env Op Res} {R : α → σ → Prop} {S : Proc Op Res σ α}
    {w w' : env.World} {tr : List (Op × σ)} {o : Op} {s : σ}
    {k : Res o → Proc Op Res σ α} (h : after E S R) (hrun : Run env S w tr (.op o s k) w')
    (ho : E o) (r : Res o) : Returns R (k r) := by
  generalize he : Proc.op o s k = T at hrun
  induction hrun with
  | refl =>
      subst he
      exact (h 1 r).1 ho
  | op _ _ ih => exact ih (fun n => (h (n + 1) _).2) he
  | loop _ ih => exact ih (fun n => h (n + 1)) he

-- =============================================================== on programs

/-- The program does no operation of the kind. -/
def Never (E : Op → Prop) (m : Prog Op Res σ α) : Prop :=
  ∀ s, after E (m s) fun _ _ => False

section Programs

variable {R : α → σ → Prop} {m : Prog Op Res σ α}

theorem Never.weaken (h : Never E m) (s : σ) : after E (m s) R :=
  (h s).mono fun _ _ h => h.elim

theorem after_pure {a : α} {s : σ} : after E ((pure a : Prog Op Res σ α) s) R := after_ret

theorem Never.run {env : Env Op Res} {w w' : env.World} {tr : List (Op × σ)} {o : Op}
    {s₀ s : σ} {k : Res o → Proc Op Res σ α} (h : Never E m)
    (hrun : Run env (m s₀) w tr (.op o s k) w') (r : Res o) : ¬ E o := by
  intro ho
  have hret : Returns (fun _ _ => False) (k r) := (h s₀).run hrun ho r
  obtain ⟨_, _, hfalse, -⟩ := hret.run env w'
  exact hfalse

/-- A first part without such operations. -/
theorem Never.seq {Q : β → σ → Prop} {f : α → Prog Op Res σ β} {s : σ} (h : Never E m)
    (hf : ∀ a s, after E (f a s) Q) : after E ((m >>= f) s) Q :=
  after_bind (h s) (fun _ _ h => h.elim) hf

theorem after_seq {Q : β → σ → Prop} {f : α → Prog Op Res σ β} {s : σ}
    (h : after E (m s) R) (hret : ∀ a s, R a s → Returns Q (f a s))
    (hf : ∀ a s, after E (f a s) Q) : after E ((m >>= f) s) Q :=
  after_bind h hret hf

/-- A loop that such an operation ends. -/
theorem after_forever {Q : γ → σ → Prop} {body : Prog Op Res σ (Option γ)}
    (hbody : ∀ s, after E (body s) fun r s' => ∃ c, r = some c ∧ Q c s') (s : σ) :
    after E (Prog.forever body s) Q := by
  refine after_loop (R := fun r s' => ∃ c, r = .inr c ∧ Q c s') (fun _ s => ?_) ?_ ?_
    (fun _ _ => after_ret) () s
  · refine after_seq (hbody s) ?_ fun r _ => ?_
    · intro r s' h
      obtain ⟨c, rfl, hc⟩ := h
      exact .ret ⟨c, rfl, hc⟩
    · cases r <;> exact after_pure
  · intro b s' h
    obtain ⟨c, he, -⟩ := h
    exact nomatch he
  · intro c s' h
    obtain ⟨c', he, hc⟩ := h
    cases he
    exact .ret hc

theorem never_pure {a : α} : Never E (pure a : Prog Op Res σ α) := fun _ => after_ret

theorem never_get : Never E (Prog.get : Prog Op Res σ σ) := fun _ => after_ret

theorem never_modify {f : σ → σ} : Never E (Prog.modify f : Prog Op Res σ Unit) :=
  fun _ => after_ret

theorem never_call {o : Op} (ho : ¬ E o) : Never E (Prog.call o : Prog Op Res σ (Res o)) :=
  fun _ => after_op (fun h => absurd h ho) fun _ => after_ret

theorem Never.bind {f : α → Prog Op Res σ β} (h : Never E m) (hf : ∀ a, Never E (f a)) :
    Never E (m >>= f) :=
  fun _ => h.seq fun a s => hf a s

theorem never_iterate {body : β → Prog Op Res σ (β ⊕ γ)} (h : ∀ b, Never E (body b)) (b : β) :
    Never E (Prog.iterate body b) :=
  fun s => after_loop (fun b s => h b s) (fun _ _ h => h.elim) (fun _ _ h => h.elim)
    (fun _ _ => after_ret) b s

end Programs

end Process
