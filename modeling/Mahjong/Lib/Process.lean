/-
Resumption processes: a sequential program that talks to its
surroundings through typed operations, as a tree of those operations.

# The tree

`Proc Op Res σ α` is a program over a state type `σ` that either has
returned (`ret`), waits at an operation `o : Op` for a reply of type
`Res o` (`op`), or is about to enter a loop (`loop`). Every node carries
the state at that moment, so "the state when the program is about to do
`o`" is a field of the node and not a reconstruction. A loop is a node
of its own, so a program that never ends is a finite tree and needs no
fuel.

# The surroundings

An `Env` is a world and a relation `resp w o r w'`: in world `w` the
operation `o` may be answered by `r`, leaving world `w'`. A program
with an environment has runs (`Run`), and a run remembers the
operations it has gone through.

# The logic

`wp env A P S Q w` says: along every run of `S` from `w` whose
operations all satisfy `A`, the operation the program is about to do
satisfies `P`, and a returned value satisfies `Q`. `A` is the
assumption on the run (a choice of inputs, "no fault so far"), `P` what
is to be shown at every operation. The rules are the usual ones:
`wp_bind`, `wp_op`, `wp_loop` with an invariant, `wp.mono`; `wp_run`
turns a derivation into a statement about runs.
-/
import Mathlib.Tactic

namespace Process

-- =============================================================== the tree

/-- A program over state `σ` with operations `Op`, where the reply to
`o` has type `Res o`. -/
inductive Proc (Op : Type) (Res : Op → Type) (σ : Type) : Type → Type 1
  | ret {α : Type} (a : α) (s : σ) : Proc Op Res σ α
  | op {α : Type} (o : Op) (s : σ) (k : Res o → Proc Op Res σ α) :
      Proc Op Res σ α
  | loop {α β γ : Type} (body : β → σ → Proc Op Res σ (β ⊕ γ)) (b : β)
      (s : σ) (k : γ → σ → Proc Op Res σ α) : Proc Op Res σ α

variable {Op : Type} {Res : Op → Type} {σ : Type} {α β γ : Type}

namespace Proc

/-- Sequencing: `f` takes over from the returned value and state. -/
def bind : Proc Op Res σ α → (α → σ → Proc Op Res σ β) → Proc Op Res σ β
  | .ret a s, f => f a s
  | .op o s k, f => .op o s fun r => (k r).bind f
  | .loop body b s k, f => .loop body b s fun c s' => (k c s').bind f

@[simp] theorem bind_ret (a : α) (s : σ) (f : α → σ → Proc Op Res σ β) :
    (ret a s).bind f = f a s := rfl

@[simp] theorem bind_op (o : Op) (s : σ) (k : Res o → Proc Op Res σ α)
    (f : α → σ → Proc Op Res σ β) :
    (op o s k).bind f = op o s fun r => (k r).bind f := rfl

theorem bind_assoc (p : Proc Op Res σ α) (f : α → σ → Proc Op Res σ β)
    (g : β → σ → Proc Op Res σ γ) :
    (p.bind f).bind g = p.bind fun a s => (f a s).bind g := by
  induction p with
  | ret a s => rfl
  | op o s k ih =>
      simp only [bind]
      congr 1
      funext r
      exact ih r f
  | loop body b s k _ ih =>
      simp only [bind]
      congr 1
      funext c s'
      exact ih c s' f

theorem bind_pure (p : Proc Op Res σ α) : p.bind ret = p := by
  induction p with
  | ret a s => rfl
  | op o s k ih =>
      simp only [bind]
      congr 1
      funext r
      exact ih r
  | loop body b s k _ ih =>
      simp only [bind]
      congr 1
      funext c s'
      exact ih c s'

/-- One turn of a loop: run the body, then go round again or leave. -/
def unroll (body : β → σ → Proc Op Res σ (β ⊕ γ)) (b : β) (s : σ)
    (k : γ → σ → Proc Op Res σ α) : Proc Op Res σ α :=
  (body b s).bind fun r s' =>
    match r with
    | .inl b' => .loop body b' s' k
    | .inr c => k c s'

theorem unroll_bind (body : β → σ → Proc Op Res σ (β ⊕ γ)) (b : β) (s : σ)
    (k : γ → σ → Proc Op Res σ α) {δ : Type} (f : α → σ → Proc Op Res σ δ) :
    (unroll body b s k).bind f = unroll body b s fun c s' => (k c s').bind f := by
  rw [unroll, bind_assoc, unroll]
  congr 1
  funext r s'
  cases r <;> rfl

end Proc

-- =========================================================== the programs

/-- A program: what a process does from a given state. -/
def Prog (Op : Type) (Res : Op → Type) (σ : Type) (α : Type) : Type 1 :=
  σ → Proc Op Res σ α

namespace Prog

instance : Monad (Prog Op Res σ) where
  pure a := fun s => .ret a s
  bind m f := fun s => (m s).bind fun a s' => f a s'

@[simp] theorem pure_apply (a : α) (s : σ) :
    (pure a : Prog Op Res σ α) s = .ret a s := rfl

/-- The program that does one operation and returns the reply. -/
def call (o : Op) : Prog Op Res σ (Res o) := fun s => .op o s fun r => .ret r s

/-- Read the state. -/
def get : Prog Op Res σ σ := fun s => .ret s s

/-- Change the state. -/
def modify (f : σ → σ) : Prog Op Res σ Unit := fun s => .ret () (f s)

/-- Repeat `body` from `b`: `inl` goes round again, `inr` leaves. -/
def iterate (body : β → Prog Op Res σ (β ⊕ γ)) (b : β) : Prog Op Res σ γ :=
  fun s => .loop body b s .ret

/-- Repeat `body` until it returns a value. -/
def forever (body : Prog Op Res σ (Option γ)) : Prog Op Res σ γ :=
  iterate (fun _ => do
    match ← body with
    | none => pure (.inl ())
    | some c => pure (.inr c)) ()

end Prog

-- ======================================================= the surroundings

/-- What answers a program's operations: a world, and which replies it
may give in which world. -/
structure Env (Op : Type) (Res : Op → Type) where
  World : Type
  resp : World → (o : Op) → Res o → World → Prop

/-- The environment whose world is the list of all replies so far, the
latest first, and which may answer anything that keeps that list
`ok`. -/
def Env.logged (Op : Type) (Res : Op → Type)
    (ok : List ((o : Op) × Res o) → Prop) : Env Op Res where
  World := List ((o : Op) × Res o)
  resp w o r w' := w' = ⟨o, r⟩ :: w ∧ ok w'

/-- How many operations of a kind are in a log. -/
def tally (c : Op → Bool) : List ((o : Op) × Res o) → Nat
  | [] => 0
  | x :: w => tally c w + if c x.1 then 1 else 0

variable {env : Env Op Res}

/-- `Run env S w tr S' w'`: from `S` in world `w` the program gets to
`S'` in world `w'`, going through the operations `tr`, each with the
state it was done in. -/
inductive Run (env : Env Op Res) : Proc Op Res σ α → env.World →
    List (Op × σ) → Proc Op Res σ α → env.World → Prop
  | refl (S : Proc Op Res σ α) (w : env.World) : Run env S w [] S w
  | op {o : Op} {s : σ} {k : Res o → Proc Op Res σ α} {r : Res o}
      {w w' w'' : env.World} {tr : List (Op × σ)} {S' : Proc Op Res σ α}
      (hr : env.resp w o r w') (hrun : Run env (k r) w' tr S' w'') :
      Run env (.op o s k) w ((o, s) :: tr) S' w''
  | loop {β' γ' : Type} {body : β' → σ → Proc Op Res σ (β' ⊕ γ')} {b : β'}
      {s : σ} {k : γ' → σ → Proc Op Res σ α} {w w' : env.World}
      {tr : List (Op × σ)} {S' : Proc Op Res σ α}
      (hrun : Run env (Proc.unroll body b s k) w tr S' w') :
      Run env (.loop body b s k) w tr S' w'

theorem Run.trans {S S' S'' : Proc Op Res σ α} {w w' w'' : env.World}
    {tr tr' : List (Op × σ)} (h : Run env S w tr S' w')
    (h' : Run env S' w' tr' S'' w'') : Run env S w (tr ++ tr') S'' w'' := by
  induction h with
  | refl => exact h'
  | op hr _ ih => exact .op hr (ih h')
  | loop _ ih => exact .loop (ih h')

/-- What a program does, it does as the first part of another. -/
theorem Run.bind {S S' : Proc Op Res σ α} {w w' : env.World} {tr : List (Op × σ)}
    {f : α → σ → Proc Op Res σ β} (h : Run env S w tr S' w') :
    Run env (S.bind f) w tr (S'.bind f) w' := by
  induction h with
  | refl => exact .refl _ _
  | op hr _ ih => exact .op hr ih
  | loop _ ih =>
      rw [Proc.unroll_bind] at ih
      exact .loop ih

/-- A run of a sequence that has come to an operation is in the first
part, or the first part has returned. -/
theorem Run.bind_inv {S : Proc Op Res σ α} {f : α → σ → Proc Op Res σ β} {o : Op} {s : σ}
    {k : Res o → Proc Op Res σ β} {w w' : env.World} {tr : List (Op × σ)}
    (h : Run env (S.bind f) w tr (.op o s k) w') :
    (∃ k', Run env S w tr (.op o s k') w' ∧ k = fun r => (k' r).bind f)
      ∨ ∃ a s₁ tr₁ tr₂ w₁, Run env S w tr₁ (.ret a s₁) w₁
        ∧ Run env (f a s₁) w₁ tr₂ (.op o s k) w' ∧ tr = tr₁ ++ tr₂ := by
  generalize hU : S.bind f = U at h
  generalize hT : Proc.op o s k = T at h
  induction h generalizing S with
  | refl =>
      subst hT
      cases S with
      | ret a s₁ =>
          have hf : f a s₁ = _ := hU
          exact Or.inr ⟨a, s₁, [], [], _, .refl _ _, by rw [hf]; exact .refl _ _, rfl⟩
      | op o' s' k' =>
          cases hU
          exact Or.inl ⟨k', .refl _ _, rfl⟩
      | loop body b s' k' => exact nomatch hU
  | op hr hrun ih =>
      cases S with
      | ret a s₁ =>
          have hf : f a s₁ = _ := hU
          subst hT
          exact Or.inr ⟨a, s₁, [], _, _, .refl _ _, by rw [hf]; exact .op hr hrun, rfl⟩
      | op o' s' k' =>
          cases hU
          rcases ih rfl hT with ⟨k'', hS, rfl⟩ | ⟨a, s₁, tr₁, tr₂, v, h₁, h₂, rfl⟩
          · exact Or.inl ⟨k'', .op hr hS, rfl⟩
          · exact Or.inr ⟨a, s₁, _, tr₂, v, .op hr h₁, h₂, rfl⟩
      | loop body b s' k' => exact nomatch hU
  | loop hrun ih =>
      cases S with
      | ret a s₁ =>
          have hf : f a s₁ = _ := hU
          subst hT
          exact Or.inr ⟨a, s₁, [], _, _, .refl _ _, by rw [hf]; exact .loop hrun, rfl⟩
      | op o' s' k' => exact nomatch hU
      | loop body' b' s' k' =>
          cases hU
          rcases ih (Proc.unroll_bind _ _ _ _ _) hT with
            ⟨k'', hS, rfl⟩ | ⟨a, s₁, tr₁, tr₂, v, h₁, h₂, rfl⟩
          · exact Or.inl ⟨k'', .loop hS, rfl⟩
          · exact Or.inr ⟨a, s₁, tr₁, tr₂, v, .loop h₁, h₂, rfl⟩

section Logged

variable {ok ok' : List ((o : Op) × Res o) → Prop} {S S' : Proc Op Res σ α}
  {w w' : (Env.logged Op Res ok).World} {tr : List (Op × σ)}

/-- The log only grows. -/
theorem Run.suffix (h : Run (Env.logged Op Res ok) S w tr S' w') : w <:+ w' := by
  induction h with
  | refl => exact List.suffix_refl _
  | op hr _ ih =>
      rw [hr.1] at ih
      exact (List.suffix_cons _ _).trans ih
  | loop _ ih => exact ih

/-- A run whose replies so far are all fine is a run in surroundings that
give no others. -/
theorem Run.relog (h : Run (Env.logged Op Res ok) S w tr S' w')
    (hok : ∀ v, v <:+ w' → ok v → ok' v) :
    Run (Env.logged Op Res ok') S w tr S' w' := by
  induction h with
  | refl => exact .refl _ _
  | op hr hrun ih =>
      refine .op ⟨hr.1, hok _ ?_ hr.2⟩ (ih hok)
      exact hrun.suffix
  | loop _ ih => exact .loop (ih hok)

end Logged

-- ============================================================== the logic

/-- `wp` for runs of at most `n` nodes. -/
def wpN (env : Env Op Res) (A : Op → σ → Prop)
    (P : Op → σ → env.World → Prop) :
    Nat → Proc Op Res σ α → (α → σ → env.World → Prop) → env.World → Prop
  | 0, _, _, _ => True
  | _ + 1, .ret a s, Q, w => Q a s w
  | n + 1, .op o s k, Q, w =>
      A o s → P o s w ∧ ∀ r w', env.resp w o r w' → wpN env A P n (k r) Q w'
  | n + 1, .loop body b s k, Q, w => wpN env A P n (Proc.unroll body b s k) Q w

/-- Along every run of `S` from `w` whose operations satisfy `A`, the
next operation satisfies `P` and a returned value satisfies `Q`. -/
def wp (env : Env Op Res) (A : Op → σ → Prop)
    (P : Op → σ → env.World → Prop) (S : Proc Op Res σ α)
    (Q : α → σ → env.World → Prop) (w : env.World) : Prop :=
  ∀ n, wpN env A P n S Q w

section Rules

variable {A A' : Op → σ → Prop} {P P' : Op → σ → env.World → Prop}

theorem wp_ret {Q : α → σ → env.World → Prop} {a : α} {s : σ} {w : env.World}
    (h : Q a s w) : wp env A P (.ret a s) Q w := by
  intro n
  cases n with
  | zero => exact trivial
  | succ n => exact h

theorem wp_ret_iff {Q : α → σ → env.World → Prop} {a : α} {s : σ}
    {w : env.World} : wp env A P (.ret a s) Q w ↔ Q a s w :=
  ⟨fun h => h 1, wp_ret⟩

theorem wp_op {Q : α → σ → env.World → Prop} {o : Op} {s : σ}
    {k : Res o → Proc Op Res σ α} {w : env.World}
    (h : A o s → P o s w ∧
      ∀ r w', env.resp w o r w' → wp env A P (k r) Q w') :
    wp env A P (.op o s k) Q w := by
  intro n
  cases n with
  | zero => exact trivial
  | succ n =>
      intro hA
      exact ⟨(h hA).1, fun r w' hr => (h hA).2 r w' hr n⟩

/-- Fewer nodes are easier. -/
theorem wpN_le {Q : α → σ → env.World → Prop} :
    ∀ {n m : Nat} {S : Proc Op Res σ α} {w : env.World}, m ≤ n →
      wpN env A P n S Q w → wpN env A P m S Q w := by
  intro n
  induction n with
  | zero =>
      intro m S w hm h
      rw [Nat.le_zero.mp hm]
      exact trivial
  | succ n ih =>
      intro m S w hm h
      cases m with
      | zero => exact trivial
      | succ m =>
          have hm' : m ≤ n := by omega
          cases S with
          | ret a s => exact h
          | op o s k =>
              intro ho
              exact ⟨(h ho).1, fun r w' hr => ih hm' ((h ho).2 r w' hr)⟩
          | loop body b s k =>
              show wpN env A P m (Proc.unroll body b s k) Q w
              exact ih hm' h

/-- A weaker postcondition and a weaker obligation follow. -/
theorem wpN_mono {Q Q' : α → σ → env.World → Prop}
    (hA : ∀ o s, A' o s → A o s) (hP : ∀ o s w, A' o s → P o s w → P' o s w)
    (hQ : ∀ a s w, Q a s w → Q' a s w) :
    ∀ (n : Nat) (S : Proc Op Res σ α) (w : env.World),
      wpN env A P n S Q w → wpN env A' P' n S Q' w := by
  intro n
  induction n with
  | zero => intro S w _; exact trivial
  | succ n ih =>
      intro S w h
      cases S with
      | ret a s => exact hQ a s w h
      | op o s k =>
          intro ho
          have h' := h (hA o s ho)
          exact ⟨hP o s w ho h'.1, fun r w' hr => ih _ _ (h'.2 r w' hr)⟩
      | loop body b s k => exact ih _ _ h

theorem wp.mono {Q Q' : α → σ → env.World → Prop} {S : Proc Op Res σ α}
    {w : env.World} (h : wp env A P S Q w)
    (hQ : ∀ a s w, Q a s w → Q' a s w) : wp env A P S Q' w :=
  fun n => wpN_mono (fun _ _ h => h) (fun _ _ _ _ h => h) hQ n S w (h n)

/-- Strengthening the assumption, weakening the obligation. -/
theorem wp.weaken {Q : α → σ → env.World → Prop} {S : Proc Op Res σ α}
    {w : env.World} (h : wp env A P S Q w) (hA : ∀ o s, A' o s → A o s)
    (hP : ∀ o s w, A' o s → P o s w → P' o s w) : wp env A' P' S Q w :=
  fun n => wpN_mono hA hP (fun _ _ _ h => h) n S w (h n)

/-- Sequencing, for runs of at most `n` nodes: the continuation is
needed for at most `n` nodes too. -/
theorem wpN_bind {Q : β → σ → env.World → Prop}
    {R : α → σ → env.World → Prop} {f : α → σ → Proc Op Res σ β} (n : Nat)
    (hf : ∀ a s w, R a s w → ∀ m ≤ n, wpN env A P m (f a s) Q w) :
    ∀ (m : Nat), m ≤ n → ∀ (S : Proc Op Res σ α) (w : env.World),
      wpN env A P m S R w → wpN env A P m (S.bind f) Q w := by
  intro m
  induction m with
  | zero => intro _ S w _; exact trivial
  | succ m ih =>
      intro hm S w h
      cases S with
      | ret a s => exact hf a s w h _ hm
      | op o s k =>
          intro ho
          exact ⟨(h ho).1, fun r w' hr => ih (by omega) _ _ ((h ho).2 r w' hr)⟩
      | loop body b s k =>
          have h' := ih (by omega) _ _ h
          rw [Proc.unroll_bind] at h'
          exact h'

theorem wp_bind {Q : β → σ → env.World → Prop} {S : Proc Op Res σ α}
    {f : α → σ → Proc Op Res σ β} {w : env.World}
    (h : wp env A P S (fun a s w => wp env A P (f a s) Q w) w) :
    wp env A P (S.bind f) Q w :=
  fun n => wpN_bind n (fun _ _ _ hq m _ => hq m) n (Nat.le_refl n) S w (h n)

/-- The loop rule: an invariant that one turn keeps, and from which
leaving the loop is safe. -/
theorem wp_loop {Q : α → σ → env.World → Prop}
    {body : β → σ → Proc Op Res σ (β ⊕ γ)} {k : γ → σ → Proc Op Res σ α}
    (I : β → σ → env.World → Prop)
    (hbody : ∀ b s w, I b s w → wp env A P (body b s)
      (fun r s' w' => match r with
        | .inl b' => I b' s' w'
        | .inr c => wp env A P (k c s') Q w') w)
    {b : β} {s : σ} {w : env.World} (hI : I b s w) :
    wp env A P (.loop body b s k) Q w := by
  intro n
  induction n generalizing b s w with
  | zero => exact trivial
  | succ n ih =>
      refine wpN_bind (R := fun r s' w' => match r with
        | .inl b' => I b' s' w'
        | .inr c => wp env A P (k c s') Q w') n ?_ n (Nat.le_refl n) _ _
        (hbody b s w hI n)
      intro r s' w' hr m hm
      cases r with
      | inl b' => exact wpN_le hm (ih hr)
      | inr c => exact hr m

/-- Soundness: along a run whose operations satisfy the assumption, the
next operation meets the obligation, and a result the
postcondition. -/
theorem wp_run {Q : α → σ → env.World → Prop} {S S' : Proc Op Res σ α}
    {w w' : env.World} {tr : List (Op × σ)} (h : wp env A P S Q w)
    (hrun : Run env S w tr S' w') (htr : ∀ x ∈ tr, A x.1 x.2) :
    wp env A P S' Q w' := by
  induction hrun with
  | refl => exact h
  | op hr _ ih =>
      refine ih (fun n => ?_) fun x hx => htr x (List.mem_cons_of_mem _ hx)
      have ho := htr _ (List.mem_cons_self ..)
      exact (h (n + 1) ho).2 _ _ hr
  | loop _ ih => exact ih (fun n => h (n + 1)) htr

theorem wp_op_obligation {Q : α → σ → env.World → Prop} {o : Op} {s : σ}
    {k : Res o → Proc Op Res σ α} {w : env.World}
    (h : wp env A P (.op o s k) Q w) (ho : A o s) : P o s w :=
  (h 1 ho).1

/-- Every operation a run has gone through met its obligation. -/
theorem wp_trace {Q : α → σ → env.World → Prop} {S S' : Proc Op Res σ α}
    {w w' : env.World} {tr : List (Op × σ)} (h : wp env A P S Q w)
    (hrun : Run env S w tr S' w') (htr : ∀ x ∈ tr, A x.1 x.2) :
    ∀ x ∈ tr, ∃ v, P x.1 x.2 v := by
  induction hrun with
  | refl => exact fun x hx => nomatch hx
  | op hr _ ih =>
      have ho := htr _ (List.mem_cons_self ..)
      intro x hx
      rcases List.mem_cons.mp hx with rfl | hx
      · exact ⟨_, wp_op_obligation h ho⟩
      · exact ih (fun n => (h (n + 1) ho).2 _ _ hr)
          (fun x hx => htr x (List.mem_cons_of_mem _ hx)) x hx
  | loop _ ih => exact ih (fun n => h (n + 1)) htr

/-- Partial correctness by runs: along every run whose operations satisfy
`A`, the next operation satisfies `P` and a returned value `Q`. -/
structure Meets (env : Env Op Res) (A : Op → σ → Prop) (P : Op → σ → env.World → Prop)
    (S : Proc Op Res σ α) (Q : α → σ → env.World → Prop) (w : env.World) : Prop where
  obliged : ∀ tr o s k w', Run env S w tr (.op o s k) w' → (∀ x ∈ tr, A x.1 x.2) →
    A o s → P o s w'
  returns : ∀ tr a s w', Run env S w tr (.ret a s) w' → (∀ x ∈ tr, A x.1 x.2) → Q a s w'

theorem wp.meets {Q : α → σ → env.World → Prop} {S : Proc Op Res σ α} {w : env.World}
    (h : wp env A P S Q w) : Meets env A P S Q w := by
  constructor
  · intro tr o s k w' hrun htr ho
    exact wp_op_obligation (wp_run h hrun htr) ho
  · intro tr a s w' hrun htr
    exact wp_ret_iff.mp (wp_run h hrun htr)

-- ------------------------------------------------------------- two derivations

/-- Surroundings that may answer anything at any time. -/
def Env.Total (env : Env Op Res) : Prop := ∀ w o (r : Res o), ∃ w', env.resp w o r w'

section Assuming

variable {env' : Env Op Res} {B : Op → σ → Prop} {R : Op → σ → env'.World → Prop}

theorem wpN_assuming {Q : α → σ → env.World → Prop} {Q' : α → σ → env'.World → Prop}
    (htotal : env.Total) (hA : ∀ o s w, B o s → R o s w → A o s) :
    ∀ (n : Nat) (S : Proc Op Res σ α) (v : env.World) (w : env'.World), wpN env A P n S Q v →
      wpN env' (fun o s => B o s ∧ (A o s → ∃ v, P o s v)) R n S Q' w →
      wpN env' B R n S (fun a s w => Q' a s w ∧ ∃ v, Q a s v) w := by
  intro n
  induction n with
  | zero => intro S v w _ _; exact trivial
  | succ n ih =>
      intro S v w h h'
      cases S with
      | ret a s => exact ⟨h', v, h⟩
      | op o s k =>
          intro hB
          obtain ⟨hR, hrest⟩ := h' ⟨hB, fun ho => ⟨v, (h ho).1⟩⟩
          refine ⟨hR, fun r w' hr => ?_⟩
          obtain ⟨v', hv⟩ := htotal v o r
          exact ih (k r) v' w' ((h (hA o s w hB hR)).2 r v' hv) (hrest r w' hr)
      | loop body b s k => exact ih (Proc.unroll body b s k) v w h h'

/-- What is shown of a program in surroundings that answer anything may be
assumed of it in others, at every operation where the assumption of the
first derivation holds. That it holds may be shown on the way (`hA`). -/
theorem wp.assuming {Q : α → σ → env.World → Prop} {Q' : α → σ → env'.World → Prop}
    {S : Proc Op Res σ α} {v : env.World} {w : env'.World} (h : wp env A P S Q v)
    (htotal : env.Total) (hA : ∀ o s w, B o s → R o s w → A o s)
    (h' : wp env' (fun o s => B o s ∧ (A o s → ∃ v, P o s v)) R S Q' w) :
    wp env' B R S (fun a s w => Q' a s w ∧ ∃ v, Q a s v) w :=
  fun n => wpN_assuming htotal hA n S v w (h n) (h' n)

theorem Env.logged_total : (Env.logged Op Res fun _ => True).Total :=
  fun _ _ _ => ⟨_, rfl, trivial⟩

end Assuming

end Rules

-- ==================================================== the logic on programs

section Programs

variable {A : Op → σ → Prop} {P : Op → σ → env.World → Prop}

theorem wp_pure {Q : α → σ → env.World → Prop} {a : α} {s : σ} {w : env.World}
    (h : Q a s w) : wp env A P ((pure a : Prog Op Res σ α) s) Q w :=
  wp_ret h

/-- Sequencing of programs. -/
theorem wp_seq {Q : β → σ → env.World → Prop} {m : Prog Op Res σ α}
    {f : α → Prog Op Res σ β} {s : σ} {w : env.World}
    (h : wp env A P (m s) (fun a s' w' => wp env A P (f a s') Q w') w) :
    wp env A P ((m >>= f) s) Q w :=
  wp_bind h

theorem wp_get_seq {Q : β → σ → env.World → Prop} {f : σ → Prog Op Res σ β}
    {s : σ} {w : env.World} (h : wp env A P (f s s) Q w) :
    wp env A P ((Prog.get >>= f) s) Q w :=
  h

theorem wp_modify_seq {Q : β → σ → env.World → Prop} {g : σ → σ}
    {f : Unit → Prog Op Res σ β} {s : σ} {w : env.World}
    (h : wp env A P (f () (g s)) Q w) :
    wp env A P ((Prog.modify g >>= f) s) Q w :=
  h

theorem wp_modify {Q : Unit → σ → env.World → Prop} {g : σ → σ} {s : σ}
    {w : env.World} (h : Q () (g s) w) :
    wp env A P ((Prog.modify g : Prog Op Res σ Unit) s) Q w :=
  wp_ret h

/-- One operation. -/
theorem wp_call {o : Op} {Q : Res o → σ → env.World → Prop} {s : σ}
    {w : env.World}
    (h : A o s → P o s w ∧ ∀ r w', env.resp w o r w' → Q r s w') :
    wp env A P ((Prog.call o : Prog Op Res σ (Res o)) s) Q w := by
  refine wp_op fun ho => ⟨(h ho).1, fun r w' hr => ?_⟩
  exact wp_ret ((h ho).2 r w' hr)

/-- A loop with an invariant. -/
theorem wp_iterate {Q : γ → σ → env.World → Prop}
    {body : β → Prog Op Res σ (β ⊕ γ)} (I : β → σ → env.World → Prop)
    (hbody : ∀ b s w, I b s w → wp env A P (body b s)
      (fun r s' w' => match r with
        | .inl b' => I b' s' w'
        | .inr c => Q c s' w') w)
    {b : β} {s : σ} {w : env.World} (hI : I b s w) :
    wp env A P (Prog.iterate body b s) Q w := by
  refine wp_loop I (fun b s w h => (hbody b s w h).mono fun r s' w' hr => ?_) hI
  cases r with
  | inl b' => exact hr
  | inr c => exact wp_ret hr

theorem wp_forever {Q : γ → σ → env.World → Prop}
    {body : Prog Op Res σ (Option γ)} (I : σ → env.World → Prop)
    (hbody : ∀ s w, I s w → wp env A P (body s)
      (fun r s' w' => match r with
        | none => I s' w'
        | some c => Q c s' w') w)
    {s : σ} {w : env.World} (hI : I s w) :
    wp env A P (Prog.forever body s) Q w := by
  refine wp_iterate (fun _ => I) (fun _ s w h => wp_seq ?_) hI
  refine (hbody s w h).mono fun r s' w' hr => ?_
  cases r with
  | none => exact wp_pure hr
  | some c => exact wp_pure hr

/-- A loop over a list, from the front. -/
theorem wp_forM_cons {Q : Unit → σ → env.World → Prop} {x : α} {xs : List α}
    {f : α → Prog Op Res σ PUnit} {s : σ} {w : env.World}
    (h : wp env A P (f x s) (fun _ s' w' => wp env A P (xs.forM f s') Q w') w) :
    wp env A P ((x :: xs).forM f s) Q w :=
  wp_bind h

/-- A counting loop with an invariant on the count. -/
theorem wp_forM_range' {f : Nat → Prog Op Res σ PUnit}
    (I : Nat → σ → env.World → Prop) (n : Nat) : ∀ {i : Nat} {s : σ}
      {w : env.World},
      (∀ j s w, i ≤ j → j < i + n → I j s w →
        wp env A P (f j s) (fun _ s' w' => I (j + 1) s' w') w) → I i s w →
      wp env A P ((List.range' i n).forM f s) (fun _ s' w' => I (i + n) s' w') w := by
  induction n with
  | zero => exact fun _ hI => wp_pure hI
  | succ n ih =>
      intro i s w hbody hI
      rw [List.range'_succ]
      refine wp_forM_cons ((hbody i s w (Nat.le_refl i) (by omega) hI).mono ?_)
      intro _ s' w' hI'
      have h := ih (i := i + 1) (fun j s w hj hj' => hbody j s w (by omega) (by omega))
        hI'
      rw [Nat.add_right_comm] at h
      exact h

theorem wp_forM_range {f : Nat → Prog Op Res σ PUnit}
    (I : Nat → σ → env.World → Prop) {n : Nat} {s : σ} {w : env.World}
    (hbody : ∀ j s w, j < n → I j s w →
      wp env A P (f j s) (fun _ s' w' => I (j + 1) s' w') w) (hI : I 0 s w) :
    wp env A P ((List.range n).forM f s) (fun _ s' w' => I n s' w') w := by
  have h := wp_forM_range' (f := f) I n (i := 0)
    (fun j s w _ hj => hbody j s w (by omega)) hI
  rw [← List.range_eq_range', Nat.zero_add] at h
  exact h

/-- A counting loop that carries a value. -/
theorem wp_foldlM_range' {f : β → Nat → Prog Op Res σ β}
    (I : Nat → β → σ → env.World → Prop) (n : Nat) : ∀ {i : Nat} {b : β} {s : σ}
      {w : env.World},
      (∀ j b s w, i ≤ j → j < i + n → I j b s w →
        wp env A P (f b j s) (fun b' s' w' => I (j + 1) b' s' w') w) → I i b s w →
      wp env A P ((List.range' i n).foldlM f b s)
        (fun b' s' w' => I (i + n) b' s' w') w := by
  induction n with
  | zero => exact fun _ hI => wp_pure hI
  | succ n ih =>
      intro i b s w hbody hI
      rw [List.range'_succ, List.foldlM_cons]
      refine wp_seq ((hbody i b s w (Nat.le_refl i) (by omega) hI).mono ?_)
      intro b' s' w' hI'
      have h := ih (i := i + 1)
        (fun j b s w hj hj' => hbody j b s w (by omega) (by omega)) hI'
      rw [Nat.add_right_comm] at h
      exact h

theorem wp_foldlM_range {f : β → Nat → Prog Op Res σ β}
    (I : Nat → β → σ → env.World → Prop) {n : Nat} {b : β} {s : σ} {w : env.World}
    (hbody : ∀ j b s w, j < n → I j b s w →
      wp env A P (f b j s) (fun b' s' w' => I (j + 1) b' s' w') w) (hI : I 0 b s w) :
    wp env A P ((List.range n).foldlM f b s) (fun b' s' w' => I n b' s' w') w := by
  have h := wp_foldlM_range' (f := f) I n (i := 0)
    (fun j b s w _ hj => hbody j b s w (by omega)) hI
  rw [← List.range_eq_range', Nat.zero_add] at h
  exact h

end Programs

end Process
