/-
Total correctness for resumption processes: the program's runs end.

`twp env A P S Q w` says what `wp` says and that every run of `S` from
`w` whose operations satisfy `A` is finite. It is the least such
judgment, so a proof is a finite derivation, and the loop rule asks for
a measure that every turn of the loop decreases.

# What it is good for

`twp.wp` forgets termination. `twp.no_infinite_run` is the statement
about runs.

# Coming to the end

A run that cannot go on for ever may still break off: the program exits,
or its surroundings have no answer. `NeverStuck` excludes both, in
surroundings that are nice enough. A finite run that is never stuck is at
its end when it cannot be continued, so both together (`Finishes`) are
total correctness; `twp.returning` is the run that they promise.
-/
import Mahjong.Lib.Process

namespace Process

variable {Op : Type} {Res : Op → Type} {σ : Type} {α β γ : Type}
  {env : Env Op Res} {A : Op → σ → Prop} {P : Op → σ → env.World → Prop}

/-- The derivations of `twp`. -/
inductive Total (env : Env Op Res) (A : Op → σ → Prop)
    (P : Op → σ → env.World → Prop) (Q : α → σ → env.World → Prop) :
    Proc Op Res σ α → env.World → Prop
  | ret {a : α} {s : σ} {w : env.World} (h : Q a s w) :
      Total env A P Q (.ret a s) w
  | op {o : Op} {s : σ} {k : Res o → Proc Op Res σ α} {w : env.World}
      (hP : A o s → P o s w)
      (hk : A o s → ∀ r w', env.resp w o r w' → Total env A P Q (k r) w') :
      Total env A P Q (.op o s k) w
  | loop {β' γ' : Type} {body : β' → σ → Proc Op Res σ (β' ⊕ γ')} {b : β'}
      {s : σ} {k : γ' → σ → Proc Op Res σ α} {w : env.World}
      (h : Total env A P Q (Proc.unroll body b s k) w) :
      Total env A P Q (.loop body b s k) w

/-- Every run of `S` from `w` whose operations satisfy `A` is finite, its
next operation satisfies `P`, and a returned value satisfies `Q`. -/
def twp (env : Env Op Res) (A : Op → σ → Prop) (P : Op → σ → env.World → Prop)
    (S : Proc Op Res σ α) (Q : α → σ → env.World → Prop) (w : env.World) : Prop :=
  Total env A P Q S w

-- =============================================================== the rules

theorem twp_ret {Q : α → σ → env.World → Prop} {a : α} {s : σ} {w : env.World}
    (h : Q a s w) : twp env A P (.ret a s) Q w :=
  .ret h

theorem twp_op {Q : α → σ → env.World → Prop} {o : Op} {s : σ}
    {k : Res o → Proc Op Res σ α} {w : env.World}
    (h : A o s → P o s w ∧
      ∀ r w', env.resp w o r w' → twp env A P (k r) Q w') :
    twp env A P (.op o s k) Q w :=
  .op (fun ho => (h ho).1) fun ho => (h ho).2

theorem twp.mono {Q Q' : α → σ → env.World → Prop} {S : Proc Op Res σ α}
    {w : env.World} (h : twp env A P S Q w)
    (hQ : ∀ a s w, Q a s w → Q' a s w) : twp env A P S Q' w := by
  induction h with
  | ret h => exact .ret (hQ _ _ _ h)
  | op hP _ ih => exact .op hP fun ho r w' hr => ih ho r w' hr
  | loop _ ih => exact .loop ih

theorem twp_bind {Q : β → σ → env.World → Prop} {S : Proc Op Res σ α}
    {f : α → σ → Proc Op Res σ β} {w : env.World}
    (h : twp env A P S (fun a s w => twp env A P (f a s) Q w) w) :
    twp env A P (S.bind f) Q w := by
  induction h with
  | ret h => exact h
  | op hP _ ih => exact .op hP fun ho r w' hr => ih ho r w' hr
  | loop _ ih =>
      refine .loop ?_
      rw [← Proc.unroll_bind]
      exact ih

/-- The loop rule: an invariant and a measure, in a well-founded order,
that every turn decreases. -/
theorem twp_loop {δ : Type} [WellFoundedRelation δ] {Q : α → σ → env.World → Prop}
    {body : β → σ → Proc Op Res σ (β ⊕ γ)} {k : γ → σ → Proc Op Res σ α}
    (I : β → σ → env.World → Prop) (v : β → σ → env.World → δ)
    (hbody : ∀ b s w, I b s w → twp env A P (body b s)
      (fun r s' w' => match r with
        | .inl b' => I b' s' w' ∧ WellFoundedRelation.rel (v b' s' w') (v b s w)
        | .inr c => twp env A P (k c s') Q w') w)
    {b : β} {s : σ} {w : env.World} (hI : I b s w) :
    twp env A P (.loop body b s k) Q w := by
  -- on the measure
  suffices h : ∀ x, ∀ b s w, v b s w = x → I b s w →
      twp env A P (.loop body b s k) Q w from h _ b s w rfl hI
  intro x
  refine WellFounded.induction (C := fun x => ∀ b s w, v b s w = x → I b s w →
    twp env A P (.loop body b s k) Q w) WellFoundedRelation.wf x ?_
  rintro x ih b s w rfl hI
  refine .loop (twp_bind ((hbody b s w hI).mono fun r s' w' hr => ?_))
  cases r with
  | inl b' => exact ih _ hr.2 b' s' w' rfl hr.1
  | inr c => exact hr

-- =============================================================== soundness

/-- Termination forgotten. -/
theorem twp.wp {Q : α → σ → env.World → Prop} {S : Proc Op Res σ α}
    {w : env.World} (h : twp env A P S Q w) : wp env A P S Q w := by
  induction h with
  | ret h => exact wp_ret h
  | op hP _ ih => exact wp_op fun ho => ⟨hP ho, fun r w' hr => ih ho r w' hr⟩
  | loop _ ih =>
      intro n
      cases n with
      | zero => exact trivial
      | succ n => exact ih n

theorem twp.run {Q : α → σ → env.World → Prop} {S S' : Proc Op Res σ α}
    {w w' : env.World} {tr : List (Op × σ)} (h : twp env A P S Q w)
    (hrun : Run env S w tr S' w') (htr : ∀ x ∈ tr, A x.1 x.2) :
    twp env A P S' Q w' := by
  induction hrun with
  | refl => exact h
  | op hr _ ih =>
      cases h with
      | op _ hk =>
          have ho := htr _ (List.mem_cons_self ..)
          exact ih (hk ho _ _ hr) fun x hx => htr x (List.mem_cons_of_mem _ hx)
  | loop _ ih =>
      cases h with
      | loop h => exact ih h htr

/-- One node of a run whose operations satisfy `A`. -/
inductive Step (env : Env Op Res) (A : Op → σ → Prop) :
    Proc Op Res σ α × env.World → Proc Op Res σ α × env.World → Prop
  | op {o : Op} {s : σ} {k : Res o → Proc Op Res σ α} {r : Res o}
      {w w' : env.World} (ho : A o s) (hr : env.resp w o r w') :
      Step env A (.op o s k, w) (k r, w')
  | loop {β' γ' : Type} {body : β' → σ → Proc Op Res σ (β' ⊕ γ')} {b : β'}
      {s : σ} {k : γ' → σ → Proc Op Res σ α} {w : env.World} :
      Step env A (.loop body b s k, w) (Proc.unroll body b s k, w)

theorem twp.acc {Q : α → σ → env.World → Prop} {S : Proc Op Res σ α}
    {w : env.World} (h : twp env A P S Q w) :
    Acc (fun c' c => Step env A c c') (S, w) := by
  induction h with
  | ret => exact ⟨_, fun c hc => nomatch hc⟩
  | op _ _ ih =>
      refine ⟨_, fun c hc => ?_⟩
      cases hc with
      | op ho hr => exact ih ho _ _ hr
  | loop _ ih =>
      refine ⟨_, fun c hc => ?_⟩
      cases hc with
      | loop => exact ih

/-- There is no infinite run. -/
theorem twp.no_infinite_run {Q : α → σ → env.World → Prop} {S : Proc Op Res σ α}
    {w : env.World} (h : twp env A P S Q w)
    (f : Nat → Proc Op Res σ α × env.World) (h0 : f 0 = (S, w)) :
    ¬ ∀ n, Step env A (f n) (f (n + 1)) := by
  intro hstep
  suffices hacc : ∀ c, Acc (fun c' c => Step (α := α) env A c c') c →
      ∀ n, f n ≠ c from hacc _ h.acc 0 h0
  intro c hc
  induction hc with
  | intro c _ ih =>
      rintro n rfl
      exact ih _ (hstep n) (n + 1) rfl

-- ===================================================================== to the end

/-- The surroundings have an answer to the operation. -/
def Env.Answers (env : Env Op Res) (w : env.World) (o : Op) : Prop := ∃ r w', env.resp w o r w'

/-- Along every run of `S` from `w` whose operations satisfy `A`, the
surroundings have an answer to the next. -/
def NeverStuck (env : Env Op Res) (A : Op → σ → Prop) (S : Proc Op Res σ α)
    (w : env.World) : Prop :=
  ∀ tr o s k w', Run env S w tr (.op o s k) w' → (∀ x ∈ tr, A x.1 x.2) → A o s →
    env.Answers w' o

theorem wp.neverStuck {Q : α → σ → env.World → Prop} {S : Proc Op Res σ α} {w : env.World}
    (h : wp env A (fun o _ w => env.Answers w o) S Q w) : NeverStuck env A S w :=
  fun _ _ _ _ _ hrun htr ho => wp_op_obligation (wp_run h hrun htr) ho

/-- What all runs come to, some run does, if there is always an answer. -/
theorem twp.returning {Q : α → σ → env.World → Prop} {S : Proc Op Res σ α} {w : env.World}
    (h : twp env (fun _ _ => True) P S Q w) (hgo : NeverStuck env (fun _ _ => True) S w) :
    ∃ tr a s w', Run env S w tr (.ret a s) w' ∧ Q a s w' := by
  induction h with
  | @ret a s w h => exact ⟨[], a, s, w, .refl _ _, h⟩
  | @op o s k w hP _ ih =>
      obtain ⟨r, w₁, hr⟩ := hgo [] o s k w (.refl _ _) (fun _ _ => trivial) trivial
      have hgo₁ : NeverStuck env (fun _ _ => True) (k r) w₁ := by
        intro tr o' s' k' w' hrun _ _
        exact hgo _ o' s' k' w' (.op hr hrun) (fun _ _ => trivial) trivial
      obtain ⟨tr, a, s', w', hrun, hQ⟩ := ih trivial r w₁ hr hgo₁
      exact ⟨_, a, s', w', .op hr hrun, hQ⟩
  | loop _ ih =>
      have hgo₁ := fun tr o s k w' hrun => hgo tr o s k w' (.loop hrun)
      obtain ⟨tr, a, s', w', hrun, hQ⟩ := ih hgo₁
      exact ⟨tr, a, s', w', .loop hrun, hQ⟩

/-- Total correctness by runs, in surroundings that keep the log `ok`: every
run whose operations satisfy `A` is finite and returns with `Q` if it
returns; and while the log is `nice` as well, it is never stuck before it
returns. -/
structure Finishes (ok nice : List ((o : Op) × Res o) → Prop) (A : Op → σ → Prop)
    (S : Proc Op Res σ α) (Q : α → σ → List ((o : Op) × Res o) → Prop)
    (w : List ((o : Op) × Res o)) : Prop where
  finite : ∀ f : Nat → Proc Op Res σ α × (Env.logged Op Res ok).World, f 0 = (S, w) →
    ¬ ∀ n, Step (Env.logged Op Res ok) A (f n) (f (n + 1))
  returns : ∀ tr a s w', Run (Env.logged Op Res ok) S w tr (.ret a s) w' →
    (∀ x ∈ tr, A x.1 x.2) → Q a s w'
  goes_on : NeverStuck (Env.logged Op Res fun w => ok w ∧ nice w) A S w

theorem twp.finishes {ok nice : List ((o : Op) × Res o) → Prop}
    {P : Op → σ → (Env.logged Op Res ok).World → Prop} {S : Proc Op Res σ α}
    {Q : α → σ → (Env.logged Op Res ok).World → Prop} {w : (Env.logged Op Res ok).World}
    (h : twp (Env.logged Op Res ok) A P S Q w)
    (hgo : NeverStuck (Env.logged Op Res fun w => ok w ∧ nice w) A S w) :
    Finishes ok nice A S Q w := by
  refine ⟨h.no_infinite_run, fun tr a s w' hrun htr => ?_, hgo⟩
  exact wp_ret_iff.mp (wp_run h.wp hrun htr)

/-- The log of all replies only grows. -/
theorem twp.suffix {ok : List ((o : Op) × Res o) → Prop}
    {P : Op → σ → (Env.logged Op Res ok).World → Prop} {S : Proc Op Res σ α}
    {Q : α → σ → (Env.logged Op Res ok).World → Prop} {w : (Env.logged Op Res ok).World}
    (h : twp (Env.logged Op Res ok) A P S Q w) :
    twp (Env.logged Op Res ok) A P S
      (fun a s (w' : List ((o : Op) × Res o)) => Q a s w' ∧ w <:+ w') w := by
  induction h with
  | ret h => exact .ret ⟨h, List.suffix_refl _⟩
  | op hP _ ih =>
      refine .op hP fun ho r w' hr => ?_
      refine twp.mono (ih ho r w' hr) fun a s w'' h => ⟨h.1, ?_⟩
      exact (hr.1 ▸ List.suffix_cons _ _).trans h.2
  | loop _ ih => exact .loop ih

/-- What holds from one log on holds from any other, in surroundings that
are fine with nothing they have not been fine with behind the first. -/
theorem twp.relog {ok ok' : List ((o : Op) × Res o) → Prop}
    {P : Op → σ → (Env.logged Op Res ok).World → Prop} {S : Proc Op Res σ α}
    {Q : α → σ → (Env.logged Op Res ok).World → Prop} {w : (Env.logged Op Res ok).World}
    (h : twp (Env.logged Op Res ok) A P S Q w) (before : List ((o : Op) × Res o))
    (hok : ∀ v : List ((o : Op) × Res o), ok' (v ++ before) → ok v) :
    twp (Env.logged Op Res ok') A (fun _ _ _ => True) S
      (fun a s (w' : List ((o : Op) × Res o)) => ∃ v, w' = v ++ before ∧ Q a s v)
      ((show List ((o : Op) × Res o) from w) ++ before) := by
  induction h with
  | ret h => exact .ret ⟨_, rfl, h⟩
  | op _ _ ih =>
      refine .op (fun _ => trivial) fun ho r w' hr => ?_
      obtain ⟨rfl, hr⟩ := hr
      exact ih ho r _ ⟨rfl, hok _ hr⟩
  | loop _ ih => exact .loop ih

/-- Operations that are not met are not in the log either: their number
there stays. -/
theorem twp.tally {ok : List ((o : Op) × Res o) → Prop} {c : Op → Bool}
    {P : Op → σ → (Env.logged Op Res ok).World → Prop} {S : Proc Op Res σ α}
    {Q : α → σ → (Env.logged Op Res ok).World → Prop} {w : (Env.logged Op Res ok).World}
    (h : twp (Env.logged Op Res ok) A P S Q w) (hc : ∀ o s w, P o s w → c o = false) :
    twp (Env.logged Op Res ok) A
      (fun o s w' => P o s w' ∧ Process.tally c w' = Process.tally c w) S
      (fun a s w' => Q a s w' ∧ Process.tally c w' = Process.tally c w) w := by
  induction h with
  | ret h => exact .ret ⟨h, rfl⟩
  | @op o s k w hP _ ih =>
      refine .op (fun ho => ⟨hP ho, rfl⟩) fun ho r w' hr => ?_
      have hcount : Process.tally c w' = Process.tally c w := by
        rw [hr.1]
        show Process.tally c w + (if c o then 1 else 0) = _
        rw [hc _ _ _ (hP ho)]
        rfl
      have h := ih ho r w' hr
      rw [hcount] at h
      exact h
  | loop _ ih => exact .loop ih

/-- Weakening the obligation. -/
theorem twp.weaken {P' : Op → σ → env.World → Prop} {Q : α → σ → env.World → Prop}
    {S : Proc Op Res σ α} {w : env.World} (h : twp env A P S Q w)
    (hP : ∀ o s w, P o s w → P' o s w) : twp env A P' S Q w := by
  induction h with
  | ret h => exact .ret h
  | op hP' _ ih => exact .op (fun ho => hP _ _ _ (hP' ho)) fun ho r w' hr => ih ho r w' hr
  | loop _ ih => exact .loop ih

-- ==================================================== the rules on programs

theorem twp_pure {Q : α → σ → env.World → Prop} {a : α} {s : σ} {w : env.World}
    (h : Q a s w) : twp env A P ((pure a : Prog Op Res σ α) s) Q w :=
  twp_ret h

theorem twp_seq {Q : β → σ → env.World → Prop} {m : Prog Op Res σ α}
    {f : α → Prog Op Res σ β} {s : σ} {w : env.World}
    (h : twp env A P (m s) (fun a s' w' => twp env A P (f a s') Q w') w) :
    twp env A P ((m >>= f) s) Q w :=
  twp_bind h

theorem twp_get_seq {Q : β → σ → env.World → Prop} {f : σ → Prog Op Res σ β}
    {s : σ} {w : env.World} (h : twp env A P (f s s) Q w) :
    twp env A P ((Prog.get >>= f) s) Q w :=
  h

theorem twp_modify_seq {Q : β → σ → env.World → Prop} {g : σ → σ}
    {f : Unit → Prog Op Res σ β} {s : σ} {w : env.World}
    (h : twp env A P (f () (g s)) Q w) :
    twp env A P ((Prog.modify g >>= f) s) Q w :=
  h

theorem twp_modify {Q : Unit → σ → env.World → Prop} {g : σ → σ} {s : σ}
    {w : env.World} (h : Q () (g s) w) :
    twp env A P ((Prog.modify g : Prog Op Res σ Unit) s) Q w :=
  twp_ret h

theorem twp_call {o : Op} {Q : Res o → σ → env.World → Prop} {s : σ}
    {w : env.World}
    (h : A o s → P o s w ∧ ∀ r w', env.resp w o r w' → Q r s w') :
    twp env A P ((Prog.call o : Prog Op Res σ (Res o)) s) Q w := by
  refine twp_op fun ho => ⟨(h ho).1, fun r w' hr => ?_⟩
  exact twp_ret ((h ho).2 r w' hr)

theorem twp_iterate {δ : Type} [WellFoundedRelation δ]
    {Q : γ → σ → env.World → Prop} {body : β → Prog Op Res σ (β ⊕ γ)}
    (I : β → σ → env.World → Prop) (v : β → σ → env.World → δ)
    (hbody : ∀ b s w, I b s w → twp env A P (body b s)
      (fun r s' w' => match r with
        | .inl b' => I b' s' w' ∧ WellFoundedRelation.rel (v b' s' w') (v b s w)
        | .inr c => Q c s' w') w)
    {b : β} {s : σ} {w : env.World} (hI : I b s w) :
    twp env A P (Prog.iterate body b s) Q w := by
  refine twp_loop I v (fun b s w h => (hbody b s w h).mono fun r s' w' hr => ?_) hI
  cases r with
  | inl b' => exact hr
  | inr c => exact twp_ret hr

theorem twp_forever {δ : Type} [WellFoundedRelation δ]
    {Q : γ → σ → env.World → Prop} {body : Prog Op Res σ (Option γ)}
    (I : σ → env.World → Prop) (v : σ → env.World → δ)
    (hbody : ∀ s w, I s w → twp env A P (body s)
      (fun r s' w' => match r with
        | none => I s' w' ∧ WellFoundedRelation.rel (v s' w') (v s w)
        | some c => Q c s' w') w)
    {s : σ} {w : env.World} (hI : I s w) :
    twp env A P (Prog.forever body s) Q w := by
  refine twp_iterate (fun _ => I) (fun _ => v) (fun _ s w h => twp_seq ?_) hI
  refine (hbody s w h).mono fun r s' w' hr => ?_
  cases r with
  | none => exact twp_pure hr
  | some c => exact twp_pure hr

theorem twp_forM_cons {Q : Unit → σ → env.World → Prop} {x : α} {xs : List α}
    {f : α → Prog Op Res σ PUnit} {s : σ} {w : env.World}
    (h : twp env A P (f x s) (fun _ s' w' => twp env A P (xs.forM f s') Q w') w) :
    twp env A P ((x :: xs).forM f s) Q w :=
  twp_bind h

/-- A counting loop with an invariant on the count. -/
theorem twp_forM_range' {f : Nat → Prog Op Res σ PUnit}
    (I : Nat → σ → env.World → Prop) (n : Nat) : ∀ {i : Nat} {s : σ}
      {w : env.World},
      (∀ j s w, i ≤ j → j < i + n → I j s w →
        twp env A P (f j s) (fun _ s' w' => I (j + 1) s' w') w) → I i s w →
      twp env A P ((List.range' i n).forM f s) (fun _ s' w' => I (i + n) s' w') w := by
  induction n with
  | zero => exact fun _ hI => twp_pure hI
  | succ n ih =>
      intro i s w hbody hI
      rw [List.range'_succ]
      refine twp_forM_cons ((hbody i s w (Nat.le_refl i) (by omega) hI).mono ?_)
      intro _ s' w' hI'
      have h := ih (i := i + 1) (fun j s w hj hj' => hbody j s w (by omega) (by omega))
        hI'
      rw [Nat.add_right_comm] at h
      exact h

theorem twp_forM_range {f : Nat → Prog Op Res σ PUnit}
    (I : Nat → σ → env.World → Prop) {n : Nat} {s : σ} {w : env.World}
    (hbody : ∀ j s w, j < n → I j s w →
      twp env A P (f j s) (fun _ s' w' => I (j + 1) s' w') w) (hI : I 0 s w) :
    twp env A P ((List.range n).forM f s) (fun _ s' w' => I n s' w') w := by
  have h := twp_forM_range' (f := f) I n (i := 0)
    (fun j s w _ hj => hbody j s w (by omega)) hI
  rw [← List.range_eq_range', Nat.zero_add] at h
  exact h

/-- A counting loop that carries a value. -/
theorem twp_foldlM_range' {f : β → Nat → Prog Op Res σ β}
    (I : Nat → β → σ → env.World → Prop) (n : Nat) : ∀ {i : Nat} {b : β} {s : σ}
      {w : env.World},
      (∀ j b s w, i ≤ j → j < i + n → I j b s w →
        twp env A P (f b j s) (fun b' s' w' => I (j + 1) b' s' w') w) → I i b s w →
      twp env A P ((List.range' i n).foldlM f b s)
        (fun b' s' w' => I (i + n) b' s' w') w := by
  induction n with
  | zero => exact fun _ hI => twp_pure hI
  | succ n ih =>
      intro i b s w hbody hI
      rw [List.range'_succ, List.foldlM_cons]
      refine twp_seq ((hbody i b s w (Nat.le_refl i) (by omega) hI).mono ?_)
      intro b' s' w' hI'
      have h := ih (i := i + 1)
        (fun j b s w hj hj' => hbody j b s w (by omega) (by omega)) hI'
      rw [Nat.add_right_comm] at h
      exact h

theorem twp_foldlM_range {f : β → Nat → Prog Op Res σ β}
    (I : Nat → β → σ → env.World → Prop) {n : Nat} {b : β} {s : σ} {w : env.World}
    (hbody : ∀ j b s w, j < n → I j b s w →
      twp env A P (f b j s) (fun b' s' w' => I (j + 1) b' s' w') w) (hI : I 0 b s w) :
    twp env A P ((List.range n).foldlM f b s) (fun b' s' w' => I n b' s' w') w := by
  have h := twp_foldlM_range' (f := f) I n (i := 0)
    (fun j b s w _ hj => hbody j b s w (by omega)) hI
  rw [← List.range_eq_range', Nat.zero_add] at h
  exact h

end Process
