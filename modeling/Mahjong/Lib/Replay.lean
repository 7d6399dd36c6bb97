/-
Runs by evaluation: a program played against scripted replies.

`Proc.replay` follows a program node by node, `react` giving the reply to
each operation from a script, until an operation meets the goal. What it
finds is a run (`Proc.replay_run`), so that a statement about all runs is
refuted by evaluating one.
-/
import Mahjong.Lib.Process

namespace Process

variable {Op : Type} {Res : Op → Type} {σ τ : Type} {α : Type}

/-- Does the program, within so many nodes, get to an operation that
meets the goal, all operations before it being fine? -/
def Proc.replay (react : τ → (o : Op) → Option (Res o × τ))
    (fine : Op → σ → Bool) (goal : τ → Op → σ → Bool) : Nat → τ → Proc Op Res σ α → Bool
  | 0, _, _ => false
  | _ + 1, _, .ret _ _ => false
  | n + 1, t, .op o s k =>
      goal t o s || (fine o s && match react t o with
        | some (r, t') => replay react fine goal n t' (k r)
        | none => false)
  | n + 1, t, .loop body b s k => replay react fine goal n t (Proc.unroll body b s k)

/-- What a replay finds is a run, when the surroundings may reply as the
script does: `R` ties the script's state to the world. -/
theorem Proc.replay_run {env : Env Op Res} {react : τ → (o : Op) → Option (Res o × τ)}
    {fine : Op → σ → Bool} {goal : τ → Op → σ → Bool} {R : τ → env.World → Prop}
    (hreact : ∀ t o r t' w, react t o = some (r, t') → R t w →
      ∃ w', env.resp w o r w' ∧ R t' w') :
    ∀ {n : Nat} {t : τ} {S : Proc Op Res σ α} {w : env.World}, R t w →
      S.replay react fine goal n t = true →
      ∃ tr o s k t' w', Run env S w tr (.op o s k) w' ∧ R t' w'
        ∧ goal t' o s = true ∧ ∀ x ∈ tr, fine x.1 x.2 = true := by
  intro n
  induction n with
  | zero => exact fun _ h => absurd h Bool.false_ne_true
  | succ n ih =>
      intro t S w hR h
      cases S with
      | ret a s => exact absurd h Bool.false_ne_true
      | op o s k =>
          rw [Proc.replay, Bool.or_eq_true, Bool.and_eq_true] at h
          rcases h with hgoal | ⟨hfine, h⟩
          · exact ⟨[], o, s, k, t, w, .refl _ _, hR, hgoal, fun x hx => nomatch hx⟩
          · cases hr : react t o with
            | none =>
                rw [hr] at h
                exact absurd h Bool.false_ne_true
            | some x =>
                obtain ⟨r, t'⟩ := x
                rw [hr] at h
                obtain ⟨w', hresp, hR'⟩ := hreact t o r t' w hr hR
                obtain ⟨tr, o', s', k', t'', w'', hrun, hR'', hgoal, hall⟩ := ih hR' h
                refine ⟨_, o', s', k', t'', w'', .op hresp hrun, hR'', hgoal,
                  fun x hx => ?_⟩
                rcases List.mem_cons.mp hx with rfl | hx
                · exact hfine
                · exact hall x hx
      | loop body b s k =>
          obtain ⟨tr, o', s', k', t', w', hrun, hrest⟩ := ih hR h
          exact ⟨tr, o', s', k', t', w', .loop hrun, hrest⟩

/-- Does the program return, within so many nodes and through `fine`
operations only, with something good? -/
def Proc.playOut (react : τ → (o : Op) → Option (Res o × τ)) (fine : Op → σ → Bool)
    (good : τ → α → σ → Bool) : Nat → τ → Proc Op Res σ α → Bool
  | 0, _, _ => false
  | _ + 1, t, .ret a s => good t a s
  | n + 1, t, .op o s k =>
      fine o s && match react t o with
        | some (r, t') => playOut react fine good n t' (k r)
        | none => false
  | n + 1, t, .loop body b s k => playOut react fine good n t (Proc.unroll body b s k)

theorem Proc.playOut_run {env : Env Op Res} {react : τ → (o : Op) → Option (Res o × τ)}
    {fine : Op → σ → Bool} {good : τ → α → σ → Bool} {R : τ → env.World → Prop}
    (hreact : ∀ t o r t' w, react t o = some (r, t') → R t w →
      ∃ w', env.resp w o r w' ∧ R t' w') :
    ∀ {n : Nat} {t : τ} {S : Proc Op Res σ α} {w : env.World}, R t w →
      S.playOut react fine good n t = true →
      ∃ tr a s t' w', Run env S w tr (.ret a s) w' ∧ R t' w' ∧ good t' a s = true
        ∧ ∀ x ∈ tr, fine x.1 x.2 = true := by
  intro n
  induction n with
  | zero => exact fun _ h => absurd h Bool.false_ne_true
  | succ n ih =>
      intro t S w hR h
      cases S with
      | ret a s => exact ⟨[], a, s, t, w, .refl _ _, hR, h, fun x hx => nomatch hx⟩
      | op o s k =>
          rw [Proc.playOut, Bool.and_eq_true] at h
          obtain ⟨hfine, h⟩ := h
          cases hr : react t o with
          | none =>
              rw [hr] at h
              exact absurd h Bool.false_ne_true
          | some x =>
              obtain ⟨r, t'⟩ := x
              rw [hr] at h
              obtain ⟨w', hresp, hR'⟩ := hreact t o r t' w hr hR
              obtain ⟨tr, a, s', t'', w'', hrun, hR'', hgood, hall⟩ := ih hR' h
              refine ⟨_, a, s', t'', w'', .op hresp hrun, hR'', hgood, fun x hx => ?_⟩
              rcases List.mem_cons.mp hx with rfl | hx
              · exact hfine
              · exact hall x hx
      | loop body b s k =>
          obtain ⟨tr, a, s', t', w', hrun, hrest⟩ := ih hR h
          exact ⟨tr, a, s', t', w', .loop hrun, hrest⟩

/-- The replies looked up in the log, which is the world. -/
def fromLog (script : List ((o : Op) × Res o) → (o : Op) → Option (Res o))
    (w : List ((o : Op) × Res o)) (o : Op) :
    Option (Res o × List ((o : Op) × Res o)) :=
  (script w o).map fun r => (r, ⟨o, r⟩ :: w)

theorem Proc.replay_logged {ok : List ((o : Op) × Res o) → Prop}
    {script : List ((o : Op) × Res o) → (o : Op) → Option (Res o)}
    {fine : Op → σ → Bool} {goal : List ((o : Op) × Res o) → Op → σ → Bool}
    (hok : ∀ w o r, script w o = some r → ok (⟨o, r⟩ :: w)) {n : Nat}
    {S : Proc Op Res σ α} {w : List ((o : Op) × Res o)}
    (h : S.replay (fromLog script) fine goal n w = true) :
    ∃ tr o s k w', Run (Env.logged Op Res ok) S w tr (.op o s k) w'
      ∧ goal w' o s = true ∧ ∀ x ∈ tr, fine x.1 x.2 = true := by
  have hreact : ∀ t o r t' (w : (Env.logged Op Res ok).World),
      fromLog script t o = some (r, t') → t = w →
      ∃ w', (Env.logged Op Res ok).resp w o r w' ∧ t' = w' := by
    rintro t o r t' w hr rfl
    obtain ⟨r', hr', he⟩ := Option.map_eq_some_iff.mp hr
    cases he
    exact ⟨_, ⟨rfl, hok _ _ _ hr'⟩, rfl⟩
  obtain ⟨tr, o, s, k, t, w', hrun, rfl, hrest⟩ := Proc.replay_run hreact rfl h
  exact ⟨tr, o, s, k, _, hrun, hrest⟩

end Process
