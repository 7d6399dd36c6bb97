/-
A hub and its peers come to rest when their users do.

Let every process by itself have finite runs only, a peer as long as it is
given no more than so much to read (`Sparing`). Then the system has no
endless run in which the users stop typing and answering. First the hub
stops, as it does by itself, and then nobody feeds the peers any more: what
a peer has read and what it has yet to read is bounded (`budget`), and it
stops too.

# Records

That a process by itself stops (`Stops`) is a `twp` in surroundings that
keep a record of the replies. A step in the system is a step there, the wire
giving the reply (`Act.step`), so the record of a process can be kept along
a run of the system, and the run of the process goes down in a well-founded
order (`Stops.still`).
-/
import Mahjong.Lib.Joint
import Mahjong.Lib.Budget

namespace Process

open CString

-- ================================================================= what comes to rest

section Sequence

universe u

variable {α : Type u} {R : α → α → Prop} {moves : Nat → Prop} {Rep : Nat → α → Prop}

end Sequence

-- =================================================================== steps as replies

section Records

variable {Fd ε σ α : Type} [DecidableEq Fd] {closed : Fd → Prop} {eof : Prop}
  {S S' : Proc (IoOp Fd ε) IoOp.Res σ α} {w w' : Wire Fd} {x : Option (IoOp Fd ε × σ)}
  {sent : Option (Fd × Line)}

/-- The wire gives this reply, and is left like that. -/
def Wire.Gives (closed : Fd → Prop) (w w' : Wire Fd) : (o : IoOp Fd ε) → o.Res → Prop
  | .readline fd n, l => ∃ bytes, Readline fd (n - 1) w bytes w' ∧ l = bytes.map Prod.snd
      ∧ (Ended (n - 1) bytes ∨ closed fd)
  | .select fds, ready => (∃ fd ∈ fds, ready fd = true) ∧ w' = w
  | _, _ => w' = w

/-- What a process does in the system it does by itself, with the reply that
its wire gives. -/
theorem Act.step (h : Act closed eof S w x sent S' w') (ok : Record Fd ε → Prop)
    (A : IoOp Fd ε → σ → Prop) :
    (x = none ∧ w' = w ∧ ∀ log, Step (Env.logged _ _ ok) A (S, log) (S', log))
      ∨ ∃ o s r, x = some (o, s) ∧ w.Gives closed w' o r
        ∧ ∀ log, A o s → ok (⟨o, r⟩ :: log) →
          Step (Env.logged _ _ ok) A (S, log) (S', ⟨o, r⟩ :: log) := by
  cases h with
  | loop => exact Or.inl ⟨rfl, rfl, fun _ => .loop⟩
  | readline hline hend =>
      exact Or.inr ⟨_, _, _, rfl, ⟨_, hline, rfl, hend⟩, fun _ hA hok => .op hA ⟨rfl, hok⟩⟩
  | select hready hsome =>
      obtain ⟨fd, hfd⟩ := hsome
      exact Or.inr ⟨_, _, _, rfl, ⟨⟨fd, (hready fd hfd).1, hfd⟩, rfl⟩,
        fun _ hA hok => .op hA ⟨rfl, hok⟩⟩
  | write => exact Or.inr ⟨_, _, (), rfl, rfl, fun _ hA hok => .op hA ⟨rfl, hok⟩⟩
  | scanf => exact Or.inr ⟨_, _, _, rfl, rfl, fun _ hA hok => .op hA ⟨rfl, hok⟩⟩
  | indeterminate => exact Or.inr ⟨_, _, _, rfl, rfl, fun _ hA hok => .op hA ⟨rfl, hok⟩⟩
  | note => exact Or.inr ⟨_, _, (), rfl, rfl, fun _ hA hok => .op hA ⟨rfl, hok⟩⟩

variable {A : IoOp Fd ε → σ → Prop} {ok : Record Fd ε → Prop}

end Records

-- ======================================================================= what is read

section Budget

variable {Fd ε : Type} {live closed : Fd → Prop} {w w' : Wire Fd} {fd : Fd}

/-- All that is on its way to a process. -/
def Wire.load [Fintype Fd] (w : Wire Fd) : Nat := w.buf.length + ∑ fd, (w.rest fd).length

variable [DecidableEq Fd]

theorem MyRead.load [Fintype Fd] {b : Option (Fd × Char)} (h : MyRead fd w b w') :
    w.load = b.toList.length + w'.load := by
  cases h with
  | buffered hbuf =>
      simp only [Wire.load, hbuf, List.length_cons, Option.toList_some, List.length_nil]
      omega
  | @filled c chunk rest hbuf hrest hlen =>
      have hbefore := Finset.add_sum_erase Finset.univ (fun q => (w.rest q).length)
        (Finset.mem_univ fd)
      have hbehind := Finset.add_sum_erase Finset.univ
        (fun q => (Function.update w.rest fd rest q).length) (Finset.mem_univ fd)
      have hothers : ∑ q ∈ Finset.univ.erase fd, (Function.update w.rest fd rest q).length
          = ∑ q ∈ Finset.univ.erase fd, (w.rest q).length := by
        refine Finset.sum_congr rfl fun q hq => ?_
        rw [Function.update_of_ne (Finset.ne_of_mem_erase hq)]
      simp only [Function.update_self, hrest, List.length_cons, List.length_append]
        at hbefore hbehind
      simp only [Wire.load, hbuf, List.length_map, Option.toList_some, List.length_cons,
        List.length_nil]
      omega
  | eof => simp

/-- What is read is not to be read any more. -/
theorem Readline.load [Fintype Fd] {n : Nat} {bytes : List (Fd × Char)}
    (h : Readline fd n w bytes w') : w.load = bytes.length + w'.load := by
  induction h with
  | full => simp
  | eof h => simpa using h.load
  | newline h => simpa using h.load
  | char h _ _ ih =>
      have hload := h.load
      simp only [Option.toList_some, List.length_cons, List.length_nil] at hload ⊢
      omega

theorem Wire.Gives.load [Fintype Fd] {o : IoOp Fd ε} {r : o.Res} (h : w.Gives closed w' o r) :
    o.cost r + w'.load ≤ w.load + 1 ∧ (o ≠ .scanf → o.cost r + w'.load = w.load) := by
  cases o with
  | readline fd n =>
      obtain ⟨bytes, hline, rfl, -⟩ := h
      have hload := hline.load
      simp only [IoOp.cost, List.length_map]
      omega
  | select fds =>
      obtain ⟨-, rfl⟩ := h
      simp [IoOp.cost]
  | scanf =>
      obtain rfl : w' = w := h
      simp [IoOp.cost, Nat.add_comm]
  | exit => exact nomatch r
  | _ =>
      obtain rfl : w' = w := h
      simp [IoOp.cost]

end Budget

-- ======================================================================== the system

namespace Joint

variable {ι φ ε δ σ τ α β : Type} [DecidableEq ι] [DecidableEq φ] {sock : φ}

section Steps

variable {J J' : Joint ι φ ε δ σ τ α β} {e : Event ι φ ε δ σ τ} {p : ι}

end Steps

-- ------------------------------------------------------------------- what a peer reads

section Fed

variable [Fintype φ] {f : Nat → Joint ι φ ε δ σ τ α β} {p : ι} {N n : Nat} {log : Record φ δ}

/-- What a peer may read up to the `n`-th state, if it is not fed behind
the `N`-th. -/
def budget (f : Nat → Joint ι φ ε δ σ τ α β) (p : ι) (N n : Nat) : Nat :=
  ((f 0).peerWire p).load + ∑ i ∈ Finset.range (min n N), (((f (i + 1)).peerWire p).load + 1)

/-- A record of the peer in the `n`-th state that does not exceed it. -/
def InBudget (f : Nat → Joint ι φ ε δ σ τ α β) (p : ι) (N n : Nat) (log : Record φ δ) : Prop :=
  volume log + ((f n).peerWire p).load ≤ budget f p N n

omit [DecidableEq ι] [DecidableEq φ] in
theorem budget_succ (hn : n < N) :
    budget f p N (n + 1) = budget f p N n + (((f (n + 1)).peerWire p).load + 1) := by
  rw [budget, budget, Nat.min_eq_left hn, Nat.min_eq_left hn.le, Finset.sum_range_succ,
    Nat.add_assoc]

omit [DecidableEq ι] [DecidableEq φ] in
theorem budget_mono {m : Nat} (h : min n N ≤ min m N) : budget f p N n ≤ budget f p N m := by
  refine Nat.add_le_add_left (Finset.sum_le_sum_of_subset ?_) _
  exact Finset.range_subset_range.mpr h

omit [DecidableEq ι] [DecidableEq φ] in
/-- Where nothing comes in it need not pay. -/
theorem InBudget.same (hwire : (f (n + 1)).peerWire p = (f n).peerWire p)
    (h : InBudget f p N n log) : InBudget f p N (n + 1) log := by
  have hle : budget f p N n ≤ budget f p N (n + 1) := budget_mono (by omega)
  unfold InBudget at h ⊢
  rw [hwire]
  exact h.trans hle

omit [DecidableEq ι] in
/-- And it pays for what is read. -/
theorem InBudget.reply {closed : φ → Prop} {o : IoOp φ δ} {r : o.Res}
    (hgives : ((f n).peerWire p).Gives closed ((f (n + 1)).peerWire p) o r)
    (hscanf : N ≤ n → o ≠ .scanf) (h : InBudget f p N n log) :
    InBudget f p N (n + 1) (⟨o, r⟩ :: log) := by
  obtain ⟨hpays, hexact⟩ := hgives.load
  unfold InBudget at h ⊢
  rcases Nat.lt_or_ge n N with hn | hn
  · have hnext := budget_succ (f := f) (p := p) hn
    simp only [volume]
    omega
  · have hexact := hexact (hscanf hn)
    have hle : budget f p N n ≤ budget f p N (n + 1) := budget_mono (by omega)
    simp only [volume]
    omega

end Fed

-- -------------------------------------------------------------------- the whole system

variable {f : Nat → Joint ι φ ε δ σ τ α β} {e : Nat → Event ι φ ε δ σ τ}
  (hstep : ∀ n, Step sock (f n) (e n) (f (n + 1)))
include hstep

end Joint

end Process
