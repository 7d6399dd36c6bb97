/-
The course of a round, whatever the hands are: chains of claims end, and
a table that a round gets to is one that the rules of `Proofs.Exact` and
`Proofs.Chain` speak about.

# Chains

Between two entries of `othersreaction` exactly one capacity drops by
three (`Dropped`), nothing is ever given back, and the marks in the log
count the entries (`calls`). Sixteen is one more than five times three,
so there are at most twenty nested entries (`chains_end`).

# Patience

An eat prompt may be answered wrong any number of times, but not for
ever. A run in which every prompt is answered at last (`Answered`) is a
run in surroundings with a bound on the wrong answers for every pair
(`patient`), for which there is a measure.
-/
import Mahjong.Proofs.Chain
import Mahjong.Proofs.Deal
import Mahjong.Proofs.Script

namespace Mahjong

-- ================================================================== sets laid down

/-- From `s` to `s'` the capacities have dropped by three `n` times. -/
inductive Dropped : Nat → Game → Game → Prop
  | refl (s : Game) : Dropped 0 s s
  | step {n : Nat} {s s₁ s₂ : Game} (h : Dropped n s s₁) (hless : OneLess s₁ s₂) :
      Dropped (n + 1) s s₂

theorem Dropped.caps {n : Nat} {s s' : Game} (h : Dropped n s s') :
    s'.caps + 3 * n = s.caps := by
  induction h with
  | refl => rfl
  | step _ hless ih =>
      have hcaps := hless.caps
      omega

/-- Four players with sixteen tiles each can lay down twenty sets. -/
theorem Dropped.le {n : Nat} {s s' : Game} (h : Dropped n s s') (hs : Slots s)
    (hs' : Slots s') : n ≤ 20 := by
  have hcaps := h.caps
  have hfrom := hs.caps_bounds
  have hto := hs'.caps_bounds
  omega

namespace Server

open Process CString

-- ==================================================================== patience

theorem eats_cons_le (x : (o : SOp) × o.Res) (w : Log) : eats w ≤ eats (x :: w) := by
  obtain ⟨o, r⟩ := x
  cases o with
  | note e => cases e <;> first | exact Nat.le_refl _ | exact Nat.le_succ _
  | _ => exact Nat.le_refl _

theorem tries_le_length (w : Log) : tries w ≤ w.length := by
  induction w with
  | nil => exact Nat.le_refl _
  | cons x w ih =>
      obtain ⟨o, r⟩ := x
      have hle : tries w ≤ (⟨o, r⟩ :: w : Log).length := ih.trans (Nat.le_succ _)
      cases o with
      | note e =>
          cases e with
          | invalid p => exact Nat.succ_le_succ ih
          | eat p i j => exact Nat.zero_le _
          | _ => exact hle
      | _ => exact hle

/-- Every eat prompt is answered at last with a pair that is accepted:
while wrong pairs have been offered, another pair will be accepted. -/
def Answered (log : Nat → Log) : Prop :=
  ∀ n, 0 < tries (log n) → ∃ m, eats (log n) < eats (log m)

/-- Then there is a bound on the wrong answers to each prompt. -/
theorem Answered.patient {log : Nat → Log} (h : Answered log)
    (hmono : ∀ n, eats (log n) ≤ eats (log (n + 1))) :
    ∃ g, ∀ n, patient g (log n) := by
  suffices hbound : ∀ k, ∃ b, ∀ n, eats (log n) = k → tries (log n) ≤ b by
    choose g hg using hbound
    exact ⟨g, fun n => hg _ n rfl⟩
  intro k
  by_cases hzero : ∀ n, eats (log n) = k → tries (log n) = 0
  · exact ⟨0, fun n hn => (hzero n hn).le⟩
  -- the prompt is over at `m`, so only the logs before count
  push Not at hzero
  obtain ⟨n₀, hn₀, htries⟩ := hzero
  obtain ⟨m, hm⟩ := h n₀ (Nat.pos_of_ne_zero htries)
  refine ⟨(Finset.range m).sup fun n => tries (log n), fun n hn => ?_⟩
  refine Finset.le_sup (f := fun n => tries (log n)) (Finset.mem_range.mpr ?_)
  by_contra hge
  have hle := monotone_nat_of_le_succ (f := fun n => eats (log n)) hmono (Nat.not_lt.mp hge)
  simp only at hle
  omega

section Step

variable {α : Type} {A : SOp → Game → Prop}
  {c c' : Proc SOp IoOp.Res Game α × anyone.World}

theorem eats_step_le (h : Step anyone A c c') : eats c.2 ≤ eats c'.2 := by
  cases h with
  | op ho hr =>
      obtain ⟨rfl, -⟩ := hr
      exact eats_cons_le _ _
  | loop => exact Nat.le_refl _

theorem step_patient {g : Nat → Nat} (h : Step anyone A c c') (hg : patient g c'.2) :
    Step (within (patient g)) A c c' := by
  cases h with
  | op ho hr => exact .op ho ⟨hr.1, hg⟩
  | loop => exact .loop

end Step

/-- A finite run is patient. -/
theorem Run.patient {α : Type} {S S' : Proc SOp IoOp.Res Game α} {w w' : Log}
    {tr : List (SOp × Game)} (h : Run anyone S w tr S' w') :
    ∃ g, Run (within (patient g)) S w tr S' w' := by
  refine ⟨fun _ => w'.length, Run.relog h fun v hv _ => ?_⟩
  exact (tries_le_length v).trans hv.length_le

-- ============================================================== the nested calls

/-- There is a tile that is no flower. -/
def Findable (l : List Mj) : Prop := ∃ m ∈ l, m.type ≠ flower

instance (l : List Mj) : Decidable (Findable l) :=
  inferInstanceAs (Decidable (∃ m ∈ l, m.type ≠ flower))

def isDraw : SOp → Bool
  | .note (.draw _) => true
  | _ => false

/-- What is asked of a run: `draw` finds a tile that is no flower. -/
def Finds (o : SOp) (s : Game) : Prop := isDraw o = true → Findable s.undrawn

instance (o : SOp) (s : Game) : Decidable (Finds o s) :=
  inferInstanceAs (Decidable (isDraw o = true → Findable s.undrawn))

def isCall : SOp → Bool
  | .note (.othersreaction _) => true
  | _ => false

/-- How often `othersreaction` has been entered. -/
def calls (w : Log) : Nat := tally isCall w

/-- What holds within one call: it is no entry, and no capacity is above
its bound. -/
def Inside (b : Seat → Nat) (o : SOp) (s : Game) (_ : Log) : Prop :=
  isCall o = false ∧ Below b s

section Inside

variable {b : Seat → Nat}

theorem inside_light : Light b (Inside b) where
  quiet := by
    constructor
    · decide
    · exact fun _ _ _ _ h _ => h
    · exact fun _ _ _ _ _ h => ⟨rfl, h⟩
    · intro e s w he h
      cases e <;> first | exact ⟨rfl, h⟩ | exact (Bool.false_ne_true he).elim
    all_goals
      intros
      exact ⟨rfl, by assumption⟩
  access := fun _ _ _ _ _ h => ⟨rfl, h⟩
  counts := fun _ _ _ h => ⟨rfl, h⟩
  win := fun _ _ _ h => ⟨rfl, h⟩
  print := fun _ _ _ _ _ h => ⟨rfl, h⟩
  quietGang := fun _ _ _ _ h => ⟨rfl, h⟩

theorem Findable.ne_nil {l : List Mj} (h : Findable l) : l ≠ [] := by
  obtain ⟨m, hm, -⟩ := h
  exact List.ne_nil_of_mem hm

theorem Findable.tail {m : Mj} {l : List Mj} (h : Findable (m :: l))
    (hm : m.type = flower) : Findable l := by
  obtain ⟨x, hx, hno⟩ := h
  rcases List.mem_cons.mp hx with rfl | hx
  · exact absurd hm hno
  · exact ⟨x, hx, hno⟩

theorem finds_feed {P : SOp → Game → Log → Prop}
    (hread : ∀ i s w, Below b s → P (.note (.access .shuffledMjs i)) s w) :
    Feed b Finds P Findable where
  draw := fun _ _ h => h rfl
  read := fun s w _ hu h _ => ⟨h.ne_nil, hread _ s w hu⟩
  next := fun _ _ h hm => h.tail hm

theorem inside_watch {d : Seat} {s : Game} {w : Log} (hu : Below b s) :
    Watch (Inside b) d s w where
  offer := fun _ _ _ _ _ _ _ => ⟨rfl, hu⟩
  gang := fun _ _ _ _ _ => ⟨rfl, ganged_below hu⟩
  pong := fun _ _ _ _ _ => ⟨rfl, ponged_below hu⟩
  eat := fun _ i j _ _ _ => ⟨rfl, eaten_below hu i j⟩
  unwanted := fun _ _ => ⟨rfl, hu⟩

end Inside

/-- What holds along a chain that began with the table `s₀` and the log
`w₀`. The `n`-th nested call begins when `n` sets have been laid down; in
it no capacity is above what it was when it began. -/
def Nested (s₀ : Game) (w₀ : Log) (o : SOp) (s : Game) (w : Log) : Prop :=
  ∃ n s₁, n ≤ 20 ∧ Dropped n s₀ s₁ ∧ Below (fun q => (s₁.players q).normalCapacity) s
    ∧ if isCall o then calls w = calls w₀ + n ∧ s = s₁ else calls w = calls w₀ + n + 1

section Chain

variable {g : Nat → Nat} {d : Seat} {s s₀ : Game} {w w₀ : Log}

/-- One call: nothing raises a capacity, and nothing in it is another
call. -/
theorem twp_pass (hs : Slots s) {n : Nat} (hn : n ≤ 20) (hdrop : Dropped n s₀ s)
    (hcalls : calls w = calls w₀ + n) :
    twp (within (patient g)) Finds (Nested s₀ w₀) (reaction d s)
      (fun o s' w' => PassEnds s d w o s' w' ∧ calls w' = calls w₀ + n + 1) w := by
  set b := fun q => (s.players q).normalCapacity with hb
  have hu : Below b s := fun q => Nat.le_refl _
  have hfeed : Feed b Finds (Inside b) Findable := finds_feed fun _ _ _ h => ⟨rfl, h⟩
  have hentered : calls (entered d w) = calls w₀ + n + 1 := by
    show calls w + 1 = _
    omega
  refine twp_seq (twp_note fun _ => ⟨⟨n, s, hn, hdrop, hu, hcalls, rfl⟩, ?_⟩)
  have hrest := (twp_firstOf inside_light hfeed hs hu (g := g)
    (inside_watch hu) stages [] (entered d w) rfl (.nil _)).tally
    (c := isCall) fun o s w h => h.1
  refine (hrest.weaken ?_).mono fun o s' w' h => ⟨h.1, h.2.trans hentered⟩
  rintro o s' w' ⟨⟨hno, hbelow⟩, hcount⟩
  refine ⟨n, s, hn, hdrop, hbelow, ?_⟩
  rw [hno]
  exact hcount.trans hentered

/-- The whole chain. -/
theorem twp_chain (hs : Slots s) :
    twp (within (patient g)) Finds (Nested s w) (othersreaction d s)
      (fun _ _ _ => True) w := by
  refine (twp_othersreaction (fun _ s' w' => ∃ n, Dropped n s s' ∧ calls w' = calls w + n)
    ?_ hs ⟨0, .refl s, rfl⟩).mono fun _ _ _ _ => trivial
  rintro d' s' w' hs' ⟨n, hdrop, hcalls⟩
  refine (twp_pass hs' (hdrop.le hs hs') hdrop hcalls).mono ?_
  rintro o s'' w'' ⟨h, hcalls'⟩
  refine ⟨h, ?_⟩
  rintro q rfl
  exact ⟨n + 1, hdrop.step (h.recurse hs').2.1, hcalls'⟩

end Chain

-- ==================================================== the tables a round gets to

theorem PassEnds.slots {s s' : Game} {d : Seat} {w w' : Log} {o : Outcome}
    (h : PassEnds s d w o s' w') (hs : Slots s) : Slots s' := by
  have hwinner : ∀ {t : Game} {v : Int}, Slots t → Slots { t with winner := v } :=
    fun ht => ⟨ht.wall, ht.takeIndex, ht.decks, ht.capacity⟩
  rcases h with ⟨-, rfl, -⟩ | ⟨xs, x, ys, w₁, -, -, -, ⟨-, -, rfl⟩ | ⟨t, hc, he⟩⟩
  · exact hs.change (p := d) (f := fun pl => pl.pushSea s.discardedMj)
      rfl hs.takeIndex rfl (hs.decks d) (hs.capacity d)
  · exact hwinner hs
  · obtain ⟨ht, -, -⟩ := hc.slots hs
    rcases he with ⟨-, rfl⟩ | ⟨-, i, -, rfl⟩
    · exact hwinner ht
    · exact ht.discarded _ i

/-- A quiet gang leaves possible tables. -/
theorem QuietlyGanged.slots {s s' : Game} {p : Seat} {w : Log}
    (h : QuietlyGanged s p s' w) (hs : Slots s) : Slots s' := by
  obtain ⟨-, hcount, rfl⟩ := h
  have hroom : 2 ≤ (s.players p).normalCapacity := by
    have hpos : isGangPossible (s.players p).decks (s.players p).normalCapacity
        ((s.players p).deck (s.players p).normalCapacity) = true := by
      rw [isGangPossible, decide_eq_true_eq]
      exact hcount
    exact gang_needs_two hpos
  exact (hs.claim (f := quietGangTiles) (gangTiles_reshaped (hs.decks p)
    (hs.capacity_le p) _) (hs.capacity_room hroom)).1

theorem AfterDeal.slots {wall : Wall} {s : Game} {w : Log} (h : AfterDeal wall s w) :
    Slots s := by
  have hle := h.takeIndex_le
  refine ⟨h.wall_eq ▸ wall.length, by omega, fun q => (h.books q).decks_length,
    fun q => ⟨0, (h.books q).capacity⟩⟩

/-- What is shown along a round: a table at which the others may react is
a possible one. -/
def Entry (o : SOp) (s : Game) (_ : Log) : Prop := isCall o = true → Slots s

section Round

variable {g : Nat → Nat} {wall : Wall} {s : Game} {w : Log}

theorem entry_of_not_call {o : SOp} (h : isCall o = false) : Entry o s w :=
  fun ho => absurd (h.symm.trans ho) Bool.false_ne_true

theorem entry_quiet {L : Line → Prop} {U : Game → Log → Prop} (hack : L (str "ACK\n"))
    (hU : ∀ (o : SOp) (r : o.Res) s w, U s w → ¬ IsWin o → U s (⟨o, r⟩ :: w)) :
    Quiet L Entry U := by
  constructor
  · exact hack
  · exact hU
  · exact fun _ _ _ _ _ _ => entry_of_not_call rfl
  · intro e s w he _
    cases e <;> first | exact entry_of_not_call rfl | exact (Bool.false_ne_true he).elim
  all_goals
    intros
    exact entry_of_not_call rfl

theorem entry_light {b : Seat → Nat} : Light b Entry where
  quiet := entry_quiet (by decide) fun _ _ _ _ h _ => h
  access := fun _ _ _ _ _ _ => entry_of_not_call rfl
  counts := fun _ _ _ _ => entry_of_not_call rfl
  win := fun _ _ _ _ => entry_of_not_call rfl
  print := fun _ _ _ _ _ _ => entry_of_not_call rfl
  quietGang := fun _ _ _ _ _ => entry_of_not_call rfl

theorem entry_watch {d : Seat} : Watch Entry d s w where
  offer := fun _ _ _ _ _ _ _ => entry_of_not_call rfl
  gang := fun _ _ _ _ _ => entry_of_not_call rfl
  pong := fun _ _ _ _ _ => entry_of_not_call rfl
  eat := fun _ _ _ _ _ _ => entry_of_not_call rfl
  unwanted := fun _ _ => entry_of_not_call rfl

theorem below_sixteen (hs : Slots s) : Below (fun _ => 16) s := hs.capacity_le

/-- The turns of a round. -/
theorem wp_turns_entry {p : Seat} (hs : Slots s) :
    wp (within (patient g)) Finds Entry (turns p s) (fun _ _ _ => True) w := by
  have hfeed : Feed (fun _ => 16) Finds Entry Findable :=
    finds_feed fun _ _ _ _ => entry_of_not_call rfl
  refine wp_iterate (fun _ s (_ : Log) => Slots s) ?_ hs
  intro p s w hs
  refine wp_get_seq ?_
  split
  next =>
    refine wp_seq ((twp_drawNDiscard entry_light hfeed.toSupply (hs.fits p)
      (below_sixteen hs) (hfeed.draw _ _) (entry_of_not_call rfl)).wp.mono ?_)
    rintro r s' w' ⟨⟨flowers, x, rest, _, _, hwall, -, -, -, hends⟩, -⟩
    rcases hends with ⟨rfl, -, rfl⟩ | ⟨rfl, i, t, -, rfl, ht⟩
    · exact wp_pure trivial
    have ht' : Slots t := by
      have hdrew := hs.drew (p := p) hwall
      rcases ht with rfl | ht
      · exact hdrew
      · exact ht.1.slots hdrew
    refine wp_seq ((twp_othersreaction (fun _ _ _ => True) ?_ (ht'.discarded p i)
      trivial).wp.mono ?_)
    · intro d s w hs _
      refine (twp_reaction entry_light hfeed hs (below_sixteen hs) (fun _ => hs) entry_watch).mono ?_
      exact fun o s' w' h => ⟨h, fun _ _ => trivial⟩
    rintro r s'' w'' ⟨nested, d₁, s₁, w₁, r₁, hs₁, -, h, -⟩
    have hs'' := h.slots hs₁
    split
    next => exact wp_pure trivial
    next =>
      refine wp_get_seq ?_
      split
      next => exact wp_pure trivial
      next => exact wp_pure hs''
  next => exact wp_pure trivial

theorem wp_playRound_entry {start : Seat} {s₀ : Game} :
    wp (within (patient g)) Finds Entry (playRound wall.tiles start s₀)
      (fun _ _ _ => True) [] := by
  have hquiet : Quiet Plain Entry Undecided :=
    entry_quiet (by decide) fun _ _ _ _ h ho => h.log ho
  have haccess : FairAccess Entry :=
    ⟨fun _ _ _ _ _ _ _ _ => entry_of_not_call rfl, fun _ _ _ _ _ _ => entry_of_not_call rfl⟩
  have hdeal : wp (within (patient g)) Finds Entry (deal start (Game.init wall.tiles))
      (fun _ s w => AfterDeal wall s w) [] := wp_deal haccess hquiet Declares.nil
  refine wp_modify_seq (wp_seq (hdeal.mono fun _ s w h => ?_))
  refine wp_seq ((wp_turns_entry h.slots).mono fun _ s w _ => ?_)
  exact wp_note fun _ => ⟨entry_of_not_call rfl, trivial⟩

end Round

/-- A round in which every draw has found a tile gets to this call of
`othersreaction`. -/
def Reached (wall : Wall) (start d : Seat) (s : Game) (w : Log) : Prop :=
  ∃ s₀ tr k, Run anyone (playRound wall.tiles start s₀) [] tr
      (.op (.note (.othersreaction d)) s k) w ∧ ∀ x ∈ tr, Finds x.1 x.2

theorem Reached.slots {wall : Wall} {start d : Seat} {s : Game} {w : Log}
    (h : Reached wall start d s w) : Slots s := by
  obtain ⟨s₀, tr, k, hrun, hfinds⟩ := h
  obtain ⟨g, hrun⟩ := Run.patient hrun
  exact wp_op_obligation (wp_run wp_playRound_entry hrun hfinds) (fun h => nomatch h) rfl

-- ================================================================= claim chains end

/-- What holds of a call of `othersreaction` whose claims end. -/
structure ChainEnds (d : Seat) (s : Game) (w : Log) : Prop where
  /-- It does not run for ever, if every eat prompt is answered at last. -/
  ends : ∀ f : Nat → Proc SOp IoOp.Res Game (Int × Seat) × Log,
    f 0 = (othersreaction d s, w) → Answered (fun n => (f n).2) →
    ¬ ∀ n, Step anyone Finds (f n) (f (n + 1))
  /-- At most twenty calls are nested, each behind a capacity that has
  dropped by three; nothing raises one. -/
  nested : ∀ tr o s' k w', Run anyone (othersreaction d s) w tr (.op o s' k) w' →
    (∀ x ∈ tr, Finds x.1 x.2) → Finds o s' → Nested s w o s' w'
  /-- With a single tile nothing can be claimed for a set. -/
  single : ∀ (pl : Player) (t : Game), pl.normalCapacity = 1 →
    ∀ c ∈ [Claim.gang, .pong, .eat], possible c pl t = false

/-- From every table that a round gets to the claims end. -/
theorem chains_end {wall : Wall} {start d : Seat} {s : Game} {w : Log}
    (h : Reached wall start d s w) : ChainEnds d s w := by
  have hs := h.slots
  refine ⟨fun f h0 hanswered hstep => ?_, fun tr o s' k w' hrun hfinds ho => ?_,
    fun pl t hone c hc => ?_⟩
  · -- the infinite run would be one in patient surroundings
    obtain ⟨g, hg⟩ := hanswered.patient fun n => eats_step_le (hstep n)
    exact (twp_chain (g := g) hs).no_infinite_run f h0 fun n =>
      step_patient (hstep n) (hg (n + 1))
  · obtain ⟨g, hrun⟩ := Run.patient hrun
    have hwp := wp_run (twp_chain hs).wp hrun hfinds
    have hobligation := wp_op_obligation hwp ho
    exact hobligation
  · have hfalse : ∀ {b : Bool}, (b = true → 2 ≤ pl.normalCapacity) → b = false := by
      intro b hb
      cases b with
      | false => rfl
      | true => exact absurd (hb rfl) (by omega)
    simp only [List.mem_cons, List.not_mem_nil, or_false] at hc
    rcases hc with rfl | rfl | rfl
    · exact hfalse gang_needs_two
    · exact hfalse pong_needs_two
    · exact hfalse eat_needs_two

set_option maxRecDepth 100000 in
/-- The first discard of a round with the wall in order. -/
theorem chains_end_unshuffled :
    ∃ d s w, Reached unshuffled 0 d s w ∧ ChainEnds d s w := by
  have hreplay : (playRound unshuffled.tiles 0 (Game.init [])).replay scripted
      (fun o s => decide (Finds o s)) (fun _ o _ => isCall o) 3000 ((false, []), []) = true := by
    decide +kernel
  obtain ⟨tr, o, s, k, w, hrun, hcall, hfinds⟩ := scripted_run (fun _ o _ => isCall o) hreplay
  obtain ⟨d, rfl⟩ : ∃ d, o = .note (.othersreaction d) := by
    cases o with
    | note e => cases e <;> first | exact ⟨_, rfl⟩ | exact absurd hcall Bool.false_ne_true
    | _ => exact absurd hcall Bool.false_ne_true
  have hreached : Reached unshuffled 0 d s w :=
    ⟨_, tr, k, hrun, fun x hx => of_decide_eq_true (hfinds x hx)⟩
  exact ⟨d, s, w, hreached, chains_end hreached⟩

end Server

end Mahjong
