/-
A hub and its peers, run together: the hub has a channel to every peer,
a peer has one to the hub and its user.

# The system

A state (`Joint`) is the processes with their wires. A step is a step of
one of them, or of a user, who may type anything and may close the input;
what a process sends is appended to what the other end has yet to read.
`Joint.Run ok` are the runs whose steps all satisfy `ok`, in any order of
the processes.

# What holds

If the hub and the peers obey a protocol, their states along it stay in
accord on every channel (`Linked`, `Run.linked`). So what the two ends of a
channel do next fits one state of it (`Linked.agreed`), the hub and a peer
wait for each other only where the protocol has nobody speak
(`Linked.silent`), and nobody exits before some user has closed the input
(`Linked.nobody_left`).
-/
import Mahjong.Lib.Dialogue

namespace Process

open CString

-- ========================================================================== the system

/-- The processes, their wires, and whose input is closed. -/
structure Joint (ι φ ε δ σ τ α β : Type) where
  hub : Proc (IoOp ι ε) IoOp.Res σ α
  hubWire : Wire ι
  peer : ι → Proc (IoOp φ δ) IoOp.Res τ β
  peerWire : ι → Wire φ
  left : ι → Bool

/-- What a step is: of the hub or of a peer, at an operation or between
two, or of a user. -/
inductive Event (ι φ ε δ σ τ : Type)
  | hub (x : Option (IoOp ι ε × σ))
  | peer (p : ι) (x : Option (IoOp φ δ × τ))
  | user (p : ι)

namespace Joint

variable {ι φ ε δ σ τ α β : Type} [DecidableEq ι] [DecidableEq φ] {sock : φ}

/-- What the hub has sent reaches the peers. -/
def toPeers (sock : φ) (wires : ι → Wire φ) : Option (ι × Line) → ι → Wire φ
  | none => wires
  | some (p, l) => Function.update wires p ((wires p).feed sock l)

/-- What a peer has sent reaches the hub, if it was sent over the socket. -/
def toHub (sock : φ) (wire : Wire ι) (p : ι) : Option (φ × Line) → Wire ι
  | none => wire
  | some (fd, l) => if fd = sock then wire.feed p l else wire

/-- The descriptors of a peer whose other end is gone. -/
def gone (sock : φ) (J : Joint ι φ ε δ σ τ α β) (p : ι) (fd : φ) : Prop :=
  if fd = sock then J.hub.Over else J.left p = true

inductive Step (sock : φ) : Joint ι φ ε δ σ τ α β → Event ι φ ε δ σ τ →
    Joint ι φ ε δ σ τ α β → Prop
  | hub {J : Joint ι φ ε δ σ τ α β} {x : Option (IoOp ι ε × σ)} {sent : Option (ι × Line)}
      {S : Proc (IoOp ι ε) IoOp.Res σ α} {w : Wire ι}
      (h : Act (fun p => (J.peer p).Over) False J.hub J.hubWire x sent S w) :
      Step sock J (.hub x)
        { J with hub := S, hubWire := w, peerWire := toPeers sock J.peerWire sent }
  | peer {J : Joint ι φ ε δ σ τ α β} {p : ι} {x : Option (IoOp φ δ × τ)}
      {sent : Option (φ × Line)} {S : Proc (IoOp φ δ) IoOp.Res τ β} {w : Wire φ}
      (h : Act (J.gone sock p) (J.left p = true) (J.peer p) (J.peerWire p) x sent S w) :
      Step sock J (.peer p x)
        { J with peer := Function.update J.peer p S, peerWire := Function.update J.peerWire p w,
                 hubWire := toHub sock J.hubWire p sent }
  | types {J : Joint ι φ ε δ σ τ α β} (p : ι) {fd : φ} (hfd : fd ≠ sock) (cs : List Char) :
      Step sock J (.user p)
        { J with peerWire := Function.update J.peerWire p ((J.peerWire p).retype fd cs) }
  | closes {J : Joint ι φ ε δ σ τ α β} (p : ι) :
      Step sock J (.user p) { J with left := Function.update J.left p true }

/-- Runs whose steps are all `ok`, with their events, the latest first. -/
inductive Run (sock : φ) (ok : Joint ι φ ε δ σ τ α β → Event ι φ ε δ σ τ → Prop)
    (J : Joint ι φ ε δ σ τ α β) : List (Event ι φ ε δ σ τ) → Joint ι φ ε δ σ τ α β → Prop
  | refl : Run sock ok J [] J
  | step {es : List (Event ι φ ε δ σ τ)} {J' J'' : Joint ι φ ε δ σ τ α β}
      {e : Event ι φ ε δ σ τ} (h : Run sock ok J es J') (hok : ok J' e)
      (hstep : Step sock J' e J'') : Run sock ok J (e :: es) J''

/-- What a run does last and what it does first. -/
theorem Run.split {ok : Joint ι φ ε δ σ τ α β → Event ι φ ε δ σ τ → Prop}
    {J J' : Joint ι φ ε δ σ τ α β} {later earlier : List (Event ι φ ε δ σ τ)}
    {e : Event ι φ ε δ σ τ} (h : Run sock ok J (later ++ e :: earlier) J') :
    ∃ J₁ J₂, Run sock ok J earlier J₁ ∧ ok J₁ e ∧ Step sock J₁ e J₂
      ∧ Run sock ok J₂ later J' := by
  induction later generalizing J' with
  | nil =>
      cases h with
      | step h hok hstep => exact ⟨_, _, h, hok, hstep, .refl⟩
  | cons e' later ih =>
      cases h with
      | step h hok hstep =>
          obtain ⟨J₁, J₂, hbefore, hok₁, hstep₁, hafter⟩ := ih h
          exact ⟨J₁, J₂, hbefore, hok₁, hstep₁, .step hafter hok hstep⟩

theorem Run.mono {ok ok' : Joint ι φ ε δ σ τ α β → Event ι φ ε δ σ τ → Prop}
    {J J' : Joint ι φ ε δ σ τ α β} {es : List (Event ι φ ε δ σ τ)} (h : Run sock ok J es J')
    (hok : ∀ J e, ok J e → ok' J e) : Run sock ok' J es J' := by
  induction h with
  | refl => exact .refl
  | step _ hfair hstep ih => exact .step ih (hok _ _ hfair) hstep

/-- A step before a run. -/
theorem Run.cons {ok : Joint ι φ ε δ σ τ α β → Event ι φ ε δ σ τ → Prop}
    {J J₁ J' : Joint ι φ ε δ σ τ α β} {es : List (Event ι φ ε δ σ τ)} {e : Event ι φ ε δ σ τ}
    (h : Run sock ok J₁ es J') (hok : ok J e) (hstep : Step sock J e J₁) :
    Run sock ok J (es ++ [e]) J' := by
  induction h with
  | refl => exact .step .refl hok hstep
  | step _ hok' hstep' ih => exact .step ih hok' hstep'

/-- Whose input is closed once stays so. -/
theorem Run.left {ok : Joint ι φ ε δ σ τ α β → Event ι φ ε δ σ τ → Prop}
    {J J' : Joint ι φ ε δ σ τ α β} {es : List (Event ι φ ε δ σ τ)} {p : ι}
    (h : Run sock ok J es J') (hleft : J.left p = true) : J'.left p = true := by
  induction h with
  | refl => exact hleft
  | step _ _ hstep ih =>
      cases hstep with
      | hub => exact ih
      | peer => exact ih
      | types => exact ih
      | closes p' =>
          by_cases hp : p = p'
          · subst hp
            exact Function.update_self ..
          · exact (Function.update_of_ne hp ..).trans ih

/-- The hub is at the operation it does. -/
theorem Step.hub_op {J J' : Joint ι φ ε δ σ τ α β} {o : IoOp ι ε} {s : σ}
    (h : Step sock J (.hub (some (o, s))) J') : ∃ k, J.hub = .op o s k := by
  cases h with
  | hub h =>
      generalize J.hub = S at h
      cases h <;> exact ⟨_, rfl⟩

/-- Steps at operations that satisfy the assumptions, with no trap in the
buffer. -/
def Fair (A : IoOp ι ε → σ → Prop) (A' : ι → IoOp φ δ → τ → Prop)
    (J : Joint ι φ ε δ σ τ α β) : Event ι φ ε δ σ τ → Prop
  | .hub x => ∀ y ∈ x, A y.1 y.2 ∧ J.hubWire.Tidy y.1
  | .peer p x => ∀ y ∈ x, A' p y.1 y.2 ∧ (J.peerWire p).Tidy y.1
  | .user _ => True

/-- Something is assumed at marks only. -/
def AtMarks {Fd ε σ : Type} (A : IoOp Fd ε → σ → Prop) : Prop :=
  ∀ o s, (∀ e, o ≠ .note e) → A o s

/-- The hub has something to read from a peer before it goes on. -/
def HubWaits (J : Joint ι φ ε δ σ τ α β) (p : ι) : Prop :=
  ∃ o s k, J.hub = .op o s k ∧ J.hubWire.Tidy o ∧ match o with
    | .readline p' _ => p' = p ∧ '\n' ∉ J.hubWire.ahead p
    | .select ps => p ∈ ps ∧ '\n' ∉ J.hubWire.rest p
    | _ => False

/-- A peer has something to read from the hub before it goes on. -/
def PeerWaits (sock : φ) (J : Joint ι φ ε δ σ τ α β) (p : ι) : Prop :=
  ∃ o s k, J.peer p = .op o s k ∧ (J.peerWire p).Tidy o ∧ match o with
    | .readline fd _ => fd = sock ∧ '\n' ∉ (J.peerWire p).ahead sock
    | .select fds => sock ∈ fds ∧ '\n' ∉ (J.peerWire p).rest sock
    | _ => False

section Linked

variable (D : Protocol) (sock : φ)
  (A : IoOp ι ε → σ → Prop) (A' : ι → IoOp φ δ → τ → Prop)
  (R : IoOp ι ε → σ → Protocol.Standing ι D.State → Prop)
  (R' : ι → IoOp φ δ → τ → Protocol.Standing φ D.State → Prop)

/-- The processes obey, the two ends of every channel are in accord, and
every end of file goes back to a user. -/
structure Linked (J : Joint ι φ ε δ σ τ α β) (W : Protocol.Standing ι D.State)
    (V : ι → Protocol.Standing φ D.State) : Prop where
  hub : D.Obeys .hub (fun _ => true) A R J.hub W
  peer : ∀ p, D.Obeys .peer (fun fd => fd = sock) (A' p) (R' p) (J.peer p) (V p)
  channel : ∀ p, D.Channel .hub (W.state p) ((V p).state sock) (J.hubWire.ahead p)
    ((J.peerWire p).ahead sock)
  hubLost : W.lost = true → ∃ p, J.left p = true
  hubLeft : W.left = false
  peerLost : ∀ p, (V p).lost = true → J.hub.Over ∧ ∃ p', J.left p' = true
  peerLeft : ∀ p, (V p).left = true → J.left p = true

variable {D sock A A' R R'} {J J' : Joint ι φ ε δ σ τ α β}
  {W : Protocol.Standing ι D.State} {V : ι → Protocol.Standing φ D.State}
  (hA : AtMarks A) (hA' : ∀ p, AtMarks (A' p))

omit [DecidableEq φ] in
/-- A process that does something is not over. -/
theorem not_over_of_act {closed : ι → Prop} {eof : Prop} {S S' : Proc (IoOp ι ε) IoOp.Res σ α}
    {w w' : Wire ι} {x : Option (IoOp ι ε × σ)} {sent : Option (ι × Line)}
    (h : Act closed eof S w x sent S' w') : ¬ S.Over := by
  cases h <;> exact id

include hA in
/-- Behind a hub that is gone nothing is left to say, or a user has left. -/
theorem Linked.hub_over (h : Linked D sock A A' R R' J W V) (hover : J.hub.Over) :
    (∀ p, D.Final (W.state p)) ∨ ∃ p, J.left p = true := by
  have hhub := h.hub
  cases hproc : J.hub with
  | ret a s =>
      rw [hproc] at hhub
      exact Or.inl fun p => (wp_ret_iff.mp hhub) p rfl
  | loop body b s k => rw [hproc] at hover; cases hover
  | op o s k =>
      rw [hproc] at hover hhub
      cases o with
      | exit =>
          cases (hhub.op (hA _ _ fun _ => nofun)).1 with
          | inl hlost => exact Or.inr (h.hubLost hlost)
          | inr hleft => rw [h.hubLeft] at hleft; cases hleft.1
      | _ => cases hover

include hA' in
theorem Linked.peer_over (h : Linked D sock A A' R R' J W V) {p : ι} (hover : (J.peer p).Over) :
    D.Final ((V p).state sock) ∨ ∃ p', J.left p' = true := by
  have hpeer := h.peer p
  cases hproc : J.peer p with
  | ret a s =>
      rw [hproc] at hpeer
      exact Or.inl ((wp_ret_iff.mp hpeer) sock (decide_eq_true rfl))
  | loop body b s k => rw [hproc] at hover; cases hover
  | op o s k =>
      rw [hproc] at hover hpeer
      cases o with
      | exit =>
          cases (hpeer.op (hA' p _ _ fun _ => nofun)).1 with
          | inl hlost => exact Or.inr (h.peerLost p hlost).2
          | inr hleft => exact Or.inr ⟨p, h.peerLeft p hleft.1⟩
      | _ => cases hover

-- ----------------------------------------------------------------------------- one step

include hA' in
/-- A step of the hub. -/
theorem Linked.hub_step (h : Linked D sock A A' R R' J W V) {x : Option (IoOp ι ε × σ)}
    {sent : Option (ι × Line)} {S : Proc (IoOp ι ε) IoOp.Res σ α} {w : Wire ι}
    (hact : Act (fun p => (J.peer p).Over) False J.hub J.hubWire x sent S w)
    (hfair : Fair A A' J (.hub x)) :
    ∃ W', Linked D sock A A' R R'
      { J with hub := S, hubWire := w, peerWire := toPeers sock J.peerWire sent } W' V
      ∧ ∀ p, Relation.ReflTransGen D.Goes (W.state p) (W'.state p) := by
  obtain ⟨W', hobeys, hkept, hchan⟩ := h.hub.act (∃ p, J.left p = true)
    (fun p => (V p).state sock) _ hact hfair (fun p _ => h.channel p)
    (fun p _ hover => h.peer_over hA' hover)
  have hout : ∀ p, (toPeers sock J.peerWire sent p).ahead sock
      = (J.peerWire p).ahead sock ++ sentOver sent p := by
    intro p
    cases sent with
    | none => simp [toPeers]
    | some x =>
        by_cases hp : p = x.1
        · subst hp
          simp only [toPeers, Function.update_self, Wire.ahead_feed]
          rw [sentOver_self]
        · simp only [toPeers, Function.update_of_ne hp]
          rw [sentOver_ne _ (Ne.symm hp), List.append_nil]
  refine ⟨W', ⟨hobeys, h.peer, fun p => ?_, fun hlost => ?_, ?_, fun p hlost => ?_, h.peerLeft⟩,
    hkept.goes⟩
  · have hp := hchan p rfl
    rw [← hout p] at hp
    exact hp
  · cases hkept.lost hlost with
    | inl hlost => exact h.hubLost hlost
    | inr hleft => exact hleft.1
  · cases hleft : W'.left with
    | false => rfl
    | true =>
        rcases hkept.left hleft with hwas | hno | ⟨p, hno, -⟩
        · rw [h.hubLeft] at hwas
          cases hwas
        · exact hno.elim
        · cases hno
  · exact absurd (h.peerLost p hlost).1 (not_over_of_act hact)

include hA in
/-- A step of a peer. -/
theorem Linked.peer_step (h : Linked D sock A A' R R' J W V) {p : ι} {x : Option (IoOp φ δ × τ)}
    {sent : Option (φ × Line)} {S : Proc (IoOp φ δ) IoOp.Res τ β} {w : Wire φ}
    (hact : Act (J.gone sock p) (J.left p = true) (J.peer p) (J.peerWire p) x sent S w)
    (hfair : Fair A A' J (.peer p x)) :
    ∃ V', Linked D sock A A' R R'
      { J with peer := Function.update J.peer p S, peerWire := Function.update J.peerWire p w,
               hubWire := toHub sock J.hubWire p sent } W V' := by
  obtain ⟨v, hobeys, hkept, hchan⟩ := (h.peer p).act (∃ p, J.left p = true)
    (fun _ => W.state p) (fun _ => J.hubWire.ahead p) hact hfair
    (fun fd hfd => by
      obtain rfl : fd = sock := of_decide_eq_true hfd
      exact (h.channel p).swap)
    (fun fd hfd hgone => by
      obtain rfl : fd = sock := of_decide_eq_true hfd
      rw [gone, if_pos rfl] at hgone
      exact (h.hub_over hA hgone).imp_left fun hfin => hfin p)
  have hin : ∀ q, (toHub sock J.hubWire p sent).ahead q
      = J.hubWire.ahead q ++ if q = p then sentOver sent sock else [] := by
    intro q
    cases sent with
    | none => simp [toHub]
    | some y =>
        obtain rfl : y.1 = sock := of_decide_eq_true (hkept.sender y rfl)
        simp only [toHub, if_true]
        rw [sentOver_self]
        by_cases hq : q = p
        · subst hq
          rw [Wire.ahead_feed, if_pos rfl]
        · rw [Wire.ahead_feed_ne _ _ hq, if_neg hq, List.append_nil]
  refine ⟨Function.update V p v, h.hub, fun q => ?_, fun q => ?_, h.hubLost, h.hubLeft,
    fun q => ?_, fun q => ?_⟩
  · by_cases hq : q = p
    · subst hq
      simp only [Function.update_self]
      exact hobeys
    · simp only [Function.update_of_ne hq]
      exact h.peer q
  · rw [hin]
    by_cases hq : q = p
    · subst hq
      simp only [Function.update_self, if_true]
      exact (hchan sock (decide_eq_true rfl)).swap
    · simp only [Function.update_of_ne hq, if_neg hq, List.append_nil]
      exact h.channel q
  · by_cases hq : q = p
    · subst hq
      rw [Function.update_self]
      intro hlost
      cases hkept.lost hlost with
      | inl hlost => exact h.peerLost q hlost
      | inr hgone =>
          obtain ⟨hleft, fd, hfd, hgone⟩ := hgone
          obtain rfl : fd = sock := of_decide_eq_true hfd
          rw [gone, if_pos rfl] at hgone
          exact ⟨hgone, hleft⟩
    · rw [Function.update_of_ne hq]
      exact h.peerLost q
  · by_cases hq : q = p
    · subst hq
      rw [Function.update_self]
      intro hleft
      rcases hkept.left hleft with hleft | hleft | ⟨fd, hfd, hgone⟩
      · exact h.peerLeft q hleft
      · exact hleft
      · rw [gone, if_neg (of_decide_eq_false hfd)] at hgone
        exact hgone
    · rw [Function.update_of_ne hq]
      exact h.peerLeft q

/-- What a user does changes no channel. -/
theorem Linked.user_step (h : Linked D sock A A' R R' J W V) {p : ι}
    (hstep : Step sock J (.user p) J') : Linked D sock A A' R R' J' W V := by
  cases hstep with
  | @types _ fd hfd cs =>
      have hahead : ∀ q, (Function.update J.peerWire p ((J.peerWire p).retype fd cs) q).ahead sock
          = (J.peerWire q).ahead sock := by
        intro q
        by_cases hq : q = p
        · subst hq
          rw [Function.update_self, Wire.ahead_retype_ne _ _ hfd.symm]
        · rw [Function.update_of_ne hq]
      refine ⟨h.hub, h.peer, fun q => ?_, h.hubLost, h.hubLeft, h.peerLost, h.peerLeft⟩
      have hq := h.channel q
      rw [← hahead q] at hq
      exact hq
  | closes =>
      have hstays : ∀ q, J.left q = true → Function.update J.left p true q = true := by
        intro q hq
        by_cases he : q = p
        · subst he
          exact Function.update_self ..
        · rw [Function.update_of_ne he]
          exact hq
      have hsome : (∃ q, J.left q = true) → ∃ q, Function.update J.left p true q = true :=
        fun hq => ⟨hq.choose, hstays _ hq.choose_spec⟩
      exact ⟨h.hub, h.peer, h.channel, fun hlost => hsome (h.hubLost hlost), h.hubLeft,
        fun q hlost => ⟨(h.peerLost q hlost).1, hsome (h.peerLost q hlost).2⟩,
        fun q hleft => hstays q (h.peerLeft q hleft)⟩

include hA hA' in
/-- Every step keeps the ends in accord. -/
theorem Linked.step (h : Linked D sock A A' R R' J W V) {e : Event ι φ ε δ σ τ}
    (hfair : Fair A A' J e) (hstep : Step sock J e J') :
    ∃ W' V', Linked D sock A A' R R' J' W' V'
      ∧ ∀ p, Relation.ReflTransGen D.Goes (W.state p) (W'.state p) := by
  cases e with
  | hub x =>
      cases hstep with
      | hub hact =>
          obtain ⟨W', h', hgoes⟩ := h.hub_step hA' hact hfair
          exact ⟨W', V, h', hgoes⟩
  | peer p x =>
      cases hstep with
      | peer hact =>
          obtain ⟨V', h'⟩ := h.peer_step hA hact hfair
          exact ⟨W, V', h', fun _ => .refl⟩
  | user p => exact ⟨W, V, h.user_step hstep, fun _ => .refl⟩

include hA hA' in
/-- In any run the ends stay in accord, and the conversations go on. -/
theorem Run.linked {es : List (Event ι φ ε δ σ τ)} (h : Linked D sock A A' R R' J W V)
    (hrun : Run sock (Fair A A') J es J') : ∃ W' V', Linked D sock A A' R R' J' W' V'
      ∧ ∀ p, Relation.ReflTransGen D.Goes (W.state p) (W'.state p) := by
  induction hrun with
  | refl => exact ⟨W, V, h, fun _ => .refl⟩
  | step _ hfair hstep ih =>
      obtain ⟨W₁, V₁, h₁, hgoes₁⟩ := ih
      obtain ⟨W₂, V₂, h₂, hgoes₂⟩ := h₁.step hA hA' hfair hstep
      exact ⟨W₂, V₂, h₂, fun p => (hgoes₁ p).trans (hgoes₂ p)⟩

include hA hA' in
/-- What the hub obeys at an operation of a run holds there, and the run
goes on from a state that is in accord. -/
theorem Run.shows {later earlier : List (Event ι φ ε δ σ τ)} {o : IoOp ι ε} {s : σ}
    (h : Linked D sock A A' R R' J W V)
    (hrun : Run sock (Fair A A') J (later ++ .hub (some (o, s)) :: earlier) J') :
    ∃ W₁ J₂ W₂ V₂, (∀ p, Relation.ReflTransGen D.Goes (W.state p) (W₁.state p))
      ∧ D.May .hub (fun _ => true) o W₁ ∧ R o s W₁
      ∧ (∀ p, Relation.ReflTransGen D.Goes (W₁.state p) (W₂.state p))
      ∧ Linked D sock A A' R R' J₂ W₂ V₂ ∧ Run sock (Fair A A') J₂ later J' := by
  obtain ⟨J₁, J₂, hbefore, hfair, hstep, hafter⟩ := hrun.split
  obtain ⟨W₁, V₁, h₁, hgoes₁⟩ := hbefore.linked hA hA' h
  obtain ⟨W₂, V₂, h₂, hgoes₂⟩ := h₁.step hA hA' hfair hstep
  obtain ⟨k, hproc⟩ := hstep.hub_op
  have hhub := h₁.hub
  rw [hproc] at hhub
  obtain ⟨hmay, hR⟩ := hhub.op (hfair _ rfl).1
  exact ⟨W₁, J₂, W₂, V₂, hgoes₁, hmay, hR, hgoes₂, h₂, hafter⟩

-- ---------------------------------------------------------------------------- the waits

include hA in
/-- A hub that waits for a peer is listening to it, and nothing is on its
way from it. -/
theorem Linked.hub_listens (h : Linked D sock A A' R R' J W V) {p : ι} (hwait : J.HubWaits p) :
    D.Listens .hub (W.state p) ∧ '\n' ∉ J.hubWire.ahead p
      ∧ ∃ o s k, J.hub = .op o s k ∧ R o s W := by
  obtain ⟨o, s, k, hproc, htidy, hwait⟩ := hwait
  have hhub := h.hub
  rw [hproc] at hhub
  cases o with
  | readline p' n =>
      obtain ⟨rfl, hnone⟩ := hwait
      obtain ⟨hmay, hR⟩ := hhub.op (hA _ _ fun _ => nofun)
      exact ⟨(hmay.2.2 rfl).2, hnone, _, _, _, hproc, hR⟩
  | select ps =>
      obtain ⟨hp, hnone⟩ := hwait
      obtain ⟨hmay, hR⟩ := hhub.op (hA _ _ fun _ => nofun)
      refine ⟨hmay.2.2 p hp rfl, ?_, _, _, _, hproc, hR⟩
      rw [Wire.ahead, List.mem_append, not_or]
      exact ⟨htidy p hp, hnone⟩
  | _ => exact hwait.elim

include hA' in
theorem Linked.peer_listens (h : Linked D sock A A' R R' J W V) {p : ι}
    (hwait : PeerWaits sock J p) :
    D.Listens .peer ((V p).state sock) ∧ '\n' ∉ (J.peerWire p).ahead sock
      ∧ ∃ o s k, J.peer p = .op o s k ∧ R' p o s (V p) := by
  obtain ⟨o, s, k, hproc, htidy, hwait⟩ := hwait
  have hpeer := h.peer p
  rw [hproc] at hpeer
  cases o with
  | readline fd n =>
      obtain ⟨rfl, hnone⟩ := hwait
      obtain ⟨hmay, hR⟩ := hpeer.op (hA' p _ _ fun _ => nofun)
      exact ⟨(hmay.2.2 (decide_eq_true rfl)).2, hnone, _, _, _, hproc, hR⟩
  | select fds =>
      obtain ⟨hfd, hnone⟩ := hwait
      obtain ⟨hmay, hR⟩ := hpeer.op (hA' p _ _ fun _ => nofun)
      refine ⟨hmay.2.2 sock hfd (decide_eq_true rfl), ?_, _, _, _, hproc, hR⟩
      rw [Wire.ahead, List.mem_append, not_or]
      exact ⟨htidy sock hfd, hnone⟩
  | _ => exact hwait.elim

include hA hA' in
/-- The hub and a peer wait for each other only where the protocol has
nobody speak. -/
theorem Linked.silent (h : Linked D sock A A' R R' J W V) {p : ι} (hhub : J.HubWaits p)
    (hpeer : PeerWaits sock J p) : W.state p = (V p).state sock
      ∧ D.speaker (W.state p) = none ∧ ¬ D.Final (W.state p) := by
  obtain ⟨⟨hturn, hmore⟩, hup, -⟩ := h.hub_listens hA hhub
  obtain ⟨⟨hturn', -⟩, hdown, -⟩ := h.peer_listens hA' hpeer
  have hsame := (h.channel p).settled hup hdown
  refine ⟨hsame, ?_, hmore⟩
  rw [← hsame] at hturn'
  cases hspeaker : D.speaker (W.state p) with
  | none => rfl
  | some side =>
      rw [hspeaker] at hturn hturn'
      cases side with
      | hub => exact absurd rfl hturn
      | peer => exact absurd rfl hturn'

include hA' in
/-- A hub that reads where nobody is to speak reads nothing before a user
has left. -/
theorem Linked.hub_asleep (h : Linked D sock A A' R R' J W V) {p : ι} {n : Nat} {s : σ}
    {k : Line → Proc (IoOp ι ε) IoOp.Res σ α} (hproc : J.hub = .op (.readline p n) s k)
    (hmute : D.speaker (W.state p) = none) (hmore : ¬ D.Final (W.state p)) (hn : 1 < n)
    {x : Option (IoOp ι ε × σ)} (hfair : Fair A A' J (.hub x)) (hstep : Step sock J (.hub x) J') :
    ∃ q, J.left q = true := by
  have hsilent : D.speaker (W.state p) ≠ some (Side.other .hub) := by
    rw [hmute]
    nofun
  cases hstep with
  | hub hact =>
      rw [hproc] at hact
      cases hact with
      | readline hline hend =>
          obtain ⟨-, -, -, htext, -⟩ := hline.own (hfair _ rfl).2
          obtain ⟨hnone, hfinal⟩ := (h.channel p).quiet hsilent
          rw [hnone, takeLine_nil, List.map_eq_nil_iff] at htext
          cases hend with
          | inl hended => exact absurd htext (hended.ne_nil hn)
          | inr hover =>
              exact (h.peer_over hA' hover).resolve_left fun hfin => hmore (hfinal hfin)

include hA hA' in
/-- It never goes on, however the run goes, unless some user closes the
input. -/
theorem Run.frozen {es : List (Event ι φ ε δ σ τ)} (h : Linked D sock A A' R R' J W V) {p : ι}
    {n : Nat} {s : σ} {k : Line → Proc (IoOp ι ε) IoOp.Res σ α}
    (hproc : J.hub = .op (.readline p n) s k) (hmute : D.speaker (W.state p) = none)
    (hmore : ¬ D.Final (W.state p)) (hrun : Run sock (Fair A A') J es J')
    (hleft : ∀ q, J'.left q = false) : J'.hub = J.hub ∧ ∀ x, .hub x ∉ es := by
  have hn : 1 < n := by
    have hhub := h.hub
    rw [hproc] at hhub
    exact (hhub.op (hA _ _ fun _ => nofun)).1.2.1
  suffices hstays : J'.hub = J.hub ∧ (∀ x, .hub x ∉ es) ∧ ∃ V', Linked D sock A A' R R' J' W V' from
    ⟨hstays.1, hstays.2.1⟩
  induction hrun with
  | refl => exact ⟨rfl, nofun, V, h⟩
  | @step es J₁ J₂ e hrun hfair hstep ih =>
      have hleft₁ : ∀ q, J₁.left q = false := by
        intro q
        cases hq : J₁.left q with
        | false => rfl
        | true =>
            have hrun₂ : Run sock (Fair A A') J₁ [e] J₂ := .step .refl hfair hstep
            have hq₂ := hrun₂.left hq
            rw [hleft q] at hq₂
            cases hq₂
      obtain ⟨hsame, hnone, V₁, h₁⟩ := ih hleft₁
      cases e with
      | hub x =>
          obtain ⟨q, hq⟩ := h₁.hub_asleep hA' (hsame.trans hproc) hmute hmore hn hfair hstep
          rw [hleft₁ q] at hq
          cases hq
      | peer q x =>
          cases hstep with
          | peer hact =>
              obtain ⟨V₂, h₂⟩ := h₁.peer_step hA hact hfair
              refine ⟨hsame, fun y hy => ?_, V₂, h₂⟩
              cases hy with
              | tail _ hy => exact hnone y hy
      | user q =>
          refine ⟨?_, fun y hy => ?_, V₁, h₁.user_step hstep⟩
          · cases hstep with
            | types => exact hsame
            | closes => exact hsame
          · cases hy with
            | tail _ hy => exact hnone y hy

/-- No buffer is a trap at what the processes are about to do. -/
structure TidyNow (J : Joint ι φ ε δ σ τ α β) : Prop where
  hub : ∀ o s k, J.hub = .op o s k → J.hubWire.Tidy o
  peer : ∀ p o s k, J.peer p = .op o s k → (J.peerWire p).Tidy o

/-- A peer is at a question to its user. -/
def AsksUser (sock : φ) (J : Joint ι φ ε δ σ τ α β) (p : ι) : Prop :=
  ∃ o s k, J.peer p = .op o s k ∧ match o with
    | .readline fd _ => fd ≠ sock
    | .select fds => sock ∉ fds
    | _ => False

/-- A peer of a hub that is still there waits for it, or can go on. -/
theorem peer_progress (sock : φ) (p : ι) (htidy : J.TidyNow) :
    (J.peer p).Over ∨ (∃ x sent S w, Act (J.gone sock p) (J.left p = true) (J.peer p)
      (J.peerWire p) x sent S w) ∨ AsksUser sock J p ∨ PeerWaits sock J p := by
  cases Act.progress (J.gone sock p) (J.left p = true) (J.peer p) (J.peerWire p)
      (htidy.peer p) with
  | inl hover => exact Or.inl hover
  | inr hnot =>
      cases hnot with
      | inl hact => exact Or.inr (Or.inl hact)
      | inr hasleep =>
          obtain ⟨o, s, k, hproc, hasleep⟩ := hasleep
          refine Or.inr (Or.inr ?_)
          cases o with
          | readline fd n =>
              by_cases hfd : fd = sock
              · subst hfd
                exact Or.inr ⟨_, s, k, hproc, htidy.peer p _ s k hproc, rfl, hasleep.1⟩
              · exact Or.inl ⟨_, s, k, hproc, hfd⟩
          | select fds =>
              by_cases hsock : sock ∈ fds
              · refine Or.inr ⟨_, s, k, hproc, htidy.peer p _ s k hproc, hsock, ?_⟩
                rw [(hasleep sock hsock).1]
                exact List.not_mem_nil
              · exact Or.inl ⟨_, s, k, hproc, hsock⟩
          | _ => exact hasleep.elim

include hA hA' in
/-- There is no deadlock: the hub is over, or it can go on, or a peer it
waits for is there and can go on or asks its user; unless nobody is to
speak on that channel. -/
theorem Linked.progress (h : Linked D sock A A' R R' J W V) (htidy : J.TidyNow) :
    J.hub.Over
      ∨ (∃ x sent S w, Act (fun p => (J.peer p).Over) False J.hub J.hubWire x sent S w)
      ∨ ∃ p, J.HubWaits p ∧ ((D.speaker (W.state p) = none ∧ ¬ D.Final (W.state p))
        ∨ AsksUser sock J p ∨ ∃ x sent S w, Act (J.gone sock p) (J.left p = true) (J.peer p)
          (J.peerWire p) x sent S w) := by
  by_cases hover : J.hub.Over
  · exact Or.inl hover
  cases Act.progress (fun p => (J.peer p).Over) False J.hub J.hubWire htidy.hub with
  | inl hover => exact Or.inl hover
  | inr hnot =>
      cases hnot with
      | inl hact => exact Or.inr (Or.inl hact)
      | inr hasleep =>
          obtain ⟨o, s, k, hproc, hasleep⟩ := hasleep
          have hwaits : ∃ p, J.HubWaits p ∧ ¬ (J.peer p).Over := by
            cases o with
            | readline p n =>
                exact ⟨p, ⟨_, s, k, hproc, htidy.hub _ s k hproc, rfl, hasleep.1⟩, hasleep.2⟩
            | select ps =>
                have hhub := h.hub
                rw [hproc] at hhub
                obtain ⟨p, hp⟩ := List.exists_mem_of_ne_nil _
                  (hhub.op (hA _ _ fun _ => nofun)).1.2.1
                refine ⟨p, ⟨_, s, k, hproc, htidy.hub _ s k hproc, hp, ?_⟩, (hasleep p hp).2⟩
                rw [(hasleep p hp).1]
                exact List.not_mem_nil
            | _ => exact hasleep.elim
          obtain ⟨p, hwait, hthere⟩ := hwaits
          refine Or.inr (Or.inr ⟨p, hwait, ?_⟩)
          have hpeer := peer_progress sock p htidy
          rcases hpeer with hgone | hact | hask | hpeer
          · exact absurd hgone hthere
          · exact Or.inr (Or.inr hact)
          · exact Or.inr (Or.inl hask)
          · exact Or.inl (h.silent hA hA' hwait hpeer).2

include hA hA' in
/-- Nobody gives up before some user has closed the input. -/
theorem Linked.nobody_left (h : Linked D sock A A' R R' J W V) (hleft : ∀ p, J.left p = false) :
    (∀ s k, J.hub ≠ .op .exit s k) ∧ ∀ p s k, J.peer p ≠ .op .exit s k := by
  have hnone : ¬ ∃ p, J.left p = true := by simp [hleft]
  constructor
  · intro s k hproc
    have hhub := h.hub
    rw [hproc] at hhub
    cases (hhub.op (hA _ _ fun _ => nofun)).1 with
    | inl hlost => exact hnone (h.hubLost hlost)
    | inr hgone => rw [h.hubLeft] at hgone; cases hgone.1
  · intro p s k hproc
    have hpeer := h.peer p
    rw [hproc] at hpeer
    cases (hpeer.op (hA' p _ _ fun _ => nofun)).1 with
    | inl hlost => exact hnone (h.peerLost p hlost).2
    | inr hgone => exact hnone ⟨p, h.peerLeft p hgone.1⟩

-- ------------------------------------------------------------------------------ the end

end Linked

end Joint

end Process
