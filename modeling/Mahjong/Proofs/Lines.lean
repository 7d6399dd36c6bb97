/-
The two prompts at which a player types slots of the hand: the discard,
and the pair to eat with. What is typed is any line.

`typed L` is the player whose answers are of the kind `L`, for any kind;
`Kept` is what should hold while the server deals with them. The server
lives up to it if and only if every answer names the slots it should:
`sscanf` leaves the index of a discard unset otherwise, and the eat loop
looks up the slots before it looks at them.
-/
import Mahjong.Proofs.Claim
import Mahjong.Proofs.Exact

namespace Mahjong.Server

open Process CString

-- ===================================================================== the player

/-- What is typed at a prompt is of the kind `L`. A line read right after
one was written is its acknowledgement, and any line. -/
def typed (L : Line → Prop) : Log → Prop
  | ⟨.readline _ _, _⟩ :: ⟨.write _ _, _⟩ :: _ => True
  | ⟨.readline _ _, line⟩ :: _ => L line
  | _ => True

/-- What should hold while a line of `p` is dealt with on the table `s₀`:
every index used is one of the live hand and was read from the line; what
is discarded or eaten with is a tile there; until then, and whenever the
line is refused, the table is as it was, and no null tile is announced. -/
def Kept (p : Seat) (s₀ : Game) : SOp → Game → Log → Prop
  | .indeterminate, _, _ => False
  | .note (.access .decks i), s, _ =>
      s = s₀ ∧ 0 ≤ i ∧ i ≤ (s₀.players p).normalCapacity
  | .note (.discard q i), s, _ =>
      s = s₀ ∧ q = p ∧ ((s₀.players p).deck (slotIndex i)).Real
  | .note (.eat q i j), s, _ =>
      s = s₀ ∧ q = p ∧ ((s₀.players p).deck (slotIndex i)).Real
        ∧ ((s₀.players p).deck (slotIndex j)).Real
  | .note (.invalid _), s, _ => s = s₀
  | .write q _, s, _ => s = s₀ ∨ (q ≠ p ∧ s.discardedMj.Real)
  | _, _, _ => True

/-- The line names a slot of the live hand, by what `sscanf` stores. -/
def NamesOne (nc : Nat) (line : Line) : Prop :=
  ∃ i, sscanf1 line = some i ∧ 0 ≤ i ∧ i ≤ nc

/-- The line names two slots of the live hand. -/
def NamesTwo (nc : Nat) (line : Line) : Prop :=
  ∃ i j, sscanf2 line = (some i, some j) ∧ (0 ≤ i ∧ i ≤ nc) ∧ 0 ≤ j ∧ j ≤ nc

/-- The server deals as it should with what `p` may type at the discard
prompt. -/
def DiscardKept (L : Line → Prop) (p : Seat) (s : Game) : Prop :=
  Meets (within (typed L)) Any (Kept p s) (discard p s)
    (fun _ s' _ => ∃ i : Nat, i ≤ (s.players p).normalCapacity ∧ s' = s.discarded p i) []

/-- The same of the eat prompt: the loop is left with an eat. -/
def EatKept (L : Line → Prop) (p : Seat) (s : Game) : Prop :=
  Meets (within (typed L)) Any (Kept p s) (eatLoop p s)
    (fun _ s' _ => ∃ i j : Nat, i < (s.players p).normalCapacity
      ∧ j < (s.players p).normalCapacity
      ∧ s' = s.update p (eatTiles (eatTemp (s.players p) s.discardedMj i j) i j)) []

section Lines

variable {L : Line → Prop} {s s₀ : Game} {w : Log} {p q : Seat}

-- ================================================================= what the code does

theorem readAndAck_run {β : Type} {f : Line → Server β} {l : Line}
    (hline : l ≠ []) (hL : typed L (⟨.readline p maxline, l⟩ :: w)) :
    Run (within (typed L)) ((readAndAck p >>= f) s) w
      [(.readline p maxline, s), (.write p (str "ACK\n"), s)] (f l s)
      (⟨.write p (str "ACK\n"), ()⟩ :: ⟨.readline p maxline, l⟩ :: w) := by
  refine Run.op ⟨rfl, hL⟩ ?_
  have hpos : l.length > 0 := List.length_pos_iff.mpr hline
  show Run _ (((if l.length > 0 then _ else _ : Server Line) s).bind _) _ _ _ _
  rw [if_pos hpos]
  refine Run.op (r := ()) ⟨rfl, trivial⟩ ?_
  exact .refl _ _

theorem writeMessageWaitAck_run {β : Type} {f : Unit → Server β} {l : Line} :
    Run (within (typed L)) ((writeMessageWaitAck p l >>= f) s) w
      [(.write p l, s), (.readline p maxline, s)] (f () s)
      (⟨.readline p maxline, str "ACK\n"⟩ :: ⟨.write p l, ()⟩ :: w) := by
  refine Run.op (r := ()) ⟨rfl, trivial⟩ ?_
  refine Run.op (r := str "ACK\n") ⟨rfl, trivial⟩ ?_
  exact .refl _ _

theorem wp_told {l : Line} {Q : Unit → Game → Log → Prop}
    (hl : Kept p s₀ (.write q l) s w)
    (hQ : ∀ line, Q () s (⟨.readline q maxline, line⟩ :: ⟨.write q l, ()⟩ :: w)) :
    wp (within (typed L)) Any (Kept p s₀) (writeMessageWaitAck q l s) Q w := by
  apply wp_op
  intro _
  refine ⟨hl, ?_⟩
  rintro _ _ ⟨rfl, -⟩
  apply wp_op
  intro _
  refine ⟨trivial, ?_⟩
  rintro line _ ⟨rfl, -⟩
  show wp _ _ _ ((if line.length > 0 then _ else _ : Server Unit) s) _ _
  split
  · split
    · exact wp_pure (hQ line)
    · exact wp_op fun _ => ⟨trivial, fun r => nomatch r⟩
  · exact wp_op fun _ => ⟨trivial, fun r => nomatch r⟩

theorem wp_heard {Q : Line → Game → Log → Prop}
    (hw : ∀ line, typed L (⟨.readline p maxline, line⟩ :: w) → L line)
    (hQ : ∀ line w', L line → line ≠ [] → Q line s w') :
    wp (within (typed L)) Any (Kept p s) (readAndAck p s) Q w := by
  apply wp_op
  intro _
  refine ⟨trivial, ?_⟩
  rintro line _ ⟨rfl, hline⟩
  show wp _ _ _ (((if line.length > 0 then _ else _ : Server Line)) s) _ _
  split
  next hpos =>
    apply wp_op
    intro _
    refine ⟨Or.inl rfl, fun _ w' _ => ?_⟩
    exact wp_ret (hQ line w' (hw line hline) (List.length_pos_iff.mp hpos))
  next => exact wp_op fun _ => ⟨trivial, fun r => nomatch r⟩

theorem wp_told_others {l : Line} {Q : Unit → Game → Log → Prop}
    (hreal : s.discardedMj.Real) (hQ : ∀ w', Q () s w') :
    wp (within (typed L)) Any (Kept p s₀) (toOthers p l s) Q w := by
  have hne : ∀ k : Seat, k ≠ 0 → p + k ≠ p := by
    intro k hk h
    exact hk (add_eq_left.mp h)
  refine wp_seq (wp_told (Or.inr ⟨hne 1 (by decide), hreal⟩) fun _ => ?_)
  refine wp_seq (wp_told (Or.inr ⟨hne 2 (by decide), hreal⟩) fun _ => ?_)
  exact wp_told (Or.inr ⟨hne 3 (by decide), hreal⟩) fun _ => hQ _

theorem wp_doors {n : Nat} {Q : Unit → Game → Log → Prop} (hQ : ∀ w', Q () s w') :
    wp (within (typed L)) Any (Kept p s₀) (accessDoor p n s) Q w := by
  apply wp_player_seq
  apply wp.mono (wp_forM_range (fun _ s' _ => s' = s) ?_ rfl)
  · rintro _ _ w' rfl
    exact hQ w'
  · rintro j _ w' - rfl
    exact wp_note fun _ => ⟨trivial, rfl⟩

-- ==================================================================== the discard

/-- The discard prompt on a hand that has its extra tile: all is well if
and only if every line names a slot. -/
theorem discardKept_iff (hreal : ∀ i : Nat, i ≤ (s.players p).normalCapacity →
      ((s.players p).deck i).Real) :
    DiscardKept L p s ↔ ∀ line, L line → line ≠ [] → NamesOne (s.players p).normalCapacity line := by
  constructor
  · intro h line hL hne
    have hrun : Run (within (typed L)) (discard p s) [] _ _ _ := readAndAck_run hne hL
    cases hscan : sscanf1 line with
    | none =>
        simp only [hscan] at hrun
        have hset := h.obliged _ .indeterminate s _ _ hrun (fun _ _ => trivial) trivial
        exact hset.elim
    | some i =>
        simp only [hscan] at hrun
        have hnote := hrun.trans (Run.op (r := ()) ⟨rfl, trivial⟩ (.refl _ _))
        have hrange := h.obliged _ (.note (.access .decks i)) s _ _ hnote
          (fun _ _ => trivial) trivial
        exact ⟨i, hscan, hrange.2⟩
  · intro hL
    apply wp.meets
    apply wp_seq
    apply wp_heard fun line hline => hline
    intro line w hline hne
    obtain ⟨i, hscan, hpos, hle⟩ := hL line hline hne
    obtain ⟨n, rfl⟩ := Int.eq_ofNat_of_zero_le hpos
    have hn : n ≤ (s.players p).normalCapacity := by omega
    have htile : ((s.players p).deck (slotIndex n)).Real := by
      rw [slotIndex_natCast]
      exact hreal n hn
    simp only [hscan]
    refine wp_seq (wp_pure ?_)
    refine wp_seq (wp_note fun _ => ⟨⟨rfl, rfl, htile⟩, ?_⟩)
    refine wp_player_seq (wp_seq (wp_note fun _ => ⟨⟨rfl, hpos, hle⟩, ?_⟩))
    refine wp_seq (wp_note fun _ => ⟨⟨rfl, by omega, le_rfl⟩, ?_⟩)
    refine wp_modify_seq (wp_modify_seq ?_)
    have hshown : (s.discarded p n).discardedMj.Real := htile
    show wp _ _ _ (broadcastDiscardMj p (s.discarded p n)) _ _
    refine wp_get_seq ?_
    cases discardLine p (s.discarded p n).discardedMj with
    | some message => exact wp_told_others hshown fun _ => ⟨n, hn, rfl⟩
    | none => exact wp_pure ⟨n, hn, rfl⟩

-- ======================================================================== the eat

/-- The eat prompt on a hand in order: all is well if and only if every
line names two slots. -/
theorem eatKept_iff {h : List Mj} (hp : InHand (s.players p) h)
    (ht : s.discardedMj.Real) :
    EatKept L p s ↔ ∀ line, L line → line ≠ [] → NamesTwo (s.players p).normalCapacity line := by
  constructor
  · intro h line hL hne
    have hrun : Run (within (typed L)) (eatLoop p s) [] _ _ _ :=
      .loop (Run.bind (Run.bind
        (writeMessageWaitAck_run.trans (readAndAck_run (l := line) hne hL))))
    have hrun := hrun.trans (Run.op (r := ()) ⟨rfl, trivial⟩ (.refl _ _))
    have hfst := h.obliged _ (.note (.access .decks ((sscanf2 line).1.getD (-1)))) s _ _
      hrun (fun _ _ => trivial) trivial
    have hnext := hrun.trans (Run.op (r := ()) ⟨rfl, trivial⟩ (.refl _ _))
    have hsnd := h.obliged _ (.note (.access .decks ((sscanf2 line).2.getD (-1)))) s _ _
      hnext (fun _ _ => trivial) trivial
    have hfst := hfst.2
    have hsnd := hsnd.2
    -- an index that was not read is -1
    cases hscan : sscanf2 line with
    | mk fst snd =>
        rw [hscan] at hfst hsnd
        cases fst with
        | none => simp at hfst
        | some i =>
            cases snd with
            | none => simp at hsnd
            | some j => exact ⟨i, j, hscan, hfst, hsnd⟩
  · intro hL
    apply wp.meets
    apply wp_forever (fun s' _ => s' = s)
    · rintro s w rfl
      refine wp_seq (wp_told (Or.inl rfl) fun ack => ?_)
      apply wp_seq
      apply wp_heard fun line hline => hline
      intro line w hline hne
      obtain ⟨i, j, hscan, hi, hj⟩ := hL line hline hne
      simp only [hscan, Option.getD_some]
      obtain ⟨a, rfl⟩ := Int.eq_ofNat_of_zero_le hi.1
      obtain ⟨b, rfl⟩ := Int.eq_ofNat_of_zero_le hj.1
      refine wp_seq (wp_note fun _ => ⟨trivial, ?_⟩)
      refine wp_seq (wp_note fun _ => ⟨⟨rfl, hi⟩, ?_⟩)
      refine wp_seq (wp_note fun _ => ⟨⟨rfl, hj⟩, wp_get_seq ?_⟩)
      split
      next hok =>
        obtain ⟨hpair, -⟩ := hp.eatPair ht hok
        have ha := hpair.lt_fst
        have hb := hpair.lt_snd
        have htile : ∀ k < h.length, ((s.players p).deck (slotIndex k)).Real := by
          intro k hk
          rw [slotIndex_natCast, hp.deck hk]
          exact hp.hand.real _ (List.getElem_mem hk)
        refine wp_seq (wp_told (Or.inl rfl) fun ack' => ?_)
        refine wp_seq (wp_note fun _ => ⟨⟨rfl, rfl, htile a ha, htile b hb⟩, ?_⟩)
        refine wp_seq (wp_doors fun w' => wp_modify_seq (wp_pure ⟨a, b, ?_, ?_, rfl⟩))
        · rw [hp.capacity]
          exact ha
        · rw [hp.capacity]
          exact hb
      next =>
        refine wp_seq (wp_told (Or.inl rfl) fun ack' => ?_)
        exact wp_seq (wp_note fun _ => ⟨rfl, wp_pure rfl⟩)
    · rfl

end Lines

-- ================================================================== for every line

/-- Whatever kind of lines a player types at the two prompts, the server
deals with them as it should if and only if each of them names the slots
it is asked for. -/
theorem lines_kept (L : Line → Prop) (s : Game) (p : Seat) :
    ((∀ i : Nat, i ≤ (s.players p).normalCapacity → ((s.players p).deck i).Real) →
        (DiscardKept L p s ↔
          ∀ line, L line → line ≠ [] → NamesOne (s.players p).normalCapacity line))
      ∧ (∀ h, InHand (s.players p) h → s.discardedMj.Real →
        (EatKept L p s ↔
          ∀ line, L line → line ≠ [] → NamesTwo (s.players p).normalCapacity line)) :=
  ⟨discardKept_iff, fun _ => eatKept_iff⟩

/-- A table on which everybody holds 1 TONG, 8 8 9 WAN and perhaps one more
tile. -/
def promptTable (drawn discarded : Mj) : Game :=
  { Game.init [] with
    discardedMj := discarded
    players := fun _ =>
      (fourTiles ⟨1, 1, 0⟩ ⟨3, 8, 0⟩ ⟨3, 8, 0⟩ ⟨3, 9, 0⟩).setDeck 4 drawn }

theorem promptTable_real (p : Seat) : ∀ i : Nat,
    i ≤ ((promptTable ⟨3, 7, 0⟩ Mj.null).players p).normalCapacity →
      (((promptTable ⟨3, 7, 0⟩ Mj.null).players p).deck i).Real := by
  intro i hi
  have hi : i ≤ 4 := hi
  interval_cases i <;> decide +revert

theorem promptTable_inHand (p : Seat) : InHand
    ((promptTable Mj.null ⟨3, 7, 0⟩).players p)
    [⟨1, 1, 0⟩, ⟨3, 8, 0⟩, ⟨3, 8, 0⟩, ⟨3, 9, 0⟩] :=
  fourTiles_inHand ⟨by decide, by decide⟩

/-- One answer behind the hand, and one that names a single slot. -/
theorem lines_beyond_the_hand :
    ¬ DiscardKept (· = str "5\n") 0 (promptTable ⟨3, 7, 0⟩ Mj.null)
      ∧ ¬ EatKept (· = str "2\n") 0 (promptTable Mj.null ⟨3, 7, 0⟩) := by
  constructor
  · intro h
    obtain ⟨i, hscan, -, hle⟩ := (discardKept_iff (promptTable_real 0)).mp h _ rfl (by decide)
    have hi : sscanf1 (str "5\n") = some 5 := by decide
    rw [hi] at hscan
    cases hscan
    exact absurd hle (by decide)
  · intro h
    obtain ⟨i, j, hscan, -⟩ :=
      (eatKept_iff (promptTable_inHand 0) (by decide)).mp h _ rfl (by decide)
    have hi : sscanf2 (str "2\n") = (some 2, none) := by decide
    rw [hi] at hscan
    cases hscan

/-- The last slots of the hand, and a number that is stored as 0. -/
theorem lines_kept_last_slots :
    DiscardKept (· = str "4\n") 0 (promptTable ⟨3, 7, 0⟩ Mj.null)
      ∧ DiscardKept (· = str "4294967296\n") 0 (promptTable ⟨3, 7, 0⟩ Mj.null)
      ∧ EatKept (· = str "3 1\n") 0 (promptTable Mj.null ⟨3, 7, 0⟩) := by
  refine ⟨?_, ?_, ?_⟩
  · refine ((lines_kept _ _ 0).1 (promptTable_real 0)).mpr ?_
    rintro _ rfl -
    exact ⟨4, by decide, by decide, by decide⟩
  · refine ((lines_kept _ _ 0).1 (promptTable_real 0)).mpr ?_
    rintro _ rfl -
    exact ⟨0, by decide, by decide, by decide⟩
  · refine ((lines_kept _ _ 0).2 _ (promptTable_inHand 0) (by decide)).mpr ?_
    rintro _ rfl -
    exact ⟨3, 1, by decide, by decide, by decide⟩

end Mahjong.Server
