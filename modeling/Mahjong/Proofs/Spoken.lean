/-
The lines of the conversation: whole lines, read as they were meant.

The server's lines are put together from numbers and texts; each is a
whole line (`WholeLine`) and is read back as the message it stands for. The
one that needs an argument is the broadcast of a discard, which names a
tile by words: the client, which looks at three characters of it, finds
the tile the server discarded (`scanDiscard_discardLine`), so no two tiles
have one broadcast and `discardOf` finds it too.
-/
import Mahjong.Proofs.Bare
import Mahjong.Proofs.Rules

namespace Mahjong.Talk

open Process CString
open Server (str tileLine discardLine announce endLine)

-- ======================================================================= the numbers

theorem newline_not_mem_decimal (i : Int) : '\n' ∉ decimal i := by
  have hdigits : ∀ n, '\n' ∉ Nat.toDigits 10 n := by
    intro n hn
    have hdigit := Nat.isDigit_of_mem_toDigits (by decide) (by decide) hn
    simp [Char.isDigit] at hdigit
  cases i with
  | ofNat n => exact hdigits n
  | negSucc n =>
      rw [decimal, List.mem_cons, not_or]
      exact ⟨by decide, hdigits _⟩

/-- The numbers the two programs print have at most two digits. -/
theorem length_decimal_le {i : Int} (h0 : 0 ≤ i) (h : i < 20) : (decimal i).length ≤ 2 := by
  have hall : ∀ k : Fin 20, (decimal (k.val : Int)).length ≤ 2 := by decide
  have hk := hall ⟨i.toNat, by omega⟩
  rw [show ((i.toNat : Nat) : Int) = i by omega] at hk
  exact hk

/-- The numbers on a tile, or of an empty slot. -/
def Small (m : Mj) : Prop := (0 ≤ m.type ∧ m.type < 20) ∧ 0 ≤ m.number ∧ m.number < 20

theorem small_null : Small Mj.null := by simp [Small, Mj.null]

theorem small_of_wall (w : Wall) {m : Mj} (hm : m ∈ w.tiles) : Small m := by
  have hface : m.face ∈ tileSet := w.perm.mem_iff.mp (List.mem_map_of_mem hm)
  have h := mem_tileSet hface
  simp only [Mj.face] at h
  unfold Small
  omega

theorem whole_decimal {i : Int} (h0 : 0 ≤ i) (h : i < 20) : WholeLine limit (decimal i ++ ['\n']) := by
  refine ⟨⟨_, rfl, newline_not_mem_decimal i⟩, ?_⟩
  have hlen := length_decimal_le h0 h
  simp only [List.length_append, List.length_singleton, limit]
  omega

theorem whole_tileLine {m : Mj} (h : Small m) : WholeLine limit (tileLine m) := by
  have ht := length_decimal_le h.1.1 h.1.2
  have hn := length_decimal_le h.2.1 h.2.2
  refine ⟨⟨decimal m.type ++ ' ' :: decimal m.number, by simp [tileLine], ?_⟩, ?_⟩
  · simp [newline_not_mem_decimal]
  · simp only [tileLine, List.length_append, List.length_cons, List.length_nil, limit]
    omega

-- ==================================================================== lines of numbers

theorem noDigitHead_newline : NoDigitHead ['\n'] := by
  intro c hc
  cases hc
  rfl

/-- The numbers on tiles, and of slots, are stored as they are. -/
theorem isInt_of_lt {i : Int} (h0 : 0 ≤ i) (h : i < 20) : IsInt i := by
  unfold IsInt
  omega

theorem sscanf1_line {i : Int} (h0 : 0 ≤ i) (h : i < 20) :
    sscanf1 (decimal i ++ ['\n']) = some i :=
  sscanf1_decimal (isInt_of_lt h0 h) noDigitHead_newline

theorem sscanf2_tileLine {m : Mj} (h : Small m) :
    sscanf2 (tileLine m) = (some m.type, some m.number) :=
  sscanf2_decimal (isInt_of_lt h.1.1 h.1.2) (isInt_of_lt h.2.1 h.2.2) noDigitHead_newline

theorem read_dealing (i : Nat) {m : Mj} (h : Small m) :
    (Phase.dealing i).read (tileLine m) = some (.tile m.type m.number) := by
  simp only [Phase.read, sscanf2_tileLine h]

theorem read_drawing (own : Bool) {m : Mj} (h : Small m) :
    (Phase.drawing own).read (tileLine m) = some (.tile m.type m.number) := by
  simp only [Phase.read, sscanf2_tileLine h]

theorem read_flower {i : Int} (h0 : 0 ≤ i) (h : i < 20) :
    Phase.flowers.read (decimal i ++ ['\n']) = some (.flower i) := by
  have hne : decimal i ++ ['\n'] ≠ str "transfer complete\n" := by
    intro he
    have hscan := sscanf1_line h0 h
    rw [he, show sscanf1 (str "transfer complete\n") = none by decide] at hscan
    cases hscan
  rw [Phase.read, if_neg hne, sscanf1_line h0 h]
  rfl

theorem read_index {i : Int} (h0 : 0 ≤ i) (h : i < 20) :
    Phase.discarding.read (decimal i ++ ['\n']) = some (.index i) := by
  rw [Phase.read, sscanf1_line h0 h]
  rfl

-- ===================================================================== the broadcasts

theorem mem_realTiles {m : Mj} : m ∈ realTiles ↔ m.Real ∧ m.priority = 0 := by
  have hall : ∀ m ∈ realTiles, m.Real ∧ m.priority = 0 := by decide
  refine ⟨hall m, fun h => ?_⟩
  obtain ⟨t, n, q⟩ := m
  obtain ⟨hreal, rfl⟩ := h
  have hsuits : ∀ t : Fin 3, ∀ n : Fin 9,
      (⟨(t.val : Int) + 1, (n.val : Int) + 1, 0⟩ : Mj) ∈ realTiles := by decide
  have hhonours : ∀ n : Fin 7, (⟨4, (n.val : Int) + 1, 0⟩ : Mj) ∈ realTiles := by decide
  cases hreal with
  | inl hsuit =>
      obtain ⟨ht, ht', hn, hn'⟩ := hsuit
      simp only at ht ht' hn hn'
      have h := hsuits ⟨(t - 1).toNat, by omega⟩ ⟨(n - 1).toNat, by omega⟩
      rw [show (((t - 1).toNat : Nat) : Int) + 1 = t by omega,
        show (((n - 1).toNat : Nat) : Int) + 1 = n by omega] at h
      exact h
  | inr hhonour =>
      obtain ⟨ht, hn, hn'⟩ := hhonour
      simp only at ht hn hn'
      subst ht
      have h := hhonours ⟨(n - 1).toNat, by omega⟩
      rw [show (((n - 1).toNat : Nat) : Int) + 1 = n by omega] at h
      exact h

theorem bare_mem_realTiles {m : Mj} (h : m.Real) : m.bare ∈ realTiles :=
  mem_realTiles.mpr ⟨h, rfl⟩

/-- What a client finds in a broadcast, whatever it had on the table. -/
def Names (l : Line) (m : Mj) : Prop :=
  ∀ x : Mj, Client.scanDiscard l x = { x with type := m.type, number := m.number }

theorem names_of_null {l : Line} {m : Mj}
    (h : Client.scanDiscard l ⟨-1, -1, 0⟩ = m) (ht : m.type ≠ -1) (hn : m.number ≠ -1) :
    Names l m := by
  intro x
  subst h
  unfold Client.scanDiscard at ht hn ⊢
  dsimp only at ht hn ⊢
  split_ifs at ht hn ⊢ <;> first | rfl | exact absurd rfl hn

theorem names_real {l : Line} {m : Mj} (h : Client.scanDiscard l ⟨-1, -1, 0⟩ = m)
    (hm : m.Real) : Names l m := by
  refine names_of_null h ?_ ?_
  · unfold Mj.Real at hm
    omega
  · unfold Mj.Real at hm
    omega

/-- The thirty-four tiles of the four players. -/
theorem broadcasts : ∀ p : Seat, ∀ m ∈ realTiles, ∃ l ∈ discardLine p m,
    WholeLine limit l ∧ l.take 17 = str "(Discard) Player "
      ∧ Client.scanDiscard l ⟨-1, -1, 0⟩ = m := by
  decide +kernel

/-- A line that begins like a broadcast is read as one. -/
theorem roundOf_broadcast {l : Line} (h : l.take 17 = str "(Discard) Player ") :
    roundOf l = (discardOf l).map .discarded := by
  have hne : ∀ l' : Line, l'.take 17 ≠ str "(Discard) Player " → l ≠ l' := by
    intro l' hl' he
    exact hl' (by rw [← he]; exact h)
  have htake : ∀ n ≤ 17, l.take n = (str "(Discard) Player ").take n := by
    intro n hn
    rw [← h, List.take_take, Nat.min_eq_left hn]
  have hann : l.take 18 ≠ str "(Announce) player " := by
    intro he
    have h2 : (l.take 18).take 2 = l.take 2 := by rw [List.take_take]; rfl
    rw [he, htake 2 (by omega)] at h2
    exact absurd h2 (by decide)
  have hgame : ¬ (l.take 7 = str "(Game) " ∨ l.take 6 = str "(End) ") := by
    rw [htake 7 (by omega), htake 6 (by omega)]
    decide
  unfold roundOf
  rw [if_neg (hne _ (by decide)), if_neg (hne _ (by decide)), if_neg (hne _ (by decide)),
    if_neg (hne _ (by decide)), if_neg (hne _ (by decide)), if_neg (hne _ (by decide)),
    if_neg hann, if_neg hgame]

/-- The broadcast of a tile: a whole line that begins like one, and the
client finds the tile in it. -/
theorem broadcast {p : Seat} {m : Mj} (hm : m.Real) : ∃ l, discardLine p m = some l
    ∧ WholeLine limit l ∧ l.take 17 = str "(Discard) Player " ∧ Names l m := by
  obtain ⟨l, hl, hwhole, hhead, hscan⟩ := broadcasts p m.bare (bare_mem_realTiles hm)
  have hnames : Names l m.bare := names_real hscan (mem_realTiles.mp (bare_mem_realTiles hm)).1
  exact ⟨l, hl, hwhole, hhead, hnames⟩

/-- No two tiles have one broadcast. -/
theorem discardLine_inj {p q : Seat} {m m' : Mj} {l : Line} (hm : m.Real) (hm' : m'.Real)
    (h : discardLine p m = some l) (h' : discardLine q m' = some l) : m.bare = m'.bare := by
  obtain ⟨l₁, hl₁, -, -, hnames⟩ := broadcast (p := p) hm
  obtain ⟨l₂, hl₂, -, -, hnames'⟩ := broadcast (p := q) hm'
  obtain rfl : l = l₁ := Option.some.inj (h.symm.trans hl₁)
  obtain rfl : l = l₂ := Option.some.inj (h'.symm.trans hl₂)
  have hsame := (hnames Mj.null).symm.trans (hnames' Mj.null)
  simp only [Mj.mk.injEq] at hsame
  rw [Mj.bare_eq_iff, Mj.face_eq_iff]
  exact ⟨hsame.1, hsame.2.1⟩

theorem discardOf_discardLine {p : Seat} {m : Mj} {l : Line} (hm : m.Real)
    (h : discardLine p m = some l) : discardOf l = some m.bare := by
  have hsome : (discardOf l).isSome = true := by
    rw [discardOf, List.find?_isSome]
    exact ⟨m.bare, bare_mem_realTiles hm, decide_eq_true ⟨p, h⟩⟩
  obtain ⟨m', hm'⟩ := Option.isSome_iff_exists.mp hsome
  have hmem := (mem_realTiles.mp (List.mem_of_find?_eq_some hm'))
  have hfound := List.find?_some hm'
  obtain ⟨q, hq⟩ := of_decide_eq_true hfound
  have hbare := discardLine_inj hm hmem.1 h hq
  rw [hm', hbare]
  obtain ⟨t, n, r⟩ := m'
  obtain ⟨-, rfl⟩ := hmem
  rfl

/-- What is read as a broadcast is one of a tile that can be discarded. -/
theorem discardOf_some {l : Line} {m : Mj} (h : discardOf l = some m) :
    m.Real ∧ m.priority = 0 ∧ ∃ p : Seat, discardLine p m = some l := by
  obtain ⟨hreal, hprio⟩ := mem_realTiles.mp (List.mem_of_find?_eq_some h)
  have hfound := List.find?_some h
  exact ⟨hreal, hprio, of_decide_eq_true hfound⟩

/-- What does not begin like a broadcast is none. -/
theorem discardOf_none {l : Line} (h : l.take 17 ≠ str "(Discard) Player ") :
    discardOf l = none := by
  cases hm : discardOf l with
  | none => rfl
  | some m =>
      obtain ⟨hreal, -, p, hl⟩ := discardOf_some hm
      obtain ⟨l', hl', -, hhead, -⟩ := broadcast (p := p) hreal
      obtain rfl : l = l' := Option.some.inj (hl.symm.trans hl')
      exact absurd hhead h

/-- Server and client: the tile of every broadcast is found again. -/
theorem scanDiscard_discardLine {p : Seat} {m : Mj} {l : Line} (hm : m.Real)
    (h : discardLine p m = some l) (x : Mj) :
    Client.scanDiscard l x = { x with type := m.type, number := m.number } := by
  obtain ⟨l', hl', -, -, hnames⟩ := broadcast (p := p) hm
  obtain rfl : l = l' := Option.some.inj (h.symm.trans hl')
  exact hnames x

end Mahjong.Talk
