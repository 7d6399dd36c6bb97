/-
The C string functions a line protocol rests on: `printf("%d")`,
`sscanf("%d")` and `strncmp`, over lines as lists of characters.

`scanInt` follows the conversion `%d`: it skips white space, takes an
optional sign and the longest run of digits, and fails without one. A
number that is no `int` is stored as glibc stores it (`toInt`). The main
fact is the round trip `scanInt_decimal`: an `int` that `%d` prints, `%d`
reads back, with the rest of the line left over.
-/
import Mathlib.Tactic

namespace CString

/-- A line of text, its newline included. -/
abbrev Line := List Char

-- ============================================================== printing

/-- What `printf("%d", i)` writes. -/
def decimal : Int → Line
  | .ofNat n => Nat.toDigits 10 n
  | .negSucc n => '-' :: Nat.toDigits 10 (n + 1)

-- ============================================================== scanning

/-- `isspace` in the C locale. -/
def isSpace (c : Char) : Bool :=
  c == ' ' || c == '\t' || c == '\n' || c == '\x0b' || c == '\x0c' || c == '\r'

/-- The digits at the head of a line, as a number, with what follows. -/
def scanNat (l : Line) : Option (Nat × Line) :=
  match l.takeWhile Char.isDigit with
  | [] => none
  | ds => some (Nat.ofDigitChars 10 ds 0, l.dropWhile Char.isDigit)

/-- The values of an `int`. -/
def IsInt (i : Int) : Prop := -2147483648 ≤ i ∧ i ≤ 2147483647

instance (i : Int) : Decidable (IsInt i) :=
  inferInstanceAs (Decidable (-2147483648 ≤ i ∧ i ≤ 2147483647))

/-- What a number leaves in an `int`. C leaves open what becomes of one that
is none; glibc reads a `long`, the nearest to it, and stores its lower 32
bits. -/
def toInt (i : Int) : Int :=
  (max (-9223372036854775808) (min i 9223372036854775807)).bmod 4294967296

theorem toInt_of_isInt {i : Int} (h : IsInt i) : toInt i = i := by
  have hlong : max (-9223372036854775808) (min i 9223372036854775807) = i := by
    unfold IsInt at h
    omega
  rw [toInt, hlong, Int.bmod_def]
  unfold IsInt at h
  omega

/-- The conversion `%d`: the number it stores and the rest of the line,
`none` when nothing matches and the argument is left alone. -/
def scanInt (l : Line) : Option (Int × Line) :=
  match l.dropWhile isSpace with
  | '-' :: l' => (scanNat l').map fun (n, rest) => (toInt (-(n : Int)), rest)
  | '+' :: l' => (scanNat l').map fun (n, rest) => (toInt n, rest)
  | l' => (scanNat l').map fun (n, rest) => (toInt n, rest)

/-- `sscanf(l, "%d", &a)`: what is stored in `a`, if anything. -/
def sscanf1 (l : Line) : Option Int := (scanInt l).map Prod.fst

/-- `sscanf(l, "%d %d", &a, &b)`: what is stored in `a` and in `b`. -/
def sscanf2 (l : Line) : Option Int × Option Int :=
  match scanInt l with
  | none => (none, none)
  | some (a, rest) => (some a, sscanf1 rest)

-- ============================================================= comparing

/-- `strncmp(s, lit, n) == 0`: the first `n` characters agree, the
terminating null counted. -/
def strncmpEq (s lit : Line) (n : Nat) : Bool :=
  (s ++ ['\x00']).take n == (lit ++ ['\x00']).take n

-- ============================================================ round trips

/-- The line does not go on with a digit. -/
def NoDigitHead (l : Line) : Prop := ∀ c ∈ l.head?, c.isDigit = false

/-- Digits followed by something else split where the digits end. -/
theorem span_digits {ds rest : Line} (hds : ∀ c ∈ ds, c.isDigit = true)
    (hrest : NoDigitHead rest) :
    (ds ++ rest).takeWhile Char.isDigit = ds
      ∧ (ds ++ rest).dropWhile Char.isDigit = rest := by
  induction ds with
  | nil =>
      cases rest with
      | nil => exact ⟨rfl, rfl⟩
      | cons c rest =>
          have hc : c.isDigit = false := hrest c rfl
          simp [hc]
  | cons c ds ih =>
      have hc : c.isDigit = true := hds c (List.mem_cons_self ..)
      have h := ih fun d hd => hds d (List.mem_cons_of_mem _ hd)
      simp [hc, h.1, h.2]

theorem scanNat_toDigits (n : Nat) {rest : Line} (hrest : NoDigitHead rest) :
    scanNat (Nat.toDigits 10 n ++ rest) = some (n, rest) := by
  have hds : ∀ c ∈ Nat.toDigits 10 n, c.isDigit = true :=
    fun c hc => Nat.isDigit_of_mem_toDigits (by decide) (by decide) hc
  obtain ⟨htake, hdrop⟩ := span_digits hds hrest
  unfold scanNat
  rw [htake, hdrop]
  have hval : Nat.ofDigitChars 10 (Nat.toDigits 10 n) 0 = n :=
    Nat.ofDigitChars_ten_toDigits
  cases hcs : Nat.toDigits 10 n with
  | nil => exact absurd hcs Nat.toDigits_ne_nil
  | cons c cs => rw [hcs] at hval; simp [hval]

/-- A number's first digit is neither white space nor a sign. -/
theorem toDigits_head (n : Nat) : ∃ c cs, Nat.toDigits 10 n = c :: cs
    ∧ isSpace c = false ∧ c ≠ '-' ∧ c ≠ '+' := by
  cases hcs : Nat.toDigits 10 n with
  | nil => exact absurd hcs Nat.toDigits_ne_nil
  | cons c cs =>
      have hc : c.isDigit = true := by
        refine Nat.isDigit_of_mem_toDigits (b := 10) (n := n) (by decide)
          (by decide) ?_
        rw [hcs]
        exact List.mem_cons_self ..
      refine ⟨c, cs, rfl, ?_, ?_, ?_⟩
      · cases hsp : isSpace c with
        | false => rfl
        | true =>
            simp only [isSpace, Bool.or_eq_true, beq_iff_eq] at hsp
            rcases hsp with ((((rfl | rfl) | rfl) | rfl) | rfl) | rfl <;>
              simp [Char.isDigit] at hc
      · rintro rfl
        simp [Char.isDigit] at hc
      · rintro rfl
        simp [Char.isDigit] at hc

/-- What `%d` prints, `%d` reads back. -/
theorem scanInt_decimal {i : Int} (hi : IsInt i) {rest : Line} (hrest : NoDigitHead rest) :
    scanInt (decimal i ++ rest) = some (i, rest) := by
  have hstored := toInt_of_isInt hi
  cases i with
  | ofNat n =>
      obtain ⟨c, cs, hcs, hsp, hm, hp⟩ := toDigits_head n
      have hscan := scanNat_toDigits n hrest
      simp only [decimal]
      rw [hcs] at hscan ⊢
      unfold scanInt
      rw [List.cons_append, List.dropWhile_cons_of_neg (by simp [hsp])]
      rw [List.cons_append] at hscan
      split
      next l' heq => exact absurd (List.cons.inj heq).1 hm
      next l' heq => exact absurd (List.cons.inj heq).1 hp
      next =>
        rw [hscan]
        exact congrArg (fun j => some (j, rest)) hstored
  | negSucc n =>
      have hscan := scanNat_toDigits (n + 1) hrest
      have hdrop : ('-' :: (Nat.toDigits 10 (n + 1) ++ rest)).dropWhile isSpace
          = '-' :: (Nat.toDigits 10 (n + 1) ++ rest) :=
        List.dropWhile_cons_of_neg (by decide)
      simp only [decimal, List.cons_append]
      unfold scanInt
      rw [hdrop]
      simp only [hscan, Option.map_some]
      exact congrArg (fun j => some (j, rest)) hstored

theorem scanInt_space (l : Line) : scanInt (' ' :: l) = scanInt l := by
  unfold scanInt
  rw [List.dropWhile_cons_of_pos (by decide)]

theorem sscanf1_decimal {i : Int} (hi : IsInt i) {rest : Line} (hrest : NoDigitHead rest) :
    sscanf1 (decimal i ++ rest) = some i := by
  rw [sscanf1, scanInt_decimal hi hrest]
  rfl

/-- A number that is no `int`. -/
example : sscanf1 "4294967296\n".toList = some 0 := by decide

/-- Two numbers printed with a space between are read back as the two. -/
theorem sscanf2_decimal {i j : Int} (hi : IsInt i) (hj : IsInt j) {rest : Line}
    (hrest : NoDigitHead rest) :
    sscanf2 (decimal i ++ ' ' :: (decimal j ++ rest)) = (some i, some j) := by
  have hsp : NoDigitHead (' ' :: (decimal j ++ rest)) := by
    rintro c ⟨⟩
    rfl
  unfold sscanf2
  rw [scanInt_decimal hi hsp]
  simp only [sscanf1, scanInt_space, scanInt_decimal hj hrest, Option.map_some]

/-- A printed number is never empty, and begins with a digit or a minus
sign. -/
theorem decimal_head (i : Int) : ∃ c cs, decimal i = c :: cs
    ∧ (c = '-' ∨ c.isDigit = true) := by
  cases i with
  | ofNat n =>
      cases hcs : Nat.toDigits 10 n with
      | nil => exact absurd hcs Nat.toDigits_ne_nil
      | cons c cs =>
          refine ⟨c, cs, hcs, Or.inr ?_⟩
          refine Nat.isDigit_of_mem_toDigits (b := 10) (n := n) (by decide)
            (by decide) ?_
          rw [hcs]
          exact List.mem_cons_self ..
  | negSucc n => exact ⟨'-', _, rfl, Or.inl rfl⟩

end CString
