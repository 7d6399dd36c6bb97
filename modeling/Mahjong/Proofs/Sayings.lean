/-
What may be said where: the moves of the conversation with a player, read
forwards (`move`, for the one who speaks) and backwards (`heard_round` and
so on, for the one who listens).
-/
import Mahjong.Proofs.Spoken

namespace Mahjong.Talk

open Process CString
open Server (str tileLine discardLine announce endLine)

variable {v v' : View} {l : Line}

/-- What may be said: it is the turn of this side, the line is whole,
and it reads as a message the phase has a successor for. -/
theorem move {side : Side} {m : Message} (hturn : v.phase.speaker = some side)
    (hwhole : WholeLine limit l) (hread : v.phase.read l = some m) (hafter : v.after m = some v') :
    plain.Says side v l v' := by
  refine ⟨hturn, hwhole, ?_⟩
  show (v.phase.read l).bind v.after = some v'
  rw [hread]
  exact hafter

/-- What a message makes of a view of a known phase. -/
theorem after_of {phase : Phase} {m : Message} (hphase : v.phase = phase)
    (h : ({ v with phase := phase } : View).after m = some v') : v.after m = some v' := by
  subst hphase
  exact h

/-- An index of the hand may be discarded. -/
theorem after_index {i : Int} (hphase : v.phase = .discarding)
    (hi : 0 ≤ i ∧ i < v.hand.normalCapacity + 1) : v.after (.index i) = some (v.discard i) := by
  have hif : (if 0 ≤ i ∧ i < v.hand.normalCapacity + 1 then some (v.discard i) else none)
      = some (v.discard i) := if_pos hi
  exact after_of hphase hif

/-- What was said was a message of the phase. -/
theorem said {side : Side} {phase : Phase} (hphase : v.phase = phase)
    (h : plain.Says side v l v') : ∃ m, phase.read l = some m
      ∧ ({ v with phase := phase } : View).after m = some v' := by
  subst hphase
  exact Option.bind_eq_some_iff.mp h.next

/-- A question may be answered with yes, -/
theorem move_yes (hturn : v.phase.speaker = some .peer) (hread : v.phase.read = answerOf)
    (hafter : v.after .yes = some v') : plain.Says .peer v (str "YES!\n") v' := by
  refine move hturn (by decide) ?_ hafter
  rw [hread]
  rfl

/-- or with no. -/
theorem move_no (hturn : v.phase.speaker = some .peer) (hread : v.phase.read = answerOf)
    (hafter : v.after .no = some v') : plain.Says .peer v (str "NO!\n") v' := by
  refine move hturn (by decide) ?_ hafter
  rw [hread]
  rfl

/-- `ACK` is a whole line. -/
theorem whole_ack : WholeLine limit (str "ACK\n") := by decide

-- ============================================================== what has been heard

section Heard

/-- The number at the beginning opens the deal. -/
theorem heard_greeting (hphase : v.phase = .greeting) (h : plain.Says .hub v l v') :
    v' = v.deal := by
  obtain ⟨m, hread, hafter⟩ := said hphase h
  obtain ⟨p, -, hp⟩ := List.exists_of_findSome?_eq_some hread
  split at hp
  next =>
    cases hp
    exact (Option.some.inj hafter).symm
  next => cases hp

/-- One of the sixteen tiles, with type and number. -/
theorem heard_dealing {i : Nat} (hphase : v.phase = .dealing i) (h : plain.Says .hub v l v') :
    ∃ t n, sscanf2 l = (some t, some n)
      ∧ v' = { v with phase := if i + 1 < 16 then .dealing (i + 1) else .flowers,
                      hand := Client.putTile i t n v.hand } := by
  obtain ⟨m, hread, hafter⟩ := said hphase h
  rw [Phase.read] at hread
  split at hread
  next t n hscan =>
    cases hread
    exact ⟨t, n, hscan, (Option.some.inj hafter).symm⟩
  next => cases hread

/-- A flower, with its number alone, or the end of the deal. -/
theorem heard_flowers (hphase : v.phase = .flowers) (h : plain.Says .hub v l v') :
    (l = str "transfer complete\n" ∧ v' = { v with phase := .round })
      ∨ (l ≠ str "transfer complete\n"
        ∧ ∃ n, sscanf1 l = some n
          ∧ v' = { v with phase := .flowers, hand := Client.putFlower n v.hand }) := by
  obtain ⟨m, hread, hafter⟩ := said hphase h
  rw [Phase.read] at hread
  split at hread
  next hl =>
    cases hread
    exact Or.inl ⟨hl, (Option.some.inj hafter).symm⟩
  next hl =>
    obtain ⟨n, hn, rfl⟩ := Option.map_eq_some_iff.mp hread
    exact Or.inr ⟨hl, n, hn, (Option.some.inj hafter).symm⟩

/-- The tile drawn. -/
theorem heard_drawing {own : Bool} (hphase : v.phase = .drawing own)
    (h : plain.Says .hub v l v') :
    ∃ t n, sscanf2 l = (some t, some n) ∧ v' = (v.put t n).drawn own := by
  obtain ⟨m, hread, hafter⟩ := said hphase h
  rw [Phase.read] at hread
  split at hread
  next t n hscan =>
    cases hread
    exact ⟨t, n, hscan, (Option.some.inj hafter).symm⟩
  next => cases hread

/-- Whether the tile wins. -/
theorem heard_verdict {own : Bool} (hphase : v.phase = .verdict own)
    (h : plain.Says .hub v l v') :
    (l = str "can hu\n" ∧ v' = { v with phase := .huAnswer own })
      ∨ (l = str "cannot hu\n" ∧ v' = { v with phase := View.goOn own }) := by
  obtain ⟨m, hread, hafter⟩ := said hphase h
  rw [Phase.read] at hread
  split_ifs at hread with hcan hcannot
  · cases hread
    exact Or.inl ⟨hcan, (Option.some.inj hafter).symm⟩
  · cases hread
    exact Or.inr ⟨hcannot, (Option.some.inj hafter).symm⟩

/-- Whether there are four of a kind. -/
theorem heard_quietVerdict (hphase : v.phase = .quietVerdict) (h : plain.Says .hub v l v') :
    (l = str "You can quietly-gang.\n" ∧ v' = { v with phase := .quietAnswer })
      ∨ (l = str "You cannot quietly-gang.\n" ∧ v' = { v with phase := .discarding }) := by
  obtain ⟨m, hread, hafter⟩ := said hphase h
  rw [Phase.read] at hread
  split_ifs at hread with hcan hcannot
  · cases hread
    exact Or.inl ⟨hcan, (Option.some.inj hafter).symm⟩
  · cases hread
    exact Or.inr ⟨hcannot, (Option.some.inj hafter).symm⟩

/-- The prompt for two indices, before every attempt. -/
theorem heard_eating (hphase : v.phase = .eating) (h : plain.Says .hub v l v') :
    l = str "Type which 2 of the mjs you want to eat with: \n"
      ∧ v' = { v with phase := .eatAnswer } := by
  obtain ⟨m, hread, hafter⟩ := said hphase h
  rw [Phase.read] at hread
  split_ifs at hread with hl
  cases hread
  exact ⟨hl, (Option.some.inj hafter).symm⟩

/-- A pair that does not fit is asked for again, whatever was said. -/
theorem after_invalid {answer : Option Int × Option Int} (hphase : v.phase = .eatVerdict answer) :
    v.after .invalid = some { v with phase := .eating } := by
  obtain ⟨i, j⟩ := answer
  cases i with
  | none => exact after_of hphase rfl
  | some i => cases j <;> exact after_of hphase rfl

/-- Whether the pair named fits; if it does, both indices were there. -/
theorem heard_eatVerdict {answer : Option Int × Option Int} (hphase : v.phase = .eatVerdict answer)
    (h : plain.Says .hub v l v') :
    (l = str "eatable.\n" ∧ ∃ i j, answer = (some i, some j) ∧ v' = v.eat i j)
      ∨ (l = str "invalid choice.\n" ∧ v' = { v with phase := .eating }) := by
  obtain ⟨m, hread, hafter⟩ := said hphase h
  rw [Phase.read] at hread
  split_ifs at hread with heat hinv
  · cases hread
    obtain ⟨i, j⟩ := answer
    cases i with
    | none => cases hafter
    | some i =>
        cases j with
        | none => cases hafter
        | some j => exact Or.inl ⟨heat, i, j, rfl, (Option.some.inj hafter).symm⟩
  · cases hread
    rw [after_invalid rfl] at hafter
    exact Or.inr ⟨hinv, (Option.some.inj hafter).symm⟩

/-- Whether there is another round, and there are four at most. -/
theorem heard_setVerdict (hphase : v.phase = .setVerdict) (h : plain.Says .hub v l v') :
    (l = str "start!\n" ∧ v' = if v.round + 1 < 4 then { v.deal with round := v.round + 1 }
        else { v with phase := .over })
      ∨ (l = str "Some players don't want to play, no more game!\n"
        ∧ v' = { v with phase := .over }) := by
  obtain ⟨m, hread, hafter⟩ := said hphase h
  rw [Phase.read] at hread
  split_ifs at hread with hstart hno
  · cases hread
    exact Or.inl ⟨hstart, (Option.some.inj hafter).symm⟩
  · cases hread
    exact Or.inr ⟨hno, (Option.some.inj hafter).symm⟩

/-- The lines between two turns, and what they make of the view. -/
inductive RoundMove (v : View) : Line → View → Prop
  | yourTurn : RoundMove v (str "your turn\n") { v with phase := .drawing true }
  | noOneWantsIt : RoundMove v (str "no one wants it.\n")
      { v with phase := .round, hand := v.hand.pushSea v.table }
  | offer (c : Offer) : RoundMove v c.line { v with phase := .offered c }
  | announced {l : Line} (h : l.take 18 = str "(Announce) player ") :
      RoundMove v l { v with phase := .round }
  | gameSet {l : Line} (h : l.take 7 = str "(Game) " ∨ l.take 6 = str "(End) ") :
      RoundMove v l { v with phase := .setAnswer }
  | discarded {l : Line} {p : Seat} {m : Mj} (hm : m.Real) (h : discardLine p m = some l) :
      RoundMove v l { v with phase := .round, table := m.bare }

/-- Between two turns every line is one of these. -/
theorem heard_round (hphase : v.phase = .round) (h : plain.Says .hub v l v') :
    RoundMove v l v' := by
  obtain ⟨m, hread, hafter⟩ := said hphase h
  have hround : roundOf l = some m := hread
  unfold roundOf at hround
  split_ifs at hround with h1 h2 h3 h4 h5 h6 h7 h8
  · cases hround
    rw [h1, ← Option.some.inj hafter]
    exact .yourTurn
  · cases hround
    rw [h2, ← Option.some.inj hafter]
    exact .noOneWantsIt
  · cases hround
    rw [h3, ← Option.some.inj hafter]
    exact .offer .hu
  · cases hround
    rw [h4, ← Option.some.inj hafter]
    exact .offer .gang
  · cases hround
    rw [h5, ← Option.some.inj hafter]
    exact .offer .pong
  · cases hround
    rw [h6, ← Option.some.inj hafter]
    exact .offer .eat
  · cases hround
    rw [← Option.some.inj hafter]
    exact .announced h7
  · cases hround
    rw [← Option.some.inj hafter]
    exact .gameSet h8
  · obtain ⟨t, ht, rfl⟩ := Option.map_eq_some_iff.mp hround
    obtain ⟨hreal, hprio, p, hp⟩ := discardOf_some ht
    have hbare : t.bare = t := by
      rw [Mj.bare, ← hprio]
    rw [← Option.some.inj hafter, ← hbare]
    exact .discarded hreal hp

end Heard

end Mahjong.Talk
