import LetLang.Parse
import LetLang.Proofs.Numeral
import LetLang.Proofs.Run

/-!
# Numbers are exact

The digits of a number are added up in a 64-bit word, one after another, until no digit follows or the
word becomes larger than the largest number. `Reached` lists the states that this goes through. In each
of them the word is the exact value of the digits read so far and is so small that the next digit cannot
make it wrap around; and since more digits never make a value smaller, reading gives up early only on a
run whose whole value is too large.
-/
namespace LetLang.Parse

open Grammar

/-- The word so far, where the last digit ended, and the tokens that are left. -/
structure Tally where
  word : UInt64
  last : Nat
  left : List Token

namespace Tally

/-- The word with one more digit, in 64-bit arithmetic. -/
def extended (s : Tally) (d : Digit) : UInt64 :=
  s.word * 10 + UInt64.ofNat d.val

/-- What the reading of a number that began at `first` gives from a state on. -/
def outcome (first : Nat) (s : Tally) : Outcome Expr :=
  match readDigits s.word s.last s.left with
  | none => ⟨.note (.overflow first), none⟩
  | some (word, last, left) => ⟨.empty, some (.number word.toUInt32 ⟨first, last⟩, left)⟩

/-- The states that reading the number at the front of the tokens goes through. -/
inductive Reached (ts : List Token) : Tally → Prop
  | first {d : Digit} {first last : Nat} {left : List Token}
    (begins : ts = ⟨.digit d, first, last⟩ :: left) : Reached ts ⟨UInt64.ofNat d.val, last, left⟩
  | more {s : Tally} {d : Digit} {first last : Nat} {left : List Token} (before : Reached ts s)
    (next : s.left = ⟨.digit d, first, last⟩ :: left) (fits : ¬ maxNumber < s.extended d) :
    Reached ts ⟨s.extended d, last, left⟩

/-- The outcome of the number production is the same from every state that it goes through. -/
theorem Reached.outcome_eq {t : Token} {ts : List Token} {s : Tally} (h : Reached (t :: ts) s) :
    s.outcome t.first = (number (t :: ts)).outcome := by
  induction h with
  | first begins =>
    rw [number_outcome, begins]
    cases begins
    rfl
  | @more s d first last left _ next fits ih =>
    have hturn : readDigits s.word s.last s.left = readDigits (s.extended d) last left := by
      rw [next, readDigits]
      exact if_neg fits
    rw [← ih, outcome, outcome, hturn]

/-- The state has read some digits of a run behind which `rest` stands, and has others before it. -/
structure Exact (rest : List Token) (read unread : List Digit) (s : Tally) : Prop where
  word_eq : s.word.toNat = Decimal.value 0 read
  small : s.word.toNat ≤ 0xFFFFFFFF
  ahead : ∃ run : List Token, s.left = run ++ rest ∧
    run.map Token.lexeme = unread.map Lexeme.digit

section Exact

variable {rest left : List Token} {read unread : List Digit} {s : Tally} {d : Digit}
  {first last : Nat}

theorem Exact.extended_eq (h : Exact rest read unread s) (d : Digit) :
    (s.extended d).toNat = Decimal.value 0 (read ++ [d]) := by
  rw [extended, toNat_extend h.small, h.word_eq, Decimal.value_append]
  rfl

/-- A digit before a state is one of the run. -/
theorem Exact.next (h : Exact rest read unread s) (maximal : ¬ DigitFirst rest)
    (next : s.left = ⟨.digit d, first, last⟩ :: left) :
    ∃ others, unread = d :: others ∧ ∃ run : List Token, left = run ++ rest ∧
      run.map Token.lexeme = others.map Lexeme.digit := by
  obtain ⟨run, hleft, hrun⟩ := h.ahead
  rw [next] at hleft
  cases run with
  | nil => exact absurd ⟨d, by rw [← List.nil_append rest, ← hleft]; rfl⟩ maximal
  | cons u run =>
    cases hleft
    cases unread with
    | nil => cases hrun
    | cons e others =>
      simp only [List.map_cons, List.cons.injEq, Lexeme.digit.injEq] at hrun
      obtain ⟨rfl, hrun⟩ := hrun
      exact ⟨others, rfl, run, rfl, hrun⟩

/-- Taking one more digit keeps the word exact. -/
theorem Exact.step (h : Exact rest read unread s) (maximal : ¬ DigitFirst rest)
    (next : s.left = ⟨.digit d, first, last⟩ :: left) (fits : ¬ maxNumber < s.extended d) :
    ∃ others, unread = d :: others ∧ Exact rest (read ++ [d]) others ⟨s.extended d, last, left⟩ := by
  obtain ⟨others, hunread, ahead⟩ := h.next maximal next
  have hsmall : (s.extended d).toNat ≤ 0xFFFFFFFF := by
    rw [UInt64.lt_iff_toNat_lt, toNat_maxNumber] at fits
    omega
  exact ⟨others, hunread, h.extended_eq d, hsmall, ahead⟩

end Exact

/-- In every state that is reached on a maximal run of digits the word is the value of those read. -/
theorem Reached.exact {run rest : List Token} {ds : List Digit} {s : Tally}
    (h : Reached (run ++ rest) s) (digits : run.map Token.lexeme = ds.map Lexeme.digit)
    (maximal : ¬ DigitFirst rest) : ∃ read unread, ds = read ++ unread ∧ Exact rest read unread s := by
  induction h with
  | @first d first last left begins =>
    -- before the first digit nothing is read, and the word would be zero
    have hstart : Exact rest [] ds ⟨0, first, run ++ rest⟩ :=
      ⟨rfl, Nat.zero_le _, run, rfl, digits⟩
    obtain ⟨others, hds, ahead⟩ := hstart.next maximal begins
    have hd := toNat_digit d
    have hlt := d.isLt
    refine ⟨[d], others, hds, ?_, ?_, ahead⟩
    · rw [hd]
      simp [Decimal.value]
    · rw [hd]
      omega
  | more _ next fits ih =>
    obtain ⟨read, unread, hds, hexact⟩ := ih
    obtain ⟨others, rfl, hnext⟩ := hexact.step maximal next fits
    exact ⟨_, others, by rw [hds, List.append_assoc, List.singleton_append], hnext⟩

/-- The word is small enough for one more digit. -/
theorem Exact.roomy {rest : List Token} {read unread : List Digit} {s : Tally}
    (h : Exact rest read unread s) (d : Digit) : s.word.toNat * 10 + d.val < UInt64.size := by
  have hsmall := h.small
  have hd := d.isLt
  have hsize : UInt64.size = 18446744073709551616 := rfl
  omega

/-- If the next digit makes the word too large, then so is the value of all digits. -/
theorem Exact.overflows {rest left : List Token} {read unread : List Digit} {s : Tally} {d : Digit}
    {first last : Nat} (h : Exact rest read unread s) (maximal : ¬ DigitFirst rest)
    (next : s.left = ⟨.digit d, first, last⟩ :: left) (large : maxNumber < s.extended d) :
    0xFFFFFFFF < Decimal.value 0 (read ++ unread) := by
  obtain ⟨others, rfl, -⟩ := h.next maximal next
  have hword := h.extended_eq d
  have hle := Decimal.le_value (Decimal.value 0 (read ++ [d])) others
  rw [← Decimal.value_append, List.append_assoc, List.singleton_append] at hle
  rw [UInt64.lt_iff_toNat_lt, toNat_maxNumber] at large
  omega

end Tally

/-- What the number production does at a cursor before a maximal run of digits. -/
theorem read_number_run {c d : Cursor} {t : Token} {run : List Token} {ds : List Digit}
    (o : Options) (reads : c.Run (t :: run) d)
    (digits : (t :: run).map Token.lexeme = ds.map Lexeme.digit) (maximal : ¬ DigitFirst d.tokens) :
    Production.number.read o c =
      if Decimal.value 0 ds ≤ 0xFFFFFFFF then
        ⟨[], some (.expr (.number (UInt32.ofNat (Decimal.value 0 ds))
          ⟨t.first, (run.getLastD t).last⟩)), d⟩
      else ⟨[.overflow t.first], none, c⟩ := by
  have htokens : c.tokens = t :: (run ++ d.tokens) := reads.tokens
  rw [Production.read, readAt, Production.outcome, htokens, number_outcome_run digits maximal]
  by_cases hfit : Decimal.value 0 ds ≤ 0xFFFFFFFF
  · rw [if_pos hfit, if_pos hfit]
    simp only [Outcome.map, Option.map_some, reads.before]
    rfl
  · rw [if_neg hfit, if_neg hfit]
    rfl

/-- On a maximal run of digits, of any length, the number production matches exactly if their value is at
most the largest number. It then gives that value at the place of the digits and leaves the cursor behind
them; otherwise the cursor stays. No word on the way wraps around, and giving up early on a prefix of the
run rejects no number that would fit. -/
theorem read_number_of_digits {o : Options} {c d : Cursor} {t : Token} {run : List Token}
    {ds : List Digit} (reads : c.Run (t :: run) d)
    (digits : (t :: run).map Token.lexeme = ds.map Lexeme.digit) (maximal : ¬ DigitFirst d.tokens) :
    ((Production.number.read o c).result.isSome ↔ Decimal.value 0 ds ≤ 0xFFFFFFFF) ∧
    (Decimal.value 0 ds ≤ 0xFFFFFFFF → ∃ n : UInt32, n.toNat = Decimal.value 0 ds ∧
      Production.number.read o c =
        ⟨[], some (.expr (.number n ⟨t.first, (run.getLastD t).last⟩)), d⟩) ∧
    (0xFFFFFFFF < Decimal.value 0 ds →
      Production.number.read o c = ⟨[.overflow t.first], none, c⟩) ∧
    ∀ s, Tally.Reached c.tokens s → s.outcome t.first = (number c.tokens).outcome ∧
      (∃ read, read <+: ds ∧ s.word.toNat = Decimal.value 0 read) ∧
      ∀ x first last left, s.left = ⟨.digit x, first, last⟩ :: left →
        s.word.toNat * 10 + x.val < UInt64.size ∧
          (maxNumber < s.extended x → 0xFFFFFFFF < Decimal.value 0 ds) := by
  have hread := read_number_run o reads digits maximal
  have htokens : c.tokens = t :: (run ++ d.tokens) := reads.tokens
  refine ⟨?_, fun hfit => ⟨_, ?_, hread.trans (if_pos hfit)⟩, fun hover => ?_, fun s reached => ?_⟩
  · rw [hread]
    by_cases hfit : Decimal.value 0 ds ≤ 0xFFFFFFFF
    · rw [if_pos hfit]
      exact iff_of_true rfl hfit
    · rw [if_neg hfit]
      exact iff_of_false Bool.false_ne_true hfit
  · rw [UInt32.toNat_ofNat']
    omega
  · exact hread.trans (if_neg (Nat.not_le_of_lt hover))
  · rw [htokens] at reached ⊢
    have hrun : Tally.Reached ((t :: run) ++ d.tokens) s := reached
    obtain ⟨read, unread, rfl, exact⟩ := hrun.exact digits maximal
    refine ⟨reached.outcome_eq, ⟨read, List.prefix_append read unread, exact.word_eq⟩, ?_⟩
    exact fun x first last left next => ⟨exact.roomy x, exact.overflows maximal next⟩

/-- The largest number behind a zero is read, up to the stop behind it. -/
theorem read_number_of_digits_largest :
    let c : Cursor := ⟨"(04294967295.".toList.map .char, 1⟩
    let d : Cursor := ⟨"(04294967295.".toList.map .char, 12⟩
    let ds : List Digit := [0, 4, 2, 9, 4, 9, 6, 7, 2, 9, 5]
    c.Run (c.tokens.take 11) d ∧ (c.tokens.take 11).map Token.lexeme = ds.map Lexeme.digit ∧
      ¬ DigitFirst d.tokens ∧ Decimal.value 0 ds = 0xFFFFFFFF ∧
      Production.number.read .all c = ⟨[], some (.expr (.number 4294967295 ⟨1, 11⟩)), d⟩ := by
  intro c d ds
  have hsplit : c.tokens = c.tokens.take 11 ++ d.tokens := by decide +kernel
  have hcursor : c.before d.tokens = d := by decide +kernel
  have reads : c.Run (c.tokens.take 11) d := hcursor ▸ (Cursor.run_before hsplit).1
  have digits : (c.tokens.take 11).map Token.lexeme = ds.map Lexeme.digit := by decide +kernel
  have maximal : ¬ DigitFirst d.tokens := by
    have hhead : headLexeme d.tokens = some (.punct .fullStop) := by decide +kernel
    rintro ⟨x, hx⟩
    rw [hhead] at hx
    cases hx
  have hcons : c.tokens.take 11 = ⟨.digit 0, 1, 1⟩ :: (c.tokens.take 11).tail := by decide +kernel
  have hvalue : Decimal.value 0 ds = 0xFFFFFFFF := by decide +kernel
  refine ⟨reads, digits, maximal, hvalue, ?_⟩
  rw [hcons] at reads digits
  obtain ⟨-, hfits, -⟩ := read_number_of_digits (o := .all) reads digits maximal
  obtain ⟨n, hn, hread⟩ := hfits (Nat.le_of_eq hvalue)
  have hn' : n = 4294967295 := UInt32.toNat_inj.mp (hn.trans hvalue)
  have hlast : ((c.tokens.take 11).tail.getLastD ⟨.digit 0, 1, 1⟩).last = 11 := by decide +kernel
  rw [hread, hn', hlast]
  rfl

end LetLang.Parse
