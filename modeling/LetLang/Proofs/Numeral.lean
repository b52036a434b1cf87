import LetLang.Proofs.Grammar
import LetLang.Proofs.Match

/-!
# Numbers

The number production reads a run of digits in 64-bit arithmetic and gives up as soon as a prefix is
too large. On a maximal run it computes the value of the run in natural numbers, and it matches exactly
when that value fits into 32 bits.
-/
namespace LetLang

theorem Decimal.le_value (acc : Nat) (ds : List Digit) : acc ≤ Decimal.value acc ds := by
  induction ds generalizing acc with
  | nil => exact Nat.le_refl acc
  | cons d ds ih =>
    have h := ih (acc * 10 + d.val)
    change acc ≤ Decimal.value (acc * 10 + d.val) ds
    omega

namespace Parse

open Grammar

theorem toNat_maxNumber : maxNumber.toNat = 0xFFFFFFFF := rfl

theorem toNat_digit (d : Digit) : (UInt64.ofNat d.val).toNat = d.val := by
  have hd := d.isLt
  rw [UInt64.toNat_ofNat']
  omega

/-- One more digit does not wrap around as long as the value so far fits. -/
theorem toNat_extend {value : UInt64} (h : value.toNat ≤ 0xFFFFFFFF) (d : Digit) :
    (value * 10 + UInt64.ofNat d.val).toNat = value.toNat * 10 + d.val := by
  have hd := d.isLt
  rw [UInt64.toNat_add, UInt64.toNat_mul, UInt64.toNat_ofNat']
  simp only [UInt64.reduceToNat]
  omega

/-- Reading a maximal run of digits gives its value, or nothing if that is too large. -/
theorem readDigits_run {run rest : List Token} {ds : List Digit} {value : UInt64} (t : Token)
    (digits : run.map Token.lexeme = ds.map Lexeme.digit) (maximal : ¬ DigitFirst rest)
    (hv : value.toNat ≤ 0xFFFFFFFF) :
    readDigits value t.last (run ++ rest) =
      if Decimal.value value.toNat ds ≤ 0xFFFFFFFF then
        some (UInt64.ofNat (Decimal.value value.toNat ds), (run.getLastD t).last, rest)
      else none := by
  induction run generalizing ds value t with
  | nil =>
    obtain rfl : ds = [] := by simpa using digits.symm
    have hstop : readDigits value t.last rest = some (value, t.last, rest) := by
      unfold readDigits
      split
      next d _ _ _ => exact absurd ⟨d, rfl⟩ maximal
      next => rfl
    have hvalue : Decimal.value value.toNat [] = value.toNat := rfl
    rw [List.nil_append, hstop, hvalue, if_pos hv, UInt64.ofNat_toNat]
    rfl
  | cons u run ih =>
    cases ds with
    | nil => simp at digits
    | cons d ds =>
      obtain ⟨x, first, last⟩ := u
      simp only [List.map_cons, List.cons.injEq] at digits
      obtain ⟨rfl, htail⟩ := digits
      have hext := toNat_extend hv d
      have hvalue : Decimal.value value.toNat (d :: ds) =
          Decimal.value (value * 10 + UInt64.ofNat d.val).toNat ds := by
        rw [hext]
        rfl
      rw [List.cons_append, readDigits, hvalue, List.getLastD_cons]
      split
      next hlt =>
        have hover := UInt64.lt_iff_toNat_lt.mp hlt
        have hle := Decimal.le_value (value * 10 + UInt64.ofNat d.val).toNat ds
        rw [toNat_maxNumber] at hover
        rw [if_neg (by omega)]
      next hnlt =>
        have hfit : (value * 10 + UInt64.ofNat d.val).toNat ≤ 0xFFFFFFFF := by
          rw [← toNat_maxNumber]
          exact Nat.le_of_not_lt fun h => hnlt (UInt64.lt_iff_toNat_lt.mpr h)
        exact ih ⟨.digit d, first, last⟩ htail hfit

/-- Every list of tokens begins with a maximal run of digits. -/
theorem exists_run_of_digits (ts : List Token) :
    ∃ (run rest : List Token) (ds : List Digit), ts = run ++ rest ∧
      run.map Token.lexeme = ds.map Lexeme.digit ∧ ¬ DigitFirst rest := by
  induction ts with
  | nil => exact ⟨[], [], [], rfl, rfl, by simp [DigitFirst, headLexeme]⟩
  | cons t ts ih =>
    by_cases ht : ∃ d, t.lexeme = .digit d
    · obtain ⟨d, hd⟩ := ht
      obtain ⟨run, rest, ds, hts, hrun, hrest⟩ := ih
      exact ⟨t :: run, rest, d :: ds, by rw [hts, List.cons_append], by simp [hd, hrun], hrest⟩
    · exact ⟨[], t :: ts, [], rfl, rfl, by simpa [DigitFirst, headLexeme] using ht⟩

theorem matched_number_of_noDigit {ts : List Token} (h : ¬ DigitFirst ts) :
    (number ts).matched = none := by
  rw [Attempt.matched, number_outcome]
  split
  next d _ _ _ => exact absurd ⟨d, rfl⟩ h
  next => rfl

/-- On a maximal run of digits the number production gives the value of the run, or else it notes where
the run begins. -/
theorem number_outcome_run {t : Token} {run rest : List Token} {ds : List Digit}
    (digits : (t :: run).map Token.lexeme = ds.map Lexeme.digit) (maximal : ¬ DigitFirst rest) :
    (number (t :: (run ++ rest))).outcome =
      if Decimal.value 0 ds ≤ 0xFFFFFFFF then
        ⟨.empty, some (.number (UInt32.ofNat (Decimal.value 0 ds))
          ⟨t.first, (run.getLastD t).last⟩, rest)⟩
      else ⟨.note (.overflow t.first), none⟩ := by
  cases ds with
  | nil => simp at digits
  | cons d ds =>
    obtain ⟨x, first, last⟩ := t
    simp only [List.map_cons, List.cons.injEq] at digits
    obtain ⟨rfl, htail⟩ := digits
    have hd := toNat_digit d
    have hle : (UInt64.ofNat d.val).toNat ≤ 0xFFFFFFFF := by
      have := d.isLt
      omega
    have hread := readDigits_run ⟨.digit d, first, last⟩ htail maximal hle
    have hvalue : Decimal.value 0 (d :: ds) = Decimal.value d.val ds := by simp [Decimal.value]
    rw [hd] at hread
    rw [number_outcome, hvalue]
    simp only [hread]
    by_cases hfit : Decimal.value d.val ds ≤ 0xFFFFFFFF
    · simp only [hfit, ↓reduceIte]
      have hsmall : (UInt64.ofNat (Decimal.value d.val ds)).toUInt32 =
          UInt32.ofNat (Decimal.value d.val ds) := by
        simp
      rw [hsmall]
    · simp only [hfit, ↓reduceIte]

theorem matched_number_run {t : Token} {run rest : List Token} {ds : List Digit}
    (digits : (t :: run).map Token.lexeme = ds.map Lexeme.digit) (maximal : ¬ DigitFirst rest) :
    (number (t :: (run ++ rest))).matched =
      if Decimal.value 0 ds ≤ 0xFFFFFFFF then
        some (.number (UInt32.ofNat (Decimal.value 0 ds)) ⟨t.first, (run.getLastD t).last⟩, rest)
      else none := by
  rw [Attempt.matched, number_outcome_run digits maximal]
  split <;> rfl

/-- The number production matches exactly the numbers of the grammar. -/
theorem matched_number_iff {o : Options} {ts rest : List Token} {e : Expr} :
    (number ts).matched = some (e, rest) ↔ Derives o (.number e) ts rest := by
  constructor
  · intro h
    obtain ⟨run, left, ds, rfl, hrun, hleft⟩ := exists_run_of_digits ts
    cases run with
    | nil =>
      rw [List.nil_append, matched_number_of_noDigit hleft] at h
      cases h
    | cons t run =>
      rw [List.cons_append, matched_number_run hrun hleft] at h
      split at h
      next hfit =>
        cases h
        exact .number hrun hleft hfit
      next => cases h
  · intro h
    cases h with
    | number digits maximal fits => rw [matched_number_run digits maximal, if_pos fits]

end Parse

end LetLang
