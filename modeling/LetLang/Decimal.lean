/-!
# Decimal numerals

Digits, and the decimal numeral of a number: no leading zeros, a minus sign before a negative one.
-/
namespace LetLang

abbrev Digit := Fin 10

namespace Digit

def toChar (d : Digit) : Char :=
  Char.ofNat (48 + d.val)

def ofChar? (c : Char) : Option Digit :=
  if 48 ≤ c.toNat then
    if h : c.toNat - 48 < 10 then some ⟨c.toNat - 48, h⟩ else none
  else none

theorem ofChar?_toChar : ∀ d : Digit, ofChar? (toChar d) = some d := by
  decide

theorem toChar_of_ofChar? {c : Char} {d : Digit} (h : ofChar? c = some d) : d.toChar = c := by
  simp only [ofChar?] at h
  split at h
  next hc =>
    split at h
    next =>
      cases h
      simp only [toChar]
      rw [Nat.add_sub_cancel' hc, Char.ofNat_toNat]
    next => cases h
  next => cases h

theorem ofChar?_eq_some_iff {c : Char} {d : Digit} : ofChar? c = some d ↔ d.toChar = c :=
  ⟨toChar_of_ofChar?, fun h => h ▸ ofChar?_toChar d⟩

end Digit

namespace Decimal

/-- The digits of a number, highest first. -/
def digits (n : Nat) : List Digit :=
  if h : n < 10 then [⟨n, h⟩] else digits (n / 10) ++ [⟨n % 10, Nat.mod_lt _ (by omega)⟩]

/-- The number that a list of digits denotes, read from the left after `acc`. -/
def value (acc : Nat) (ds : List Digit) : Nat :=
  ds.foldl (fun v d => v * 10 + d.val) acc

def ofNat (n : Nat) : List Char :=
  (digits n).map Digit.toChar

def ofInt : Int → List Char
  | .ofNat n => ofNat n
  | .negSucc n => '-' :: ofNat (n + 1)

/-- A numeral as a string. -/
def string (n : Int) : String :=
  String.ofList (ofInt n)

theorem digits_ne_nil (n : Nat) : digits n ≠ [] := by
  rw [digits]
  split <;> simp

@[simp] theorem value_append (acc : Nat) (ds es : List Digit) :
    value acc (ds ++ es) = value (value acc ds) es := by
  simp [value]

/-- A numeral denotes its number. -/
theorem value_digits (n : Nat) : value 0 (digits n) = n := by
  induction n using digits.induct with
  | case1 n h =>
    rw [digits, dif_pos h]
    simp [value]
  | case2 n h ih =>
    rw [digits, dif_neg h, value_append, ih]
    simp only [value, List.foldl_cons, List.foldl_nil]
    omega

theorem digits_inj {m n : Nat} : digits m = digits n ↔ m = n := by
  refine ⟨fun h => ?_, congrArg _⟩
  rw [← value_digits m, h, value_digits]

end Decimal

end LetLang
