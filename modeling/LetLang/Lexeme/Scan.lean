import LetLang.Lexeme

/-!
# The first lexeme of a source

`scan` reads one lexeme off the front of a source and says how many characters it takes. Where it
gives none, the source is empty or starts with a quote that never closes.
-/
namespace LetLang

/-- The first lexeme of a source and the number of characters it takes. -/
def scan : Source → Option (Lexeme × Nat)
  | [] => none
  | r :: rest =>
    match r.lexeme? with
    | some x => some (x, 1)
    | none =>
      match r.quote? with
      | some q =>
        if q.sourceChar ∈ rest then
          let body := rest.takeWhile fun s => decide (s ≠ q.sourceChar)
          some (.quoted q (spell body), body.length + 2)
        else none
      | none =>
        let word := r :: rest.takeWhile SourceChar.inWord
        some (.ofWord (spell word), word.length)

theorem length_takeWhile_lt {α : Type} {p : α → Bool} {a : α} {as : List α} (mem : a ∈ as)
    (stops : p a = false) : (as.takeWhile p).length < as.length := by
  induction as with
  | nil => cases mem
  | cons b as ih =>
    rw [List.takeWhile_cons]
    split
    next hb =>
      have : a ∈ as := by
        rcases List.mem_cons.mp mem with rfl | h
        · simp [stops] at hb
        · exact h
      simpa using ih this
    next => simp

theorem length_takeWhile_le {α : Type} (p : α → Bool) (as : List α) :
    (as.takeWhile p).length ≤ as.length :=
  (List.takeWhile_sublist p).length_le

/-- A lexeme takes at least one character and no more than there are. -/
theorem scan_width {rs : Source} {x : Lexeme} {n : Nat} (h : scan rs = some (x, n)) :
    0 < n ∧ n ≤ rs.length := by
  cases rs with
  | nil => cases h
  | cons r rest =>
    simp only [scan] at h
    split at h
    next => cases h; simp
    next =>
      split at h
      next q _ =>
        split at h
        next mem =>
          cases h
          have := length_takeWhile_lt (p := fun s => decide (s ≠ q.sourceChar)) mem (by simp)
          simp only [List.length_cons]
          omega
        next => cases h
      next =>
        cases h
        have := length_takeWhile_le SourceChar.inWord rest
        simp only [List.length_cons]
        omega

end LetLang
