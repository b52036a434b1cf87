import LetLang.Proofs.Run
import LetLang.Proofs.Relabel

/-!
# Cutting a source between two tokens

The characters behind a lexeme have no part in it: they can be cut off. So a run is also a run of the
source up to where it ends, and up to there that source is read as a whole. The tokens behind a cut are
those of the characters behind it, moved by its position.
-/
namespace LetLang

theorem takeWhile_take {α : Type} {p : α → Bool} {as : List α} {k : Nat}
    (h : (as.takeWhile p).length ≤ k) : (as.take k).takeWhile p = as.takeWhile p := by
  induction as generalizing k with
  | nil => rw [List.take_nil]
  | cons a as ih =>
    cases k with
    | zero =>
      have hnil : (a :: as).takeWhile p = [] := List.eq_nil_of_length_eq_zero (Nat.le_zero.mp h)
      rw [List.take_zero, hnil, List.takeWhile_nil]
    | succ k =>
      rw [List.take_succ_cons]
      by_cases ha : p a = true
      · rw [List.takeWhile_cons_of_pos ha] at h
        rw [List.takeWhile_cons_of_pos ha, List.takeWhile_cons_of_pos ha,
          ih (Nat.le_of_succ_le_succ h)]
      · rw [List.takeWhile_cons_of_neg ha, List.takeWhile_cons_of_neg ha]

/-- What ends the characters before it is among the first that are taken. -/
theorem mem_take_of_takeWhile_lt {α : Type} [DecidableEq α] {a : α} {as : List α} {k : Nat}
    (mem : a ∈ as) (h : (as.takeWhile fun b => decide (b ≠ a)).length < k) : a ∈ as.take k := by
  induction as generalizing k with
  | nil => cases mem
  | cons b as ih =>
    cases k with
    | zero => exact absurd h (Nat.not_lt_zero _)
    | succ k =>
      rw [List.take_succ_cons]
      by_cases hb : b = a
      · rw [hb]
        exact List.mem_cons_self
      · have htail : a ∈ as := (List.mem_cons.mp mem).resolve_left fun ha => hb ha.symm
        rw [List.takeWhile_cons_of_pos (by simpa using hb), List.length_cons] at h
        exact List.mem_cons_of_mem b (ih htail (Nat.lt_of_succ_lt_succ h))

/-- A lexeme is read off any part of the source that holds it. -/
theorem scan_take {rs : Source} {x : Lexeme} {n k : Nat} (h : scan rs = some (x, n)) (hk : n ≤ k) :
    scan (rs.take k) = some (x, n) := by
  have hwidth := (scan_width h).1
  cases rs with
  | nil => cases h
  | cons r rest =>
    cases k with
    | zero => omega
    | succ k =>
      rw [List.take_succ_cons]
      simp only [scan] at h ⊢
      split at h
      next => exact h
      next =>
        split at h
        next q _ =>
          split at h
          next mem =>
            cases h
            have hbody : (rest.takeWhile fun s => decide (s ≠ q.sourceChar)).length < k := by omega
            have hmem := mem_take_of_takeWhile_lt mem hbody
            simp only [hmem, takeWhile_take (Nat.le_of_lt hbody), ↓reduceIte]
          next => cases h
        next =>
          cases h
          have hword : (rest.takeWhile SourceChar.inWord).length ≤ k := Nat.le_of_succ_le_succ hk
          simp only [takeWhile_take hword]

namespace Cursor

theorem next?_take {c d : Cursor} {t : Token} {k : Nat} (h : c.next? = some (t, d))
    (hk : d.pos ≤ k) :
    next? ⟨c.source.take k, c.pos⟩ = some (t, ⟨c.source.take k, d.pos⟩) := by
  obtain ⟨x, n, hs, rfl, rfl⟩ := scan_of_next? h
  have hfits : n ≤ k - c.pos := by
    change c.pos + n ≤ k at hk
    omega
  have hscan : scan (rest ⟨c.source.take k, c.pos⟩) = some (x, n) := by
    rw [rest, List.drop_take]
    exact scan_take hs hfits
  rw [next?, hscan]

/-- A run does not need the characters behind its end. -/
theorem Run.take {c d : Cursor} {ts : List Token} (run : Run c ts d) {k : Nat} (hk : d.pos ≤ k) :
    Run ⟨c.source.take k, c.pos⟩ ts ⟨c.source.take k, d.pos⟩ := by
  induction run with
  | stay => exact .stay _
  | step first others ih =>
    have hle := others.tiles.le
    have hsource := (next?_advances first).1
    have hrun := ih hk
    rw [hsource] at hrun
    exact .step (next?_take first (by omega)) hrun

end Cursor

/-- Up to the end of a run the source is read as a whole. -/
theorem readsAll_take {source : Source} {ts : List Token} {d : Cursor}
    (run : (Cursor.start source).Run ts d) : ReadsAll (source.take d.pos) ts := by
  refine ⟨_, run.take (Nat.le_refl d.pos), Cursor.atEnd_iff.mpr ?_⟩
  exact List.length_take_le _ _

theorem tokensFrom_add (k pos : Nat) (rs : Source) :
    tokensFrom (pos + k) rs = (tokensFrom pos rs).map (Token.relabel (· + k) (· + k)) := by
  fun_induction tokensFrom pos rs with
  | case1 pos rs h => rw [tokensFrom_of_none h, List.map_nil]
  | case2 pos rs x n h ih =>
    have hn := (scan_width h).1
    have hstep : pos + k + n = pos + n + k := by omega
    have hlast : pos + k + n - 1 = pos + n - 1 + k := by omega
    rw [tokensFrom_of_some h, List.map_cons, hlast, hstep, ih]
    rfl

/-- The tokens from a cursor on are those of the characters that are left, moved to their place. -/
theorem Cursor.tokens_eq_relabel (c : Cursor) :
    c.tokens = (Cursor.start c.rest).tokens.map (Token.relabel (· + c.pos) (· + c.pos)) := by
  have hadd := tokensFrom_add c.pos 0 c.rest
  rw [Nat.zero_add] at hadd
  exact hadd

end LetLang
