import LetLang.Cursor

/-!
# Runs of a cursor

A run reads token after token and moves the cursor behind the last one. The tokens of a run tile the
characters between its two cursors, the tokens of a cursor are those of its longest run, and the
cursor that `Cursor.before` computes from a list of tokens is the one where a run comes to stand. A
source is read as a whole if a run from its start reaches its end.
-/
namespace LetLang

/-- The tokens cover the positions from `lo` up to `hi`, each beginning where the one before it
ends. -/
def Tiles : Nat → List Token → Nat → Prop
  | lo, [], hi => lo = hi
  | lo, t :: ts, hi => t.first = lo ∧ t.first ≤ t.last ∧ Tiles (t.last + 1) ts hi

namespace Tiles

theorem cons {lo hi first last : Nat} {x : Lexeme} {ts : List Token}
    (h : Tiles lo (⟨x, first, last⟩ :: ts) hi) :
    first = lo ∧ first ≤ last ∧ Tiles (last + 1) ts hi := h

theorem le {lo hi : Nat} {ts : List Token} (h : Tiles lo ts hi) : lo ≤ hi := by
  induction ts generalizing lo with
  | nil => exact Nat.le_of_eq h
  | cons t ts ih =>
    obtain ⟨hf, hl, ht⟩ := h
    have := ih ht
    omega

theorem append {lo hi : Nat} {ts us : List Token} :
    Tiles lo (ts ++ us) hi ↔ ∃ mid, Tiles lo ts mid ∧ Tiles mid us hi := by
  induction ts generalizing lo with
  | nil =>
    constructor
    · intro h
      exact ⟨lo, rfl, h⟩
    · rintro ⟨mid, rfl, h⟩
      exact h
  | cons t ts ih =>
    constructor
    · rintro ⟨hf, hl, h⟩
      obtain ⟨mid, ht, hu⟩ := ih.mp h
      exact ⟨mid, ⟨hf, hl, ht⟩, hu⟩
    · rintro ⟨mid, ⟨hf, hl, ht⟩, hu⟩
      exact ⟨hf, hl, ih.mpr ⟨mid, ht, hu⟩⟩

theorem getLast {lo hi : Nat} {ts : List Token} {t : Token} (h : Tiles lo ts hi)
    (ht : ts.getLast? = some t) : t.last + 1 = hi := by
  obtain ⟨us, rfl⟩ := List.getLast?_eq_some_iff.mp ht
  obtain ⟨mid, -, -, -, he⟩ := append.mp h
  exact he

end Tiles

namespace Cursor

/-- Reading the tokens one after another moves the first cursor to the second. -/
inductive Run : Cursor → List Token → Cursor → Prop
  | stay (c : Cursor) : Run c [] c
  | step {c d e : Cursor} {t : Token} {ts : List Token} (first : c.next? = some (t, d))
      (others : Run d ts e) : Run c (t :: ts) e

/-- One step reads a lexeme off the characters that are left and moves the cursor by its width. -/
theorem scan_of_next? {c d : Cursor} {t : Token} (h : c.next? = some (t, d)) :
    ∃ x n, scan c.rest = some (x, n) ∧ t = ⟨x, c.pos, c.pos + n - 1⟩ ∧
      d = ⟨c.source, c.pos + n⟩ := by
  unfold next? at h
  split at h
  next => cases h
  next x n hs =>
    cases h
    exact ⟨x, n, hs, rfl, rfl⟩

theorem rest_add (c : Cursor) (n : Nat) : rest ⟨c.source, c.pos + n⟩ = c.rest.drop n :=
  List.drop_drop.symm

theorem next?_token {c d : Cursor} {t : Token} (h : c.next? = some (t, d)) :
    t.first = c.pos ∧ t.first ≤ t.last ∧ t.last + 1 = d.pos := by
  obtain ⟨x, n, hs, rfl, rfl⟩ := scan_of_next? h
  have hwidth := (scan_width hs).1
  refine ⟨rfl, ?_, ?_⟩
  · simp only
    omega
  · simp only
    omega

theorem atEnd_iff {c : Cursor} : c.atEnd = true ↔ c.source.length ≤ c.pos :=
  decide_eq_true_iff

theorem next?_of_atEnd {c : Cursor} (h : c.atEnd = true) : c.next? = none := by
  have hr : c.rest = [] := List.drop_eq_nil_of_le (atEnd_iff.mp h)
  rw [next?, hr]
  rfl

namespace Run

theorem source {c d : Cursor} {ts : List Token} (run : Run c ts d) : d.source = c.source := by
  induction run with
  | stay => rfl
  | step first _ ih => exact ih.trans (next?_advances first).1

theorem tiles {c d : Cursor} {ts : List Token} (run : Run c ts d) : Tiles c.pos ts d.pos := by
  induction run with
  | stay => rfl
  | step first _ ih =>
    obtain ⟨hf, hl, hd⟩ := next?_token first
    exact ⟨hf, hl, hd ▸ ih⟩

/-- A run never leaves the source. -/
theorem bound {c d : Cursor} {ts : List Token} (run : Run c ts d)
    (h : c.pos ≤ c.source.length) : d.pos ≤ d.source.length := by
  induction run with
  | stay => exact h
  | step first _ ih => exact ih (next?_advances first).2.2

/-- A run that moves ends inside the source, wherever it began. -/
theorem pos_le {c d : Cursor} {ts : List Token} (run : Run c ts d) (h : c.pos < d.pos) :
    d.pos ≤ c.source.length := by
  cases run with
  | stay => exact absurd h (Nat.lt_irrefl _)
  | step first others =>
    have hbound := others.bound (next?_advances first).2.2
    rw [others.source, (next?_advances first).1] at hbound
    exact hbound

/-- A run takes its tokens off the front of all that are left. -/
theorem tokens {c d : Cursor} {ts : List Token} (run : Run c ts d) :
    c.tokens = ts ++ d.tokens := by
  induction run with
  | stay => rfl
  | step first _ ih => rw [tokens_of_next?_some first, ih, List.cons_append]

theorem trans {c d e : Cursor} {ts us : List Token} (run : Run c ts d) (more : Run d us e) :
    Run c (ts ++ us) e := by
  induction run with
  | stay => exact more
  | step first _ ih => exact .step first (ih more)

end Run

/-- Any part of the tokens of a cursor, taken from the front, is read by a run. -/
theorem exists_run {c : Cursor} {ts left : List Token} (h : c.tokens = ts ++ left) :
    ∃ d, Run c ts d ∧ d.tokens = left := by
  induction ts generalizing c with
  | nil => exact ⟨c, .stay c, h⟩
  | cons t ts ih =>
    cases hn : c.next? with
    | none =>
      rw [tokens_of_next?_none hn] at h
      cases h
    | some next =>
      obtain ⟨u, d⟩ := next
      rw [tokens_of_next?_some hn, List.cons_append, List.cons.injEq] at h
      obtain ⟨rfl, htail⟩ := h
      obtain ⟨e, run, he⟩ := ih htail
      exact ⟨e, .step hn run, he⟩

theorem next?_of_tokens_nil {c : Cursor} (h : c.tokens = []) : c.next? = none := by
  cases hn : c.next? with
  | none => rfl
  | some next =>
    rw [tokens_of_next?_some hn] at h
    cases h

/-- What holds where nothing can be read, and before a token once it holds behind it, holds everywhere. -/
@[elab_as_elim]
theorem next?_induction {motive : Cursor → Prop} (stop : ∀ c : Cursor, c.next? = none → motive c)
    (step : ∀ (c d : Cursor) (t : Token), c.next? = some (t, d) → motive d → motive c)
    (c : Cursor) : motive c := by
  cases hn : c.next? with
  | none => exact stop c hn
  | some next => exact step c next.2 next.1 hn (next?_induction stop step next.2)
termination_by c.source.length - c.pos
decreasing_by
  obtain ⟨hsource, hlt, hle⟩ := next?_advances hn
  rw [hsource] at hle ⊢
  omega

/-- The longest run stops at the limit. -/
theorem Run.limit {c d : Cursor} {ts : List Token} (run : Run c ts d) (h : d.tokens = []) :
    c.limit = d.pos := by
  have hts : c.tokens = ts := by rw [run.tokens, h, List.append_nil]
  unfold Cursor.limit
  rw [hts]
  cases hl : ts.getLast? with
  | none =>
    have hnil : ts = [] := List.getLast?_eq_none_iff.mp hl
    have htiles := run.tiles
    rw [hnil] at htiles
    exact htiles
  | some t => exact run.tiles.getLast hl

theorem Run.before {c d : Cursor} {ts : List Token} (run : Run c ts d) :
    c.before d.tokens = d := by
  have hs := run.source
  cases hd : d.tokens with
  | nil =>
    rw [Cursor.before, List.head?_nil]
    simp only [run.limit hd, ← hs]
  | cons t left =>
    have hb := before_tokens d
    rw [hd, Cursor.before, List.head?_cons] at hb
    rw [Cursor.before, List.head?_cons, ← hs]
    exact hb

/-- The cursor before some last tokens is where the run of the others ends. -/
theorem run_before {c : Cursor} {ts left : List Token} (h : c.tokens = ts ++ left) :
    Run c ts (c.before left) ∧ (c.before left).tokens = left := by
  obtain ⟨d, run, hd⟩ := exists_run h
  rw [← hd, run.before]
  exact ⟨run, rfl⟩

/-- Reading some tokens takes the first cursor to the second. -/
def Moves (c d : Cursor) : Prop :=
  ∃ ts, c.Run ts d

namespace Moves

variable {c d e : Cursor}

theorem refl (c : Cursor) : c.Moves c :=
  ⟨[], .stay c⟩

theorem trans (h : c.Moves d) (h' : d.Moves e) : c.Moves e := by
  obtain ⟨ts, run⟩ := h
  obtain ⟨us, run'⟩ := h'
  exact ⟨ts ++ us, run.trans run'⟩

theorem of_next? {t : Token} (h : c.next? = some (t, d)) : c.Moves d :=
  ⟨[t], .step h (.stay d)⟩

theorem source (h : c.Moves d) : d.source = c.source := by
  obtain ⟨ts, run⟩ := h
  exact run.source

theorem before (h : c.Moves d) : c.before d.tokens = d := by
  obtain ⟨ts, run⟩ := h
  exact run.before

end Moves

theorem moves_before {c : Cursor} {left : List Token} (h : left <:+ c.tokens) :
    c.Moves (c.before left) := by
  obtain ⟨ts, hts⟩ := h
  exact ⟨ts, (run_before hts.symm).1⟩

theorem tokens_tile (c : Cursor) : Tiles c.pos c.tokens c.limit := by
  obtain ⟨d, run, hd⟩ := exists_run (List.append_nil c.tokens).symm
  rw [run.limit hd]
  exact run.tiles

/-- A cursor that can move at all stops inside its source. -/
theorem limit_le {c : Cursor} (h : c.pos < c.limit) : c.limit ≤ c.source.length := by
  obtain ⟨d, run, hd⟩ := exists_run (List.append_nil c.tokens).symm
  rw [run.limit hd] at h ⊢
  exact run.pos_le h

theorem source_before (c : Cursor) (left : List Token) : (c.before left).source = c.source := by
  unfold before
  cases left.head? with
  | none => rfl
  | some t => rfl

theorem pos_before {c : Cursor} {left : List Token} {mid : Nat} (h : Tiles mid left c.limit) :
    (c.before left).pos = mid := by
  cases left with
  | nil => exact h.symm
  | cons t left => exact h.1

end Cursor

/-- Reading token after token comes to the end of the source. -/
def ReadsAll (source : Source) (ts : List Token) : Prop :=
  ∃ d, (Cursor.start source).Run ts d ∧ d.atEnd = true

theorem ReadsAll.tokens {source : Source} {ts : List Token} (h : ReadsAll source ts) :
    (Cursor.start source).tokens = ts := by
  obtain ⟨d, run, hend⟩ := h
  rw [run.tokens, Cursor.tokens_of_next?_none (Cursor.next?_of_atEnd hend), List.append_nil]

/-- Reading a source as a whole ends behind its last character. -/
theorem ReadsAll.run {source : Source} {ts : List Token} (h : ReadsAll source ts) :
    (Cursor.start source).Run ts ⟨source, source.length⟩ := by
  obtain ⟨⟨source', k⟩, run, hend⟩ := h
  obtain rfl : source = source' := run.source.symm
  have hle := run.bound (Nat.zero_le _)
  have hge := Cursor.atEnd_iff.mp hend
  rw [← Nat.le_antisymm hle hge]
  exact run

/-- The cursor before some last tokens is at the end if there are none and the source is read as a
whole. -/
theorem atEnd_before_iff {source : Source} {ts left : List Token}
    (h : (Cursor.start source).tokens = ts ++ left) :
    ((Cursor.start source).before left).atEnd = true ↔
      ReadsAll source (Cursor.start source).tokens ∧ left = [] := by
  obtain ⟨run, hleft⟩ := Cursor.run_before h
  constructor
  · intro hend
    have hnil : left = [] := by
      rw [← hleft, Cursor.tokens_of_next?_none (Cursor.next?_of_atEnd hend)]
    refine ⟨⟨_, ?_, hend⟩, hnil⟩
    rw [h, hnil, List.append_nil, ← hnil]
    exact run
  · rintro ⟨⟨d, run', hend⟩, rfl⟩
    have hd : d.tokens = [] := Cursor.tokens_of_next?_none (Cursor.next?_of_atEnd hend)
    rw [← hd, run'.before]
    exact hend

end LetLang
