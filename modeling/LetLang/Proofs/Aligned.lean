import LetLang.Session
import LetLang.Proofs.Acceptance
import LetLang.Proofs.Extent

/-!
# Cursors stay between tokens

A cursor is aligned if reading tokens from the start of its source leads to it. Whatever is done with
the cursors of a session, all of them stay aligned: a step moves a cursor along its tokens, or it puts
an aligned cursor in a cell. A step changes one cursor at most, and it changes the source of a cursor
only by copying another cursor into its cell. Every step can be taken, unless it names a slot that the
session does not know.
-/
namespace LetLang

/-! ## Cursors that move along their tokens -/

theorem Tiles.between {lo hi : Nat} {ts : List Token} (h : Tiles lo ts hi) {t : Token} (ht : t ∈ ts) :
    lo ≤ t.first ∧ t.last < hi := by
  obtain ⟨us, vs, rfl⟩ := List.append_of_mem ht
  obtain ⟨mid, before, hfirst, hle, after⟩ := append.mp h
  have hlo := before.le
  have hhi := after.le
  omega

namespace Cursor

/-- Reading some tokens from the start of the source leads to the cursor. -/
def Aligned (c : Cursor) : Prop :=
  (start c.source).Moves c

namespace Aligned

theorem start (source : Source) : (start source).Aligned :=
  .refl _

theorem moves {c d : Cursor} (h : c.Aligned) (move : c.Moves d) : d.Aligned := by
  have hsource := move.source
  unfold Aligned
  rw [hsource]
  exact h.trans move

theorem pos_le {c : Cursor} (h : c.Aligned) : c.pos ≤ c.source.length := by
  obtain ⟨ts, run⟩ := h
  exact run.bound (Nat.zero_le _)

/-- No token of the source begins before an aligned cursor and ends behind it. -/
theorem not_inside {c : Cursor} (h : c.Aligned) {t : Token}
    (ht : t ∈ (Cursor.start c.source).tokens) : ¬ (t.first < c.pos ∧ c.pos ≤ t.last) := by
  obtain ⟨ts, run⟩ := h
  rw [run.tokens] at ht
  rintro ⟨hfirst, hlast⟩
  rcases List.mem_append.mp ht with ht | ht
  · have hbefore := (run.tiles.between ht).2
    omega
  · have hbehind := (c.tokens_tile.between ht).1
    omega

end Aligned

end Cursor

namespace Parse

theorem moves_readAt {α : Type} {f : List Token → Outcome α} {c : Cursor}
    (suffix : ∀ x left, (f c.tokens).result = some (x, left) → left <:+ c.tokens) :
    c.Moves (readAt f c).cursor := by
  unfold readAt
  rcases hf : f c.tokens with ⟨log, _ | ⟨x, left⟩⟩
  · exact .refl c
  · rw [hf] at suffix
    exact Cursor.moves_before (suffix x left rfl)

theorem moves_read (o : Options) (p : Production) (c : Cursor) : c.Moves (p.read o c).cursor := by
  refine moves_readAt fun n left h => ?_
  obtain ⟨φ, derived, -⟩ := Production.derives h
  exact derived.suffix

theorem moves_readStmt (o : Options) (c : Cursor) : c.Moves (readStmt o c).cursor :=
  moves_readAt fun _ _ h => ((soundBelow o c.tokens.length).stmt h).suffix

theorem moves_readExpr (o : Options) (c : Cursor) : c.Moves (readExpr o c).cursor :=
  moves_readAt fun _ _ h => (derives_expr h).suffix

theorem moves_readProgram (o : Options) (c : Cursor) : c.Moves (readProgram o c).cursor :=
  Cursor.moves_before ((spaces_skipSpaces _).suffix.trans (derives_stmts o c.tokens).suffix)

theorem moves_closeStmtAt (stop : Int) (c : Cursor) : c.Moves (closeStmtAt stop c).2 :=
  Cursor.moves_before (ending_closeStmt stop c.tokens).suffix

end Parse

namespace Session

/-! ## What a step does -/

/-- The cell whose cursor a step on the cursor in `cell` may change. Statements, expressions and
programs are read at the parser's own cursor, whichever slot the step names. -/
def changes? (s : Session) (cell : Nat) : Step → Option Nat
  | .stmt | .expr | .program => some s.main
  | .next | .skipWhile _ | .skipOnce _ | .skipSpaces | .skipSemicolon | .copyFrom _ | .production _
  | .closeStmt _ => some cell
  | .state | .source | .peek | .copyAs _ | .holdAs _ | .openAs _ _ | .restart _ => none

/-- How a step changes the cells of a session. -/
inductive Effect (s : Session) (cell : Nat) (what : Step) (cells : List Cursor) : Prop
  | adds (more : List Cursor) (none : s.changes? cell what = none) (eq : cells = s.cells ++ more)
      (origin : ∀ c ∈ more, c = s.cursorAt cell ∨ ∃ source, c = .start source)
  | moves (i : Nat) (d : Cursor) (one : s.changes? cell what = some i) (eq : cells = s.cells.set i d)
      (move : (s.cursorAt i).Moves d)
  | copies (slot : Slot) (other : Nat) (copy : what = .copyFrom slot)
      (known : s.cell? slot = some other) (eq : cells = s.cells.set cell (s.cursorAt other))

variable {s s' : Session} {cell : Nat} {what : Step} {r : Report}

theorem effect_of_run (h : s.run cell what = some (s', r)) : Effect s cell what s'.cells := by
  cases what with
  | state | source | peek | holdAs =>
    cases h
    exact .adds [] rfl (List.append_nil _).symm nofun
  | next =>
    cases h
    refine .moves cell _ rfl rfl ?_
    cases hn : (s.cursorAt cell).next? with
    | none => exact .refl _
    | some next => exact .of_next? hn
  | skipWhile p =>
    cases h
    exact .moves cell _ rfl rfl (Cursor.moves_skipWhile p _)
  | skipOnce p =>
    cases h
    exact .moves cell _ rfl rfl (Cursor.moves_skipOnce p _)
  | skipSpaces =>
    cases h
    exact .moves cell _ rfl rfl (Cursor.moves_skipWhile _ _)
  | skipSemicolon =>
    cases h
    exact .moves cell _ rfl rfl (Cursor.moves_skipOnce _ _)
  | copyAs name =>
    cases h
    exact .adds [_] rfl rfl fun c hc => .inl (List.mem_singleton.mp hc)
  | openAs name source =>
    cases h
    exact .adds [_] rfl rfl fun c hc => .inr ⟨source, List.mem_singleton.mp hc⟩
  | copyFrom origin =>
    obtain ⟨other, hother, he⟩ := Option.map_eq_some_iff.mp h
    cases he
    exact .copies origin other rfl hother rfl
  | restart source =>
    cases h
    exact .adds [_] rfl rfl fun c hc => .inr ⟨source, List.mem_singleton.mp hc⟩
  | stmt =>
    cases h
    exact .moves s.main _ rfl rfl (Parse.moves_readStmt _ _)
  | expr =>
    cases h
    exact .moves s.main _ rfl rfl (Parse.moves_readExpr _ _)
  | program =>
    cases h
    exact .moves s.main _ rfl rfl (Parse.moves_readProgram _ _)
  | production p =>
    cases h
    exact .moves cell _ rfl rfl (Parse.moves_read _ p _)
  | closeStmt stop =>
    cases h
    exact .moves cell _ rfl rfl (Parse.moves_closeStmtAt stop _)

namespace Effect

variable {cells : List Cursor}

theorem length_le (h : Effect s cell what cells) : s.cells.length ≤ cells.length := by
  cases h with
  | adds more _ eq _ =>
    rw [eq, List.length_append]
    omega
  | moves i d _ eq _ => exact Nat.le_of_eq (by rw [eq, List.length_set])
  | copies slot other _ _ eq => exact Nat.le_of_eq (by rw [eq, List.length_set])

/-- A step leaves every cursor but one as it was. -/
theorem other (h : Effect s cell what cells) {i : Nat} (hi : i < s.cells.length)
    (hother : s.changes? cell what ≠ some i) : cells.getD i (.start []) = s.cursorAt i := by
  unfold cursorAt
  rw [List.getD_eq_getElem?_getD, List.getD_eq_getElem?_getD]
  cases h with
  | adds more _ eq _ => rw [eq, List.getElem?_append_left hi]
  | moves j d one eq _ =>
    have hne : j ≠ i := fun hj => hother (hj ▸ one)
    rw [eq, List.getElem?_set_ne hne]
  | copies slot other copy _ eq =>
    subst copy
    have hne : cell ≠ i := fun hj => hother (congrArg some hj)
    rw [eq, List.getElem?_set_ne hne]

/-- Only a copy of another cursor brings another source into a cell. -/
theorem source (h : Effect s cell what cells) (nocopy : ∀ slot, what ≠ .copyFrom slot) {i : Nat}
    (hi : i < s.cells.length) : (cells.getD i (.start [])).source = (s.cursorAt i).source := by
  by_cases hother : s.changes? cell what = some i
  · cases h with
    | adds more none _ _ =>
      rw [none] at hother
      cases hother
    | moves j d one eq move =>
      obtain rfl : j = i := Option.some.inj (one.symm.trans hother)
      rw [eq, List.getD_eq_getElem?_getD, List.getElem?_set_self hi, Option.getD_some]
      exact move.source
    | copies slot other copy _ _ => exact absurd copy (nocopy slot)
  · rw [h.other hi hother]

end Effect

/-! ## Whole sessions -/

/-- Every cursor of a session is aligned, and every slot stands for one of them. -/
structure Sound (s : Session) : Prop where
  aligned : ∀ c ∈ s.cells, c.Aligned
  slots : ∀ slot i, s.cell? slot = some i → i < s.cells.length

theorem Sound.start (options : Parse.Options) (source : Source) : (start options source).Sound := by
  constructor
  · intro c hc
    rw [List.mem_singleton.mp hc]
    exact .start source
  · intro slot i hi
    cases slot with
    | main =>
      cases hi
      exact Nat.one_pos
    | named name => cases hi

theorem Sound.cursorAt (h : s.Sound) (i : Nat) : (s.cursorAt i).Aligned := by
  unfold Session.cursorAt
  rw [List.getD_eq_getElem?_getD]
  cases hi : s.cells[i]? with
  | none => exact .start []
  | some c => exact h.aligned c (List.mem_of_getElem? hi)

theorem Effect.aligned {cells : List Cursor} (h : Effect s cell what cells) (sound : s.Sound) :
    ∀ c ∈ cells, c.Aligned := by
  intro c hc
  cases h with
  | adds more _ eq origin =>
    rw [eq] at hc
    rcases List.mem_append.mp hc with hc | hc
    · exact sound.aligned c hc
    · obtain rfl | ⟨source, rfl⟩ := origin c hc
      · exact sound.cursorAt cell
      · exact .start source
  | moves i d _ eq move =>
    rw [eq] at hc
    rcases List.mem_or_eq_of_mem_set hc with hc | rfl
    · exact sound.aligned c hc
    · exact (sound.cursorAt i).moves move
  | copies slot other _ _ eq =>
    rw [eq] at hc
    rcases List.mem_or_eq_of_mem_set hc with hc | rfl
    · exact sound.aligned c hc
    · exact sound.cursorAt other

theorem cell?_of_bind {name : String} {j i : Nat} {slot : Slot}
    (h : (s.bind name j).cell? slot = some i) : s.cell? slot = some i ∨ i = j := by
  cases slot with
  | main => exact .inl h
  | named x =>
    simp only [cell?, bind, List.lookup_cons] at h
    split at h
    next => exact .inr (Option.some.inj h).symm
    next => exact .inl h

/-- After a step, a slot stands for the cell it stood for before, for the cell of the step or for a
cell that is new. -/
theorem slots_of_run (h : s.run cell what = some (s', r)) {slot : Slot} {i : Nat}
    (hi : s'.cell? slot = some i) :
    s.cell? slot = some i ∨ i = cell ∨ (i = s.cells.length ∧ i < s'.cells.length) := by
  cases what with
  | copyAs name | openAs name source =>
    cases h
    rcases cell?_of_bind hi with hi | rfl
    · exact .inl (by cases slot <;> exact hi)
    · exact .inr (.inr ⟨rfl, by simp [bind, addCell]⟩)
  | holdAs name =>
    cases h
    exact (cell?_of_bind hi).imp_right .inl
  | restart source =>
    cases h
    cases slot with
    | main =>
      cases hi
      exact .inr (.inr ⟨rfl, by simp [addCell]⟩)
    | named x => exact .inl hi
  | copyFrom origin =>
    obtain ⟨other, -, he⟩ := Option.map_eq_some_iff.mp h
    cases he
    exact .inl (by cases slot <;> exact hi)
  | _ =>
    cases h
    exact .inl (by cases slot <;> exact hi)

/-- One step keeps a session sound. -/
theorem Sound.run (sound : s.Sound) (hcell : cell < s.cells.length)
    (h : s.run cell what = some (s', r)) : s'.Sound := by
  have effect := effect_of_run h
  have hle := effect.length_le
  refine ⟨effect.aligned sound, fun slot i hi => ?_⟩
  rcases slots_of_run h hi with hi | rfl | ⟨-, hlt⟩
  · have hlt := sound.slots slot i hi
    omega
  · omega
  · exact hlt

/-- Takes steps one after another, each on the cursor in a slot. -/
def play (s : Session) : List (Slot × Step) → Option Session
  | [] => some s
  | (slot, what) :: steps =>
    match s.step slot what with
    | none => none
    | some (s', _) => s'.play steps

theorem run_of_step {slot : Slot} (h : s.step slot what = some (s', r)) :
    ∃ cell, s.cell? slot = some cell ∧ s.run cell what = some (s', r) := by
  unfold step at h
  split at h
  next => cases h
  next cell hcell => exact ⟨cell, hcell, h⟩

theorem Sound.play {steps : List (Slot × Step)} (sound : s.Sound) (h : s.play steps = some s') :
    s'.Sound := by
  induction steps generalizing s with
  | nil =>
    cases h
    exact sound
  | cons first steps ih =>
    obtain ⟨slot, what⟩ := first
    simp only [Session.play] at h
    split at h
    next => cases h
    next t r hstep =>
      obtain ⟨cell, hcell, hrun⟩ := run_of_step hstep
      exact ih (sound.run (sound.slots slot cell hcell) hrun) h

/-! ## Which steps can be taken -/

theorem isSome_run_iff :
    (s.run cell what).isSome ↔ ∀ origin, what = .copyFrom origin → (s.cell? origin).isSome := by
  cases what with
  | copyFrom origin =>
    rw [Session.run, Option.isSome_map]
    constructor
    · rintro known _ ⟨⟩
      exact known
    · intro known
      exact known origin rfl
  | _ =>
    refine iff_of_true rfl ?_
    rintro origin ⟨⟩

/-- A step can be taken on every slot that stands for a cell; only a copy of a cursor needs a second
slot that does. -/
theorem isSome_step_iff {slot : Slot} :
    (s.step slot what).isSome ↔
      (s.cell? slot).isSome ∧ ∀ origin, what = .copyFrom origin → (s.cell? origin).isSome := by
  unfold step
  split
  next unknown =>
    rw [unknown]
    exact iff_of_false Bool.false_ne_true fun h => Bool.false_ne_true h.1
  next known =>
    rw [known, isSome_run_iff]
    exact (and_iff_right rfl).symm

theorem isSome_cell?_bind {name : String} {j : Nat} {slot : Slot} (h : (s.cell? slot).isSome) :
    ((s.bind name j).cell? slot).isSome := by
  cases slot with
  | main => rfl
  | named x =>
    simp only [cell?, bind, List.lookup_cons]
    split
    next => rfl
    next => exact h

/-- A slot that stands for a cell keeps standing for one. -/
theorem isSome_cell?_of_run (h : s.run cell what = some (s', r)) {slot : Slot}
    (known : (s.cell? slot).isSome) : (s'.cell? slot).isSome := by
  cases what with
  | copyAs name | openAs name source | holdAs name =>
    cases h
    exact isSome_cell?_bind (by cases slot <;> exact known)
  | copyFrom origin =>
    obtain ⟨other, -, he⟩ := Option.map_eq_some_iff.mp h
    cases he
    cases slot <;> exact known
  | restart source =>
    cases h
    cases slot with
    | main => rfl
    | named x => exact known
  | _ =>
    cases h
    cases slot <;> exact known

/-- So a session can go through any steps whose slots it knows. -/
theorem isSome_play {steps : List (Slot × Step)}
    (known : ∀ step ∈ steps, (s.cell? step.1).isSome ∧
      ∀ origin, step.2 = .copyFrom origin → (s.cell? origin).isSome) :
    (s.play steps).isSome := by
  induction steps generalizing s with
  | nil => rfl
  | cons first steps ih =>
    obtain ⟨slot, what⟩ := first
    obtain ⟨hfirst, hothers⟩ := List.forall_mem_cons.mp known
    obtain ⟨⟨s', r⟩, hstep⟩ := Option.isSome_iff_exists.mp (isSome_step_iff.mpr hfirst)
    obtain ⟨cell, -, hrun⟩ := run_of_step hstep
    simp only [Session.play, hstep]
    refine ih fun step hmem => ?_
    obtain ⟨hslot, horigin⟩ := hothers step hmem
    exact ⟨isSome_cell?_of_run hrun hslot,
      fun origin copied => isSome_cell?_of_run hrun (horigin origin copied)⟩

/-! ## The invariant -/

/-- After any steps, every cursor of a session stands where reading some tokens from the start of its
source ends, and never inside a token. Whatever step comes next leaves every cursor but the one it is
taken on as it was, only a copy of another cursor changes a source, and a restart gives the parser a
new cursor and leaves the old one. -/
theorem steps_keep_cursors_aligned (options : Parse.Options) (source : Source)
    (steps : List (Slot × Step)) {s : Session} (h : (start options source).play steps = some s) :
    (∀ c ∈ s.cells, c.Aligned ∧ c.pos ≤ c.source.length ∧
      ∀ t ∈ (Cursor.start c.source).tokens, ¬ (t.first < c.pos ∧ c.pos ≤ t.last)) ∧
    ∀ slot what s' r, s.step slot what = some (s', r) →
      ∃ cell, s.cell? slot = some cell ∧ cell < s.cells.length ∧
        (∀ i < s.cells.length, s.changes? cell what ≠ some i → s'.cursorAt i = s.cursorAt i) ∧
        ((∀ origin, what ≠ .copyFrom origin) →
          ∀ i < s.cells.length, (s'.cursorAt i).source = (s.cursorAt i).source) ∧
        ∀ source', what = .restart source' → s'.main = s.cells.length ∧
          s'.cursorAt s'.main = .start source' ∧ s'.cursorAt s.main = s.cursorAt s.main := by
  have sound := (Sound.start options source).play h
  refine ⟨fun c hc => ?_, fun slot what s' r hstep => ?_⟩
  · have haligned := sound.aligned c hc
    exact ⟨haligned, haligned.pos_le, fun t ht => haligned.not_inside ht⟩
  · obtain ⟨cell, hcell, hrun⟩ := run_of_step hstep
    have effect := effect_of_run hrun
    refine ⟨cell, hcell, sound.slots slot cell hcell, fun i hi => effect.other hi,
      fun nocopy i hi => effect.source nocopy hi, ?_⟩
    rintro source' rfl
    have hmain := effect.other (sound.slots .main s.main rfl) nofun
    cases hrun
    refine ⟨rfl, ?_, hmain⟩
    simp [addCell, Session.cursorAt]

theorem steps_keep_cursors_aligned_alias_after_restart :
    ∃ s, (start .all (" q".toList.map .char)).play
        [(.main, .copyAs "a"), (.named "a", .skipSpaces), (.main, .holdAs "b"),
          (.main, .openAs "c" ("f( ".toList.map .char)), (.named "c", .production .expr),
          (.named "a", .copyFrom (.named "c")), (.main, .restart ("let x = 1; 'y".toList.map .char)),
          (.named "b", .program), (.named "b", .next)] = some s ∧
      s.cells.map Cursor.pos = [1, 1, 1, 11] ∧
      ∀ c ∈ s.cells, c.Aligned ∧ c.pos ≤ c.source.length ∧
        ∀ t ∈ (Cursor.start c.source).tokens, ¬ (t.first < c.pos ∧ c.pos ≤ t.last) := by
  refine (Option.map_eq_some_iff.mp ?_).elim fun s ⟨hs, hpos⟩ =>
    ⟨s, hs, hpos, (steps_keep_cursors_aligned .all _ _ hs).1⟩
  decide +kernel

end Session

end LetLang
