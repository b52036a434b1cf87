import LetLang.Proofs.Reparse

/-!
# Languages inside one another

Blocks and member access can be switched off. A language with more of them extends one with fewer, and
it is conservative: a source is a program of the smaller language exactly if it is a program of the
larger one whose tree has no block where the smaller language has none, and no access where it has none.
The tree and its spans are the same in both. In particular a source that the smaller language rejects
never becomes a different program in the larger one without using what was switched off.
-/
namespace LetLang

open Grammar
open Parse (Options)

/-- What the first options switch on, the second do as well. -/
structure Parse.Options.Within (o o' : Options) : Prop where
  blocks : o.blocks = true → o'.blocks = true
  access : o.access = true → o'.access = true

/-- The tree has no block where blocks are switched off, and no access where access is. -/
structure Program.KeepsTo (o : Options) (p : Program) : Prop where
  blocks : o.blocks = false → ∀ n ∈ (Node.program p).nodes, n.kind? ≠ some .block
  access : o.access = false → ∀ n ∈ (Node.program p).nodes, n.kind? ≠ some .access

/-- The options allow a node of this kind. -/
def Node.Kind.allowed (o : Options) : Node.Kind → Bool
  | .block => o.blocks
  | .access => o.access
  | _ => true

/-- The options allow every node of the trees. -/
def Allowed (o : Options) (ns : List Node) : Prop :=
  ∀ n ∈ ns.flatMap Node.nodes, ∀ k, n.kind? = some k → k.allowed o = true

namespace Allowed

variable {o : Options} {ns : List Node} {n : Node}

theorem nil : Allowed o [] :=
  nofun

theorem cons_iff : Allowed o (n :: ns) ↔ Allowed o [n] ∧ Allowed o ns := by
  unfold Allowed
  rw [List.flatMap_cons, List.flatMap_singleton, List.forall_mem_append]

theorem node_iff {k : Node.Kind} (hk : n.kind? = some k) :
    Allowed o [n] ↔ k.allowed o = true ∧ Allowed o n.children := by
  unfold Allowed
  rw [List.flatMap_singleton, Node.nodes_eq (by rw [hk]; exact nofun), List.forall_mem_cons]
  simp only [hk, Option.some.injEq, forall_eq']

/-- A name is allowed everywhere. -/
theorem name (i : Ident) : Allowed o [.expr (.ident i)] :=
  (node_iff rfl).mpr ⟨rfl, nil⟩

end Allowed

theorem Program.keepsTo_iff {o : Options} {p : Program} :
    p.KeepsTo o ↔ Allowed o (p.stmts.map .stmt) := by
  have hroot : Allowed o [.program p] ↔ Allowed o (p.stmts.map .stmt) := by
    rw [Allowed.node_iff rfl]
    exact and_iff_right rfl
  rw [← hroot, Allowed, List.flatMap_singleton]
  constructor
  · intro h n hn k hk
    cases k with
    | block => exact Bool.of_not_eq_false fun off => h.blocks off n hn hk
    | access => exact Bool.of_not_eq_false fun off => h.access off n hn hk
    | _ => rfl
  · intro h
    constructor
    · intro off n hn hk
      have on : o.blocks = true := h n hn _ hk
      rw [off] at on
      cases on
    · intro off n hn hk
      have on : o.access = true := h n hn _ hk
      rw [off] at on
      cases on

namespace Grammar

variable {o o' : Options} {φ : Phrase} {ts rest : List Token}

/-- What is derived in a language is derived in a larger one. -/
theorem Derives.extend (within : o.Within o') (h : Derives o φ ts rest) : Derives o' φ ts rest := by
  induction h with
  | noStmt ts => exact .noStmt ts
  | moreStmts ws _ _ ihs ihss => exact .moreStmts ws ihs ihss
  | letStmt _ ih => exact .letStmt ih
  | exprStmt _ ih => exact .exprStmt ih
  | binding ws ws₁ ws₂ _ ending ih => exact .binding ws ws₁ ws₂ ih ending
  | stated _ ending ih => exact .stated ih ending
  | bare _ ih => exact .bare ih
  | call _ ws ws₁ _ ws₂ ihc ihi => exact .call ihc ws ws₁ ihi ws₂
  | target _ ih => exact .target ih
  | field on _ ih => exact .field (within.access on) ih
  | ident name first last rest => exact .ident name first last rest
  | trueLit first last rest => exact .trueLit first last rest
  | falseLit first last rest => exact .falseLit first last rest
  | quoted q text first last rest => exact .quoted q text first last rest
  | numeral _ ih => exact .numeral ih
  | braced on _ ih => exact .braced (within.blocks on) ih
  | number digits maximal fits => exact .number digits maximal fits
  | block _ ws ih => exact .block ih ws

/-- What is derived in a language is allowed there. -/
theorem Derives.allowed (h : Derives o φ ts rest) : Allowed o φ.parts := by
  induction h with
  | noStmt => exact .nil
  | moreStmts _ _ _ ihs ihss => exact Allowed.cons_iff.mpr ⟨ihs, ihss⟩
  | letStmt _ ih => exact ih
  | exprStmt _ ih => exact ih
  | bare _ ih => exact ih
  | target _ ih => exact ih
  | numeral _ ih => exact ih
  | binding _ _ _ _ _ ih =>
    exact (Allowed.node_iff rfl).mpr ⟨rfl, Allowed.cons_iff.mpr ⟨.name _, ih⟩⟩
  | stated _ _ ih => exact (Allowed.node_iff rfl).mpr ⟨rfl, ih⟩
  | call _ _ _ _ _ ihc ihi =>
    exact (Allowed.node_iff rfl).mpr ⟨rfl, Allowed.cons_iff.mpr ⟨ihc, ihi⟩⟩
  | field on _ ih =>
    exact (Allowed.node_iff (k := .access) rfl).mpr ⟨on, Allowed.cons_iff.mpr ⟨ih, .name _⟩⟩
  | ident | trueLit | falseLit | quoted | number => exact (Allowed.node_iff rfl).mpr ⟨rfl, .nil⟩
  | braced on h ih =>
    cases h
    exact (Allowed.node_iff (k := .block) rfl).mpr ⟨on, ih⟩
  | block _ _ ih => exact ih

/-- What is derived in some language and is allowed in another one is derived there. -/
theorem Derives.restrict (h : Derives o' φ ts rest) (allowed : Allowed o φ.parts) :
    Derives o φ ts rest := by
  induction h with
  | noStmt ts => exact .noStmt ts
  | moreStmts ws _ _ ihs ihss =>
    obtain ⟨hs, hss⟩ := Allowed.cons_iff.mp allowed
    exact .moreStmts ws (ihs hs) (ihss hss)
  | letStmt _ ih => exact .letStmt (ih allowed)
  | exprStmt _ ih => exact .exprStmt (ih allowed)
  | binding ws ws₁ ws₂ _ ending ih =>
    obtain ⟨-, hparts⟩ := (Allowed.node_iff rfl).mp allowed
    obtain ⟨-, hvalue⟩ := Allowed.cons_iff.mp hparts
    exact .binding ws ws₁ ws₂ (ih hvalue) ending
  | stated _ ending ih =>
    obtain ⟨-, hvalue⟩ := (Allowed.node_iff rfl).mp allowed
    exact .stated (ih hvalue) ending
  | bare _ ih => exact .bare (ih allowed)
  | call _ ws ws₁ _ ws₂ ihc ihi =>
    obtain ⟨-, hparts⟩ := (Allowed.node_iff rfl).mp allowed
    obtain ⟨hcalled, hinput⟩ := Allowed.cons_iff.mp hparts
    exact .call (ihc hcalled) ws ws₁ (ihi hinput) ws₂
  | target _ ih => exact .target (ih allowed)
  | field _ _ ih =>
    obtain ⟨on, hparts⟩ := (Allowed.node_iff rfl).mp allowed
    obtain ⟨htarget, -⟩ := Allowed.cons_iff.mp hparts
    exact .field on (ih htarget)
  | ident name first last rest => exact .ident name first last rest
  | trueLit first last rest => exact .trueLit first last rest
  | falseLit first last rest => exact .falseLit first last rest
  | quoted q text first last rest => exact .quoted q text first last rest
  | numeral _ ih => exact .numeral (ih allowed)
  | braced _ h ih =>
    cases h
    obtain ⟨on, hparts⟩ := (Allowed.node_iff rfl).mp allowed
    exact .braced on (ih hparts)
  | number digits maximal fits => exact .number digits maximal fits
  | block _ ws ih => exact .block (ih allowed) ws

/-- The programs of the smaller language are those of the larger one that keep to it. -/
theorem isProgram_iff_within {p : Program} (within : o.Within o') :
    IsProgram o p ts ↔ IsProgram o' p ts ∧ p.KeepsTo o := by
  rw [Program.keepsTo_iff]
  constructor
  · rintro ⟨left, derived, ws⟩
    exact ⟨⟨left, derived.extend within, ws⟩, derived.allowed⟩
  · rintro ⟨⟨left, derived, ws⟩, allowed⟩
    exact ⟨left, derived.restrict allowed, ws⟩

end Grammar

/-- A language is a conservative extension of every language within it. -/
theorem parse_within_iff {o o' : Options} (within : o.Within o') (source : Source) (p : Program) :
    ((parse o source).tree = p ∧ (parse o source).error? = none) ↔
      ((parse o' source).tree = p ∧ (parse o' source).error? = none) ∧ p.KeepsTo o := by
  rw [parse_complete_iff, parse_complete_iff]
  simp only [isProgram_iff_within within]
  constructor
  · rintro ⟨ts, reads, program, keeps⟩
    exact ⟨⟨ts, reads, program⟩, keeps⟩
  · rintro ⟨⟨ts, reads, program⟩, keeps⟩
    exact ⟨ts, reads, program, keeps⟩

theorem parse_within_iff_access_off :
    Options.Within ⟨true, false⟩ .all ∧
      (parse ⟨true, false⟩ ("\x7ba(1)\x7d".toList.map .char)).tree =
        (parse .all ("\x7ba(1)\x7d".toList.map .char)).tree ∧
      (parse .all ("\x7ba(1)\x7d".toList.map .char)).tree.KeepsTo ⟨true, false⟩ ∧
      (parse .all ("a.b".toList.map .char)).error? = none ∧
      ¬ (parse .all ("a.b".toList.map .char)).tree.KeepsTo ⟨true, false⟩ := by
  have within : Options.Within ⟨true, false⟩ .all := ⟨fun _ => rfl, nofun⟩
  have hsmall : (parse ⟨true, false⟩ ("\x7ba(1)\x7d".toList.map .char)).error? = none := by
    decide +kernel
  obtain ⟨⟨htree, -⟩, keeps⟩ := (parse_within_iff within _ _).mp ⟨rfl, hsmall⟩
  have hlarge : (parse .all ("a.b".toList.map .char)).error? = none := by decide +kernel
  have hrejected : (parse ⟨true, false⟩ ("a.b".toList.map .char)).error? ≠ none := by decide +kernel
  refine ⟨within, htree.symm, htree ▸ keeps, hlarge, fun keeps' => hrejected ?_⟩
  exact ((parse_within_iff within _ _).mpr ⟨⟨rfl, hlarge⟩, keeps'⟩).2

end LetLang
