import LetLang.Proofs.Soundness
import LetLang.Proofs.Spelling

/-!
# Well-formed trees

A tree is well-formed if nothing is missing in it, every name could be read as one and every string has
a delimiter that its text does not hold, no call is called or accessed, and the parts of the language
that are switched off do not occur. Everything the grammar derives from the tokens of a source is
well-formed.
-/
namespace LetLang

open Parse (Options)

/-- The name of an identifier can be read as a name. -/
def Ident.WellFormed (i : Ident) : Prop :=
  ∃ cs, i.name = Text.ofChars cs ∧ IsName cs

def Expr.isCall : Expr → Bool
  | .call _ _ _ => true
  | _ => false

mutual

def Expr.WellFormed (o : Options) : Expr → Prop
  | .absent => False
  | .ident i => i.WellFormed
  | .number _ _ | .bool _ _ => True
  | .string value quote _ =>
    ∃ q cs, quote = some (Quote.sourceChar q) ∧ value = Text.ofChars cs ∧ q.char ∉ cs
  | .call called input _ => called.isCall = false ∧ called.WellFormed o ∧ input.WellFormed o
  | .access target field _ =>
    o.access = true ∧ target.isCall = false ∧ target.WellFormed o ∧
      ∃ i, field = some i ∧ i.WellFormed
  | .block ss _ => o.blocks = true ∧ Stmt.AllWellFormed o ss

def Stmt.WellFormed (o : Options) : Stmt → Prop
  | .absent => False
  | .binding name value _ => (∃ i, name = some i ∧ i.WellFormed) ∧ value.WellFormed o
  | .stated value _ => value.WellFormed o

def Stmt.AllWellFormed (o : Options) : List Stmt → Prop
  | [] => True
  | s :: ss => s.WellFormed o ∧ Stmt.AllWellFormed o ss

end

namespace Grammar

/-- The tree of a phrase is well-formed. A block is derived by its own rule even where blocks are
switched off, so only its statements are. -/
def Phrase.WellFormed (o : Options) : Phrase → Prop
  | .stmts ss => Stmt.AllWellFormed o ss
  | .stmt s | .letStmt s | .exprStmt s => s.WellFormed o
  | .expr e => e.WellFormed o
  | .access e | .primary e | .number e => e.isCall = false ∧ e.WellFormed o
  | .block e => ∃ ss span, e = .block ss span ∧ Stmt.AllWellFormed o ss

theorem Derives.wellFormed {o : Options} {φ : Phrase} {ts rest : List Token}
    (h : Derives o φ ts rest) (spellable : ∀ t ∈ ts, t.lexeme.Spellable) : φ.WellFormed o := by
  induction h with
  | noStmt => trivial
  | moreStmts ws head _ ihs ihss =>
    have hhead := fun t ht => spellable t (ws.suffix.subset ht)
    exact ⟨ihs hhead, ihss fun t ht => hhead t (head.suffix.subset ht)⟩
  | letStmt _ ih => exact ih spellable
  | exprStmt _ ih => exact ih spellable
  | binding ws ws₁ ws₂ _ _ ih =>
    have hws := fun t ht => spellable t (List.mem_cons_of_mem _ (ws.suffix.subset ht))
    have hws₁ := fun t ht => hws t (List.mem_cons_of_mem _ (ws₁.suffix_tail.subset ht))
    have hname := hws _ List.mem_cons_self
    exact ⟨⟨_, rfl, _, rfl, hname⟩, ih fun t ht => hws₁ t (ws₂.suffix.subset ht)⟩
  | stated _ _ ih => exact ih spellable
  | bare _ ih => exact (ih spellable).2
  | call callee ws ws₁ _ _ ihc ihi =>
    obtain ⟨hcall, hcalled⟩ := ihc spellable
    have hinput := ws₁.suffix.trans (ws.suffix_tail.trans callee.suffix)
    exact ⟨hcall, hcalled, ihi fun t ht => spellable t (hinput.subset ht)⟩
  | target _ ih => exact ih spellable
  | field on object ih =>
    obtain ⟨hcall, htarget⟩ := ih spellable
    have hname := spellable _ (object.suffix.subset (List.mem_cons_of_mem _ List.mem_cons_self))
    exact ⟨rfl, on, hcall, htarget, _, rfl, _, rfl, hname⟩
  | ident => exact ⟨rfl, _, rfl, spellable _ List.mem_cons_self⟩
  | trueLit | falseLit => exact ⟨rfl, trivial⟩
  | quoted => exact ⟨rfl, _, _, rfl, rfl, spellable _ List.mem_cons_self⟩
  | numeral _ ih => exact ih spellable
  | braced on _ ih =>
    obtain ⟨ss, span, rfl, hss⟩ := ih spellable
    exact ⟨rfl, on, hss⟩
  | number => exact ⟨rfl, trivial⟩
  | block _ _ ih => exact ⟨_, _, rfl, ih fun t ht => spellable t (List.mem_cons_of_mem _ ht)⟩

end Grammar

end LetLang
