import LetLang.Tree.Marshal

/-!
# A JSON text denotes one document

A string can be spelled in many ways, but no text is a spelling of two documents. A reader of a string
can tell character by character what is meant and where the string ends. The first character of a mark
tells what kind of mark it is, and a number ends before the first character that is no digit; what stands
behind a name or a value tells the two apart. So the marks are read off the text one after another, and
the marks of a document determine it.
-/
namespace LetLang

/-! ## Bytes -/

theorem Text.bytes_ofChars (cs : List Char) :
    (ofChars cs).bytes = cs.flatMap String.utf8EncodeChar := by
  rw [bytes, ofChars, List.flatMap_map]
  rfl

/-- A valid text can be recovered from its bytes. -/
theorem Text.ofChars_of_bytes_eq {cs ds : List Char} (h : (ofChars cs).bytes = (ofChars ds).bytes) :
    cs = ds := by
  rw [bytes_ofChars, bytes_ofChars] at h
  have hencoded : cs.utf8Encode = ds.utf8Encode := congrArg List.toByteArray h
  rw [← String.toByteArray_ofList, ← String.toByteArray_ofList, String.toByteArray_inj] at hencoded
  exact String.ofList_inj.mp hencoded

/-! ## Numbers -/

/-- The text does not begin with a digit. -/
def NoDigitFirst (tail : List Char) : Prop :=
  ∀ c, tail.head? = some c → Digit.ofChar? c = none

theorem noDigitFirst_nil : NoDigitFirst [] := nofun

theorem NoDigitFirst.cons {c : Char} (h : Digit.ofChar? c = none) (tail : List Char) :
    NoDigitFirst (c :: tail) := by
  intro d hd
  cases hd
  exact h

theorem not_noDigitFirst (d : Digit) (tail : List Char) : ¬ NoDigitFirst (d.toChar :: tail) := by
  intro h
  have hdigit := h d.toChar rfl
  rw [Digit.ofChar?_toChar] at hdigit
  cases hdigit

namespace Decimal

theorem digits_append_inj {ds es : List Digit} {s t : List Char} (hs : NoDigitFirst s)
    (ht : NoDigitFirst t) (h : ds.map Digit.toChar ++ s = es.map Digit.toChar ++ t) :
    ds = es ∧ s = t := by
  induction ds generalizing es with
  | nil =>
    cases es with
    | nil => exact ⟨rfl, h⟩
    | cons e es =>
      obtain rfl : s = e.toChar :: (es.map Digit.toChar ++ t) := h
      exact absurd hs (not_noDigitFirst e _)
  | cons d ds ih =>
    cases es with
    | nil =>
      obtain rfl : d.toChar :: (ds.map Digit.toChar ++ s) = t := h
      exact absurd ht (not_noDigitFirst d _)
    | cons e es =>
      obtain ⟨hhead, htail⟩ := List.cons.inj h
      have hdigit := congrArg Digit.ofChar? hhead
      rw [Digit.ofChar?_toChar, Digit.ofChar?_toChar] at hdigit
      obtain ⟨rfl, rfl⟩ := ih htail
      exact ⟨by rw [Option.some.inj hdigit], rfl⟩

theorem ofNat_append_inj {m n : Nat} {s t : List Char} (hs : NoDigitFirst s) (ht : NoDigitFirst t)
    (h : ofNat m ++ s = ofNat n ++ t) : m = n ∧ s = t := by
  obtain ⟨hdigits, rfl⟩ := digits_append_inj hs ht h
  exact ⟨digits_inj.mp hdigits, rfl⟩

/-- A numeral begins with a digit, and a minus sign is none. -/
theorem exists_ofNat_eq_cons (n : Nat) : ∃ (d : Digit) (cs : List Char), ofNat n = d.toChar :: cs := by
  obtain ⟨d, ds, hds⟩ := List.exists_cons_of_ne_nil (digits_ne_nil n)
  exact ⟨d, ds.map Digit.toChar, by rw [ofNat, hds, List.map_cons]⟩

theorem toChar_ne_minus : ∀ d : Digit, d.toChar ≠ '-' := by
  decide

theorem ofNat_append_ne_minus (n : Nat) (s t : List Char) : ofNat n ++ s ≠ '-' :: t := by
  obtain ⟨d, cs, hcs⟩ := exists_ofNat_eq_cons n
  rw [hcs]
  intro h
  exact toChar_ne_minus d (List.cons.inj h).1

theorem ofInt_append_inj {m n : Int} {s t : List Char} (hs : NoDigitFirst s) (ht : NoDigitFirst t)
    (h : ofInt m ++ s = ofInt n ++ t) : m = n ∧ s = t := by
  cases m with
  | ofNat m =>
    cases n with
    | ofNat n =>
      obtain ⟨rfl, rfl⟩ := ofNat_append_inj hs ht h
      exact ⟨rfl, rfl⟩
    | negSucc n => exact absurd h (ofNat_append_ne_minus m s _)
  | negSucc m =>
    cases n with
    | ofNat n => exact absurd h.symm (ofNat_append_ne_minus n t _)
    | negSucc n =>
      obtain ⟨hnumber, rfl⟩ := ofNat_append_inj hs ht (List.cons.inj h).2
      obtain rfl := Nat.succ.inj hnumber
      exact ⟨rfl, rfl⟩

end Decimal

namespace Json

/-! ## Strings -/

/-- The first character that the inside of a string stands for, and what follows it. There is none at
the end of the string. -/
def unescape : List Char → Option (Char × List Char)
  | '\\' :: 'u' :: w :: x :: y :: z :: s =>
    match hexCode? w x y z with
    | none => none
    | some high =>
      if 0xD800 ≤ high ∧ high < 0xDC00 then
        match s with
        | '\\' :: 'u' :: w' :: x' :: y' :: z' :: s =>
          (hexCode? w' x' y' z').map fun low =>
            (Char.ofNat (0x10000 + (high - 0xD800) * 0x400 + (low - 0xDC00)), s)
        | _ => none
      else some (Char.ofNat high, s)
  | '\\' :: l :: s => (letters.lookup l).map fun c => (c, s)
  | '\x22' :: _ => none
  | c :: s => some (c, s)
  | [] => none

/-- No character has the code of a half. -/
theorem not_half (c : Char) : ¬ (0xD800 ≤ c.toNat ∧ c.toNat < 0xDC00) := by
  have hvalid : c.toNat < 0xD800 ∨ 0xDFFF < c.toNat ∧ c.toNat < 0x110000 := c.valid
  omega

theorem ofNat_of_toNat_eq {c : Char} {n : Nat} (h : c.toNat = n) : Char.ofNat n = c :=
  h ▸ Char.ofNat_toNat c

theorem unescape_of_escapes {c : Char} {written : List Char} (h : Escapes c written) (s : List Char) :
    unescape (written ++ s) = some (c, s) := by
  cases h with
  | plain control quote slash =>
    rw [List.singleton_append, unescape]
    all_goals
      intros
      contradiction
  | @letter l listed =>
    have other : l ≠ 'u' := by
      rintro rfl
      cases listed
    rw [List.cons_append, List.cons_append, List.nil_append, unescape, listed]
    · rfl
    · intros
      contradiction
  | code value =>
    simp only [List.cons_append, List.nil_append, unescape, value, if_neg (not_half c)]
    rw [Char.ofNat_toNat]
  | halves upper lower isHigh isLow value =>
    simp only [List.cons_append, List.nil_append, unescape, upper, lower, if_pos isHigh,
      Option.map_some, ofNat_of_toNat_eq value]

/-- The inside of a string ends at the first quote that is not escaped. -/
theorem Inside.inj {cs ds a b s t : List Char} (h : Inside cs a) (h' : Inside ds b)
    (he : a ++ '\x22' :: s = b ++ '\x22' :: t) : cs = ds ∧ s = t := by
  induction h generalizing ds b with
  | nil =>
    cases h' with
    | nil => exact ⟨rfl, (List.cons.inj he).2⟩
    | cons first others =>
      have hread := congrArg unescape he
      rw [List.append_assoc, unescape_of_escapes first] at hread
      cases hread
  | cons first others ih =>
    have hread := congrArg unescape he
    rw [List.append_assoc, unescape_of_escapes first] at hread
    cases h' with
    | nil => cases hread
    | cons first' others' =>
      rw [List.append_assoc, unescape_of_escapes first'] at hread
      obtain ⟨rfl, hrest⟩ := Prod.mk.inj (Option.some.inj hread)
      obtain ⟨rfl, rfl⟩ := ih others' hrest
      exact ⟨rfl, rfl⟩

/-! ## Marks -/

/-- The kinds of marks, which their first character tells apart, but for names and strings. -/
inductive Shape where
  | null
  | bool
  | num
  | quoted
  | opening (isObject : Bool)
  | closing (isObject : Bool)
deriving DecidableEq

def Mark.shape : Mark → Shape
  | .null => .null
  | .bool _ => .bool
  | .num _ => .num
  | .str _ | .name _ => .quoted
  | .opening isObject => .opening isObject
  | .closing isObject => .closing isObject

def Shape.ofFirst? (c : Char) : Option Shape :=
  if c = 'n' then some .null
  else if c = 't' ∨ c = 'f' then some .bool
  else if c = '\x22' then some .quoted
  else if c = '[' then some (.opening false)
  else if c = '\x7b' then some (.opening true)
  else if c = ']' then some (.closing false)
  else if c = '\x7d' then some (.closing true)
  else if c = '-' ∨ (Digit.ofChar? c).isSome then some .num
  else none

theorem Shape.ofFirst?_digit : ∀ d : Digit, ofFirst? d.toChar = some .num := by
  decide

theorem Mark.Spelled.exists_first {m : Mark} {body : List Char} (h : m.Spelled body) :
    ∃ c rest, body = c :: rest ∧ Shape.ofFirst? c = some m.shape := by
  cases h with
  | null => exact ⟨_, _, rfl, rfl⟩
  | bool b => cases b <;> exact ⟨_, _, rfl, rfl⟩
  | num n =>
    cases n with
    | ofNat n =>
      obtain ⟨d, cs, hcs⟩ := Decimal.exists_ofNat_eq_cons n
      exact ⟨d.toChar, cs, hcs, Shape.ofFirst?_digit d⟩
    | negSucc n => exact ⟨_, _, rfl, rfl⟩
  | str | name => exact ⟨_, _, rfl, rfl⟩
  | opening isObject => cases isObject <;> exact ⟨_, _, rfl, rfl⟩
  | closing isObject => cases isObject <;> exact ⟨_, _, rfl, rfl⟩

theorem Mark.Spelled.shape_eq {m n : Mark} {a b s t : List Char} (h : m.Spelled a) (h' : n.Spelled b)
    (he : a ++ s = b ++ t) : m.shape = n.shape := by
  obtain ⟨c, rest, rfl, hc⟩ := h.exists_first
  obtain ⟨c', rest', rfl, hc'⟩ := h'.exists_first
  obtain ⟨rfl, -⟩ := List.cons.inj he
  exact Option.some.inj (hc.symm.trans hc')

/-- What may stand behind a mark: a colon behind a name and only there, and no digit behind a value. -/
structure MayFollow (m : Mark) (rest : List Char) : Prop where
  colon : rest.head? = some ':' ↔ m.placeBehind = .named
  noDigit : m.placeBehind = .behind → NoDigitFirst rest

/-- A mark can be read off the front of a text, if the rest is as it has to be behind it. -/
theorem Mark.Spelled.inj {m n : Mark} {a b s t : List Char} (h : m.Spelled a) (h' : n.Spelled b)
    (hs : MayFollow m s) (ht : MayFollow n t) (he : a ++ s = b ++ t) : m = n ∧ s = t := by
  have hshape := h.shape_eq h' he
  cases h with
  | null =>
    cases h' with
    | null => exact ⟨rfl, List.append_cancel_left he⟩
    | _ => cases hshape
  | bool b =>
    cases h' with
    | bool b' =>
      cases b <;> cases b'
      · exact ⟨rfl, List.append_cancel_left he⟩
      · cases (List.cons.inj he).1
      · cases (List.cons.inj he).1
      · exact ⟨rfl, List.append_cancel_left he⟩
    | _ => cases hshape
  | num k =>
    cases h' with
    | num k' =>
      obtain ⟨rfl, rfl⟩ := Decimal.ofInt_append_inj (hs.noDigit rfl) (ht.noDigit rfl) he
      exact ⟨rfl, rfl⟩
    | _ => cases hshape
  | str inside =>
    cases h' with
    | str inside' =>
      obtain ⟨rfl, rfl⟩ := inside.inj inside' (by simpa using he)
      exact ⟨rfl, rfl⟩
    | name inside' =>
      obtain ⟨-, rfl⟩ := inside.inj inside' (by simpa using he)
      cases hs.colon.mp (ht.colon.mpr rfl)
    | _ => cases hshape
  | name inside =>
    cases h' with
    | name inside' =>
      obtain ⟨hkey, rfl⟩ := inside.inj inside' (by simpa using he)
      exact ⟨congrArg Mark.name (String.toList_inj.mp hkey), rfl⟩
    | str inside' =>
      obtain ⟨-, rfl⟩ := inside.inj inside' (by simpa using he)
      cases ht.colon.mp (hs.colon.mpr rfl)
    | _ => cases hshape
  | opening isObject =>
    cases h' with
    | opening isObject' =>
      cases hshape
      exact ⟨rfl, List.append_cancel_left he⟩
    | _ => cases hshape
  | closing isObject =>
    cases h' with
    | closing isObject' =>
      cases hshape
      exact ⟨rfl, List.append_cancel_left he⟩
    | _ => cases hshape

/-! ## Chains of marks -/

/-- The marks do not end with a name. -/
def NoNameLast (ms : List Mark) : Prop :=
  ∀ key, ms.getLast? ≠ some (.name key)

theorem NoNameLast.tail {m : Mark} {ms : List Mark} (h : NoNameLast (m :: ms)) : NoNameLast ms := by
  intro key hlast
  refine h key ?_
  rw [List.getLast?_cons, hlast, Option.getD_some]

/-- A name is not the last mark. -/
theorem NoNameLast.ne_nil {m : Mark} {ms : List Mark} (h : NoNameLast (m :: ms))
    (named : m.placeBehind = .named) : ms ≠ [] := by
  rintro rfl
  cases m with
  | name key => exact h key rfl
  | _ => cases named

theorem Mark.Spelled.head?_ne_colon {m : Mark} {body : List Char} (h : m.Spelled body)
    (rest : List Char) : (body ++ rest).head? ≠ some ':' := by
  obtain ⟨c, others, rfl, hc⟩ := h.exists_first
  rintro ⟨⟩
  cases hc

/-- Behind a value comes a comma, or an array or object is closed. -/
theorem Mark.Spelled.exists_first_behind {n : Mark} {body : List Char} (h : n.Spelled body)
    (rest : List Char) : ∃ c others, separator .behind n ++ body ++ rest = c :: others ∧ c ≠ ':' ∧
      Digit.ofChar? c = none ∧ separator .behind n = if c = ',' then [','] else [] := by
  cases h with
  | closing isObject => cases isObject <;> exact ⟨_, rest, rfl, by decide, by decide, rfl⟩
  | _ => exact ⟨',', _, rfl, by decide, by decide, rfl⟩

theorem Chain.mayFollow {m : Mark} {ms : List Mark} {rest : List Char}
    (h : Chain m.placeBehind ms rest) (ends : NoNameLast (m :: ms)) : MayFollow m rest := by
  have hne := ends.ne_nil
  generalize hplace : m.placeBehind = place at h hne
  cases h with
  | nil =>
    have notNamed : place ≠ .named := fun named => hne named rfl
    refine ⟨?_, fun _ => noDigitFirst_nil⟩
    rw [hplace]
    exact iff_of_false nofun notNamed
  | cons spelled chain =>
    cases place with
    | named => exact ⟨iff_of_true rfl hplace, by rw [hplace]; exact nofun⟩
    | behind =>
      obtain ⟨c, others, hc, notColon, noDigit, -⟩ := spelled.exists_first_behind _
      rw [hc]
      refine ⟨?_, fun _ => .cons noDigit others⟩
      rw [hplace]
      exact iff_of_false (fun h => notColon (Option.some.inj h)) nofun
    | start | first =>
      refine ⟨?_, by rw [hplace]; exact nofun⟩
      rw [hplace]
      exact iff_of_false (spelled.head?_ne_colon _) nofun

/-- At one place, the texts of two marks can only be the same behind the same separator. -/
theorem separator_eq_of_append_eq {place : Place} {m n : Mark} {a b s t : List Char}
    (h : m.Spelled a) (h' : n.Spelled b)
    (he : separator place m ++ a ++ s = separator place n ++ b ++ t) :
    separator place m = separator place n := by
  cases place with
  | start | first | named => rfl
  | behind =>
    obtain ⟨c, others, hc, -, -, hm⟩ := h.exists_first_behind s
    obtain ⟨c', others', hc', -, -, hn⟩ := h'.exists_first_behind t
    rw [hc, hc'] at he
    obtain ⟨rfl, -⟩ := List.cons.inj he
    rw [hm, hn]

/-- The marks that a text is a spelling of are determined by it. -/
theorem Chain.inj {place : Place} {ms ns : List Mark} {s t : List Char} (h : Chain place ms s)
    (h' : Chain place ns t) (ends : NoNameLast ms) (ends' : NoNameLast ns) (he : s = t) : ms = ns := by
  have hnonempty {m : Mark} {body : List Char} (first : m.Spelled body) (place : Place)
      (rest : List Char) : separator place m ++ body ++ rest ≠ [] := by
    obtain ⟨c, others, rfl, -⟩ := first.exists_first
    simp
  induction h generalizing ns t with
  | nil =>
    cases h' with
    | nil => rfl
    | cons first => exact absurd he.symm (hnonempty first _ _)
  | @cons place m ms body rest first others ih =>
    cases h' with
    | nil => exact absurd he (hnonempty first _ _)
    | @cons _ n ns body' rest' first' others' =>
      rw [separator_eq_of_append_eq first first' he, List.append_assoc, List.append_assoc] at he
      obtain ⟨rfl, hrest⟩ := first.inj first' (others.mayFollow ends) (others'.mayFollow ends')
        (List.append_cancel_left he)
      exact congrArg (List.cons m) (ih others' ends.tail ends'.tail hrest)

/-! ## Marks of documents -/

mutual

/-- The marks of a document determine it, whatever marks stand behind them. -/
theorem marks_append_inj {ms ns : List Mark} (j l : Json) (h : j.marks ++ ms = l.marks ++ ns) :
    j = l ∧ ms = ns := by
  cases j with
  | arr items =>
    cases l with
    | arr items' =>
      obtain ⟨rfl, rfl⟩ := itemMarks_append_inj items items' (by simpa [marks] using h)
      exact ⟨rfl, rfl⟩
    | _ => cases (List.cons.inj h).1
  | obj members =>
    cases l with
    | obj members' =>
      obtain ⟨rfl, rfl⟩ := memberMarks_append_inj members members' (by simpa [marks] using h)
      exact ⟨rfl, rfl⟩
    | _ => cases (List.cons.inj h).1
  | _ =>
    cases l <;> cases h
    exact ⟨rfl, rfl⟩

theorem itemMarks_append_inj {ms ns : List Mark} (js ls : List Json)
    (h : itemMarks js ++ .closing false :: ms = itemMarks ls ++ .closing false :: ns) :
    js = ls ∧ ms = ns := by
  cases js with
  | nil =>
    cases ls with
    | nil => exact ⟨rfl, (List.cons.inj h).2⟩
    | cons l ls => cases l <;> cases (List.cons.inj h).1
  | cons j js =>
    cases ls with
    | nil => cases j <;> cases (List.cons.inj h).1
    | cons l ls =>
      obtain ⟨rfl, hrest⟩ := marks_append_inj j l (by simpa [itemMarks] using h)
      obtain ⟨rfl, rfl⟩ := itemMarks_append_inj js ls hrest
      exact ⟨rfl, rfl⟩

theorem memberMarks_append_inj {ms ns : List Mark} (as bs : List (String × Json))
    (h : memberMarks as ++ .closing true :: ms = memberMarks bs ++ .closing true :: ns) :
    as = bs ∧ ms = ns := by
  cases as with
  | nil =>
    cases bs with
    | nil => exact ⟨rfl, (List.cons.inj h).2⟩
    | cons b bs => cases (List.cons.inj h).1
  | cons a as =>
    obtain ⟨key, j⟩ := a
    cases bs with
    | nil => cases (List.cons.inj h).1
    | cons b bs =>
      obtain ⟨key', l⟩ := b
      obtain ⟨hname, htail⟩ := List.cons.inj h
      cases hname
      obtain ⟨rfl, hrest⟩ := marks_append_inj j l (by simpa [memberMarks] using htail)
      obtain ⟨rfl, rfl⟩ := memberMarks_append_inj as bs hrest
      exact ⟨rfl, rfl⟩

end

theorem noNameLast_marks (j : Json) : NoNameLast j.marks := by
  intro key
  cases j with
  | arr items => simp [marks, List.getLast?_cons]
  | obj members => simp [marks, List.getLast?_cons]
  | _ => simp [marks]

/-- No text denotes two documents. -/
theorem Denotes.inj {text : List Char} {j l : Json} (h : Denotes text j) (h' : Denotes text l) :
    j = l := by
  have hmarks := Chain.inj h h' (noNameLast_marks j) (noNameLast_marks l) rfl
  exact (marks_append_inj j l (congrArg (· ++ []) hmarks)).1

/-! ## Encoded documents -/

theorem Mark.Occurs.of_split {n : Node} {j : Json} (hj : n.document? = some j) {done ms : List Mark}
    {m : Mark} (h : j.marks = done ++ m :: ms) : m.Occurs done :=
  ⟨n, j, ms, hj, h⟩

/-- Why the first of some marks that cannot be written is refused, inside `depth` arrays and objects. -/
def firstRefusal? (depth : Nat) : List Mark → Option String
  | [] => none
  | m :: ms =>
    match m.refusal? depth with
    | some reason => some reason
    | none => firstRefusal? (m.depthBehind depth) ms

section Writers

variable {write : Writer} {n : Node} {j : Json} {done ms : List Mark}

/-- The last marks of a document are refused with the first that is refused, in both modes. -/
theorem Writer.Refuses.run_eq_error (refuses : write.Refuses) (hj : n.document? = some j)
    (split : j.marks = done ++ ms) {reason : String}
    (first : firstRefusal? (opened done) ms = some reason) (mode : Mode) :
    write.run mode done ms = .error reason := by
  induction ms generalizing done with
  | nil => cases first
  | cons m ms ih =>
    have occurs : m.Occurs done := .of_split hj split
    rw [firstRefusal?] at first
    cases hm : m.refusal? (opened done) with
    | some why =>
      rw [hm] at first
      cases first
      exact run_of_error ms (refuses.refused mode done m reason occurs hm)
    | none =>
      rw [hm] at first
      obtain ⟨text, htext⟩ := refuses.written mode done m occurs hm
      rw [run_of_ok ms htext, ih (split.trans (List.append_cons done m ms)) (by rwa [opened_concat])]
      rfl

/-- If none of them is refused, they are written. -/
theorem Writer.Refuses.exists_run_eq_ok (refuses : write.Refuses) (hj : n.document? = some j)
    (split : j.marks = done ++ ms) (accepted : firstRefusal? (opened done) ms = none) (mode : Mode) :
    ∃ text, write.run mode done ms = .ok text := by
  induction ms generalizing done with
  | nil => exact ⟨[], rfl⟩
  | cons m ms ih =>
    have occurs : m.Occurs done := .of_split hj split
    rw [firstRefusal?] at accepted
    cases hm : m.refusal? (opened done) with
    | some why =>
      rw [hm] at accepted
      cases accepted
    | none =>
      rw [hm] at accepted
      obtain ⟨text, htext⟩ := refuses.written mode done m occurs hm
      obtain ⟨rest, hrest⟩ :=
        ih (split.trans (List.append_cons done m ms)) (by rwa [opened_concat])
      exact ⟨text ++ rest, by rw [run_of_ok ms htext, hrest]; rfl⟩

end Writers

/-- The text that is written for some last marks of a document is a chain of them. -/
theorem Writer.Spells.chain {write : Writer} (spells : write.Spells) {n : Node} {j : Json}
    (hj : n.document? = some j) {done ms : List Mark} (split : j.marks = done ++ ms)
    {text : List Char} (h : write.run .compact done ms = .ok text) :
    Chain (placeAfter done) ms text := by
  induction ms generalizing done text with
  | nil =>
    cases h
    exact .nil _
  | cons m ms ih =>
    obtain ⟨first, rest, hfirst, hrest, rfl⟩ := Writer.exists_of_run_cons h
    obtain ⟨body, spelled, rfl⟩ := spells done m first (.of_split hj split) hfirst
    have others := ih (split.trans (List.append_cons done m ms)) hrest
    rw [placeAfter_concat] at others
    exact .cons spelled others

/-- A document has the text that it is encoded as in one line. -/
theorem denotes_of_encode {encode : Encoder} {write : Writer} (inOrder : encode.InOrder write)
    (spells : write.Spells) {n : Node} {j : Json} (hj : n.document? = some j) {text : List Char}
    (h : encode .compact j = .ok text) : Denotes text j := by
  rw [inOrder .compact n j hj] at h
  exact spells.chain hj rfl h

end Json

end LetLang
