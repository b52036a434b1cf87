import LetLang.Json.Buffer

/-!
# Sinks of JSON text

The printer gathers the text of a document in a buffer. Behind a value the buffer is offered to the sink
if it is more than three quarters full, but never behind a member of an object that could be mistaken
for an empty one. The whole text is offered in any case.

A closed sink refuses the first offer. What it answers is then a fault of the document that stands
before the first offer, or else the refusal.
-/
namespace LetLang.Json

/-! ## Closed sinks -/

/-- Whether the text of a value ends as that of an empty value does. A string that ends with a
double quote ends in two of them, as the empty string does. -/
def looksEmpty : Json → Bool
  | .null | .arr [] | .obj [] => true
  | .str s => s.getLast?.all (· == .char '\x22')
  | _ => false

/-- Offers a buffer that is nearly full to a closed sink. -/
def Buffer.offer (b : Buffer) (reason : String) : Except Fault Buffer :=
  if b.isNearlyFull then .error (.sink reason) else .ok b

/-- Offers a buffer behind a member of an object. -/
def offerMember (reason : String) (j : Json) (b : Buffer) : Except Fault Buffer :=
  if j.looksEmpty then .ok b else b.offer reason

mutual

/-- Writes a document at a depth into a buffer in front of a closed sink. It ends with the first
fault or refusal. -/
def fill (reason : String) (layout : Layout) (depth : Nat) : Json → Buffer → Except Fault Buffer
  | .null, b => .ok (b.put 4)
  | .bool true, b => .ok (b.put 4)
  | .bool false, b => .ok (b.put 5)
  | .num n, b => .ok (b.put (Decimal.ofInt n).length)
  | .str s, b => if s.chars?.isSome then .ok (b.putText s) else .error .invalidText
  | .arr [], b => if depth < maxDepth then .ok (b.put 2) else .error .tooDeep
  | .arr (j :: js), b =>
    if depth < maxDepth then do
      let b ← j.fill reason layout (depth + 1) (b.putChars ('[' :: layout.line (depth + 1)))
      fillItems reason layout depth js (← b.offer reason)
    else .error .tooDeep
  | .obj [], b => if depth < maxDepth then .ok (b.put 2) else .error .tooDeep
  | .obj ((k, j) :: ms), b =>
    if depth < maxDepth then do
      let b := (b.putChars ('\x7b' :: layout.line (depth + 1))).putText (Text.ofString k)
      let b ← j.fill reason layout (depth + 1) (b.putChars (':' :: layout.gap))
      fillMembers reason layout depth ms (← j.offerMember reason b)
    else .error .tooDeep

/-- The items after the first and the end of the array. -/
def fillItems (reason : String) (layout : Layout) (depth : Nat) :
    List Json → Buffer → Except Fault Buffer
  | [], b => .ok (b.putChars (layout.line depth ++ [']']))
  | j :: js, b => do
    let b ← j.fill reason layout (depth + 1) (b.putChars (',' :: layout.line (depth + 1)))
    fillItems reason layout depth js (← b.offer reason)

/-- The members after the first and the end of the object. -/
def fillMembers (reason : String) (layout : Layout) (depth : Nat) :
    List (String × Json) → Buffer → Except Fault Buffer
  | [], b => .ok (b.putChars (layout.line depth ++ ['\x7d']))
  | (k, j) :: ms, b => do
    let b := (b.putChars (',' :: layout.line (depth + 1))).putText (Text.ofString k)
    let b ← j.fill reason layout (depth + 1) (b.putChars (':' :: layout.gap))
    fillMembers reason layout depth ms (← j.offerMember reason b)

end

/-! ## Encoding -/

/-- Where the text goes. A closed sink refuses what it is offered and gives its reason. -/
inductive Sink where
  | memory
  | closed (reason : String)

/-- The text of a document that reaches the sink. -/
def encode (sink : Sink) (layout : Layout) (j : Json) : Except Fault (List Char) :=
  match sink with
  | .memory =>
    match j.fault? 0 with
    | some f => .error f
    | none => .ok (j.write layout 0 [])
  | .closed reason =>
    match j.fill reason layout 0 .empty with
    | .error f => .error f
    | .ok _ => .error (.sink reason)

def Mode.layout : Mode → Layout
  | .compact => .compact
  | .indented => .indented

/-- The printer as an encoder. -/
def printer (sink : Sink) : Encoder :=
  fun mode j => (j.encode sink mode.layout).mapError Fault.reason

end LetLang.Json
