/-
Abacus.Token.Lexer — cutting a line into tokens.

One scan from left to right.  At every moment the scan expects either an
operand (a number, a variable, a function call, a parenthesis or a sign) or
an operator (binary, `!` or a closing parenthesis), so every list it returns
is well formed apart from the balance of its parentheses.  Positions are byte
offsets in the UTF-8 form of the line.
-/
import Abacus.Text.Blank
import Abacus.Token

namespace Abacus

/-- Why a line cannot be cut into tokens. -/
inductive LexError where
  | unexpectedChar (c : Char) (position : Nat)
  | malformedNumber (position : Nat)
  | decimalNotSupported (literal : String)
  | functionNotSupported (name : String)
  | powerNotSupported
  | missingParenthesis (name : String)
  | unexpectedEnd
deriving DecidableEq, Repr

/-- The wording of a `LexError`. -/
def LexError.message : LexError → String
  | unexpectedChar c position =>
    s!"Syntax error: unexpected character '{c}' at position {position}"
  | malformedNumber position => s!"Syntax error: malformed number at position {position}"
  | decimalNotSupported literal =>
    s!"Syntax error: decimal numbers are not supported in this mode ({literal})"
  | functionNotSupported name =>
    s!"Syntax error: functions are not supported in this mode ({name})"
  | powerNotSupported => "Syntax error: operator '^' is not supported in this mode"
  | missingParenthesis name =>
    s!"Syntax error: function '{name}' must be followed by parentheses"
  | unexpectedEnd => "Syntax error: expression ended unexpectedly"

namespace Lexer

/-- A numeric literal as written: digits, then possibly a point and more
digits. -/
structure Literal where
  whole : List Char
  fraction : Option (List Char)
deriving DecidableEq, Repr

namespace Literal

/-- The characters of the literal as they stand in the line. -/
def source (l : Literal) : List Char :=
  match l.fraction with
  | none => l.whole
  | some digits => l.whole ++ '.' :: digits

/-- There is a digit before or after the point. -/
def hasDigit (l : Literal) : Bool :=
  !l.whole.isEmpty || l.fraction.any (fun digits => !digits.isEmpty)

/-- The one spelling of the literal that tokens carry: `3.` is `3` and `.5`
is `0.5`. -/
def canonical (l : Literal) : List Char :=
  let whole := if l.whole.isEmpty then ['0'] else l.whole
  match l.fraction with
  | none | some [] => whole
  | some digits => whole ++ '.' :: digits

/-- The longest literal that starts with `c`, a digit or a point, and the
text behind it. -/
def scan (c : Char) (cs : List Char) : Literal × List Char :=
  if c = '.' then
    (⟨[], some (cs.takeWhile Char.isDigit)⟩, cs.dropWhile Char.isDigit)
  else
    let whole := c :: cs.takeWhile Char.isDigit
    match cs.dropWhile Char.isDigit with
    | '.' :: rest =>
      (⟨whole, some (rest.takeWhile Char.isDigit)⟩, rest.dropWhile Char.isDigit)
    | rest => (⟨whole, none⟩, rest)

theorem length_scan_le (c : Char) (cs : List Char) : (scan c cs).2.length ≤ cs.length := by
  have shorter (l : List Char) : (l.dropWhile Char.isDigit).length ≤ l.length :=
    (List.dropWhile_suffix _).length_le
  have h := shorter cs
  unfold scan
  split
  · exact h
  · dsimp only
    split
    · rename_i rest heq
      rw [heq, List.length_cons] at h
      exact Nat.le_trans (shorter rest) (Nat.le_of_succ_le h)
    · exact h

end Literal

/-- The characters of an identifier after its first letter. -/
def isNameChar (c : Char) : Bool :=
  c.isAlphanum || c = '_'

/-- A digit or a point: the first character of a literal. -/
def startsLiteral (c : Char) : Bool :=
  c.isDigit || c = '.'

/-- What the scan expects next. -/
inductive Slot where
  | operand
  /-- An operand whose sign has just been read. -/
  | signed (negative : Bool)
  | operator
deriving DecidableEq, Repr

namespace Slot

/-- The literal text of a number in this place: a minus sign belongs to it. -/
def literalText (slot : Slot) (literal : List Char) : String :=
  if slot = signed true then String.ofList ('-' :: literal) else String.ofList literal

/-- The tokens of the sign in front of a group, a function or a variable. -/
def signTokens (slot : Slot) : List Token :=
  if slot = signed true then [.operator .neg] else []

end Slot

/-- A literal passes if it has a digit, no second point follows it, and a
fraction is allowed. -/
def checkLiteral (caps : Capabilities) (position : Nat) (literal : Literal)
    (rest : List Char) : Except LexError Unit :=
  if !literal.hasDigit || rest.head? = some '.' then
    .error (.malformedNumber position)
  else if literal.fraction.isSome && !caps.decimals then
    .error (.decimalNotSupported (String.ofList literal.source))
  else .ok ()

/-- A function name passes if functions are allowed and a parenthesis
follows. -/
def checkCall (caps : Capabilities) (name : String) (rest : List Char) :
    Except LexError Unit :=
  if !caps.functions then .error (.functionNotSupported name)
  else if (trimStart rest).head? ≠ some '(' then .error (.missingParenthesis name)
  else .ok ()

/-- The tokens of `cs`, which starts at byte `position` of the line. -/
def scan (caps : Capabilities) (slot : Slot) (position : Nat) :
    List Char → Except LexError (List Token)
  | [] => if slot = .operator then .ok [] else .error .unexpectedEnd
  | c :: cs =>
    if isBlank c then scan caps slot (position + c.utf8Size) cs
    else if slot = .operator then
      if c = ')' then do
        let tokens ← scan caps .operator (position + 1) cs
        return .rightParen :: tokens
      else if c = '!' then do
        let tokens ← scan caps .operator (position + 1) cs
        return .operator .factorial :: tokens
      else
        match Operator.ofChar? c with
        | none => .error (.unexpectedChar c position)
        | some op =>
          if op = .pow && !caps.power then .error .powerNotSupported
          else do
            let tokens ← scan caps .operand (position + 1) cs
            return .operator op :: tokens
    else if c = '(' then do
      let tokens ← scan caps .operand (position + 1) cs
      return slot.signTokens ++ .leftParen :: tokens
    else if slot = .operand && (c = '+' || c = '-') then
      scan caps (.signed (c = '-')) (position + 1) cs
    else if startsLiteral c then do
      checkLiteral caps position (Literal.scan c cs).1 (Literal.scan c cs).2
      let tokens ← scan caps .operator
        (position + byteLength (Literal.scan c cs).1.source) (Literal.scan c cs).2
      return .number (slot.literalText (Literal.scan c cs).1.canonical) :: tokens
    else if c.isAlpha then
      let word := c :: cs.takeWhile isNameChar
      let name := String.ofList (lowercase word)
      match Elementary.ofName? name with
      | some f => do
        checkCall caps name (cs.dropWhile isNameChar)
        let tokens ← scan caps .operand (position + byteLength word) (cs.dropWhile isNameChar)
        return slot.signTokens ++ .function f :: tokens
      | none => do
        let tokens ← scan caps .operator (position + byteLength word) (cs.dropWhile isNameChar)
        return slot.signTokens ++ .identifier name :: tokens
    else .error (.unexpectedChar c position)
termination_by cs => cs.length
decreasing_by
  all_goals simp only [List.length_cons]
  all_goals first
    | exact Nat.lt_succ_self _
    | exact Nat.lt_succ_of_le (Literal.length_scan_le c cs)
    | exact Nat.lt_succ_of_le (List.dropWhile_suffix _).length_le

end Lexer

/-- The tokens of an infix line, under the grammar that `caps` allows. -/
def tokenize (caps : Capabilities) (line : String) : Except LexError (List Token) :=
  Lexer.scan caps .operand 0 line.toList

end Abacus
