/-
Abacus.Token — what an infix line is made of.

Operators with their binding strength, the named functions, tokens, and the
grammar features that a number system may switch off.
-/

namespace Abacus

/-- Operators; `neg` is the minus sign in front of a group, a function or a
variable. -/
inductive Operator where
  | add | sub | mul | div | pow | factorial | neg
deriving DecidableEq, Repr

namespace Operator

/-- Binding strength, from weak to strong. -/
def precedence : Operator → Nat
  | add | sub => 1
  | mul | div => 2
  | neg => 3
  | pow => 4
  | factorial => 5

/-- A chain of these groups from the right. -/
def isRightAssociative : Operator → Bool
  | pow | neg => true
  | _ => false

/-- Written in front of its operand, so it never has one to its left. -/
def isPrefix : Operator → Bool
  | neg => true
  | _ => false

/-- The number of operands taken. -/
def arity : Operator → Nat
  | factorial | neg => 1
  | _ => 2

/-- The written form. -/
def symbol : Operator → String
  | add => "+"
  | sub => "-"
  | mul => "*"
  | div => "/"
  | pow => "^"
  | factorial => "!"
  | neg => "neg"

/-- The binary operator a character stands for; `x` also multiplies and `:`
also divides. -/
def ofChar? : Char → Option Operator
  | '+' => some add
  | '-' => some sub
  | '*' | 'x' | 'X' => some mul
  | '/' | ':' => some div
  | '^' => some pow
  | _ => none

/-- An incoming operator sends the operator on top of the stack to the output
when that one binds more strongly, or equally if the incoming one groups from
the left. -/
def yieldsTo (op top : Operator) : Bool :=
  if op.isRightAssociative then op.precedence < top.precedence
  else op.precedence ≤ top.precedence

end Operator

/-- The named elementary functions. -/
inductive Elementary where
  | sin | cos | tan | log | sqrt | exp | cot | asin | acos | atan | sinh
deriving DecidableEq, Repr

namespace Elementary

/-- The name a function is called by. -/
def name : Elementary → String
  | sin => "sin"
  | cos => "cos"
  | tan => "tan"
  | log => "log"
  | sqrt => "sqrt"
  | exp => "exp"
  | cot => "cot"
  | asin => "asin"
  | acos => "acos"
  | atan => "atan"
  | sinh => "sinh"

/-- Every function, in the order of the help text. -/
def all : List Elementary :=
  [sin, cos, tan, log, sqrt, exp, cot, asin, acos, atan, sinh]

/-- The function of a name in lower case. -/
def ofName? (name : String) : Option Elementary :=
  all.find? (fun f => f.name == name)

end Elementary

/-- A token of an infix or postfix list. -/
inductive Token where
  /-- A literal with its sign, read later by the number system. -/
  | number (text : String)
  /-- A variable, in lower case. -/
  | identifier (name : String)
  | operator (op : Operator)
  | function (f : Elementary)
  | leftParen
  | rightParen
deriving DecidableEq, Repr

namespace Token

/-- The written form. -/
def text : Token → String
  | number literal => literal
  | identifier name => name
  | operator op => op.symbol
  | function f => f.name
  | leftParen => "("
  | rightParen => ")"

/-- A list of tokens on one line, separated by single spaces. -/
def render (tokens : List Token) : String :=
  " ".intercalate (tokens.map text)

end Token

/-- The grammar features a number system accepts. -/
structure Capabilities where
  /-- Literals with a fraction, such as `1.5`. -/
  decimals : Bool
  /-- Named functions, such as `sin(x)`. -/
  functions : Bool
  /-- The operator `^`. -/
  power : Bool
deriving DecidableEq, Repr

namespace Capabilities

/-- The whole grammar. -/
def all : Capabilities := ⟨true, true, true⟩

/-- Whole numbers only. -/
def integer : Capabilities := ⟨false, false, false⟩

end Capabilities

end Abacus
