/-
Abacus.Session.Assignment — lines of the form `name = expression`.
-/
import Abacus.Text.Blank
import Abacus.Token

namespace Abacus

/-- Why a text cannot be assigned to. -/
inductive NameError where
  | invalid (text : String)
  | function (name : String)
deriving DecidableEq, Repr

/-- The wording of a `NameError`. -/
def NameError.message : NameError → String
  | invalid text => s!"invalid variable name '{text}'"
  | function name => s!"'{name}' is a function name and cannot be assigned"

namespace Assignment

/-- The texts before and behind the first equals sign, if there is one. -/
def split? : List Char → Option (List Char × List Char)
  | [] => none
  | c :: cs =>
    if c = '=' then some ([], cs)
    else (split? cs).map fun (target, expression) => (c :: target, expression)

/-- A letter, and then letters, digits and underscores. -/
def isName : List Char → Bool
  | [] => false
  | c :: cs => c.isAlpha && cs.all (fun c => c.isAlphanum || c = '_')

/-- The name that the text before the equals sign stands for, in lower
case. -/
def name (target : List Char) : Except NameError String :=
  let text := trim target
  let folded := lowercase text
  if !isName folded then .error (.invalid (String.ofList text))
  else if (Elementary.ofName? (String.ofList folded)).isSome then
    .error (.function (String.ofList folded))
  else .ok (String.ofList folded)

end Assignment

end Abacus
