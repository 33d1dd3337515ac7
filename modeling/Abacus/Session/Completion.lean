/-
Abacus.Session.Completion — completing the word at the cursor.

The word is what stands between the cursor and the last character before it
that no word contains.  Names of commands, functions and variables complete
it; if there is one way only, the rest of it is shown as a hint.
-/
import Abacus.Mode
import Abacus.Session.Command
import Abacus.Text.Offset

namespace Abacus

namespace Completion

/-- The characters of names and commands. -/
def isWordChar (c : Char) : Bool :=
  c.isAlphanum || c = '_' || c = ':'

/-- Where the word that ends a piece of text starts: one byte behind the start
of the last other character. -/
def wordStart (before : List Char) : Nat :=
  match before.reverse.dropWhile isWordChar with
  | [] => 0
  | _ :: rest => byteLength rest + 1

/-- A word and the offset it starts at. -/
structure Word where
  start : Nat
  text : List Char
deriving DecidableEq, Repr

/-- The word that ends at an offset; `none` if the line cannot be cut there,
or not where the word is taken to start. -/
def wordAt? (line : List Char) (position : Nat) : Option Word := do
  let (before, _) ← splitAtByte? position line
  let (_, word) ← splitAtByte? (wordStart before) before
  return ⟨wordStart before, word⟩

/-- The names in a list that start with a word. -/
def startingWith (word : List Char) (names : List String) : List String :=
  names.filter fun name => word.isPrefixOf name.toList

/-- What functions complete to; whole numbers have none. -/
def functionNames (mode : Mode) (word : List Char) : List String :=
  if mode = .integer then []
  else (startingWith word (Elementary.all.map Elementary.name)).map (· ++ "(")

/-- What completes a word: commands for one that starts with a colon,
otherwise functions and variables in any case, in alphabetical order. -/
def candidates (mode : Mode) (names : List String) (word : List Char) : List String :=
  if word.head? = some ':' then startingWith word Command.names
  else
    let folded := lowercase word
    (functionNames mode folded ++ startingWith folded names).mergeSort
      (fun a b => decide (a ≤ b))

/-- The candidates for a word; there are none for numbers or for no word. -/
def complete (mode : Mode) (names : List String) (word : Word) : List String :=
  match word.text with
  | [] => []
  | c :: _ => if c.isDigit then [] else candidates mode names word.text

/-- What the only candidate adds to a word of two characters or more, if it
adds anything. -/
def hint? (mode : Mode) (names : List String) (word : Word) : Option String :=
  if word.text.length < 2 then none
  else
    match candidates mode names word.text with
    | [only] =>
      let rest := only.toList.drop word.text.length
      if rest.isEmpty then none else some (String.ofList rest)
    | _ => none

/-- The hint at a cursor; only a cursor at the end of the line has one. -/
def hintAt? (mode : Mode) (names : List String) (line : List Char) (position : Nat) :
    Option String :=
  if position < byteLength line then none
  else (wordAt? line position).bind (hint? mode names)

/-- A hint as it is shown, dimmed. -/
def dimmed (hint : String) : String :=
  s!"\x1b[90m{hint}\x1b[0m"

end Completion

end Abacus
