/-
Abacus.Text.Grapheme — cutting a text into user-perceived characters.

The text is cut between any two neighbours that no rule keeps together: a
letter stays with its marks, a flag is a pair of regional letters, pictographs
stay together across a joiner.  The rules are those of extended grapheme
clusters.  Nothing is lost: the graphemes of a text join to the text.
-/
import Abacus.Text.GraphemeClass

namespace Abacus

namespace Grapheme

/-- The letters of Hangul join as they do within a syllable. -/
def joinsSyllable : GraphemeClass → GraphemeClass → Bool
  | .leadingJamo, .leadingJamo | .leadingJamo, .vowelJamo
  | .leadingJamo, .openSyllable | .leadingJamo, .closedSyllable
  | .openSyllable, .vowelJamo | .openSyllable, .trailingJamo
  | .vowelJamo, .vowelJamo | .vowelJamo, .trailingJamo
  | .closedSyllable, .trailingJamo | .trailingJamo, .trailingJamo => true
  | _, _ => false

/-- A grapheme so far, its last character first, ends with a consonant and
marks, of which one is a virama. -/
def endsWithVirama (before : List Char) : Bool :=
  (before.takeWhile isConjunctMark).any isVirama &&
    ((before.dropWhile isConjunctMark).head?.map GraphemeClass.of) == some .conjunctConsonant

/-- A grapheme so far, its last character first, ends with a pictograph and
marks. -/
def endsWithPictograph (before : List Char) : Bool :=
  let base := before.dropWhile (GraphemeClass.of · == .extend)
  base.head?.map GraphemeClass.of == some .pictograph

/-- A grapheme so far, its last character first, ends with a regional letter
that has no partner. -/
def endsWithHalfFlag (before : List Char) : Bool :=
  (before.takeWhile (GraphemeClass.of · == .regional)).length % 2 == 1

/-- A grapheme so far, which ends with `last` after `before`, goes on with the
next character. -/
def goesOn (last : Char) (before : List Char) (next : Char) : Bool :=
  let lastClass := GraphemeClass.of last
  let nextClass := GraphemeClass.of next
  if lastClass = .carriageReturn && nextClass = .lineFeed then true
  else if lastClass.standsAlone || nextClass.standsAlone then false
  else if joinsSyllable lastClass nextClass then true
  else
    match nextClass with
    | .extend | .joiner | .spacing => true
    | .conjunctConsonant => lastClass = .prepended || endsWithVirama (last :: before)
    | .pictograph =>
      lastClass = .prepended || (lastClass = .joiner && endsWithPictograph before)
    | .regional => lastClass = .prepended || endsWithHalfFlag (last :: before)
    | _ => lastClass = .prepended

/-- The graphemes of a text after a grapheme so far, which ends with `last`
after `before`. -/
def cutFrom (last : Char) (before : List Char) : List Char → List (List Char)
  | [] => [(last :: before).reverse]
  | c :: cs =>
    if goesOn last before c then cutFrom c (last :: before) cs
    else (last :: before).reverse :: cutFrom c [] cs

/-- The graphemes of a text. -/
def cut : List Char → List (List Char)
  | [] => []
  | c :: cs => cutFrom c [] cs

theorem flatten_cutFrom (last : Char) (before cs : List Char) :
    (cutFrom last before cs).flatten = (last :: before).reverse ++ cs := by
  induction cs generalizing last before with
  | nil => simp [cutFrom]
  | cons c cs ih =>
    unfold cutFrom
    split <;> simp [ih]

/-- The graphemes of a text join to the text. -/
@[simp] theorem flatten_cut (cs : List Char) : (cut cs).flatten = cs := by
  cases cs with
  | nil => rfl
  | cons c cs => simp [cut, flatten_cutFrom]

end Grapheme

end Abacus
