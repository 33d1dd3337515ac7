/-
Abacus.Proofs.Syntax.Shape — the token lists that lines are cut into.

A list alternates between two places.  Where an operand is expected stand
opening parentheses, minus signs and functions, then a number or a variable;
where an operator is expected stand closing parentheses and factorials, then
a binary operator or the end.  A function has its parenthesis directly behind
it, and a minus sign a parenthesis, a function or a variable.  Every list the
lexer returns has this shape (`alternates_of_scans`).
-/
import Abacus.Proofs.Syntax.Expression
import Abacus.Proofs.Syntax.Scan

namespace Abacus

/-! ## Texts of tokens -/

/-- A run of digits, at least one. -/
def IsDigits (cs : List Char) : Prop :=
  cs ≠ [] ∧ ∀ c ∈ cs, c.isDigit = true

/-- Digits, and, where fractions are allowed, possibly a point with digits
behind it. -/
inductive IsMagnitude (decimals : Bool) : List Char → Prop
  | whole {cs} : IsDigits cs → IsMagnitude decimals cs
  | fraction {cs ds} : decimals = true → IsDigits cs → IsDigits ds →
      IsMagnitude decimals (cs ++ '.' :: ds)

/-- The text of a number token: a magnitude, possibly with a minus sign. -/
inductive IsLiteral (decimals : Bool) : String → Prop
  | unsigned {cs} : IsMagnitude decimals cs → IsLiteral decimals (String.ofList cs)
  | negative {cs} : IsMagnitude decimals cs → IsLiteral decimals (String.ofList ('-' :: cs))

/-- The name of a variable token: a folded name that no function has. -/
structure IsVariableName (name : String) : Prop where
  folded : IsFoldedName name.toList
  free : ∀ f : Elementary, f.name ≠ name

theorem IsVariableName.isFolded {name : String} (h : IsVariableName name) :
    ∀ c ∈ name.toList, IsFolded c := by
  have hfolded := h.folded
  cases hname : name.toList with
  | nil => exact fun c hc => absurd hc List.not_mem_nil
  | cons c cs =>
    rw [hname] at hfolded
    exact List.forall_mem_cons.2 ⟨.inl hfolded.1, hfolded.2⟩

/-! ## The alternation -/

/-- What may come next in a token list. -/
inductive Place where
  | operand | operator
deriving DecidableEq, Repr

/-- The tokens a minus sign of their own can stand in front of. -/
def Token.TakesSign : Token → Prop
  | leftParen | function _ | identifier _ => True
  | _ => False

/-- The lists that begin in a place and end where an operator is expected. -/
inductive Alternates (caps : Capabilities) : Place → List Token → Prop
  | leftParen {ts} : Alternates caps .operand ts → Alternates caps .operand (.leftParen :: ts)
  | neg {t ts} : t.TakesSign → Alternates caps .operand (t :: ts) →
      Alternates caps .operand (.operator .neg :: t :: ts)
  | function {f ts} : caps.functions = true → Alternates caps .operand (.leftParen :: ts) →
      Alternates caps .operand (.function f :: .leftParen :: ts)
  | number {text ts} : IsLiteral caps.decimals text → Alternates caps .operator ts →
      Alternates caps .operand (.number text :: ts)
  | identifier {name ts} : IsVariableName name → Alternates caps .operator ts →
      Alternates caps .operand (.identifier name :: ts)
  | nil : Alternates caps .operator []
  | rightParen {ts} : Alternates caps .operator ts → Alternates caps .operator (.rightParen :: ts)
  | factorial {ts} : Alternates caps .operator ts →
      Alternates caps .operator (.operator .factorial :: ts)
  | binary {op : BinaryOperator} {ts} : (op = .pow → caps.power = true) →
      Alternates caps .operand ts → Alternates caps .operator (.operator op.operator :: ts)

/-- A token that a number system with these features takes. -/
def Token.Admissible (caps : Capabilities) : Token → Prop
  | number text => IsLiteral caps.decimals text
  | operator op => op = .pow → caps.power = true
  | function _ => caps.functions = true
  | _ => True

theorem Alternates.admissible {caps : Capabilities} {place : Place} {ts : List Token}
    (h : Alternates caps place ts) : ∀ t ∈ ts, t.Admissible caps := by
  induction h with
  | nil => simp
  | leftParen _ ih => exact List.forall_mem_cons.2 ⟨trivial, ih⟩
  | neg _ _ ih => exact List.forall_mem_cons.2 ⟨nofun, ih⟩
  | function hf _ ih => exact List.forall_mem_cons.2 ⟨hf, ih⟩
  | number htext _ ih => exact List.forall_mem_cons.2 ⟨htext, ih⟩
  | identifier _ _ ih => exact List.forall_mem_cons.2 ⟨trivial, ih⟩
  | rightParen _ ih => exact List.forall_mem_cons.2 ⟨trivial, ih⟩
  | factorial _ ih => exact List.forall_mem_cons.2 ⟨nofun, ih⟩
  | @binary op _ hpow _ ih =>
    refine List.forall_mem_cons.2 ⟨fun hop => hpow ?_, ih⟩
    cases op <;> first | rfl | cases hop

/-! ## Every list of the lexer alternates -/

namespace Lexer

/-- The place of a slot: behind a sign an operand is still to come. -/
def Slot.place : Slot → Place
  | operand | signed _ => .operand
  | operator => .operator

theorem Slot.place_eq_operand {slot : Slot} (h : slot ≠ .operator) : slot.place = .operand := by
  cases slot with
  | operator => exact absurd rfl h
  | _ => rfl

theorem exists_binary_of_ofChar? {c : Char} {op : Operator} (h : Operator.ofChar? c = some op) :
    ∃ b : BinaryOperator, op = b.operator := by
  unfold Operator.ofChar? at h
  split at h
  · cases h; exact ⟨.add, rfl⟩
  · cases h; exact ⟨.sub, rfl⟩
  · cases h; exact ⟨.mul, rfl⟩
  · cases h; exact ⟨.mul, rfl⟩
  · cases h; exact ⟨.mul, rfl⟩
  · cases h; exact ⟨.div, rfl⟩
  · cases h; exact ⟨.div, rfl⟩
  · cases h; exact ⟨.pow, rfl⟩
  · cases h

theorem Literal.isMagnitude_canonical {l : Literal} {decimals : Bool} (hl : l.Valid)
    (hd : l.fraction.isSome = true → decimals = true) : IsMagnitude decimals l.canonical := by
  have hzero : IsDigits ['0'] := ⟨by simp, by simp [Char.isDigit]⟩
  have hwhole : IsDigits (if l.whole.isEmpty then ['0'] else l.whole) := by
    split
    · exact hzero
    · next hne => exact ⟨by simpa using hne, hl.whole⟩
  unfold canonical
  dsimp only
  split
  · exact .whole hwhole
  · exact .whole hwhole
  · next digits hne heq =>
    refine .fraction (hd (by rw [heq]; rfl)) hwhole ⟨?_, hl.fraction digits heq⟩
    rintro rfl
    exact hne rfl

theorem Slot.isLiteral_literalText (slot : Slot) {decimals : Bool} {cs : List Char}
    (h : IsMagnitude decimals cs) : IsLiteral decimals (slot.literalText cs) := by
  unfold literalText
  split
  · exact .negative h
  · exact .unsigned h

theorem isVariableName_of_isWord {word : List Char} (h : IsWord word)
    (hf : Elementary.ofName? (String.ofList (lowercase word)) = none) :
    IsVariableName (String.ofList (lowercase word)) := by
  obtain ⟨c, cs, rfl, hc, hcs⟩ := h
  constructor
  case folded =>
    rw [String.toList_ofList]
    refine ⟨by rw [Char.isLower_toLower_eq_isAlpha, hc], ?_⟩
    intro d hd
    obtain ⟨e, he, rfl⟩ := List.mem_map.1 hd
    exact isFolded_toLower (hcs e he)
  case free =>
    intro f
    rw [Elementary.ofName?, List.find?_eq_none] at hf
    have hmem : f ∈ Elementary.all := by cases f <;> decide
    simpa using hf f hmem

/-- A minus sign goes in front of what takes one. -/
theorem Slot.alternates_sign (slot : Slot) {caps : Capabilities} {t : Token} {ts : List Token}
    (ht : t.TakesSign) (h : Alternates caps .operand (t :: ts)) :
    Alternates caps .operand (slot.signTokens ++ t :: ts) := by
  unfold signTokens
  split
  · exact .neg ht h
  · exact h

/-- Where a parenthesis comes next, it is the first token. -/
theorem exists_leftParen_of_scans {caps : Capabilities} {slot : Slot} {cs : List Char}
    {tokens : List Token} (h : Scans caps slot cs tokens) (hslot : slot = .operand)
    (hparen : (trimStart cs).head? = some '(') : ∃ ts, tokens = .leftParen :: ts := by
  have first {c : Char} {rest : List Char} (hb : isBlank c = false)
      (hparen : (trimStart (c :: rest)).head? = some '(') : c = '(' := by
    rw [trimStart, List.dropWhile_cons, hb] at hparen
    simpa using hparen
  induction h with
  | nil => cases hslot
  | blank hb _ ih =>
    refine ih hslot ?_
    rwa [trimStart, List.dropWhile_cons, hb] at hparen
  | rightParen => cases hslot
  | factorial => cases hslot
  | binary => cases hslot
  | leftParen =>
    subst hslot
    exact ⟨_, rfl⟩
  | sign hc =>
    rcases hc with rfl | rfl
    · cases first (by decide) hparen
    · cases first (by decide) hparen
  | number _ hl =>
    obtain ⟨c, cs, hsource, hc⟩ := Literal.exists_source hl
    rw [hsource] at hparen
    cases first (isBlank_of_startsLiteral hc) hparen
    cases hc
  | call _ hword =>
    obtain ⟨c, cs, rfl, hc, _⟩ := hword
    cases first (isBlank_of_isAlpha hc) hparen
    cases hc
  | identifier _ hword =>
    obtain ⟨c, cs, rfl, hc, _⟩ := hword
    cases first (isBlank_of_isAlpha hc) hparen
    cases hc

theorem alternates_of_scans {caps : Capabilities} {slot : Slot} {cs : List Char}
    {tokens : List Token} (h : Scans caps slot cs tokens) : Alternates caps slot.place tokens := by
  induction h with
  | nil => exact .nil
  | blank _ _ ih => exact ih
  | rightParen _ ih => exact .rightParen ih
  | factorial _ ih => exact .factorial ih
  | @binary c cs tokens op hop hpow _ ih =>
    obtain ⟨b, rfl⟩ := exists_binary_of_ofChar? hop
    refine .binary (fun h => hpow ?_) ih
    rw [h]
    rfl
  | leftParen hslot _ ih =>
    rw [Slot.place_eq_operand hslot]
    exact Slot.alternates_sign _ trivial (.leftParen ih)
  | sign _ _ ih => exact ih
  | number hslot hl hcaps _ _ ih =>
    rw [Slot.place_eq_operand hslot]
    exact .number (Slot.isLiteral_literalText _ (Literal.isMagnitude_canonical hl hcaps)) ih
  | call hslot hword _ _ hcaps hparen hrest ih =>
    obtain ⟨ts, rfl⟩ := exists_leftParen_of_scans hrest rfl hparen
    rw [Slot.place_eq_operand hslot]
    exact Slot.alternates_sign _ trivial (.function hcaps ih)
  | identifier hslot hword _ hf _ ih =>
    rw [Slot.place_eq_operand hslot]
    exact Slot.alternates_sign _ trivial (.identifier (isVariableName_of_isWord hword hf) ih)

/-! ## Lengths of literals -/

theorem Literal.length_canonical_le (l : Literal) :
    l.canonical.length ≤ l.source.length + 1 := by
  have hwhole : (if l.whole.isEmpty then ['0'] else l.whole).length ≤ l.whole.length + 1 := by
    split
    · simp
    · omega
  unfold canonical source
  dsimp only
  split
  · next hnone => simpa [hnone] using hwhole
  · next hsome =>
    rw [hsome, List.length_append]
    omega
  · next digits _ hsome =>
    rw [hsome, List.length_append, List.length_append]
    omega

theorem Slot.length_literalText_le (slot : Slot) (cs : List Char) :
    (slot.literalText cs).length ≤ cs.length + 1 := by
  unfold literalText
  split
  · exact (String.length_ofList).le
  · exact (String.length_ofList).trans_le (Nat.le_succ _)

/-- A literal has hardly more characters than it is written with: a sign, and a zero in front of
the point. -/
theorem Reads.length_text_le {caps : Capabilities} {slot next : Slot} {piece rest : List Char}
    {tokens : List Token} (h : Reads caps slot piece rest next tokens) {text : String}
    (ht : .number text ∈ tokens) : text.length ≤ piece.length + 2 := by
  have hsign (slot : Slot) : Token.number text ∉ slot.signTokens := by
    unfold Slot.signTokens
    split <;> simp
  cases h with
  | @number slot l rest =>
    have hcanonical := l.length_canonical_le
    have htext := slot.length_literalText_le l.canonical
    rw [Token.number.inj (List.mem_singleton.1 ht)]
    omega
  | _ => simp [hsign] at ht

theorem Scans.length_text_le {caps : Capabilities} {slot : Slot} {cs : List Char}
    {tokens : List Token} (h : Scans caps slot cs tokens) {text : String}
    (ht : .number text ∈ tokens) : text.length ≤ cs.length + 2 := by
  induction h using Scans.byPieces with
  | nil => cases ht
  | reads hread _ ih =>
    rw [List.length_append]
    rcases List.mem_append.1 ht with hmem | hmem
    · have := hread.length_text_le hmem
      omega
    · have := ih hmem
      omega

end Lexer

theorem alternates_of_tokenize {caps : Capabilities} {line : String} {tokens : List Token}
    (h : tokenize caps line = .ok tokens) : Alternates caps .operand tokens :=
  Lexer.alternates_of_scans (tokenize_eq_ok_iff.1 h)

end Abacus
