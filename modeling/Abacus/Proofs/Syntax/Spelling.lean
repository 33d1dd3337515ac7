/-
Abacus.Proofs.Syntax.Spelling — writing a token list out and reading it back.

Any list that alternates can be written on a line, with blanks between its
tokens, and the lexer reads that line back as the same list.  Together with
`alternates_of_tokenize` this says which token lists there are.

The blanks stand in front of the tokens in `Spaced`, so that the text behind
a token begins with a blank and no literal or name runs on into it.
-/
import Abacus.Proofs.Syntax.Shape

namespace Abacus

/-! ## Lines that write tokens out -/

/-- A run of blanks, possibly none. -/
def Blanks (gap : List Char) : Prop :=
  ∀ c ∈ gap, isBlank c = true

/-- How a token is written; the minus sign of an operand like that between
operands. -/
def Token.spelling : Token → List Char
  | operator .neg => ['-']
  | t => t.text.toList

theorem Token.spelling_number (cs : List Char) :
    (Token.number (String.ofList cs)).spelling = cs :=
  String.toList_ofList

theorem BinaryOperator.exists_spelling (op : BinaryOperator) :
    ∃ c, (Token.operator op.operator).spelling = [c] ∧ Operator.ofChar? c = some op.operator := by
  cases op with
  | add => exact ⟨'+', by decide, rfl⟩
  | sub => exact ⟨'-', by decide, rfl⟩
  | mul => exact ⟨'*', by decide, rfl⟩
  | div => exact ⟨'/', by decide, rfl⟩
  | pow => exact ⟨'^', by decide, rfl⟩

/-- Tokens in order, each behind at least one blank, and possibly blanks at the
end. -/
inductive Spaced : List Token → List Char → Prop
  | nil {gap} : Blanks gap → Spaced [] gap
  | cons {gap t ts cs} : gap ≠ [] → Blanks gap → Spaced ts cs →
      Spaced (t :: ts) (gap ++ (t.spelling ++ cs))

/-- A line of tokens with at least one blank between neighbours, and possibly
blanks in front and at the end. -/
inductive Spells : List Token → String → Prop
  | mk {gap t ts cs} : Blanks gap → Spaced ts cs →
      Spells (t :: ts) (String.ofList (gap ++ (t.spelling ++ cs)))

theorem Spaced.stops {ts : List Token} {cs : List Char} (h : Spaced ts cs) {p : Char → Bool}
    (hp : ∀ c, isBlank c = true → p c = false) : Stops p cs := by
  cases h with
  | @nil gap hgap =>
    intro c hc
    exact hp c (hgap c (List.mem_of_head? hc))
  | @cons gap t ts cs hne hgap _ =>
    cases gap with
    | nil => exact absurd rfl hne
    | cons b gap =>
      rintro _ ⟨⟩
      exact hp b (hgap b List.mem_cons_self)

theorem Spaced.head?_trimStart {ts : List Token} {cs : List Char}
    (h : Spaced (.leftParen :: ts) cs) : (trimStart cs).head? = some '(' := by
  cases h with
  | cons _ hgap _ =>
    rw [trimStart, List.dropWhile_append_of_pos hgap]
    rfl

/-- Every list of tokens can be written out. -/
theorem exists_spaced (ts : List Token) : ∃ cs, Spaced ts cs := by
  induction ts with
  | nil => exact ⟨[], .nil (by simp [Blanks])⟩
  | cons t ts ih =>
    obtain ⟨cs, hcs⟩ := ih
    have hgap : Blanks [' '] := by simp [Blanks, isBlank]
    exact ⟨_, .cons (by simp) hgap hcs⟩

/-! ## Reading literals and names back -/

namespace Lexer

/-- The magnitude of a number token is a literal in its canonical spelling. -/
theorem exists_literal_of_isMagnitude {decimals : Bool} {cs : List Char}
    (h : IsMagnitude decimals cs) :
    ∃ l : Literal, l.Valid ∧ (l.fraction.isSome = true → decimals = true) ∧ l.source = cs ∧
      l.canonical = cs := by
  cases h with
  | @whole cs hcs =>
    refine ⟨⟨cs, none⟩, ⟨hcs.2, by simp, by simpa [Literal.hasDigit] using hcs.1⟩, by simp, rfl, ?_⟩
    simp [Literal.canonical, hcs.1]
  | @fraction cs ds hd hcs hds =>
    refine ⟨⟨cs, some ds⟩, ⟨hcs.2, ?_, by simp [Literal.hasDigit, hcs.1]⟩, fun _ => hd, rfl, ?_⟩
    · rintro _ ⟨⟩
      exact hds.2
    · cases ds with
      | nil => exact absurd rfl hds.1
      | cons d ds => simp [Literal.canonical, hcs.1]

theorem isWord_of_isFoldedName {cs : List Char} (h : IsFoldedName cs) : IsWord cs := by
  cases cs with
  | nil => cases h
  | cons c cs =>
    exact ⟨c, cs, rfl, isAlpha_iff.2 (.inr h.1), fun d hd => isNameChar_of_isFolded (h.2 d hd)⟩

/-- What folds to a name can stand in a line for it. -/
theorem isWord_of_lowercase {cs : List Char} (h : IsFoldedName (lowercase cs)) : IsWord cs := by
  cases cs with
  | nil => cases h
  | cons c cs =>
    refine ⟨c, cs, rfl, by rw [← Char.isLower_toLower_eq_isAlpha, h.1], fun d hd => ?_⟩
    exact isNameChar_of_isFolded_toLower (h.2 _ (List.mem_map_of_mem hd))

theorem isFoldedName_name (f : Elementary) : IsFoldedName f.name.toList := by
  cases f <;> simp [IsFoldedName, IsFolded, Elementary.name, Char.isLower, Char.isDigit]

theorem ofName?_name (f : Elementary) : Elementary.ofName? f.name = some f := by
  cases f <;> rfl

theorem ofName?_of_isVariableName {name : String} (h : IsVariableName name) :
    Elementary.ofName? name = none := by
  rw [Elementary.ofName?, List.find?_eq_none]
  intro f _
  simpa using h.free f

/-! ## Reading a line back -/

theorem Scans.append_blanks {caps : Capabilities} {slot : Slot} {gap cs : List Char}
    {ts : List Token} (hgap : Blanks gap) (h : Scans caps slot cs ts) :
    Scans caps slot (gap ++ cs) ts := by
  induction gap with
  | nil => exact h
  | cons c gap ih =>
    obtain ⟨hc, hgap⟩ := List.forall_mem_cons.1 hgap
    exact .blank hc (ih hgap)

/-- The tokens of a text and of one behind it that goes on with an operator. -/
theorem Scans.append {caps : Capabilities} {slot : Slot} {cs rest : List Char}
    {ts tokens : List Token} (h : Scans caps slot cs ts) (hliteral : Stops startsLiteral rest)
    (hname : Stops isNameChar rest) (hrest : Scans caps .operator rest tokens) :
    Scans caps slot (cs ++ rest) (ts ++ tokens) := by
  induction h with
  | nil => exact hrest
  | blank hb _ ih => exact .blank hb ih
  | rightParen _ ih => exact .rightParen ih
  | factorial _ ih => exact .factorial ih
  | binary hop hpow _ ih => exact .binary hop hpow ih
  | leftParen hslot _ ih =>
    rw [List.append_assoc]
    exact .leftParen hslot ih
  | sign hc _ ih => exact .sign hc ih
  | number hslot hl hcaps hstops _ ih =>
    rw [List.append_assoc]
    exact .number hslot hl hcaps (stops_append hstops hliteral) ih
  | call hslot hword hstops hf hcaps hparen _ ih =>
    rw [List.append_assoc, List.append_assoc]
    exact .call hslot hword (stops_append hstops hname) hf hcaps
      (head?_trimStart_append hparen rest) ih
  | identifier hslot hword hstops hf _ ih =>
    rw [List.append_assoc, List.append_assoc]
    exact .identifier hslot hword (stops_append hstops hname) hf ih

/-- A slot of a place, in which a sign waits for a token that takes it. -/
def Slot.Awaits (slot : Slot) (place : Place) (ts : List Token) : Prop :=
  slot.place = place ∧ ∀ negative, slot = .signed negative → ∀ t ∈ ts.head?, t.TakesSign

theorem Slot.Awaits.eq_operator {slot : Slot} {ts : List Token}
    (h : slot.Awaits .operator ts) : slot = .operator := by
  cases slot with
  | operator => rfl
  | _ => cases h.1

theorem Slot.Awaits.ne_operator {slot : Slot} {ts : List Token}
    (h : slot.Awaits .operand ts) : slot ≠ .operator := by
  rintro rfl
  cases h.1

theorem Slot.Awaits.eq_operand {slot : Slot} {t : Token} {ts : List Token}
    (h : slot.Awaits .operand (t :: ts)) (ht : ¬t.TakesSign) : slot = .operand := by
  cases slot with
  | operand => rfl
  | signed negative => exact absurd (h.2 negative rfl t rfl) ht
  | operator => cases h.1

theorem Slot.awaits_operand (ts : List Token) : Slot.operand.Awaits .operand ts :=
  ⟨rfl, fun _ h => nomatch h⟩

theorem Slot.awaits_operator (ts : List Token) : Slot.operator.Awaits .operator ts :=
  ⟨rfl, fun _ h => nomatch h⟩

/-- A literal is scanned as one number, with the sign that a negative one has in front of it. -/
theorem Scans.literal {caps : Capabilities} {text : String} {rest : List Char} {ts : List Token}
    (htext : IsLiteral caps.decimals text) (hstops : Stops startsLiteral rest)
    (hrest : Scans caps .operator rest ts) :
    Scans caps .operand ((Token.number text).spelling ++ rest) (.number text :: ts) := by
  cases htext with
  | @unsigned ds hds =>
    obtain ⟨l, hl, hcaps, hsource, hcanonical⟩ := exists_literal_of_isMagnitude hds
    have hscan := Scans.number (show Slot.operand ≠ .operator by decide) hl hcaps hstops hrest
    rw [hsource, hcanonical] at hscan
    rw [Token.spelling_number]
    exact hscan
  | @negative ds hds =>
    obtain ⟨l, hl, hcaps, hsource, hcanonical⟩ := exists_literal_of_isMagnitude hds
    have hscan := Scans.number (show Slot.signed true ≠ .operator by decide) hl hcaps hstops hrest
    rw [hsource, hcanonical] at hscan
    rw [Token.spelling_number]
    exact .sign (.inr rfl) hscan

theorem scans_spaced {caps : Capabilities} {place : Place} {ts : List Token}
    (h : Alternates caps place ts) :
    ∀ {slot cs}, slot.Awaits place ts → Spaced ts cs →
      Scans caps slot cs (slot.signTokens ++ ts) := by
  induction h with
  | @leftParen ts _ ih =>
    intro slot cs hslot hs
    cases hs with
    | cons _ hgap hs =>
      exact .append_blanks hgap (.leftParen hslot.ne_operator (ih (Slot.awaits_operand _) hs))
  | @neg t ts ht _ ih =>
    intro slot cs hslot hs
    cases hslot.eq_operand id
    cases hs with
    | cons _ hgap hs =>
      have hwait : (Slot.signed true).Awaits .operand (t :: ts) :=
        ⟨rfl, by rintro _ _ _ ⟨⟩; exact ht⟩
      exact .append_blanks hgap (.sign (.inr rfl) (ih hwait hs))
  | @function f ts hcaps _ ih =>
    intro slot cs hslot hs
    cases hs with
    | cons _ hgap hs =>
      have hname : Elementary.ofName? (String.ofList (lowercase f.name.toList)) = some f := by
        rw [lowercase_of_isFoldedName (isFoldedName_name f), String.ofList_toList, ofName?_name]
      exact .append_blanks hgap (.call hslot.ne_operator
        (isWord_of_isFoldedName (isFoldedName_name f)) (hs.stops fun _ => isNameChar_of_isBlank)
        hname hcaps hs.head?_trimStart (ih (Slot.awaits_operand _) hs))
  | @number text ts htext _ ih =>
    intro slot cs hslot hs
    cases hslot.eq_operand id
    cases hs with
    | cons _ hgap hs =>
      exact .append_blanks hgap (.literal htext (hs.stops fun _ => startsLiteral_of_isBlank)
        (ih (Slot.awaits_operator _) hs))
  | @identifier name ts hname _ ih =>
    intro slot cs hslot hs
    cases hs with
    | cons _ hgap hs =>
      have hfolded := lowercase_of_isFoldedName hname.folded
      have hscan := Scans.identifier hslot.ne_operator (isWord_of_isFoldedName hname.folded)
        (hs.stops fun _ => isNameChar_of_isBlank)
        (by rw [hfolded, String.ofList_toList, ofName?_of_isVariableName hname])
        (ih (Slot.awaits_operator _) hs)
      rw [hfolded, String.ofList_toList] at hscan
      exact .append_blanks hgap hscan
  | nil =>
    intro slot cs hslot hs
    cases hslot.eq_operator
    cases hs with
    | nil hgap =>
      have hnil : Scans caps .operator [] [] := .nil
      have hscan := hnil.append_blanks hgap
      rwa [List.append_nil] at hscan
  | rightParen _ ih =>
    intro slot cs hslot hs
    cases hslot.eq_operator
    cases hs with
    | cons _ hgap hs =>
      exact .append_blanks hgap (.rightParen (ih (Slot.awaits_operator _) hs))
  | factorial _ ih =>
    intro slot cs hslot hs
    cases hslot.eq_operator
    cases hs with
    | cons _ hgap hs =>
      exact .append_blanks hgap (.factorial (ih (Slot.awaits_operator _) hs))
  | @binary op ts hpow _ ih =>
    intro slot cs hslot hs
    cases hslot.eq_operator
    cases hs with
    | cons _ hgap hs =>
      obtain ⟨c, hc, hop⟩ := op.exists_spelling
      have hcaps : op.operator = .pow → caps.power = true := by
        intro h
        exact hpow (by cases op <;> first | rfl | cases h)
      rw [hc]
      exact .append_blanks hgap (.binary hop hcaps (ih (Slot.awaits_operand _) hs))

end Lexer

theorem tokenize_of_spells {caps : Capabilities} {ts : List Token} {line : String}
    (h : Alternates caps .operand ts) (hs : Spells ts line) : tokenize caps line = .ok ts := by
  cases hs with
  | @mk gap t ts cs hgap hs =>
    -- a blank in front makes the first token like the others
    have hfirst : Spaced (t :: ts) (' ' :: gap ++ (t.spelling ++ cs)) :=
      .cons (by simp) (List.forall_mem_cons.2 ⟨by decide, hgap⟩) hs
    have hscan := Lexer.scans_spaced h (Lexer.Slot.awaits_operand _) hfirst
    rw [List.cons_append, ← @Lexer.scan_eq_ok_iff _ _ 0, Lexer.scan,
      if_pos (by decide), Lexer.scan_eq_ok_iff] at hscan
    rw [tokenize_eq_ok_iff, String.toList_ofList]
    exact hscan

/-- Two lines with an operator between them that is in no literal or name. -/
theorem tokenize_between {caps : Capabilities} {before behind : String} {ts us : List Token}
    {c : Char} {op : Operator} (hop : Operator.ofChar? c = some op)
    (hpow : op = .pow → caps.power = true) (hliteral : Lexer.startsLiteral c = false)
    (hname : Lexer.isNameChar c = false) (hbefore : tokenize caps before = .ok ts)
    (hbehind : tokenize caps behind = .ok us) :
    tokenize caps (before ++ String.singleton c ++ behind) = .ok (ts ++ .operator op :: us) := by
  rw [tokenize_eq_ok_iff] at hbefore hbehind ⊢
  have hstops {p : Char → Bool} (hc : p c = false) : Stops p (c :: behind.toList) := by
    rintro _ ⟨⟩
    exact hc
  rw [String.toList_append, String.toList_append, String.toList_singleton, List.append_assoc,
    List.singleton_append]
  exact hbefore.append (hstops hliteral) (hstops hname) (.binary hop hpow hbehind)

/-- The lexer returns exactly the lists that alternate, and reads such a list
back from every line that writes it out with blanks between the tokens. -/
theorem tokenize_image_and_round_trip (caps : Capabilities) (ts : List Token) :
    ((∃ line, tokenize caps line = .ok ts) ↔ Alternates caps .operand ts) ∧
      ∀ line, Alternates caps .operand ts → Spells ts line → tokenize caps line = .ok ts := by
  refine ⟨⟨?image, ?onto⟩, ?back⟩
  case image =>
    rintro ⟨line, h⟩
    exact alternates_of_tokenize h
  case onto =>
    intro h
    cases ts with
    | nil => cases h
    | cons t ts =>
      obtain ⟨cs, hcs⟩ := exists_spaced ts
      have hgap : Blanks [] := by simp [Blanks]
      exact ⟨_, tokenize_of_spells h (.mk hgap hcs)⟩
  case back =>
    intro line
    exact tokenize_of_spells

end Abacus
