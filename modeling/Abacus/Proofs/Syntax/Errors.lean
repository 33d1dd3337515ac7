/-
Abacus.Proofs.Syntax.Errors — where a line stops, and why.

Behind a piece the lexer looks no further than to the first character that is no
blank.  So a line stops at an unexpected character whatever follows it, at a
malformed number where that begins, and at the end only if an operand is missing
there (`errors_point_at_culprit`).
-/
import Abacus.Proofs.Syntax.Scan
import Mathlib

namespace Abacus

namespace Lexer

/-! ## Lines that end too early -/

/-- What is read at the end of a line, where an operand must follow, is read before any text:
only what an operator follows could have gone on. -/
theorem Reads.of_end {caps : Capabilities} {slot next : Slot} {piece : List Char}
    {tokens : List Token} (h : Reads caps slot piece [] next tokens) (hnext : next ≠ .operator)
    (rest : List Char) : Reads caps slot piece rest next tokens := by
  cases h with
  | blank hb => exact .blank hb
  | binary hop hpow => exact .binary hop hpow
  | leftParen hslot => exact .leftParen hslot
  | sign hc => exact .sign hc
  | call _ _ _ _ _ hparen => cases hparen
  | rightParen => exact absurd rfl hnext
  | factorial => exact absurd rfl hnext
  | number => exact absurd rfl hnext
  | identifier => exact absurd rfl hnext

theorem ReadsTo.of_end {caps : Capabilities} {slot place : Slot} {front : List Char}
    {tokens : List Token} (h : ReadsTo caps slot front [] place tokens)
    (hplace : place ≠ .operator) (rest : List Char) :
    ReadsTo caps slot front rest place tokens := by
  generalize hend : [] = behind at h
  induction h with
  | nil => exact .nil
  | @cons slot next place piece front behind tokens ts hread hreads ih =>
    subst hend
    rw [List.append_nil] at hread
    refine .cons ?_ (ih hplace rfl)
    cases hreads with
    | nil => exact hread.of_end hplace rest
    | cons hread' _ =>
      exact hread.congr_rest (looksLike_append (by simp [hread'.piece_ne_nil]) rest)

/-- Where an operand is expected, a digit ends the line well. -/
theorem scans_digit (caps : Capabilities) {slot : Slot} (hslot : slot ≠ .operator) :
    ∃ ts, Scans caps slot ['1'] ts := by
  have hl : Literal.Valid ⟨['1'], none⟩ := ⟨by simp [Char.isDigit], by simp, rfl⟩
  exact ⟨_, .number hslot hl (by simp) (stops_nil _) .nil⟩

/-! ## The errors -/

/-- An unexpected character is refused whatever follows it. -/
theorem Refuses.of_unexpectedChar {caps : Capabilities} {slot : Slot} {cs : List Char}
    {position p : Nat} {c : Char} (h : Refuses caps slot cs position (.unexpectedChar c p)) :
    p = position ∧ isBlank c = false ∧ (∃ rest, cs = c :: rest) ∧
      ∀ rest, Refuses caps slot (c :: rest) position (.unexpectedChar c position) := by
  cases h with
  | operator hb hparen hbang hop =>
    exact ⟨rfl, hb, ⟨_, rfl⟩, fun _ => .operator hb hparen hbang hop⟩
  | operand hslot hb hparen hsign hliteral halpha =>
    exact ⟨rfl, hb, ⟨_, rfl⟩, fun _ => .operand hslot hb hparen hsign hliteral halpha⟩
  | literal _ _ hcheck => rcases checkLiteral_error hcheck with h | h <;> cases h
  | call _ _ _ _ hcheck => rcases checkCall_error hcheck with h | h <;> cases h

theorem Refuses.of_malformedNumber {caps : Capabilities} {slot : Slot} {cs : List Char}
    {position p : Nat} (h : Refuses caps slot cs position (.malformedNumber p)) :
    p = position ∧ ∃ c rest, cs = c :: rest ∧ startsLiteral c = true := by
  cases h with
  | literal _ hc hcheck =>
    rcases checkLiteral_error hcheck with h | h
    · cases h
      exact ⟨rfl, _, _, rfl, hc⟩
    · cases h
  | call _ _ _ _ hcheck => rcases checkCall_error hcheck with h | h <;> cases h

theorem Refuses.of_unexpectedEnd {caps : Capabilities} {slot : Slot} {cs : List Char}
    {position : Nat} (h : Refuses caps slot cs position .unexpectedEnd) :
    slot ≠ .operator ∧ cs = [] := by
  cases h with
  | ending hslot => exact ⟨hslot, rfl⟩
  | literal _ _ hcheck => rcases checkLiteral_error hcheck with h | h <;> cases h
  | call _ _ _ _ hcheck => rcases checkCall_error hcheck with h | h <;> cases h

theorem Fails.of_unexpectedChar {caps : Capabilities} {slot : Slot} {cs : List Char}
    {position p : Nat} {c : Char} (h : Fails caps slot cs position (.unexpectedChar c p)) :
    isBlank c = false ∧ ∃ front rest, cs = front ++ c :: rest ∧ p = position + byteLength front ∧
      ∀ behind, Fails caps slot (front ++ c :: behind) position (.unexpectedChar c p) := by
  cases h with
  | @mk _ front _ _ _ _ hreads hrefuse =>
    obtain ⟨rfl, hc, ⟨rest, rfl⟩, hany⟩ := hrefuse.of_unexpectedChar
    refine ⟨hc, front, rest, rfl, rfl, fun behind => ?_⟩
    exact ⟨hreads.congr_rest (looksLike_cons hc rest behind), hany behind⟩

theorem Fails.of_malformedNumber {caps : Capabilities} {slot : Slot} {cs : List Char}
    {position p : Nat} (h : Fails caps slot cs position (.malformedNumber p)) :
    ∃ front c rest, cs = front ++ c :: rest ∧ p = position + byteLength front ∧
      startsLiteral c = true := by
  cases h with
  | @mk _ front _ _ _ _ hreads hrefuse =>
    obtain ⟨rfl, c, rest, rfl, hc⟩ := hrefuse.of_malformedNumber
    exact ⟨front, c, rest, rfl, rfl, hc⟩

/-- A line that ends too early lacks one operand only. -/
theorem Fails.of_unexpectedEnd {caps : Capabilities} {slot : Slot} {cs : List Char}
    {position : Nat} (h : Fails caps slot cs position .unexpectedEnd) :
    ∃ ts, Scans caps slot (cs ++ ['1']) ts := by
  obtain ⟨hreads, hrefuse⟩ := h
  obtain ⟨hplace, rfl⟩ := hrefuse.of_unexpectedEnd
  obtain ⟨ts, hdigit⟩ := scans_digit caps hplace
  rw [List.append_nil]
  exact ⟨_, (hreads.of_end hplace ['1']).scans hdigit⟩

end Lexer

/-! ## Lines -/

theorem byteLength_eq (cs : List Char) : byteLength cs = (String.ofList cs).utf8ByteSize := by
  rw [String.utf8ByteSize_ofList]
  induction cs with
  | nil => rfl
  | cons c cs ih => rw [byteLength, String.utf8Len_cons, ih, Nat.add_comm]

/-- A line stops at an unexpected character that is no blank, at the byte where the character
begins, and so does every line that begins in the same way up to there.  It stops at a malformed
number where a digit or a point stands.  Where it ends too early, one digit more makes it a line
with tokens. -/
theorem errors_point_at_culprit (caps : Capabilities) (line : String) :
    (∀ c position, tokenize caps line = .error (.unexpectedChar c position) →
      isBlank c = false ∧ ∃ before behind : String,
        line = before ++ String.singleton c ++ behind ∧ position = before.utf8ByteSize ∧
          ∀ other : String, tokenize caps (before ++ String.singleton c ++ other) =
            .error (.unexpectedChar c position)) ∧
    (∀ position, tokenize caps line = .error (.malformedNumber position) →
      ∃ (before behind : String) (c : Char),
        line = before ++ String.singleton c ++ behind ∧ position = before.utf8ByteSize ∧
          (c.isDigit = true ∨ c = '.')) ∧
    (tokenize caps line = .error .unexpectedEnd →
      ∃ ts, tokenize caps (line ++ "1") = .ok ts) := by
  have hline {front rest : List Char} {c : Char} (h : line.toList = front ++ c :: rest) :
      line = String.ofList front ++ String.singleton c ++ String.ofList rest := by
    rw [← String.ofList_toList (s := line), h, String.append_assoc, String.ofList_append,
      String.ofList_cons]
  refine ⟨fun c position h => ?unexpectedChar, fun position h => ?malformedNumber,
    fun h => ?unexpectedEnd⟩
  case unexpectedChar =>
    obtain ⟨hc, front, rest, htext, hposition, hany⟩ :=
      (tokenize_eq_error_iff.1 h).of_unexpectedChar
    rw [Nat.zero_add, byteLength_eq] at hposition
    refine ⟨hc, String.ofList front, String.ofList rest, hline htext, hposition,
      fun other => ?_⟩
    rw [tokenize_eq_error_iff, String.append_assoc, String.toList_append, String.toList_append,
      String.toList_singleton, String.toList_ofList]
    exact hany other.toList
  case malformedNumber =>
    obtain ⟨front, c, rest, htext, hposition, hc⟩ :=
      (tokenize_eq_error_iff.1 h).of_malformedNumber
    rw [Nat.zero_add, byteLength_eq] at hposition
    exact ⟨String.ofList front, String.ofList rest, c, hline htext, hposition,
      startsLiteral_iff.1 hc⟩
  case unexpectedEnd =>
    obtain ⟨ts, hts⟩ := (tokenize_eq_error_iff.1 h).of_unexpectedEnd
    refine ⟨ts, tokenize_eq_ok_iff.2 ?_⟩
    rwa [String.toList_append]

/-- A letter that is no operator stands behind a blank of two bytes, a number has two points,
and a call lacks its argument. -/
theorem errors_point_at_culprit_wide_blank :
    (tokenize .all "2\u00a0\u00e9" = .error (.unexpectedChar '\u00e9' 3) ∧
      ∃ before behind : String, "2\u00a0\u00e9" = before ++ String.singleton '\u00e9' ++ behind ∧
        3 = before.utf8ByteSize ∧ ∀ other : String,
          tokenize .all (before ++ String.singleton '\u00e9' ++ other) =
            .error (.unexpectedChar '\u00e9' 3)) ∧
    (tokenize .all "2 - 1.5.5" = .error (.malformedNumber 4) ∧
      ∃ (before behind : String) (c : Char),
        "2 - 1.5.5" = before ++ String.singleton c ++ behind ∧ 4 = before.utf8ByteSize ∧
          (c.isDigit = true ∨ c = '.')) ∧
    (tokenize .all "sin (" = .error .unexpectedEnd ∧
      ∃ ts, tokenize .all ("sin (" ++ "1") = .ok ts) := by
  have hchar : tokenize .all "2\u00a0\u00e9" = .error (.unexpectedChar '\u00e9' 3) := by
    decide +kernel
  have hnumber : tokenize .all "2 - 1.5.5" = .error (.malformedNumber 4) := by
    decide +kernel
  have hend : tokenize .all "sin (" = .error .unexpectedEnd := by
    decide +kernel
  exact ⟨⟨hchar, ((errors_point_at_culprit .all _).1 _ _ hchar).2⟩,
    ⟨hnumber, (errors_point_at_culprit .all _).2.1 _ hnumber⟩,
    ⟨hend, (errors_point_at_culprit .all _).2.2 hend⟩⟩

end Abacus
