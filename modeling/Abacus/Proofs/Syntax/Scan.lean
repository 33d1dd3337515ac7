/-
Abacus.Proofs.Syntax.Scan — the rules by which a line is cut into tokens.

`Scans` is the lexer as a system of rules: which piece of text is which
token, in which place, and what must follow it.  `Fails` are the lines that
stop at a place behind some pieces.  `scan_eq_ok_iff` and `scan_eq_error_iff`
say that the lexer finds exactly the token lists and the errors the rules
allow; positions matter for errors only.  Later facts about token lists are
inductions over the rules.
-/
import Abacus.Proofs.Syntax.Pieces

namespace Abacus.Lexer

/-! ## The rules -/

/-- `Scans caps slot text tokens`: the tokens of a text that begins in a
place. -/
inductive Scans (caps : Capabilities) : Slot → List Char → List Token → Prop
  | nil : Scans caps .operator [] []
  | blank {slot c cs tokens} : isBlank c = true → Scans caps slot cs tokens →
      Scans caps slot (c :: cs) tokens
  | rightParen {cs tokens} : Scans caps .operator cs tokens →
      Scans caps .operator (')' :: cs) (.rightParen :: tokens)
  | factorial {cs tokens} : Scans caps .operator cs tokens →
      Scans caps .operator ('!' :: cs) (.operator .factorial :: tokens)
  | binary {c cs tokens op} : Operator.ofChar? c = some op →
      (op = .pow → caps.power = true) → Scans caps .operand cs tokens →
      Scans caps .operator (c :: cs) (.operator op :: tokens)
  | leftParen {slot : Slot} {cs tokens} : slot ≠ .operator → Scans caps .operand cs tokens →
      Scans caps slot ('(' :: cs) (slot.signTokens ++ .leftParen :: tokens)
  | sign {c cs tokens} : c = '+' ∨ c = '-' → Scans caps (.signed (c = '-')) cs tokens →
      Scans caps .operand (c :: cs) tokens
  | number {slot : Slot} {l : Literal} {rest tokens} : slot ≠ .operator → l.Valid →
      (l.fraction.isSome = true → caps.decimals = true) → Stops startsLiteral rest →
      Scans caps .operator rest tokens →
      Scans caps slot (l.source ++ rest)
        (.number (slot.literalText l.canonical) :: tokens)
  | call {slot : Slot} {word rest tokens f} : slot ≠ .operator → IsWord word →
      Stops isNameChar rest → Elementary.ofName? (String.ofList (lowercase word)) = some f →
      caps.functions = true → (trimStart rest).head? = some '(' →
      Scans caps .operand rest tokens →
      Scans caps slot (word ++ rest) (slot.signTokens ++ .function f :: tokens)
  | identifier {slot : Slot} {word rest tokens} : slot ≠ .operator → IsWord word →
      Stops isNameChar rest → Elementary.ofName? (String.ofList (lowercase word)) = none →
      Scans caps .operator rest tokens →
      Scans caps slot (word ++ rest)
        (slot.signTokens ++ .identifier (String.ofList (lowercase word)) :: tokens)

/-- `ReadsTo caps slot front rest place tokens`: of a text that begins in a place, the lexer
takes `front` off in pieces, as `tokens`, and comes to `place`, where `rest` follows. -/
inductive ReadsTo (caps : Capabilities) :
    Slot → List Char → List Char → Slot → List Token → Prop
  | nil {slot rest} : ReadsTo caps slot [] rest slot []
  | cons {slot next place piece front rest tokens ts} :
      Reads caps slot piece (front ++ rest) next tokens → ReadsTo caps next front rest place ts →
      ReadsTo caps slot (piece ++ front) rest place (tokens ++ ts)

/-- `Fails caps slot text position e`: a text that begins in a place, at byte `position`,
stops with an error behind the pieces in front. -/
inductive Fails (caps : Capabilities) : Slot → List Char → Nat → LexError → Prop
  | mk {slot place front rest tokens position e} : ReadsTo caps slot front rest place tokens →
      Refuses caps place rest (position + byteLength front) e →
      Fails caps slot (front ++ rest) position e

/-! ## Texts as pieces -/

theorem Reads.scans {caps : Capabilities} {slot next : Slot} {piece rest : List Char}
    {tokens ts : List Token} (h : Reads caps slot piece rest next tokens)
    (hrest : Scans caps next rest ts) : Scans caps slot (piece ++ rest) (tokens ++ ts) := by
  cases h with
  | blank hb => exact .blank hb hrest
  | rightParen => exact .rightParen hrest
  | factorial => exact .factorial hrest
  | binary hop hpow => exact .binary hop hpow hrest
  | leftParen hslot =>
    rw [List.append_assoc]
    exact .leftParen hslot hrest
  | sign hc => exact .sign hc hrest
  | number hslot hl hcaps hstops => exact .number hslot hl hcaps hstops hrest
  | call hslot hword hstops hf hcaps hparen =>
    rw [List.append_assoc]
    exact .call hslot hword hstops hf hcaps hparen hrest
  | identifier hslot hword hstops hf =>
    rw [List.append_assoc]
    exact .identifier hslot hword hstops hf hrest

/-- What holds at the end of a line and of a text behind a piece whenever it holds of the text
behind it holds of every text that has tokens. -/
theorem Scans.byPieces {caps : Capabilities}
    {motive : (slot : Slot) → (cs : List Char) → (ts : List Token) → Scans caps slot cs ts → Prop}
    (nil : motive .operator [] [] .nil)
    (reads : ∀ {slot next piece rest tokens ts} (h : Reads caps slot piece rest next tokens)
      (hrest : Scans caps next rest ts), motive next rest ts hrest →
      motive slot (piece ++ rest) (tokens ++ ts) (h.scans hrest))
    {slot : Slot} {cs : List Char} {ts : List Token} (h : Scans caps slot cs ts) :
    motive slot cs ts h := by
  induction h with
  | nil => exact nil
  | blank hb hrest ih => exact reads (.blank hb) hrest ih
  | rightParen hrest ih => exact reads .rightParen hrest ih
  | factorial hrest ih => exact reads .factorial hrest ih
  | binary hop hpow hrest ih => exact reads (.binary hop hpow) hrest ih
  | leftParen hslot hrest ih => simpa using reads (.leftParen hslot) hrest ih
  | sign hc hrest ih => exact reads (.sign hc) hrest ih
  | number hslot hl hcaps hstops hrest ih => exact reads (.number hslot hl hcaps hstops) hrest ih
  | call hslot hword hstops hf hcaps hparen hrest ih =>
    simpa using reads (.call hslot hword hstops hf hcaps hparen) hrest ih
  | identifier hslot hword hstops hf hrest ih =>
    simpa using reads (.identifier hslot hword hstops hf) hrest ih

theorem ReadsTo.scans {caps : Capabilities} {slot place : Slot} {front rest : List Char}
    {tokens ts : List Token} (h : ReadsTo caps slot front rest place tokens)
    (hrest : Scans caps place rest ts) : Scans caps slot (front ++ rest) (tokens ++ ts) := by
  induction h with
  | nil => exact hrest
  | cons hread _ ih =>
    rw [List.append_assoc, List.append_assoc]
    exact hread.scans (ih hrest)

theorem ReadsTo.congr_rest {caps : Capabilities} {slot place : Slot}
    {front rest rest' : List Char} {tokens : List Token}
    (h : ReadsTo caps slot front rest place tokens) (hlooks : LooksLike rest rest') :
    ReadsTo caps slot front rest' place tokens := by
  induction h with
  | nil => exact .nil
  | cons hread _ ih => exact .cons (hread.congr_rest (hlooks.append_left _)) (ih hlooks)

theorem Fails.behind {caps : Capabilities} {slot next : Slot} {piece rest : List Char}
    {tokens : List Token} {position : Nat} {e : LexError}
    (hread : Reads caps slot piece rest next tokens)
    (h : Fails caps next rest (position + byteLength piece) e) :
    Fails caps slot (piece ++ rest) position e := by
  obtain ⟨hreads, hrefuse⟩ := h
  rw [Nat.add_assoc, ← byteLength_append] at hrefuse
  rw [← List.append_assoc]
  exact ⟨.cons hread hreads, hrefuse⟩

/-! ## The lexer follows the rules -/

theorem scan_of_scans {caps : Capabilities} {slot : Slot} {cs : List Char} {tokens : List Token}
    (h : Scans caps slot cs tokens) (position : Nat) :
    scan caps slot position cs = .ok tokens := by
  induction h using Scans.byPieces generalizing position with
  | nil => rw [scan]; rfl
  | reads hread _ ih => rw [scan_of_reads hread, ih]; rfl

theorem scan_of_readsTo {caps : Capabilities} {slot place : Slot} {front rest : List Char}
    {tokens : List Token} (h : ReadsTo caps slot front rest place tokens) (position : Nat) :
    scan caps slot position (front ++ rest) =
      (scan caps place (position + byteLength front) rest).map (tokens ++ ·) := by
  induction h generalizing position with
  | @nil slot rest =>
    change scan caps slot position rest = _
    cases hscan : scan caps slot position rest <;> simp [byteLength, hscan, Except.map]
  | @cons slot next place piece front rest tokens ts hread _ ih =>
    rw [List.append_assoc, scan_of_reads hread, ih, byteLength_append, Nat.add_assoc]
    cases scan caps place (position + (byteLength piece + byteLength front)) rest <;>
      simp [Except.map]

theorem scan_of_fails {caps : Capabilities} {slot : Slot} {cs : List Char} {position : Nat}
    {e : LexError} (h : Fails caps slot cs position e) : scan caps slot position cs = .error e := by
  obtain ⟨hreads, hrefuse⟩ := h
  rw [scan_of_readsTo hreads, scan_of_refuses hrefuse]
  rfl

/-- Every text has tokens or an error; the induction is on its length, as each piece makes it
shorter. -/
theorem scans_or_fails (caps : Capabilities) (slot : Slot) (cs : List Char) (position : Nat) :
    (∃ ts, Scans caps slot cs ts) ∨ ∃ e, Fails caps slot cs position e := by
  induction hn : cs.length using Nat.strong_induction_on generalizing slot cs position with
  | _ n ih =>
    rcases reads_or_refuses caps slot cs position with ⟨rfl, rfl⟩ | hread | ⟨e, hrefuse⟩
    · exact .inl ⟨[], .nil⟩
    · obtain ⟨piece, rest, next, tokens, rfl, hread⟩ := hread
      have hshorter : rest.length < n := by
        have := List.length_pos_iff.2 hread.piece_ne_nil
        rw [← hn, List.length_append]
        omega
      rcases ih _ hshorter next rest (position + byteLength piece) rfl with ⟨ts, h⟩ | ⟨e, h⟩
      · exact .inl ⟨_, hread.scans h⟩
      · exact .inr ⟨e, .behind hread h⟩
    · exact .inr ⟨e, .mk .nil hrefuse⟩

theorem scan_eq_ok_iff {caps : Capabilities} {slot : Slot} {position : Nat} {cs : List Char}
    {tokens : List Token} :
    scan caps slot position cs = .ok tokens ↔ Scans caps slot cs tokens := by
  refine ⟨fun h => ?_, fun h => scan_of_scans h position⟩
  rcases scans_or_fails caps slot cs position with ⟨ts, hscans⟩ | ⟨e, hfails⟩
  · cases h.symm.trans (scan_of_scans hscans position)
    exact hscans
  · cases h.symm.trans (scan_of_fails hfails)

theorem scan_eq_error_iff {caps : Capabilities} {slot : Slot} {position : Nat} {cs : List Char}
    {e : LexError} :
    scan caps slot position cs = .error e ↔ Fails caps slot cs position e := by
  refine ⟨fun h => ?_, scan_of_fails⟩
  rcases scans_or_fails caps slot cs position with ⟨ts, hscans⟩ | ⟨e, hfails⟩
  · cases h.symm.trans (scan_of_scans hscans position)
  · cases h.symm.trans (scan_of_fails hfails)
    exact hfails

end Abacus.Lexer

namespace Abacus

theorem tokenize_eq_ok_iff {caps : Capabilities} {line : String} {tokens : List Token} :
    tokenize caps line = .ok tokens ↔ Lexer.Scans caps .operand line.toList tokens :=
  Lexer.scan_eq_ok_iff

theorem tokenize_eq_error_iff {caps : Capabilities} {line : String} {e : LexError} :
    tokenize caps line = .error e ↔ Lexer.Fails caps .operand line.toList 0 e :=
  Lexer.scan_eq_error_iff

end Abacus
