/-
Abacus.Proofs.Syntax.Variants — lines that differ in case or in blanks.

Folding a line to lower case folds its pieces and leaves their tokens as they are, and
the line stops where it did.  Blanks may be put in wherever they do not fall into a
literal or a name; there the characters on both sides could belong to the same piece
(`Joins`).
-/
import Abacus.Proofs.Syntax.Spelling

namespace Abacus

/-! ## Characters in lower case -/

/-- What is the same for all letters does not depend on their case. -/
theorem apply_toLower {α : Type} {f : Char → α} {a : α} (h : ∀ c, c.isAlpha = true → f c = a)
    (c : Char) : f c.toLower = f c := by
  by_cases hu : c.isUpper = true
  · have halpha : c.isAlpha = true := isAlpha_iff.2 (.inl hu)
    rw [h c halpha, h c.toLower (by rwa [Char.isAlpha_toLower_eq_isAlpha])]
  · rw [Char.toLower_eq_of_not_isUpper hu]

theorem isBlank_toLower (c : Char) : isBlank c.toLower = isBlank c :=
  apply_toLower (fun _ => isBlank_of_isAlpha) c

theorem isNameChar_toLower (c : Char) : Lexer.isNameChar c.toLower = Lexer.isNameChar c :=
  apply_toLower (fun _ h => isNameChar_iff.2 (.inl h)) c

theorem startsLiteral_toLower (c : Char) :
    Lexer.startsLiteral c.toLower = Lexer.startsLiteral c :=
  apply_toLower (fun _ => startsLiteral_of_isAlpha) c

theorem toLower_eq_iff {d : Char} (hd : d.isAlpha = false) (c : Char) :
    c.toLower = d ↔ c = d := by
  have hne : ∀ c : Char, c.isAlpha = true → (c = d) = False := by
    intro c hc
    refine eq_false ?_
    rintro rfl
    cases hc.symm.trans hd
  rw [apply_toLower (f := fun c => c = d) hne]

theorem toLower_of_startsLiteral {c : Char} (h : Lexer.startsLiteral c = true) :
    c.toLower = c := by
  apply Char.toLower_eq_of_not_isUpper
  intro hu
  cases h.symm.trans (startsLiteral_of_isAlpha (isAlpha_iff.2 (.inl hu)))

theorem utf8Size_toLower (c : Char) : c.toLower.utf8Size = c.utf8Size := by
  refine apply_toLower (a := 1) (fun c hc => ?_) c
  have hsmall : c.toNat ≤ 127 := by
    rw [isAlpha_iff, isUpper_iff, isLower_iff] at hc
    omega
  exact Char.utf8Size_eq_one_iff.2 (by simpa [UInt32.le_iff_toNat_le] using hsmall)

/-- Of the letters only `x` is an operator, in both cases. -/
theorem ofChar?_toLower (c : Char) : Operator.ofChar? c.toLower = Operator.ofChar? c := by
  by_cases hu : c.isUpper = true
  · obtain ⟨hlow, hhigh⟩ := isUpper_iff.1 hu
    rw [← Char.ofNat_toNat c]
    interval_cases c.toNat <;> rfl
  · rw [Char.toLower_eq_of_not_isUpper hu]

/-! ## Texts in lower case -/

theorem lowercase_cons (c : Char) (cs : List Char) :
    lowercase (c :: cs) = c.toLower :: lowercase cs := rfl

theorem lowercase_append (cs ds : List Char) :
    lowercase (cs ++ ds) = lowercase cs ++ lowercase ds :=
  List.map_append

theorem lowercase_lowercase (cs : List Char) : lowercase (lowercase cs) = lowercase cs := by
  rw [lowercase, lowercase, List.map_map]
  exact List.map_congr_left fun c _ => Char.toLower_toLower_eq_toLower c

theorem lowercase_of_startsLiteral {cs : List Char}
    (h : ∀ c ∈ cs, Lexer.startsLiteral c = true) : lowercase cs = cs := by
  calc cs.map Char.toLower
      _ = cs.map id := List.map_congr_left fun c hc => toLower_of_startsLiteral (h c hc)
      _ = cs := List.map_id cs

theorem byteLength_lowercase (cs : List Char) : byteLength (lowercase cs) = byteLength cs := by
  induction cs with
  | nil => rfl
  | cons c cs ih => rw [lowercase_cons, byteLength, byteLength, ih, utf8Size_toLower]

theorem head?_lowercase (cs : List Char) : (lowercase cs).head? = cs.head?.map Char.toLower :=
  List.head?_map

/-- A class that does not depend on the case of letters ends where it did. -/
theorem stops_lowercase {p : Char → Bool} (hp : ∀ c, p c.toLower = p c) {rest : List Char}
    (h : Stops p rest) : Stops p (lowercase rest) := by
  intro c hc
  rw [head?_lowercase, Option.mem_def, Option.map_eq_some_iff] at hc
  obtain ⟨d, hd, rfl⟩ := hc
  rw [hp, h d hd]

theorem dropWhile_lowercase {p : Char → Bool} (hp : ∀ c, p c.toLower = p c) (cs : List Char) :
    (lowercase cs).dropWhile p = lowercase (cs.dropWhile p) := by
  have hcomp : p ∘ Char.toLower = p := funext hp
  rw [lowercase, List.dropWhile_map, hcomp]
  rfl

theorem takeWhile_lowercase {p : Char → Bool} (hp : ∀ c, p c.toLower = p c) (cs : List Char) :
    (lowercase cs).takeWhile p = lowercase (cs.takeWhile p) := by
  have hcomp : p ∘ Char.toLower = p := funext hp
  rw [lowercase, List.takeWhile_map, hcomp]
  rfl

/-- A character other than a letter is next in the folded text where it was next before. -/
theorem head?_lowercase_eq_iff {d : Char} (hd : d.isAlpha = false) (cs : List Char) :
    (lowercase cs).head? = some d ↔ cs.head? = some d := by
  rw [head?_lowercase]
  cases cs with
  | nil => rfl
  | cons c cs =>
    rw [List.head?_cons, Option.map_some, Option.some.injEq, Option.some.injEq,
      toLower_eq_iff hd]

theorem head?_trimStart_lowercase (cs : List Char) :
    (trimStart (lowercase cs)).head? = some '(' ↔ (trimStart cs).head? = some '(' := by
  rw [trimStart, dropWhile_lowercase isBlank_toLower, head?_lowercase_eq_iff (by decide), trimStart]

/-! ## Lines in lower case -/

/-- The same error in the folded line: the unexpected character is folded too. -/
def LexError.lowercase : LexError → LexError
  | unexpectedChar c position => unexpectedChar c.toLower position
  | e => e

namespace Lexer

theorem isWord_lowercase {word : List Char} (h : IsWord word) : IsWord (lowercase word) := by
  obtain ⟨c, cs, rfl, hc, hcs⟩ := h
  refine ⟨c.toLower, lowercase cs, rfl, by rwa [Char.isAlpha_toLower_eq_isAlpha], fun d hd => ?_⟩
  obtain ⟨b, hb, rfl⟩ := List.mem_map.1 hd
  rw [isNameChar_toLower]
  exact hcs b hb

theorem isDigit_toLower (c : Char) : c.toLower.isDigit = c.isDigit := by
  refine apply_toLower (a := false) (fun c hc => ?_) c
  have hliteral := startsLiteral_of_isAlpha hc
  rw [startsLiteral, Bool.or_eq_false_iff] at hliteral
  exact hliteral.1

theorem lowercase_takeWhile_isDigit (cs : List Char) :
    lowercase (cs.takeWhile Char.isDigit) = cs.takeWhile Char.isDigit :=
  lowercase_of_startsLiteral fun c hc =>
    startsLiteral_iff.2 (.inl (Literal.isDigit_of_mem_takeWhile c hc))

/-- The literal in front of a text has no letters. -/
theorem Literal.scan_lowercase {c : Char} (hc : startsLiteral c = true) (cs : List Char) :
    Literal.scan c.toLower (lowercase cs) =
      ((Literal.scan c cs).1, lowercase (Literal.scan c cs).2) := by
  rw [toLower_of_startsLiteral hc]
  unfold Literal.scan
  rw [takeWhile_lowercase isDigit_toLower, dropWhile_lowercase isDigit_toLower,
    lowercase_takeWhile_isDigit]
  split
  · rfl
  · cases hdrop : cs.dropWhile Char.isDigit with
    | nil => rfl
    | cons d ds =>
      rw [lowercase_cons]
      by_cases hpoint : d = '.'
      · subst hpoint
        simp [takeWhile_lowercase isDigit_toLower, dropWhile_lowercase isDigit_toLower,
          lowercase_takeWhile_isDigit]
      · have hfolded : d.toLower ≠ '.' := by rwa [Ne, toLower_eq_iff (by decide)]
        simp [hpoint, hfolded, lowercase_cons]

theorem Reads.lowercase {caps : Capabilities} {slot next : Slot} {piece rest : List Char}
    {tokens : List Token} (h : Reads caps slot piece rest next tokens) :
    Reads caps slot (lowercase piece) (lowercase rest) next tokens := by
  have hname {word : List Char} {found : Option Elementary}
      (h : Elementary.ofName? (String.ofList (Abacus.lowercase word)) = found) :
      Elementary.ofName? (String.ofList (Abacus.lowercase (Abacus.lowercase word))) = found := by
    rwa [lowercase_lowercase]
  cases h with
  | blank hb => exact .blank (by rwa [isBlank_toLower])
  | rightParen => exact .rightParen
  | factorial => exact .factorial
  | binary hop hpow => exact .binary (by rwa [ofChar?_toLower]) hpow
  | leftParen hslot => exact .leftParen hslot
  | sign hc =>
    rcases hc with rfl | rfl
    · exact .sign (.inl rfl)
    · exact .sign (.inr rfl)
  | number hslot hl hcaps hstops =>
    rw [lowercase_of_startsLiteral hl.startsLiteral_of_mem]
    exact .number hslot hl hcaps (stops_lowercase startsLiteral_toLower hstops)
  | call hslot hword hstops hf hcaps hparen =>
    exact .call hslot (isWord_lowercase hword) (stops_lowercase isNameChar_toLower hstops)
      (hname hf) hcaps ((head?_trimStart_lowercase _).2 hparen)
  | identifier hslot hword hstops hf =>
    have hread : Reads caps slot (Abacus.lowercase piece) _ _ _ :=
      .identifier hslot (isWord_lowercase hword) (stops_lowercase isNameChar_toLower hstops)
        (hname hf)
    rwa [lowercase_lowercase] at hread

theorem checkLiteral_lowercase (caps : Capabilities) (position : Nat) (l : Literal)
    (rest : List Char) :
    checkLiteral caps position l (lowercase rest) = checkLiteral caps position l rest := by
  unfold checkLiteral
  simp only [head?_lowercase_eq_iff (show '.'.isAlpha = false by decide)]

theorem checkCall_lowercase (caps : Capabilities) (name : String) (rest : List Char) :
    checkCall caps name (lowercase rest) = checkCall caps name rest := by
  unfold checkCall
  simp only [ne_eq, head?_trimStart_lowercase]

theorem Refuses.lowercase {caps : Capabilities} {slot : Slot} {cs : List Char} {position : Nat}
    {e : LexError} (h : Refuses caps slot cs position e) :
    Refuses caps slot (lowercase cs) position e.lowercase := by
  cases h with
  | ending hslot => exact .ending hslot
  | operator hb hparen hbang hop =>
    exact .operator (by rwa [isBlank_toLower]) (by rwa [Ne, toLower_eq_iff (by decide)])
      (by rwa [Ne, toLower_eq_iff (by decide)]) (by rwa [ofChar?_toLower])
  | power hop hpow => exact .power (by rwa [ofChar?_toLower]) hpow
  | operand hslot hb hparen hsign hliteral halpha =>
    refine .operand hslot (by rwa [isBlank_toLower]) (by rwa [Ne, toLower_eq_iff (by decide)])
      ?_ (by rwa [startsLiteral_toLower]) (by rwa [Char.isAlpha_toLower_eq_isAlpha])
    rwa [toLower_eq_iff (by decide), toLower_eq_iff (by decide)]
  | @literal slot c cs position e hslot hc hcheck =>
    have hsame : e.lowercase = e := by
      rcases checkLiteral_error hcheck with rfl | rfl <;> rfl
    rw [hsame, lowercase_cons]
    refine .literal hslot (by rwa [startsLiteral_toLower]) ?_
    rwa [Literal.scan_lowercase hc, checkLiteral_lowercase]
  | @call slot word rest position f e hslot hword hstops hf hcheck =>
    have hsame : e.lowercase = e := by
      rcases checkCall_error hcheck with rfl | rfl <;> rfl
    rw [hsame, lowercase_append]
    refine .call (f := f) hslot (isWord_lowercase hword)
      (stops_lowercase isNameChar_toLower hstops) (by rwa [lowercase_lowercase]) ?_
    rwa [lowercase_lowercase, checkCall_lowercase]

theorem Scans.lowercase {caps : Capabilities} {slot : Slot} {cs : List Char} {ts : List Token}
    (h : Scans caps slot cs ts) : Scans caps slot (lowercase cs) ts := by
  induction h using Scans.byPieces with
  | nil => exact .nil
  | reads hread _ ih =>
    rw [lowercase_append]
    exact hread.lowercase.scans ih

theorem ReadsTo.lowercase {caps : Capabilities} {slot place : Slot} {front rest : List Char}
    {tokens : List Token} (h : ReadsTo caps slot front rest place tokens) :
    ReadsTo caps slot (lowercase front) (lowercase rest) place tokens := by
  induction h with
  | nil => exact .nil
  | cons hread _ ih =>
    rw [lowercase_append]
    refine .cons ?_ ih
    rw [← lowercase_append]
    exact hread.lowercase

theorem Fails.lowercase {caps : Capabilities} {slot : Slot} {cs : List Char} {position : Nat}
    {e : LexError} (h : Fails caps slot cs position e) :
    Fails caps slot (lowercase cs) position e.lowercase := by
  obtain ⟨hreads, hrefuse⟩ := h
  rw [lowercase_append]
  refine ⟨hreads.lowercase, ?_⟩
  rw [byteLength_lowercase]
  exact hrefuse.lowercase

end Lexer

theorem tokenize_lowercase (caps : Capabilities) (line : String) :
    tokenize caps (String.ofList (lowercase line.toList)) =
      (tokenize caps line).mapError LexError.lowercase := by
  rcases Lexer.scans_or_fails caps .operand line.toList 0 with ⟨ts, h⟩ | ⟨e, h⟩
  · have hfolded : tokenize caps (String.ofList (lowercase line.toList)) = .ok ts := by
      rw [tokenize_eq_ok_iff, String.toList_ofList]
      exact h.lowercase
    rw [hfolded, tokenize_eq_ok_iff.2 h]
    rfl
  · have hfolded : tokenize caps (String.ofList (lowercase line.toList)) =
        .error e.lowercase := by
      rw [tokenize_eq_error_iff, String.toList_ofList]
      exact h.lowercase
    rw [hfolded, tokenize_eq_error_iff.2 h]
    rfl

/-! ## More blanks -/

/-- The characters that literals and names are made of. -/
def isWordChar (c : Char) : Bool :=
  Lexer.isNameChar c || c = '.'

/-- The characters around a gap could belong to one literal or name. -/
def Joins (front behind : List Char) : Prop :=
  ∃ a ∈ front.getLast?, ∃ b ∈ behind.head?, isWordChar a = true ∧ isWordChar b = true

namespace Lexer

/-- A piece of more than one character is a literal or a name. -/
theorem Reads.isWordChar_of_mem {caps : Capabilities} {slot next : Slot}
    {piece rest : List Char} {tokens : List Token} (h : Reads caps slot piece rest next tokens) :
    piece.length = 1 ∨ ∀ c ∈ piece, isWordChar c = true := by
  have hword {word : List Char} (h : IsWord word) : ∀ c ∈ word, isWordChar c = true := by
    obtain ⟨c, cs, rfl, hc, hcs⟩ := h
    intro d hd
    have hname : isNameChar d = true := by
      rcases List.mem_cons.1 hd with rfl | hd
      · exact isNameChar_iff.2 (.inl hc)
      · exact hcs d hd
    rw [isWordChar, hname, Bool.true_or]
  cases h with
  | number _ hl =>
    refine .inr fun c hc => ?_
    rcases startsLiteral_iff.1 (hl.startsLiteral_of_mem c hc) with hd | rfl
    · rw [isWordChar, isNameChar_iff.2 (.inr (.inl hd)), Bool.true_or]
    · rfl
  | call _ hw => exact .inr (hword hw)
  | identifier _ hw => exact .inr (hword hw)
  | _ => exact .inl rfl

/-- Between the characters of a piece there is no room for blanks. -/
theorem Reads.joins {caps : Capabilities} {slot next : Slot} {front behind rest : List Char}
    {tokens : List Token} (h : Reads caps slot (front ++ behind) rest next tokens)
    (hfront : front ≠ []) (hbehind : behind ≠ []) : Joins front behind := by
  rcases h.isWordChar_of_mem with hlength | hwords
  · have := List.length_pos_iff.2 hfront
    have := List.length_pos_iff.2 hbehind
    rw [List.length_append] at hlength
    omega
  · refine ⟨front.getLast hfront, List.getLast?_eq_some_getLast hfront, behind.head hbehind,
      List.head?_eq_some_head hbehind, ?_, ?_⟩
    · exact hwords _ (List.mem_append_left _ (List.getLast_mem hfront))
    · exact hwords _ (List.mem_append_right _ (List.head_mem hbehind))

theorem looksLike_blanks {gap : List Char} (hgap : Blanks gap) (rest : List Char) :
    LooksLike rest (gap ++ rest) := by
  constructor
  · intro p hp hstops
    cases gap with
    | nil => exact hstops
    | cons c gap =>
      rintro _ ⟨⟩
      exact hp c (hgap c List.mem_cons_self)
  · intro hopens
    rwa [trimStart, List.dropWhile_append_of_pos hgap]

/-- Blanks that fall into no literal and no name do not change the tokens. -/
theorem Scans.insert_blanks {caps : Capabilities} {slot : Slot} {cs gap : List Char}
    {ts : List Token} (h : Scans caps slot cs ts) (hgap : Blanks gap) :
    ∀ {front behind : List Char}, cs = front ++ behind → ¬Joins front behind →
      Scans caps slot (front ++ (gap ++ behind)) ts := by
  induction h using Scans.byPieces with
  | nil =>
    intro front behind hsplit _
    obtain ⟨rfl, rfl⟩ := List.append_eq_nil_iff.1 hsplit.symm
    rw [List.nil_append]
    exact .append_blanks hgap .nil
  | @reads slot next piece rest tokens ts hread hrest ih =>
    intro front behind hsplit hjoins
    rcases List.append_eq_append_iff.1 hsplit with ⟨front, rfl, rfl⟩ | ⟨behind, rfl, rfl⟩
    · -- the gap lies behind the piece
      have hinner : ¬Joins front behind := by
        rintro ⟨a, ha, hb⟩
        refine hjoins ⟨a, ?_, hb⟩
        rw [Option.mem_def, List.getLast?_append, Option.mem_def.1 ha, Option.some_or]
      rw [List.append_assoc]
      refine Reads.scans ?_ (ih rfl hinner)
      exact hread.congr_rest ((looksLike_blanks hgap behind).append_left front)
    · -- the gap lies in the piece or at one of its ends
      by_cases hfront : front = []
      · subst hfront
        rw [List.nil_append]
        exact .append_blanks hgap (hread.scans hrest)
      by_cases hbehind : behind = []
      · subst hbehind
        rw [List.append_nil] at hread
        exact (hread.congr_rest (looksLike_blanks hgap rest)).scans (hrest.append_blanks hgap)
      · obtain ⟨a, ha, b, hb, hword⟩ := hread.joins hfront hbehind
        refine absurd ⟨a, ha, b, ?_, hword⟩ hjoins
        rw [Option.mem_def, List.head?_append, Option.mem_def.1 hb, Option.some_or]

end Lexer

/-- A line in lower case has the tokens and the error of the line itself, up to the case of an
unexpected character; and blanks may be put in wherever they part no two characters that
literals and names are made of. -/
theorem tokenize_ignores_case_and_blanks (caps : Capabilities) (line : String) :
    tokenize caps (String.ofList (lowercase line.toList)) =
        (tokenize caps line).mapError LexError.lowercase ∧
      ∀ ts before behind gap, tokenize caps line = .ok ts → line = before ++ behind →
        Blanks gap.toList → ¬Joins before.toList behind.toList →
        tokenize caps (before ++ gap ++ behind) = .ok ts := by
  refine ⟨tokenize_lowercase caps line, ?_⟩
  rintro ts before behind gap h rfl hgap hjoins
  rw [tokenize_eq_ok_iff, String.toList_append] at h
  rw [tokenize_eq_ok_iff, String.toList_append, String.toList_append, List.append_assoc]
  exact h.insert_blanks hgap rfl hjoins

theorem tokenize_ignores_case_and_blanks_max :
    tokenize .all (String.ofList (lowercase "MAX9 X(2)".toList)) =
        (tokenize .all "MAX9 X(2)").mapError LexError.lowercase ∧
      (tokenize .all "MAX9 X(2)" =
          .ok [.identifier "max9", .operator .mul, .leftParen, .number "2", .rightParen] ∧
        "MAX9 X(2)" = "MAX9 X" ++ "(2)" ∧ Blanks "\t\u00a0".toList ∧
        ¬Joins "MAX9 X".toList "(2)".toList) ∧
      tokenize .all ("MAX9 X" ++ "\t\u00a0" ++ "(2)") =
        .ok [.identifier "max9", .operator .mul, .leftParen, .number "2", .rightParen] := by
  have h : tokenize .all "MAX9 X(2)" =
      .ok [.identifier "max9", .operator .mul, .leftParen, .number "2", .rightParen] := by
    decide +kernel
  have hsplit : "MAX9 X(2)" = "MAX9 X" ++ "(2)" := by decide
  have hgap : Blanks "\t\u00a0".toList := by simp [Blanks, isBlank]
  have hjoins : ¬Joins "MAX9 X".toList "(2)".toList := by
    simp [Joins, isWordChar, Lexer.isNameChar]
  have hmain := tokenize_ignores_case_and_blanks .all "MAX9 X(2)"
  exact ⟨hmain.1, ⟨h, hsplit, hgap, hjoins⟩, hmain.2 _ _ _ _ h hsplit hgap hjoins⟩

end Abacus
