/-
Abacus.Proofs.Syntax.Pieces — what the lexer does at one place of a line.

At every place the lexer takes a piece off the text in front of it (`Reads`) or
stops with an error (`Refuses`), unless the line has come to an end where it may
(`reads_or_refuses`).  A piece is a blank, a sign, a bracket, an operator, a
literal or a name.  Facts about whole lines are inductions over their pieces.
-/
import Abacus.Proofs.Outcome
import Abacus.Proofs.Syntax.Characters

namespace Abacus.Lexer

/-! ## Literals -/

/-- Digits on both sides of the point, and one digit at least. -/
structure Literal.Valid (l : Literal) : Prop where
  whole : ∀ c ∈ l.whole, c.isDigit = true
  fraction : ∀ digits, l.fraction = some digits → ∀ c ∈ digits, c.isDigit = true
  hasDigit : l.hasDigit = true

namespace Literal

theorem stops_isDigit {rest : List Char} (h : Stops startsLiteral rest) :
    Stops Char.isDigit rest := by
  intro c hc
  have hl := h c hc
  rw [startsLiteral, Bool.or_eq_false_iff] at hl
  exact hl.1

/-- Nothing is lost between a literal and the text behind it. -/
theorem source_scan (c : Char) (cs : List Char) :
    (scan c cs).1.source ++ (scan c cs).2 = c :: cs := by
  unfold scan
  split
  · next hc => simp [source, hc]
  · dsimp only
    split
    · next rest heq =>
      have h := List.takeWhile_append_dropWhile (p := Char.isDigit) (l := cs)
      rw [heq] at h
      simp [source, h]
    · simp [source]

theorem isDigit_of_mem_takeWhile {cs : List Char} :
    ∀ c ∈ cs.takeWhile Char.isDigit, c.isDigit = true :=
  fun _ => List.mem_takeWhile_imp

/-- A literal that the scan finds and that has a digit is valid. -/
theorem valid_scan {c : Char} (hc : startsLiteral c = true) {cs : List Char}
    (hd : (scan c cs).1.hasDigit = true) : (scan c cs).1.Valid := by
  refine ⟨?whole, ?fraction, hd⟩
  case whole =>
    unfold scan
    split
    · intro d hd; cases hd
    · next hpoint =>
      have hdigit : c.isDigit = true := (startsLiteral_iff.1 hc).resolve_right hpoint
      have hwhole : ∀ d ∈ c :: cs.takeWhile Char.isDigit, d.isDigit = true :=
        List.forall_mem_cons.2 ⟨hdigit, isDigit_of_mem_takeWhile⟩
      dsimp only
      split <;> exact hwhole
  case fraction =>
    intro digits
    unfold scan
    split
    · rintro ⟨⟩
      exact isDigit_of_mem_takeWhile
    · dsimp only
      split
      · rintro ⟨⟩
        exact isDigit_of_mem_takeWhile
      · rintro ⟨⟩

/-- Behind a literal no digit follows. -/
theorem stops_scan (c : Char) (cs : List Char) : Stops Char.isDigit (scan c cs).2 := by
  unfold scan
  split
  · exact stops_dropWhile _ _
  · dsimp only
    split
    · exact stops_dropWhile _ _
    · exact stops_dropWhile _ _

theorem stops_startsLiteral {rest : List Char} (h : Stops Char.isDigit rest)
    (hpoint : rest.head? ≠ some '.') : Stops startsLiteral rest := by
  intro c hc
  rw [Bool.eq_false_iff]
  intro hl
  rcases startsLiteral_iff.1 hl with hd | rfl
  · rw [h c hc] at hd
    cases hd
  · exact hpoint hc

theorem point_notDigit (rest : List Char) : Stops Char.isDigit ('.' :: rest) := by
  rintro _ ⟨⟩
  decide

/-- A valid literal is found again where it ends. -/
theorem scan_of_source {l : Literal} (hl : l.Valid) {rest : List Char}
    (hrest : Stops startsLiteral rest) {c : Char} {cs : List Char}
    (h : l.source ++ rest = c :: cs) : scan c cs = (l, rest) := by
  have hstop := stops_isDigit hrest
  match l, hl with
  | ⟨[], none⟩, hl => cases hl.hasDigit
  | ⟨[], some digits⟩, hl =>
    have hds := hl.fraction digits rfl
    obtain ⟨rfl, rfl⟩ := List.cons.inj h
    simp only [scan, if_pos, List.append_eq, takeWhile_run hds hstop, dropWhile_run hds hstop]
  | ⟨d :: whole, none⟩, hl =>
    obtain ⟨hd, hw⟩ := List.forall_mem_cons.1 hl.whole
    obtain ⟨rfl, rfl⟩ := List.cons.inj h
    have hpoint : d ≠ '.' := by rintro rfl; cases hd
    simp only [scan, if_neg hpoint, List.append_eq, takeWhile_run hw hstop, dropWhile_run hw hstop]
    split
    · cases hrest '.' rfl
    · rfl
  | ⟨d :: whole, some digits⟩, hl =>
    have hds := hl.fraction digits rfl
    obtain ⟨hd, hw⟩ := List.forall_mem_cons.1 hl.whole
    obtain ⟨rfl, rfl⟩ := List.cons.inj h
    have hpoint : d ≠ '.' := by rintro rfl; cases hd
    have hnext := point_notDigit (digits ++ rest)
    simp only [scan, if_neg hpoint, List.append_eq, List.append_assoc, List.cons_append,
      takeWhile_run hw hnext, dropWhile_run hw hnext, takeWhile_run hds hstop,
      dropWhile_run hds hstop]

theorem Valid.startsLiteral_of_mem {l : Literal} (hl : l.Valid) :
    ∀ c ∈ l.source, startsLiteral c = true := by
  have hdigits {cs : List Char} (h : ∀ c ∈ cs, c.isDigit = true) :
      ∀ c ∈ cs, startsLiteral c = true :=
    fun c hc => startsLiteral_iff.2 (.inl (h c hc))
  unfold Literal.source
  split
  · exact hdigits hl.whole
  · next digits hfraction =>
    intro c hc
    rcases List.mem_append.1 hc with hc | hc
    · exact hdigits hl.whole c hc
    · rcases List.mem_cons.1 hc with rfl | hc
      · rfl
      · exact hdigits (hl.fraction digits hfraction) c hc

/-- A valid literal begins with a digit or a point. -/
theorem exists_source {l : Literal} (hl : l.Valid) :
    ∃ c cs, l.source = c :: cs ∧ startsLiteral c = true := by
  match l, hl with
  | ⟨[], none⟩, hl => cases hl.hasDigit
  | ⟨[], some digits⟩, _ => exact ⟨'.', digits, rfl, rfl⟩
  | ⟨d :: whole, none⟩, hl =>
    exact ⟨d, whole, rfl, startsLiteral_iff.2 (.inl (hl.whole d List.mem_cons_self))⟩
  | ⟨d :: whole, some digits⟩, hl =>
    exact ⟨d, whole ++ '.' :: digits, rfl,
      startsLiteral_iff.2 (.inl (hl.whole d List.mem_cons_self))⟩

end Literal

/-! ## The rules -/

/-- A name as it stands in a line: a letter, then characters of names. -/
def IsWord (word : List Char) : Prop :=
  ∃ c cs, word = c :: cs ∧ c.isAlpha = true ∧ ∀ d ∈ cs, isNameChar d = true

theorem isWord_takeWhile {c : Char} (hc : c.isAlpha = true) (cs : List Char) :
    IsWord (c :: cs.takeWhile isNameChar) :=
  ⟨c, cs.takeWhile isNameChar, rfl, hc, fun _ => List.mem_takeWhile_imp⟩

/-- `Reads caps slot piece rest next tokens`: in a place, the lexer takes `piece` off a text
that goes on with `rest`, as `tokens`, and goes on itself in the place `next`. -/
inductive Reads (caps : Capabilities) :
    Slot → List Char → List Char → Slot → List Token → Prop
  | blank {slot c rest} : isBlank c = true → Reads caps slot [c] rest slot []
  | rightParen {rest} : Reads caps .operator [')'] rest .operator [.rightParen]
  | factorial {rest} : Reads caps .operator ['!'] rest .operator [.operator .factorial]
  | binary {c rest op} : Operator.ofChar? c = some op → (op = .pow → caps.power = true) →
      Reads caps .operator [c] rest .operand [.operator op]
  | leftParen {slot : Slot} {rest} : slot ≠ .operator →
      Reads caps slot ['('] rest .operand (slot.signTokens ++ [.leftParen])
  | sign {c rest} : c = '+' ∨ c = '-' → Reads caps .operand [c] rest (.signed (c = '-')) []
  | number {slot : Slot} {l : Literal} {rest} : slot ≠ .operator → l.Valid →
      (l.fraction.isSome = true → caps.decimals = true) → Stops startsLiteral rest →
      Reads caps slot l.source rest .operator
        [.number (slot.literalText l.canonical)]
  | call {slot : Slot} {word rest f} : slot ≠ .operator → IsWord word →
      Stops isNameChar rest → Elementary.ofName? (String.ofList (lowercase word)) = some f →
      caps.functions = true → (trimStart rest).head? = some '(' →
      Reads caps slot word rest .operand (slot.signTokens ++ [.function f])
  | identifier {slot : Slot} {word rest} : slot ≠ .operator → IsWord word →
      Stops isNameChar rest → Elementary.ofName? (String.ofList (lowercase word)) = none →
      Reads caps slot word rest .operator
        (slot.signTokens ++ [.identifier (String.ofList (lowercase word))])

/-- `Refuses caps slot text position e`: the lexer cannot go on in a place at byte
`position`, where a text follows. -/
inductive Refuses (caps : Capabilities) : Slot → List Char → Nat → LexError → Prop
  | ending {slot : Slot} {position} : slot ≠ .operator →
      Refuses caps slot [] position .unexpectedEnd
  | operator {c cs position} : isBlank c = false → c ≠ ')' → c ≠ '!' →
      Operator.ofChar? c = none →
      Refuses caps .operator (c :: cs) position (.unexpectedChar c position)
  | power {c cs position} : Operator.ofChar? c = some .pow → caps.power = false →
      Refuses caps .operator (c :: cs) position .powerNotSupported
  | operand {slot : Slot} {c cs position} : slot ≠ .operator → isBlank c = false → c ≠ '(' →
      ¬(slot = .operand ∧ (c = '+' ∨ c = '-')) → startsLiteral c = false → c.isAlpha = false →
      Refuses caps slot (c :: cs) position (.unexpectedChar c position)
  | literal {slot : Slot} {c cs position e} : slot ≠ .operator → startsLiteral c = true →
      checkLiteral caps position (Literal.scan c cs).1 (Literal.scan c cs).2 = .error e →
      Refuses caps slot (c :: cs) position e
  | call {slot : Slot} {word rest position f e} : slot ≠ .operator → IsWord word →
      Stops isNameChar rest → Elementary.ofName? (String.ofList (lowercase word)) = some f →
      checkCall caps (String.ofList (lowercase word)) rest = .error e →
      Refuses caps slot (word ++ rest) position e

/-! ## What the lexer sees behind a piece -/

/-- Two texts look the same behind a piece: no literal and no name goes on into the one that
does not go on into the other, and a parenthesis is next in both. -/
structure LooksLike (rest rest' : List Char) : Prop where
  stops : ∀ p : Char → Bool, (∀ c, isBlank c = true → p c = false) → Stops p rest → Stops p rest'
  opens : (trimStart rest).head? = some '(' → (trimStart rest').head? = some '('

theorem LooksLike.append_left {rest rest' : List Char} (h : LooksLike rest rest')
    (front : List Char) : LooksLike (front ++ rest) (front ++ rest') := by
  constructor
  · intro p hp hstops
    cases front with
    | nil => exact h.stops p hp hstops
    | cons c front => exact hstops
  · intro hopens
    rw [trimStart, List.dropWhile_append] at hopens ⊢
    split at hopens
    · next hempty =>
      rw [if_pos hempty]
      exact h.opens hopens
    · next hrest =>
      rw [if_neg hrest]
      cases hdrop : front.dropWhile isBlank with
      | nil => simp [hdrop] at hrest
      | cons c cs =>
        rw [hdrop] at hopens
        exact hopens

/-- Behind a character that is no blank nothing is looked at. -/
theorem looksLike_cons {c : Char} (hc : isBlank c = false) (rest rest' : List Char) :
    LooksLike (c :: rest) (c :: rest') := by
  constructor
  · intro p _ hstops
    exact hstops
  · intro hopens
    rw [trimStart, List.dropWhile_cons, hc] at hopens ⊢
    exact hopens

theorem looksLike_append {rest : List Char} (hrest : rest ≠ []) (behind : List Char) :
    LooksLike rest (rest ++ behind) := by
  constructor
  · intro p _ hstops
    cases rest with
    | nil => exact absurd rfl hrest
    | cons c rest => exact hstops
  · intro hopens
    exact head?_trimStart_append hopens behind

theorem Reads.congr_rest {caps : Capabilities} {slot next : Slot} {piece rest rest' : List Char}
    {tokens : List Token} (h : Reads caps slot piece rest next tokens)
    (hlooks : LooksLike rest rest') : Reads caps slot piece rest' next tokens := by
  cases h with
  | blank hb => exact .blank hb
  | rightParen => exact .rightParen
  | factorial => exact .factorial
  | binary hop hpow => exact .binary hop hpow
  | leftParen hslot => exact .leftParen hslot
  | sign hc => exact .sign hc
  | number hslot hl hcaps hstops =>
    exact .number hslot hl hcaps (hlooks.stops _ (fun _ => startsLiteral_of_isBlank) hstops)
  | call hslot hword hstops hf hcaps hparen =>
    exact .call hslot hword (hlooks.stops _ (fun _ => isNameChar_of_isBlank) hstops) hf hcaps
      (hlooks.opens hparen)
  | identifier hslot hword hstops hf =>
    exact .identifier hslot hword (hlooks.stops _ (fun _ => isNameChar_of_isBlank) hstops) hf

/-! ## The lexer follows the rules -/

theorem checkLiteral_eq_ok_iff {caps : Capabilities} {position : Nat} {l : Literal}
    {rest : List Char} {u : Unit} :
    checkLiteral caps position l rest = .ok u ↔
      l.hasDigit = true ∧ rest.head? ≠ some '.' ∧
        (l.fraction.isSome = true → caps.decimals = true) := by
  unfold checkLiteral
  by_cases hpoint : rest.head? = some '.'
  · simp [hpoint]
  · cases l.hasDigit <;> cases l.fraction.isSome <;> cases caps.decimals <;> simp [hpoint]

theorem checkCall_eq_ok_iff {caps : Capabilities} {name : String} {rest : List Char} {u : Unit} :
    checkCall caps name rest = .ok u ↔
      caps.functions = true ∧ (trimStart rest).head? = some '(' := by
  unfold checkCall
  cases caps.functions <;> simp

theorem checkLiteral_error {caps : Capabilities} {position : Nat} {l : Literal}
    {rest : List Char} {e : LexError} (h : checkLiteral caps position l rest = .error e) :
    e = .malformedNumber position ∨ e = .decimalNotSupported (String.ofList l.source) := by
  unfold checkLiteral at h
  split at h
  · cases h
    exact .inl rfl
  · split at h
    · cases h
      exact .inr rfl
    · cases h

theorem checkCall_error {caps : Capabilities} {name : String} {rest : List Char} {e : LexError}
    (h : checkCall caps name rest = .error e) :
    e = .functionNotSupported name ∨ e = .missingParenthesis name := by
  unfold checkCall at h
  split at h
  · cases h
    exact .inl rfl
  · split at h
    · cases h
      exact .inr rfl
    · cases h

theorem not_sign {c : Char} (h : startsLiteral c = true ∨ c.isAlpha = true) (slot : Slot) :
    ¬(decide (slot = .operand) && (decide (c = '+') || decide (c = '-'))) = true := by
  simp only [Bool.and_eq_true, Bool.or_eq_true, decide_eq_true_eq]
  rintro ⟨_, rfl | rfl⟩ <;> rcases h with h | h <;> cases h

/-- The characters that operators are written with have one byte. -/
theorem byteLength_of_ofChar? {c : Char} {op : Operator} (h : Operator.ofChar? c = some op) :
    byteLength [c] = 1 := by
  unfold Operator.ofChar? at h
  split at h <;> first | decide | cases h

/-- Where an operand is expected, a letter begins a name. -/
theorem scan_word {caps : Capabilities} {slot : Slot} (hslot : slot ≠ .operator) {c : Char}
    {cs rest : List Char} (hc : c.isAlpha = true) (hcs : ∀ d ∈ cs, isNameChar d = true)
    (hrest : Stops isNameChar rest) (position : Nat) :
    scan caps slot position (c :: (cs ++ rest)) =
      (Elementary.ofName? (String.ofList (lowercase (c :: cs)))).elim
        (do
          let tokens ← scan caps .operator (position + byteLength (c :: cs)) rest
          return slot.signTokens ++ .identifier (String.ofList (lowercase (c :: cs))) :: tokens)
        fun f => do
          checkCall caps (String.ofList (lowercase (c :: cs))) rest
          let tokens ← scan caps .operand (position + byteLength (c :: cs)) rest
          return slot.signTokens ++ .function f :: tokens := by
  have hb := isBlank_of_isAlpha hc
  have hopen : c ≠ '(' := by rintro rfl; cases hc
  have hliteral := startsLiteral_of_isAlpha hc
  rw [scan, if_neg (by simp [hb]), if_neg hslot, if_neg hopen, if_neg (not_sign (.inr hc) slot),
    if_neg (by simp [hliteral]), if_pos hc, takeWhile_run hcs hrest, dropWhile_run hcs hrest]
  dsimp only
  cases Elementary.ofName? (String.ofList (lowercase (c :: cs))) <;> rfl

/-- Reading a piece leaves what is behind it, at the byte where it begins. -/
theorem scan_of_reads {caps : Capabilities} {slot next : Slot} {piece rest : List Char}
    {tokens : List Token} (h : Reads caps slot piece rest next tokens) (position : Nat) :
    scan caps slot position (piece ++ rest) =
      (scan caps next (position + byteLength piece) rest).map (tokens ++ ·) := by
  cases h with
  | @blank slot c rest hb =>
    have hbyte : byteLength [c] = c.utf8Size := rfl
    rw [List.singleton_append, scan, if_pos hb, hbyte]
    cases scan caps slot (position + c.utf8Size) rest <;> rfl
  | rightParen =>
    rw [List.singleton_append, scan, if_neg (by decide), if_pos rfl, if_pos rfl]
    rfl
  | factorial =>
    rw [List.singleton_append, scan, if_neg (by decide), if_pos rfl, if_neg (by decide),
      if_pos rfl]
    rfl
  | binary hop hpow =>
    obtain ⟨hb, hparen, hbang⟩ := isBlank_of_ofChar? hop
    rw [byteLength_of_ofChar? hop, List.singleton_append, scan, if_neg (by simp [hb]),
      if_pos rfl, if_neg hparen, if_neg hbang]
    simp only [hop]
    rw [if_neg (by simpa using hpow)]
    rfl
  | leftParen hslot =>
    simp only [List.append_assoc, List.singleton_append]
    rw [scan, if_neg (by decide), if_neg hslot, if_pos rfl]
    rfl
  | @sign c rest hc =>
    have hsigned : scan caps .operand position (c :: rest) =
        scan caps (.signed (c = '-')) (position + 1) rest := by
      rcases hc with rfl | rfl <;>
        rw [scan, if_neg (by decide), if_neg (by decide), if_neg (by decide),
          if_pos (by decide)]
    have hbyte : byteLength [c] = 1 := by
      rcases hc with rfl | rfl <;> rfl
    rw [List.singleton_append, hsigned, hbyte]
    cases scan caps (.signed (c = '-')) (position + 1) rest <;> rfl
  | @number slot l rest hslot hl hcaps hrest =>
    obtain ⟨c, cs, hsource, hc⟩ := Literal.exists_source hl
    have htext : l.source ++ rest = c :: (cs ++ rest) := by rw [hsource, List.cons_append]
    have hb := isBlank_of_startsLiteral hc
    have hparen : c ≠ '(' := by rintro rfl; cases hc
    have hpoint : rest.head? ≠ some '.' := by intro h; cases hrest '.' h
    have hcheck : checkLiteral caps position l rest = .ok () :=
      checkLiteral_eq_ok_iff.2 ⟨hl.hasDigit, hpoint, hcaps⟩
    rw [htext, scan, if_neg (by simp [hb]), if_neg hslot, if_neg hparen,
      if_neg (not_sign (.inl hc) slot), if_pos hc, Literal.scan_of_source hl hrest htext]
    dsimp only
    rw [hcheck]
    rfl
  | @call slot word rest f hslot hword hrest hf hcaps hparen =>
    obtain ⟨c, cs, rfl, hc, hcs⟩ := hword
    have hcheck : checkCall caps (String.ofList (lowercase (c :: cs))) rest = .ok () :=
      checkCall_eq_ok_iff.2 ⟨hcaps, hparen⟩
    simp only [List.append_assoc, List.singleton_append]
    rw [List.cons_append, scan_word hslot hc hcs hrest, hf, Option.elim_some, hcheck]
    rfl
  | @identifier slot word rest hslot hword hrest hf =>
    obtain ⟨c, cs, rfl, hc, hcs⟩ := hword
    simp only [List.append_assoc, List.singleton_append]
    rw [List.cons_append, scan_word hslot hc hcs hrest, hf, Option.elim_none]
    rfl

theorem scan_of_refuses {caps : Capabilities} {slot : Slot} {cs : List Char} {position : Nat}
    {e : LexError} (h : Refuses caps slot cs position e) :
    scan caps slot position cs = .error e := by
  cases h with
  | ending hslot => rw [scan, if_neg hslot]
  | operator hb hparen hbang hop =>
    rw [scan, if_neg (by simp [hb]), if_pos rfl, if_neg hparen, if_neg hbang]
    simp only [hop]
  | power hop hpow =>
    obtain ⟨hb, hparen, hbang⟩ := isBlank_of_ofChar? hop
    rw [scan, if_neg (by simp [hb]), if_pos rfl, if_neg hparen, if_neg hbang]
    simp only [hop]
    rw [if_pos (by simp [hpow])]
  | operand hslot hb hparen hsign hliteral halpha =>
    rw [scan, if_neg (by simp [hb]), if_neg hslot, if_neg hparen, if_neg (by simpa using hsign),
      if_neg (by simp [hliteral]), if_neg (by simp [halpha])]
  | literal hslot hc hcheck =>
    have hb := isBlank_of_startsLiteral hc
    have hparen : ‹Char› ≠ '(' := by rintro rfl; cases hc
    rw [scan, if_neg (by simp [hb]), if_neg hslot, if_neg hparen, if_neg (not_sign (.inl hc) slot),
      if_pos hc, hcheck]
    rfl
  | call hslot hword hrest hf hcheck =>
    obtain ⟨c, cs, rfl, hc, hcs⟩ := hword
    rw [List.cons_append, scan_word hslot hc hcs hrest, hf, Option.elim_some, hcheck]
    rfl

theorem Reads.piece_ne_nil {caps : Capabilities} {slot next : Slot} {piece rest : List Char}
    {tokens : List Token} (h : Reads caps slot piece rest next tokens) : piece ≠ [] := by
  have hword {word : List Char} (h : IsWord word) : word ≠ [] := by
    obtain ⟨c, cs, rfl, -⟩ := h
    exact List.cons_ne_nil c cs
  cases h with
  | number _ hl =>
    obtain ⟨c, cs, hsource, -⟩ := Literal.exists_source hl
    rw [hsource]
    exact List.cons_ne_nil c cs
  | call _ hw => exact hword hw
  | identifier _ hw => exact hword hw
  | _ => exact List.cons_ne_nil _ _

/-- The text begins with a piece that can be read in this place. -/
def CanRead (caps : Capabilities) (slot : Slot) (cs : List Char) : Prop :=
  ∃ piece rest next tokens, cs = piece ++ rest ∧ Reads caps slot piece rest next tokens

theorem Reads.canRead {caps : Capabilities} {slot next : Slot} {piece rest : List Char}
    {tokens : List Token} (h : Reads caps slot piece rest next tokens) :
    CanRead caps slot (piece ++ rest) :=
  ⟨piece, rest, next, tokens, rfl, h⟩

theorem reads_or_refuses_operator (caps : Capabilities) (c : Char) (cs : List Char)
    (position : Nat) :
    CanRead caps .operator (c :: cs) ∨ ∃ e, Refuses caps .operator (c :: cs) position e := by
  by_cases hb : isBlank c = true
  · exact .inl (Reads.canRead (.blank hb))
  by_cases hparen : c = ')'
  · subst hparen
    exact .inl (Reads.canRead .rightParen)
  by_cases hbang : c = '!'
  · subst hbang
    exact .inl (Reads.canRead .factorial)
  cases hop : Operator.ofChar? c with
  | none => exact .inr ⟨_, .operator (by simpa using hb) hparen hbang hop⟩
  | some op =>
    by_cases hpow : op = .pow → caps.power = true
    · exact .inl (Reads.canRead (.binary hop hpow))
    · rw [Classical.not_imp] at hpow
      obtain ⟨rfl, hcaps⟩ := hpow
      exact .inr ⟨_, .power hop (by simpa using hcaps)⟩

theorem reads_or_refuses_literal (caps : Capabilities) {slot : Slot} (hslot : slot ≠ .operator)
    {c : Char} (hc : startsLiteral c = true) (cs : List Char) (position : Nat) :
    CanRead caps slot (c :: cs) ∨ ∃ e, Refuses caps slot (c :: cs) position e := by
  cases hcheck : checkLiteral caps position (Literal.scan c cs).1 (Literal.scan c cs).2 with
  | error e => exact .inr ⟨e, .literal hslot hc hcheck⟩
  | ok u =>
    obtain ⟨hdigit, hpoint, hcaps⟩ := checkLiteral_eq_ok_iff.1 hcheck
    have hstops := Literal.stops_startsLiteral (Literal.stops_scan c cs) hpoint
    have hread := Reads.canRead (Reads.number hslot (Literal.valid_scan hc hdigit) hcaps hstops)
    rw [Literal.source_scan] at hread
    exact .inl hread

theorem reads_or_refuses_word (caps : Capabilities) {slot : Slot} (hslot : slot ≠ .operator)
    {c : Char} (hc : c.isAlpha = true) (cs : List Char) (position : Nat) :
    CanRead caps slot (c :: cs) ∨ ∃ e, Refuses caps slot (c :: cs) position e := by
  have hword := isWord_takeWhile hc cs
  have hstops := stops_dropWhile isNameChar cs
  have htext : c :: cs = (c :: cs.takeWhile isNameChar) ++ cs.dropWhile isNameChar := by
    rw [List.cons_append, List.takeWhile_append_dropWhile]
  rw [htext]
  cases hf : Elementary.ofName? (String.ofList (lowercase (c :: cs.takeWhile isNameChar))) with
  | none => exact .inl (Reads.canRead (.identifier hslot hword hstops hf))
  | some f =>
    cases hcheck : checkCall caps (String.ofList (lowercase (c :: cs.takeWhile isNameChar)))
        (cs.dropWhile isNameChar) with
    | error e => exact .inr ⟨e, .call hslot hword hstops hf hcheck⟩
    | ok u =>
      obtain ⟨hcaps, hparen⟩ := checkCall_eq_ok_iff.1 hcheck
      exact .inl (Reads.canRead (.call hslot hword hstops hf hcaps hparen))

theorem reads_or_refuses_operand (caps : Capabilities) {slot : Slot} (hslot : slot ≠ .operator)
    (c : Char) (cs : List Char) (position : Nat) :
    CanRead caps slot (c :: cs) ∨ ∃ e, Refuses caps slot (c :: cs) position e := by
  by_cases hb : isBlank c = true
  · exact .inl (Reads.canRead (.blank hb))
  by_cases hparen : c = '('
  · subst hparen
    exact .inl (Reads.canRead (.leftParen hslot))
  by_cases hsign : slot = .operand ∧ (c = '+' ∨ c = '-')
  · obtain ⟨rfl, hc⟩ := hsign
    exact .inl (Reads.canRead (.sign hc))
  by_cases hliteral : startsLiteral c = true
  · exact reads_or_refuses_literal caps hslot hliteral cs position
  by_cases halpha : c.isAlpha = true
  · exact reads_or_refuses_word caps hslot halpha cs position
  exact .inr ⟨_, .operand hslot (by simpa using hb) hparen hsign (by simpa using hliteral)
    (by simpa using halpha)⟩

/-- At every place the lexer reads a piece or stops with an error, unless the line ends where
it may. -/
theorem reads_or_refuses (caps : Capabilities) (slot : Slot) (cs : List Char) (position : Nat) :
    (slot = .operator ∧ cs = []) ∨ CanRead caps slot cs ∨
      ∃ e, Refuses caps slot cs position e := by
  by_cases hslot : slot = .operator
  · subst hslot
    cases cs with
    | nil => exact .inl ⟨rfl, rfl⟩
    | cons c cs => exact .inr (reads_or_refuses_operator caps c cs position)
  · cases cs with
    | nil => exact .inr (.inr ⟨_, .ending hslot⟩)
    | cons c cs => exact .inr (reads_or_refuses_operand caps hslot c cs position)

end Abacus.Lexer
