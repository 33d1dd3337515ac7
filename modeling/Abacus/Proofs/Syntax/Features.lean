/-
Abacus.Proofs.Syntax.Features — what the features of a grammar decide.

A number system that switches features off takes the lines that the whole grammar
takes and that use none of them, in the same tokens (`scans_iff_scans_all`).  Which
features a line uses can be seen from its points and from its tokens.
-/
import Abacus.Proofs.Calculator
import Abacus.Proofs.Syntax.Shape

namespace Abacus

/-! ## Characters that cannot occur -/

namespace Lexer

/-- A point stands in a literal only if there is a fraction. -/
theorem Literal.Valid.point_mem_iff {l : Literal} (hl : l.Valid) :
    '.' ∈ l.source ↔ l.fraction.isSome = true := by
  have hwhole : '.' ∉ l.whole := fun hmem => absurd (hl.whole '.' hmem) (by decide)
  unfold Literal.source
  split
  · next hnone => simp [hnone, hwhole]
  · next digits hsome => simp [hsome]

/-- A character that is no blank, belongs to no name and no literal of the grammar, and is
neither a parenthesis nor an operator stands in no text that has tokens. -/
theorem Scans.not_mem {caps : Capabilities} {slot : Slot} {cs : List Char} {tokens : List Token}
    {d : Char} (hblank : isBlank d = false) (hname : isNameChar d = false)
    (hop : Operator.ofChar? d = none) (hgroup : d ∉ ['(', ')', '!'])
    (hliteral : ∀ l : Literal, l.Valid → (l.fraction.isSome = true → caps.decimals = true) →
      d ∉ l.source)
    (h : Scans caps slot cs tokens) : d ∉ cs := by
  have hword {word : List Char} (h : IsWord word) : d ∉ word := by
    obtain ⟨c, cs, rfl, hc, hcs⟩ := h
    intro hmem
    have hd : isNameChar d = true := by
      rcases List.mem_cons.1 hmem with rfl | hmem
      · exact isNameChar_iff.2 (.inl hc)
      · exact hcs d hmem
    cases hname.symm.trans hd
  simp only [List.mem_cons, List.not_mem_nil, or_false, not_or] at hgroup
  obtain ⟨hopen, hclose, hbang⟩ := hgroup
  induction h with
  | nil => exact List.not_mem_nil
  | blank hb _ ih =>
    refine List.not_mem_cons_of_ne_of_not_mem ?_ ih
    rintro rfl
    cases hblank.symm.trans hb
  | rightParen _ ih => exact List.not_mem_cons_of_ne_of_not_mem hclose ih
  | factorial _ ih => exact List.not_mem_cons_of_ne_of_not_mem hbang ih
  | binary hc _ _ ih =>
    refine List.not_mem_cons_of_ne_of_not_mem ?_ ih
    rintro rfl
    cases hop.symm.trans hc
  | leftParen _ _ ih => exact List.not_mem_cons_of_ne_of_not_mem hopen ih
  | sign hc _ ih =>
    refine List.not_mem_cons_of_ne_of_not_mem ?_ ih
    rintro rfl
    rcases hc with rfl | rfl <;> cases hop
  | number _ hl hcaps _ _ ih => exact List.not_mem_append (hliteral _ hl hcaps) ih
  | call _ h _ _ _ _ _ ih => exact List.not_mem_append (hword h) ih
  | identifier _ h _ _ _ ih => exact List.not_mem_append (hword h) ih

/-- There is no equals sign in a text that has tokens. -/
theorem Scans.equals_not_mem {caps : Capabilities} {slot : Slot} {cs : List Char}
    {tokens : List Token} (h : Scans caps slot cs tokens) : '=' ∉ cs :=
  h.not_mem (by decide) (by decide) rfl (by decide) fun _ hl _ hmem =>
    absurd (hl.startsLiteral_of_mem '=' hmem) (by decide)

/-- Without fractions there is no point in a text that has tokens. -/
theorem Scans.point_not_mem {caps : Capabilities} {slot : Slot} {cs : List Char}
    {tokens : List Token} (h : Scans caps slot cs tokens) (hcaps : caps.decimals = false) :
    '.' ∉ cs := by
  refine h.not_mem (by decide) (by decide) rfl (by decide) fun l hl hfraction hmem => ?_
  cases hcaps.symm.trans (hfraction (hl.point_mem_iff.1 hmem))

/-! ## What the whole grammar takes -/

/-- What a number system takes, one with the whole grammar takes in the same
tokens. -/
theorem Scans.all {caps : Capabilities} {slot : Slot} {cs : List Char}
    {tokens : List Token} (h : Scans caps slot cs tokens) : Scans .all slot cs tokens := by
  induction h with
  | nil => exact .nil
  | blank hb _ ih => exact .blank hb ih
  | rightParen _ ih => exact .rightParen ih
  | factorial _ ih => exact .factorial ih
  | binary hop _ _ ih => exact .binary hop (fun _ => rfl) ih
  | leftParen hslot _ ih => exact .leftParen hslot ih
  | sign hc _ ih => exact .sign hc ih
  | number hslot hl _ hstop _ ih => exact .number hslot hl (fun _ => rfl) hstop ih
  | call hslot hword hstop hf _ hparen _ ih => exact .call hslot hword hstop hf rfl hparen ih
  | identifier hslot hword hstop hf _ ih => exact .identifier hslot hword hstop hf ih

/-- A text and its tokens use none of the features that are switched off. -/
structure Permits (caps : Capabilities) (cs : List Char) (tokens : List Token) : Prop where
  decimals : caps.decimals = true ∨ '.' ∉ cs
  functions : caps.functions = true ∨ ∀ f, .function f ∉ tokens
  power : caps.power = true ∨ .operator .pow ∉ tokens

theorem Scans.permits {caps : Capabilities} {slot : Slot} {cs : List Char} {tokens : List Token}
    (h : Scans caps slot cs tokens) : Permits caps cs tokens := by
  have hadmissible := (alternates_of_scans h).admissible
  refine ⟨?decimals, ?functions, ?power⟩
  case decimals =>
    cases hcaps : caps.decimals with
    | true => exact .inl rfl
    | false => exact .inr (h.point_not_mem hcaps)
  case functions =>
    refine or_iff_not_imp_left.2 fun hcaps f hmem => hcaps ?_
    exact hadmissible (.function f) hmem
  case power =>
    refine or_iff_not_imp_left.2 fun hcaps hmem => hcaps ?_
    exact hadmissible (.operator .pow) hmem rfl

/-- What uses no feature that is switched off has no part that does. -/
theorem Permits.mono {caps : Capabilities} {cs cs' : List Char} {tokens tokens' : List Token}
    (h : Permits caps cs' tokens') (hcs : cs ⊆ cs') (htokens : tokens ⊆ tokens') :
    Permits caps cs tokens where
  decimals := h.decimals.imp_right fun hnot hmem => hnot (hcs hmem)
  functions := h.functions.imp_right fun hnot f hmem => hnot f (htokens hmem)
  power := h.power.imp_right fun hnot hmem => hnot (htokens hmem)

/-- What the whole grammar takes, a number system takes if no feature is used that it
switches off. -/
theorem Scans.of_all {caps : Capabilities} {slot : Slot} {cs : List Char} {tokens : List Token}
    (h : Scans .all slot cs tokens) (hpermits : Permits caps cs tokens) :
    Scans caps slot cs tokens := by
  induction h with
  | nil => exact .nil
  | blank hb _ ih => exact .blank hb (ih (hpermits.mono (by simp) (by simp)))
  | rightParen _ ih => exact .rightParen (ih (hpermits.mono (by simp) (by simp)))
  | factorial _ ih => exact .factorial (ih (hpermits.mono (by simp) (by simp)))
  | binary hop _ _ ih =>
    refine .binary hop ?_ (ih (hpermits.mono (by simp) (by simp)))
    rintro rfl
    exact hpermits.power.resolve_right (by simp)
  | leftParen hslot _ ih => exact .leftParen hslot (ih (hpermits.mono (by simp) (by simp)))
  | sign hc _ ih => exact .sign hc (ih (hpermits.mono (by simp) (by simp)))
  | number hslot hl _ hstop _ ih =>
    refine .number hslot hl ?_ hstop (ih (hpermits.mono (by simp) (by simp)))
    intro hfraction
    refine hpermits.decimals.resolve_right fun hnot => hnot ?_
    exact List.mem_append_left _ (hl.point_mem_iff.2 hfraction)
  | @call _ _ _ _ f hslot hword hstop hf _ hparen _ ih =>
    refine .call hslot hword hstop hf ?_ hparen (ih (hpermits.mono (by simp) (by simp)))
    exact hpermits.functions.resolve_right fun hnot => hnot f (by simp)
  | identifier hslot hword hstop hf _ ih =>
    exact .identifier hslot hword hstop hf (ih (hpermits.mono (by simp) (by simp)))

theorem scans_iff_scans_all {caps : Capabilities} {slot : Slot} {cs : List Char}
    {tokens : List Token} :
    Scans caps slot cs tokens ↔ Scans .all slot cs tokens ∧ Permits caps cs tokens :=
  ⟨fun h => ⟨h.all, h.permits⟩, fun h => h.1.of_all h.2⟩

end Lexer

/-! ## Modes -/

/-- A mode takes a line: its tokens, and their postfix order. -/
structure Mode.Takes (mode : Mode) (line : String) (tokens rpn : List Token) : Prop where
  tokens_eq : tokenize mode.system.capabilities line = .ok tokens
  rpn_eq : toPostfix tokens = .ok rpn

/-- The features of a grammar only decide whether a line is taken: it is where the whole grammar
takes it in the same tokens, and there is no point in it unless fractions are allowed, no call
unless functions are, and no power unless `^` is.  So what integers take, every mode takes in the
same tokens and in the same postfix order. -/
theorem features_only_filter (line : String) :
    (∀ (caps : Capabilities) (tokens : List Token),
      tokenize caps line = .ok tokens ↔
        tokenize .all line = .ok tokens ∧
          (caps.decimals = true ∨ '.' ∉ line.toList) ∧
          (caps.functions = true ∨ ∀ f, .function f ∉ tokens) ∧
          (caps.power = true ∨ .operator .pow ∉ tokens)) ∧
    ∀ (tokens rpn : List Token), Mode.Takes .integer line tokens rpn →
      ∀ mode : Mode, mode.Takes line tokens rpn := by
  refine ⟨fun caps tokens => ?filter, fun tokens rpn h mode => ?modes⟩
  case filter =>
    rw [tokenize_eq_ok_iff, tokenize_eq_ok_iff, Lexer.scans_iff_scans_all]
    exact and_congr_right fun _ =>
      ⟨fun h => ⟨h.decimals, h.functions, h.power⟩, fun h => ⟨h.1, h.2.1, h.2.2⟩⟩
  case modes =>
    have hall : tokenize .all line = .ok tokens :=
      tokenize_eq_ok_iff.2 (tokenize_eq_ok_iff.1 h.tokens_eq).all
    cases mode with
    | float => exact ⟨hall, h.rpn_eq⟩
    | integer => exact h
    | decimal => exact ⟨hall, h.rpn_eq⟩

end Abacus
