/-
Abacus.Proofs.Session.Targets — what can be assigned to, and what is read as a variable.

A name is recognised twice: in front of an equals sign, where blanks are dropped
and every character is checked, and by the lexer.  Both accept a name between
blanks and fold it alike (`name_eq_ok_iff_names`, `tokenize_eq_identifier_iff`), so
whatever can be assigned is read under the name that it was stored by.  Only a plus
sign in front is read over by the lexer alone.
-/
import Abacus.Proofs.Session.Invariant

namespace Abacus

/-! ## Blanks around a text -/

/-- The blanks behind a text without blanks are dropped. -/
theorem trim_append_blanks {cs gap : List Char} (hcs : ∀ c ∈ cs, isBlank c = false)
    (hgap : Blanks gap) : trim (cs ++ gap) = cs := by
  have hend : trimEnd (cs ++ gap) = cs := by
    have hstops : Stops isBlank cs.reverse :=
      fun c hc => hcs c (List.mem_reverse.1 (List.mem_of_mem_head? hc))
    have hblank : ∀ c ∈ gap.reverse, isBlank c = true := fun c hc => hgap c (List.mem_reverse.1 hc)
    rw [trimEnd, List.reverse_append, dropWhile_run hblank hstops, List.reverse_reverse]
  cases cs with
  | nil =>
    have hstart : trimStart gap = [] := List.dropWhile_eq_nil_iff.2 hgap
    rw [trim, List.nil_append, hstart]
    rfl
  | cons c cs =>
    have hstart : trimStart (c :: cs ++ gap) = c :: cs ++ gap := by
      rw [trimStart, List.cons_append, List.dropWhile_cons, hcs c List.mem_cons_self]
      rfl
    rw [trim, hstart, hend]

theorem trim_blanks_append {gap : List Char} (hgap : Blanks gap) (cs : List Char) :
    trim (gap ++ cs) = trim cs := by
  rw [trim, trim, trimStart, List.dropWhile_append_of_pos hgap, trimStart]

/-- Only blanks are dropped. -/
theorem exists_trim (cs : List Char) :
    ∃ before after, Blanks before ∧ Blanks after ∧ cs = before ++ (trim cs ++ after) := by
  have hstart : cs = cs.takeWhile isBlank ++ trimStart cs :=
    List.takeWhile_append_dropWhile.symm
  have hend : trimStart cs = trim cs ++ ((trimStart cs).reverse.takeWhile isBlank).reverse := by
    rw [trim, trimEnd, ← List.reverse_append, List.takeWhile_append_dropWhile, List.reverse_reverse]
  refine ⟨cs.takeWhile isBlank, ((trimStart cs).reverse.takeWhile isBlank).reverse, ?_, ?_, ?_⟩
  · exact fun c hc => List.mem_takeWhile_imp hc
  · exact fun c hc => List.mem_takeWhile_imp (List.mem_reverse.1 hc)
  · rw [← hend]
    exact hstart

/-! ## Names between blanks -/

/-- A text is a name of a variable, in any case and between blanks. -/
inductive Names (name : String) : List Char → Prop
  | mk {before word after} : IsVariableName name → Blanks before → lowercase word = name.toList →
      Blanks after → Names name (before ++ (word ++ after))

/-- A text can be assigned to if it is a name between blanks. -/
theorem Assignment.name_eq_ok_iff_names {target : List Char} {name : String} :
    Assignment.name target = .ok name ↔ Names name target := by
  rw [name_eq_ok_iff]
  constructor
  · rintro ⟨htext, hname⟩
    obtain ⟨before, after, hbefore, hafter, htarget⟩ := exists_trim target
    rw [htarget]
    exact .mk hname hbefore htext.symm hafter
  · rintro @⟨before, word, after, hname, hbefore, hword, hafter⟩
    have hfolded := hname.folded
    rw [← hword] at hfolded
    obtain ⟨c, cs, rfl, hc, hcs⟩ := Lexer.isWord_of_lowercase hfolded
    have hsolid : ∀ d ∈ c :: cs, isBlank d = false := by
      refine List.forall_mem_cons.2 ⟨isBlank_of_isAlpha hc, fun d hd => ?_⟩
      rw [Bool.eq_false_iff]
      intro hb
      cases (isNameChar_of_isBlank hb).symm.trans (hcs d hd)
    rw [trim_blanks_append hbefore, trim_append_blanks hsolid hafter]
    exact ⟨hword.symm, hname⟩

namespace Lexer

variable {caps : Capabilities} {cs : List Char} {name : String}

/-- Behind an operand, only blanks give no tokens. -/
theorem Scans.blanks (h : Scans caps .operator cs []) : Blanks cs := by
  -- a scan goes on in other slots and with other tokens, so both become variables
  generalize hslot : Slot.operator = slot at h
  generalize htokens : [] = tokens at h
  induction h with
  | nil => exact List.forall_mem_nil _
  | blank hb _ ih => exact List.forall_mem_cons.2 ⟨hb, ih hslot htokens⟩
  | sign => cases hslot
  | leftParen hne => exact absurd hslot.symm hne
  | call hne => exact absurd hslot.symm hne
  | identifier hne => exact absurd hslot.symm hne
  | _ => cases htokens

/-- A variable behind a minus sign is two tokens. -/
theorem not_scans_signed : ¬Scans caps (.signed true) cs [.identifier name] := by
  intro h
  generalize hslot : Slot.signed true = slot at h
  generalize htokens : [Token.identifier name] = tokens at h
  induction h with
  | blank _ _ ih => exact ih hslot htokens
  | leftParen => subst hslot; simp [Slot.signTokens] at htokens
  | number => cases htokens
  | call => subst hslot; simp [Slot.signTokens] at htokens
  | identifier => subst hslot; simp [Slot.signTokens] at htokens
  | _ => cases hslot

/-- A text without a plus sign that is read as one variable is a name between blanks. -/
theorem names_of_scans (h : Scans caps .operand cs [.identifier name]) (hplus : '+' ∉ cs) :
    Names name cs := by
  generalize hslot : Slot.operand = slot at h
  generalize htokens : [Token.identifier name] = tokens at h
  induction h with
  | @blank slot c cs tokens hb _ ih =>
    obtain ⟨hname, hbefore, hword, hafter⟩ := ih (List.not_mem_of_not_mem_cons hplus) hslot htokens
    rw [← List.cons_append]
    exact .mk hname (List.forall_mem_cons.2 ⟨hb, hbefore⟩) hword hafter
  | leftParen => subst hslot; simp [Slot.signTokens] at htokens
  | sign hc hrest =>
    subst htokens
    rcases hc with rfl | rfl
    · exact absurd List.mem_cons_self hplus
    · exact absurd hrest not_scans_signed
  | number => cases htokens
  | call => subst hslot; simp [Slot.signTokens] at htokens
  | @identifier slot word rest tokens _ hword _ hf hrest =>
    subst hslot
    obtain ⟨rfl, rfl⟩ : name = String.ofList (lowercase word) ∧ tokens = [] := by
      simpa [Slot.signTokens, eq_comm] using htokens
    rw [← List.nil_append (word ++ rest)]
    exact .mk (isVariableName_of_isWord hword hf) (List.forall_mem_nil _)
      String.toList_ofList.symm hrest.blanks
  | _ => cases hslot

end Lexer

/-- The lexer reads a text without a plus sign as one variable if it is a name between blanks. -/
theorem tokenize_eq_identifier_iff {caps : Capabilities} {line name : String}
    (hplus : '+' ∉ line.toList) :
    tokenize caps line = .ok [.identifier name] ↔ Names name line.toList := by
  constructor
  · intro h
    exact Lexer.names_of_scans (tokenize_eq_ok_iff.1 h) hplus
  · intro h
    generalize htext : line.toList = text at h
    obtain ⟨hname, hbefore, hword, hafter⟩ := h
    rw [← String.ofList_toList (s := line), htext]
    exact tokenize_name hname hbefore hword hafter caps

/-- A text without a plus sign can be assigned to exactly if the lexer reads it as one variable,
which then has the name that is assigned. -/
theorem targets_are_variables (caps : Capabilities) (text name : String)
    (hplus : '+' ∉ text.toList) :
    Assignment.name text.toList = .ok name ↔ tokenize caps text = .ok [.identifier name] := by
  rw [Assignment.name_eq_ok_iff_names, tokenize_eq_identifier_iff hplus]

/-- The blanks around a target can be any, and its case is folded. -/
theorem targets_are_variables_between_blanks :
    '+' ∉ " Rate_1\u00a0".toList ∧
      Assignment.name " Rate_1\u00a0".toList = .ok "rate_1" ∧
      tokenize .all " Rate_1\u00a0" = .ok [.identifier "rate_1"] := by
  have hplus : '+' ∉ " Rate_1\u00a0".toList := by decide +kernel
  have hname : Assignment.name " Rate_1\u00a0".toList = .ok "rate_1" := by decide +kernel
  exact ⟨hplus, hname, (targets_are_variables .all _ _ hplus).1 hname⟩

/-- A plus sign in front is read over by the lexer, but it does not belong to a name. -/
example : tokenize .all "+x" = .ok [.identifier "x"] ∧
    Assignment.name "+x".toList = .error (.invalid "+x") := by
  decide +kernel

end Abacus
