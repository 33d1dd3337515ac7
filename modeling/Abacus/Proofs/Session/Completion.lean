/-
Abacus.Proofs.Session.Completion — hints say what completion would add.

Completion passes over numbers, and a hint over words of one character.  All the same,
a hint is found for longer words exactly where completion has one candidate that is
longer than the word, and it is the rest of that candidate
(`hints_agree_with_candidates`).  This rests on the names of the session: they start
with a letter, so that no number has a candidate (`complete_eq_candidates`), and have
no parenthesis, so that functions and variables are never the same candidate
(`candidates_pairwise_lt`).
-/
import Abacus.Proofs.Session.Cursor
import Abacus.Proofs.Session.Replay

namespace Abacus

namespace Completion

/-! ## Sorted candidates -/

theorem pairwise_lt_mergeSort {names : List String} (h : names.Nodup) :
    (names.mergeSort fun a b => decide (a ≤ b)).Pairwise (· < ·) := by
  have hsorted : (names.mergeSort fun a b => decide (a ≤ b)).Pairwise (· ≤ ·) := by
    refine (List.pairwise_mergeSort ?_ ?_ names).imp fun hle => of_decide_eq_true hle
    · intro a b c hab hbc
      exact decide_eq_true ((of_decide_eq_true hab).trans (of_decide_eq_true hbc))
    · intro a b
      simpa using le_total a b
  have hnodup := (List.mergeSort_perm names fun a b => decide (a ≤ b)).nodup_iff.2 h
  exact hsorted.imp₂ (fun _ _ => lt_of_le_of_ne) hnodup

theorem nodup_functionNames (mode : Mode) (word : List Char) :
    (functionNames mode word).Nodup := by
  have happend : Function.Injective fun name => name ++ "(" := by
    intro a b heq
    simpa using heq
  have hall : (Elementary.all.map Elementary.name).Nodup := by decide +kernel
  unfold functionNames
  split_ifs
  · exact List.nodup_nil
  · exact (hall.filter _).map happend

section Names

variable {names : List String} (hnames : ∀ name ∈ names, IsVariableName name)
include hnames

/-- Candidates for functions end with a parenthesis, which no variable has. -/
theorem disjoint_functionNames (mode : Mode) (word : List Char) :
    List.Disjoint (functionNames mode word) (startingWith word names) := by
  intro candidate hfunction hvariable
  obtain ⟨-, f, -, rfl⟩ := mem_functionNames_iff.1 hfunction
  have hname := hnames _ (mem_startingWith_iff.1 hvariable).1
  have hfolded := hname.isFolded '(' (by simp)
  exact absurd hfolded (by decide)

/-- All candidates but commands are in order, and none is there twice. -/
theorem candidates_pairwise_lt (hnodup : names.Nodup) (mode : Mode) {word : List Char}
    (hword : word.head? ≠ some ':') : (candidates mode names word).Pairwise (· < ·) := by
  unfold candidates
  rw [if_neg hword]
  exact pairwise_lt_mergeSort ((nodup_functionNames mode _).append (hnodup.filter _)
    (disjoint_functionNames hnames mode _))

/-- No name starts with a digit. -/
theorem candidates_of_isDigit (mode : Mode) {c : Char} (hc : c.isDigit = true)
    (cs : List Char) : candidates mode names (c :: cs) = [] := by
  have hcolon : (c :: cs).head? ≠ some ':' := by
    rintro heq
    obtain rfl : c = ':' := by simpa using heq
    exact absurd hc (by decide)
  have hfolded : lowercase (c :: cs) = c :: lowercase cs := by
    rw [lowercase_cons, toLower_of_isDigit hc]
  have hfirst {text : List Char} (htext : IsFoldedName text) : ¬c :: lowercase cs <+: text := by
    rintro ⟨rest, rfl⟩
    have hlower := htext.1
    rw [isLower_iff] at hlower
    rw [isDigit_iff] at hc
    omega
  rw [List.eq_nil_iff_forall_not_mem]
  intro candidate h
  unfold candidates at h
  rw [if_neg hcolon, hfolded, List.mem_mergeSort, List.mem_append] at h
  rcases h with h | h
  · obtain ⟨-, f, hf, -⟩ := mem_functionNames_iff.1 h
    exact hfirst (Lexer.isFoldedName_name f) hf
  · obtain ⟨hmem, hprefix⟩ := mem_startingWith_iff.1 h
    exact hfirst (hnames _ hmem).folded hprefix

/-- That numbers have no candidates need not be checked. -/
theorem complete_eq_candidates (mode : Mode) {word : Word} (hword : word.text ≠ []) :
    complete mode names word = candidates mode names word.text := by
  unfold complete
  split
  · next htext => exact absurd htext hword
  · next c cs htext =>
    split_ifs with hdigit
    · rw [htext, candidates_of_isDigit hnames mode hdigit cs]
    · rfl

end Names

/-! ## Hints -/

section Hint

variable {mode : Mode} {names : List String} {word : Word}

/-- Behind its stem, the only candidate goes on with the hint, if it goes on at all. -/
theorem hint?_of_only {only : String} (hlong : 2 ≤ word.text.length)
    (honly : candidates mode names word.text = [only]) (rest : String) :
    hint? mode names word = some rest ↔
      word.text.length < only.length ∧ only = String.ofList (stem word.text) ++ rest := by
  have hmem : only ∈ candidates mode names word.text := by simp [honly]
  obtain ⟨behind, hbehind⟩ := stem_prefix_of_mem_candidates hmem
  have hsplit : only = String.ofList (stem word.text) ++ String.ofList behind := by
    rw [← String.ofList_append, hbehind, String.ofList_toList]
  have hdrop : only.toList.drop word.text.length = behind := by
    rw [← hbehind, ← length_stem, List.drop_left]
  have hlength : only.length = word.text.length + behind.length := by
    rw [← String.length_toList, ← hbehind, List.length_append, length_stem]
  have hhint : hint? mode names word =
      if behind.isEmpty then none else some (String.ofList behind) := by
    rw [hint?, if_neg (not_lt.2 hlong), honly]
    dsimp only
    rw [hdrop]
  rw [hhint, hlength, hsplit]
  cases behind with
  | nil => simp
  | cons c cs => simp

/-- Candidates that are not alone give no hint. -/
theorem exists_only_of_hint? {rest : String} (h : hint? mode names word = some rest) :
    2 ≤ word.text.length ∧ ∃ only, candidates mode names word.text = [only] := by
  unfold hint? at h
  split_ifs at h with hshort
  refine ⟨not_lt.1 hshort, ?_⟩
  split at h
  · next only honly => exact ⟨only, honly⟩
  · cases h

theorem hint?_eq_some_iff {rest : String} :
    hint? mode names word = some rest ↔ 2 ≤ word.text.length ∧
      ∃ only, candidates mode names word.text = [only] ∧
        word.text.length < only.length ∧ only = String.ofList (stem word.text) ++ rest := by
  constructor
  · intro h
    obtain ⟨hlong, only, honly⟩ := exists_only_of_hint? h
    exact ⟨hlong, only, honly, (hint?_of_only hlong honly rest).1 h⟩
  · rintro ⟨hlong, only, honly, h⟩
    exact (hint?_of_only hlong honly rest).2 h

end Hint

/-! ## Lines of ASCII characters -/

/-- Only ASCII characters stand in the text. -/
def IsAscii (text : List Char) : Prop :=
  ∀ c ∈ text, c.toNat < 128

theorem utf8Size_of_lt {c : Char} (h : c.toNat < 128) : c.utf8Size = 1 := by
  rw [Char.utf8Size_eq_one_iff, UInt32.le_iff_toNat_le]
  exact Nat.le_of_lt_succ h

/-- In a line of ASCII characters there is a word at the end. -/
theorem exists_wordAt?_of_isAscii {line : List Char} (h : IsAscii line) :
    ∃ w, wordAt? line (byteLength line) = some w := by
  obtain ⟨front, run, rfl, hrun⟩ := exists_endsWithRun isWordChar line
  have hnarrow : Narrow front := fun c hc =>
    utf8Size_of_lt (h c (List.mem_append_left _ (List.mem_of_getLast? hc)))
  have hword := wordAt?_of_narrow hrun [] hnarrow
  rw [List.append_nil] at hword
  exact ⟨_, hword⟩

theorem hintAt?_end {mode : Mode} {names : List String} {line : List Char} {w : Word}
    (hw : wordAt? line (byteLength line) = some w) :
    hintAt? mode names line (byteLength line) = hint? mode names w := by
  rw [hintAt?, if_neg (lt_irrefl _), hw]
  rfl

end Completion

/-! ## The names of a session -/

theorem Variables.nodup_names (vars : Variables) : vars.names.Nodup :=
  (List.pairwise_map.2 vars.sorted).imp fun h => ne_of_lt h

theorem Session.Sound.isVariableName_of_mem {s : Session} (h : s.Sound) :
    ∀ name ∈ s.vars.names, IsVariableName name := by
  intro name hname
  obtain ⟨entry, hentry, rfl⟩ := List.mem_map.1 hname
  exact h.named entry hentry

namespace Completion

/-! ## Hints and candidates -/

/-- In every session that can be reached, at the end of every line of ASCII characters: there is
a hint exactly if the word has two characters or more and completion has one candidate, which is
longer; the candidate is then the word with the hint behind it, in lower case if it is no
command.  And the candidates for a word that is no command are in order, none twice, and all
begin with the word in lower case. -/
theorem hints_agree_with_candidates {s : Session} (hs : s.Reachable) {line : List Char}
    (hline : IsAscii line) :
    ∃ w, wordAt? line (byteLength line) = some w ∧
      (∀ rest, hintAt? s.mode s.vars.names line (byteLength line) = some rest ↔
        2 ≤ w.text.length ∧ ∃ candidate, complete s.mode s.vars.names w = [candidate] ∧
          w.text.length < candidate.length ∧
          candidate = String.ofList (stem w.text) ++ rest) ∧
      (w.text.head? ≠ some ':' → (complete s.mode s.vars.names w).Pairwise (· < ·) ∧
        ∀ candidate ∈ complete s.mode s.vars.names w,
          lowercase w.text <+: candidate.toList) := by
  obtain ⟨w, hw⟩ := exists_wordAt?_of_isAscii hline
  have hnames := hs.sound.isVariableName_of_mem
  refine ⟨w, hw, fun rest => ?_, fun hcolon => ?_⟩
  · rw [hintAt?_end hw, hint?_eq_some_iff, and_congr_right_iff]
    intro hlong
    have hword : w.text ≠ [] := List.ne_nil_of_length_pos (by omega)
    rw [complete_eq_candidates hnames s.mode hword]
  · rcases eq_or_ne w.text [] with hword | hword
    · simp [complete, hword]
    · rw [complete_eq_candidates hnames s.mode hword]
      refine ⟨candidates_pairwise_lt hnames s.vars.nodup_names s.mode hcolon, ?_⟩
      intro candidate hmem
      have hprefix := stem_prefix_of_mem_candidates hmem
      rwa [stem, if_neg hcolon] at hprefix

/-- Behind an operator and in another case, the beginning of a name is completed by the hint. -/
theorem hints_agree_with_candidates_rate :
    ∃ s : Session, s.Reachable ∧ IsAscii ['2', '*', 'R', 'A'] ∧
      complete s.mode s.vars.names ⟨2, ['R', 'A']⟩ = ["rate_1"] ∧
      hintAt? s.mode s.vars.names ['2', '*', 'R', 'A'] 4 = some "te_1" := by
  have hreach : ((Session.start .float).after
      [.line "Rate_1 = 1 / 4", .line "sum = 2"]).Reachable := ⟨_, _, rfl⟩
  have hcandidates : complete ((Session.start .float).after
      [.line "Rate_1 = 1 / 4", .line "sum = 2"]).mode ((Session.start .float).after
      [.line "Rate_1 = 1 / 4", .line "sum = 2"]).vars.names ⟨2, ['R', 'A']⟩ = ["rate_1"] := by
    decide +kernel
  have hline : IsAscii ['2', '*', 'R', 'A'] := by
    simp [IsAscii]
  obtain ⟨w, hw, hhint, -⟩ := hints_agree_with_candidates hreach hline
  have hword : wordAt? ['2', '*', 'R', 'A'] 4 = some ⟨2, ['R', 'A']⟩ := by decide +kernel
  obtain rfl : w = ⟨2, ['R', 'A']⟩ := Option.some.inj (hw.symm.trans hword)
  exact ⟨_, hreach, hline, hcandidates,
    (hhint "te_1").2 ⟨by decide, _, hcandidates, by decide +kernel, by decide +kernel⟩⟩

end Completion

end Abacus
