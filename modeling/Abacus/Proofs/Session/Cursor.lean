/-
Abacus.Proofs.Session.Cursor — the word that is completed.

A word is meant to be the name at the cursor, with a colon in front of it if that
opens a command (`IsWordAt`).  What is taken is the run of all characters of names
and commands, from one byte behind the character in front of it
(`wordAt?_of_narrow`, `wordAt?_of_not_narrow`).  So the word is the one meant unless
that character is wider than a byte, where the line cannot be cut, or a colon that
divides stands in the run (`word_at_cursor`).
-/
import Abacus.Proofs.Syntax.Spelling
import Abacus.Proofs.Syntax.Variants
import Abacus.Session.Completion

namespace Abacus

/-! ## Runs at the end of a text -/

/-- In `front ++ run`, the longest run of a class that ends the text. -/
structure EndsWithRun (p : Char → Bool) (front run : List Char) : Prop where
  all : ∀ c ∈ run, p c = true
  longest : ∀ c ∈ front.getLast?, p c = false

namespace EndsWithRun

variable {p : Char → Bool} {front run front' run' : List Char}

theorem stops_reverse (h : EndsWithRun p front run) : Stops p front.reverse := by
  intro c hc
  rw [List.head?_reverse] at hc
  exact h.longest c hc

theorem takeWhile_reverse (h : EndsWithRun p front run) :
    (front ++ run).reverse.takeWhile p = run.reverse := by
  rw [List.reverse_append]
  exact takeWhile_run (fun c hc => h.all c (List.mem_reverse.1 hc)) h.stops_reverse

theorem dropWhile_reverse (h : EndsWithRun p front run) :
    (front ++ run).reverse.dropWhile p = front.reverse := by
  rw [List.reverse_append]
  exact dropWhile_run (fun c hc => h.all c (List.mem_reverse.1 hc)) h.stops_reverse

theorem unique (h : EndsWithRun p front run) (h' : EndsWithRun p front' run')
    (heq : front ++ run = front' ++ run') : front = front' ∧ run = run' := by
  have hfront := h.dropWhile_reverse
  have hrun := h.takeWhile_reverse
  rw [heq] at hfront hrun
  exact ⟨List.reverse_injective (hfront.symm.trans h'.dropWhile_reverse),
    List.reverse_injective (hrun.symm.trans h'.takeWhile_reverse)⟩

end EndsWithRun

theorem exists_endsWithRun (p : Char → Bool) (text : List Char) :
    ∃ front run, text = front ++ run ∧ EndsWithRun p front run := by
  refine ⟨(text.reverse.dropWhile p).reverse, (text.reverse.takeWhile p).reverse, ?_, ?_, ?_⟩
  · rw [← List.reverse_append, List.takeWhile_append_dropWhile, List.reverse_reverse]
  · exact fun c hc => List.mem_takeWhile_imp (List.mem_reverse.1 hc)
  · intro c hc
    rw [List.getLast?_reverse] at hc
    exact stops_dropWhile p _ c hc

namespace Completion

theorem isWordChar_iff {c : Char} :
    isWordChar c = true ↔ Lexer.isNameChar c = true ∨ c = ':' := by
  simp [isWordChar, Lexer.isNameChar]

/-! ## The word that is meant -/

/-- A text that ends with a colon, which opens a command: only blanks are in front of it, and
these are dropped when the line is taken. -/
def OpensCommand (front : List Char) : Prop :=
  ∃ gap, Blanks gap ∧ front = gap ++ [':']

/-- The word at the end of a text: the longest run of characters of names, with the colon in
front of it if that opens a command. -/
inductive IsWordAt : List Char → Word → Prop
  | name {front run} : EndsWithRun Lexer.isNameChar front run → ¬OpensCommand front →
      IsWordAt (front ++ run) ⟨byteLength front, run⟩
  | command {gap run} : Blanks gap → EndsWithRun Lexer.isNameChar (gap ++ [':']) run →
      IsWordAt (gap ++ [':'] ++ run) ⟨byteLength gap, ':' :: run⟩

theorem IsWordAt.unique {text : List Char} {w w' : Word} (h : IsWordAt text w)
    (h' : IsWordAt text w') : w = w' := by
  generalize htext : text = text' at h'
  have hopens {gap : List Char} (hgap : Blanks gap) : OpensCommand (gap ++ [':']) :=
    ⟨gap, hgap, rfl⟩
  cases h with
  | name hrun hcolon =>
    cases h' with
    | name hrun' _ =>
      obtain ⟨rfl, rfl⟩ := hrun.unique hrun' htext
      rfl
    | command hgap hrun' =>
      obtain ⟨rfl, -⟩ := hrun.unique hrun' htext
      exact absurd (hopens hgap) hcolon
  | command hgap hrun =>
    cases h' with
    | name hrun' hcolon =>
      obtain ⟨rfl, -⟩ := hrun.unique hrun' htext
      exact absurd (hopens hgap) hcolon
    | command _ hrun' =>
      obtain ⟨hfront, rfl⟩ := hrun.unique hrun' htext
      rw [List.append_cancel_right hfront]

/-! ## The word that is taken -/

/-- The last character, if there is one, is a byte wide. -/
def Narrow (front : List Char) : Prop :=
  ∀ c ∈ front.getLast?, c.utf8Size = 1

instance (front : List Char) : Decidable (Narrow front) :=
  inferInstanceAs (Decidable (∀ c ∈ front.getLast?, _))

theorem wordStart_of_run {run : List Char} (h : EndsWithRun isWordChar [] run) :
    wordStart run = 0 := by
  have hdrop := h.dropWhile_reverse
  rw [List.nil_append] at hdrop
  rw [wordStart, hdrop, List.reverse_nil]

theorem wordStart_append {left run : List Char} {c : Char}
    (h : EndsWithRun isWordChar (left ++ [c]) run) :
    wordStart (left ++ [c] ++ run) = byteLength left + 1 := by
  rw [wordStart, h.dropWhile_reverse, List.reverse_append, List.reverse_singleton,
    List.singleton_append]
  exact congrArg (· + 1) (byteLength_reverse left)

/-- Only the text in front of the cursor matters. -/
theorem wordAt?_append (before behind : List Char) :
    wordAt? (before ++ behind) (byteLength before) =
      (splitAtByte? (wordStart before) before).map fun (_, word) => ⟨wordStart before, word⟩ := by
  unfold wordAt?
  rw [splitAtByte?_append, Option.map_eq_bind]
  rfl

section Cut

variable {front run : List Char} (h : EndsWithRun isWordChar front run) (behind : List Char)
include h

/-- A word is taken whole behind a character of one byte, or where the line starts. -/
theorem wordAt?_of_narrow (hnarrow : Narrow front) :
    wordAt? (front ++ run ++ behind) (byteLength (front ++ run)) =
      some ⟨byteLength front, run⟩ := by
  have hstart : wordStart (front ++ run) = byteLength front := by
    rcases List.eq_nil_or_concat front with rfl | ⟨left, c, rfl⟩
    · exact wordStart_of_run h
    · have hsize : c.utf8Size = 1 := hnarrow c (by simp)
      rw [List.concat_eq_append] at h ⊢
      rw [wordStart_append h, byteLength_append, byteLength, byteLength, hsize]
  rw [wordAt?_append, hstart, splitAtByte?_append]
  rfl

/-- Behind a wider character, the word would start inside of it. -/
theorem wordAt?_of_not_narrow (hwide : ¬Narrow front) :
    wordAt? (front ++ run ++ behind) (byteLength (front ++ run)) = none := by
  rcases List.eq_nil_or_concat front with rfl | ⟨left, c, rfl⟩
  · exact absurd (nofun : Narrow []) hwide
  · rw [List.concat_eq_append] at h hwide ⊢
    have hsize : 1 < c.utf8Size := by
      have hne : c.utf8Size ≠ 1 := by simpa [Narrow] using hwide
      exact lt_of_le_of_ne c.utf8Size_pos hne.symm
    rw [wordAt?_append, wordStart_append h, List.append_assoc, List.singleton_append,
      splitAtByte?_inside one_pos hsize]
    rfl

end Cut

/-! ## Where both are the same -/

/-- No blank is a character of a word. -/
theorem eq_nil_of_blanks {text : List Char} (hword : ∀ c ∈ text, isWordChar c = true)
    (hblank : Blanks text) : text = [] := by
  rw [List.eq_nil_iff_forall_not_mem]
  intro c hc
  rcases isWordChar_iff.1 (hword c hc) with hname | rfl
  · exact absurd hname (by simp [isNameChar_of_isBlank (hblank c hc)])
  · exact absurd (hblank ':' hc) (by decide)

section Agreement

variable {front run : List Char} (h : EndsWithRun isWordChar front run)
include h

/-- A run without a colon is a name. -/
theorem isWordAt_of_not_mem (hcolon : ':' ∉ run) :
    IsWordAt (front ++ run) ⟨byteLength front, run⟩ := by
  refine .name ⟨fun c hc => ?_, fun c hc => ?_⟩ ?_
  · exact (isWordChar_iff.1 (h.all c hc)).resolve_right (ne_of_mem_of_not_mem hc hcolon)
  · rw [Bool.eq_false_iff]
    intro hname
    exact absurd (isWordChar_iff.2 (.inl hname)) (by simp [h.longest c hc])
  · rintro ⟨gap, -, rfl⟩
    exact absurd (h.longest ':' (by simp)) (by decide)

/-- A run with a colon is a command if only blanks are in front of each colon. -/
theorem isWordAt_of_mem (hcolon : ':' ∈ run)
    (hopens : ∀ left right, run = left ++ ':' :: right → Blanks (front ++ left)) :
    IsWordAt (front ++ run) ⟨byteLength front, run⟩ := by
  obtain ⟨left, name, rfl⟩ := List.append_of_mem hcolon
  have hgap := hopens left name rfl
  -- the colon is the first character of the run, and no second one follows
  obtain rfl : left = [] :=
    eq_nil_of_blanks (fun c hc => h.all c (List.mem_append_left _ hc))
      fun c hc => hgap c (List.mem_append_right _ hc)
  have hname : ':' ∉ name := by
    intro hmem
    obtain ⟨middle, right, rfl⟩ := List.append_of_mem hmem
    have hsecond := hopens (':' :: middle) right rfl ':' (by simp)
    exact absurd hsecond (by decide)
  rw [List.append_nil] at hgap
  rw [List.nil_append, List.append_cons]
  refine .command hgap ⟨fun c hc => ?_, ?_⟩
  · exact (isWordChar_iff.1 (h.all c (List.mem_cons_of_mem _ hc))).resolve_right
      (ne_of_mem_of_not_mem hc hname)
  · simp [Lexer.isNameChar]

omit h in
/-- Only blanks are in front of the colons of a word. -/
theorem IsWordAt.blanks (hword : IsWordAt (front ++ run) ⟨byteLength front, run⟩)
    {left right : List Char} (hrun : run = left ++ ':' :: right) : Blanks (front ++ left) := by
  generalize htext : front ++ run = text at hword
  generalize hw : (⟨byteLength front, run⟩ : Word) = w at hword
  cases hword with
  | name hname _ =>
    obtain ⟨-, rfl⟩ := Word.mk.inj hw
    exact absurd (hname.all ':' (by simp [hrun])) (by decide)
  | command hgap hname =>
    obtain ⟨-, rfl⟩ := Word.mk.inj hw
    rw [← List.append_cons] at htext
    rw [List.append_cancel_right htext]
    cases left with
    | nil => rwa [List.append_nil]
    | cons c left =>
      obtain ⟨-, rfl⟩ := List.cons.inj hrun
      exact absurd (hname.all ':' (by simp)) (by decide)

/-- The run is the word that is meant if every colon in it opens a command. -/
theorem isWordAt_iff :
    IsWordAt (front ++ run) ⟨byteLength front, run⟩ ↔
      ∀ left right, run = left ++ ':' :: right → Blanks (front ++ left) := by
  constructor
  · intro hword left right hrun
    exact hword.blanks hrun
  · intro hopens
    by_cases hcolon : ':' ∈ run
    · exact isWordAt_of_mem h hcolon hopens
    · exact isWordAt_of_not_mem h hcolon

end Agreement

/-! ## What candidates begin with -/

/-- What the candidates for a word begin with: the word as it stands for commands, and in lower
case for all other names. -/
def stem (word : List Char) : List Char :=
  if word.head? = some ':' then word else lowercase word

theorem length_stem (word : List Char) : (stem word).length = word.length := by
  unfold stem
  split
  · rfl
  · exact List.length_map _

theorem byteLength_stem (word : List Char) : byteLength (stem word) = byteLength word := by
  unfold stem
  split
  · rfl
  · exact byteLength_lowercase word

theorem mem_startingWith_iff {word : List Char} {names : List String} {name : String} :
    name ∈ startingWith word names ↔ name ∈ names ∧ word <+: name.toList := by
  simp [startingWith]

theorem mem_functionNames_iff {mode : Mode} {word : List Char} {candidate : String} :
    candidate ∈ functionNames mode word ↔ mode ≠ .integer ∧
      ∃ f : Elementary, word <+: f.name.toList ∧ candidate = f.name ++ "(" := by
  unfold functionNames
  split_ifs with hmode
  · exact iff_of_false List.not_mem_nil fun h => h.1 hmode
  · rw [List.mem_map]
    constructor
    · rintro ⟨name, hname, rfl⟩
      obtain ⟨hall, hprefix⟩ := mem_startingWith_iff.1 hname
      obtain ⟨f, -, rfl⟩ := List.mem_map.1 hall
      exact ⟨hmode, f, hprefix, rfl⟩
    · rintro ⟨-, f, hprefix, rfl⟩
      have hall : f.name ∈ Elementary.all.map Elementary.name :=
        List.mem_map_of_mem (by cases f <;> decide)
      exact ⟨_, mem_startingWith_iff.2 ⟨hall, hprefix⟩, rfl⟩

theorem stem_prefix_of_mem_candidates {mode : Mode} {names : List String} {word : List Char}
    {candidate : String} (h : candidate ∈ candidates mode names word) :
    stem word <+: candidate.toList := by
  unfold candidates at h
  unfold stem
  split_ifs at h ⊢ with hcolon
  · exact (mem_startingWith_iff.1 h).2
  · rw [List.mem_mergeSort, List.mem_append] at h
    rcases h with h | h
    · obtain ⟨-, f, hf, rfl⟩ := mem_functionNames_iff.1 h
      rw [String.toList_append]
      exact hf.trans (List.prefix_append _ _)
    · exact (mem_startingWith_iff.1 h).2

/-- A candidate can be cut behind as many bytes as the word has. -/
theorem exists_splitAtByte?_of_mem_candidates {mode : Mode} {names : List String}
    {word : List Char} {candidate : String} (h : candidate ∈ candidates mode names word) :
    ∃ rest, splitAtByte? (byteLength word) candidate.toList = some (stem word, rest) := by
  obtain ⟨rest, hrest⟩ := stem_prefix_of_mem_candidates h
  refine ⟨rest, ?_⟩
  rw [← hrest, ← byteLength_stem, splitAtByte?_append]

/-! ## The word at the cursor -/

/-- Wherever the cursor is in a line, the word reaches back over all characters of names and
commands.  It can be taken exactly if the character in front of it is a byte wide, or there is
none; every candidate can then be cut where the hint begins.  And it is the word that is meant
exactly if it can be taken and every colon in it opens a command. -/
theorem word_at_cursor (before behind : List Char) :
    ∃ front run, before = front ++ run ∧ EndsWithRun isWordChar front run ∧
      wordAt? (before ++ behind) (byteLength before) =
        (if Narrow front then some ⟨byteLength front, run⟩ else none) ∧
      (∀ mode names, ∀ candidate ∈ candidates mode names run, ∃ rest,
        splitAtByte? (byteLength run) candidate.toList = some (stem run, rest)) ∧
      ((∃ w, wordAt? (before ++ behind) (byteLength before) = some w ∧ IsWordAt before w) ↔
        Narrow front ∧ ∀ left right, run = left ++ ':' :: right → Blanks (front ++ left)) := by
  obtain ⟨front, run, rfl, hrun⟩ := exists_endsWithRun isWordChar before
  refine ⟨front, run, rfl, hrun, ?_, fun _ _ _ => exists_splitAtByte?_of_mem_candidates, ?_⟩
  · split_ifs with hnarrow
    · exact wordAt?_of_narrow hrun behind hnarrow
    · exact wordAt?_of_not_narrow hrun behind hnarrow
  · by_cases hnarrow : Narrow front
    · rw [wordAt?_of_narrow hrun behind hnarrow, ← isWordAt_iff hrun]
      simp [hnarrow]
    · rw [wordAt?_of_not_narrow hrun behind hnarrow]
      simp [hnarrow]

/-- Behind a multiplication cross of two bytes no word can be taken, and a colon that divides is
taken as part of the word. -/
theorem not_isWordAt_behind_cross_or_division :
    (¬∃ w, wordAt? "2×sq".toList 5 = some w ∧ IsWordAt "2×sq".toList w) ∧
      ¬∃ w, wordAt? "8:sq".toList 4 = some w ∧ IsWordAt "8:sq".toList w := by
  constructor
  · rintro ⟨w, hw, -⟩
    have hnone : wordAt? "2×sq".toList 5 = none := by decide +kernel
    rw [hnone] at hw
    cases hw
  · rintro ⟨w, hw, hword⟩
    have hsome : wordAt? "8:sq".toList 4 = some ⟨0, ['8', ':', 's', 'q']⟩ := by decide +kernel
    have hmeant : IsWordAt (['8', ':'] ++ ['s', 'q']) ⟨2, ['s', 'q']⟩ := by
      refine .name ⟨by simp [Lexer.isNameChar], by simp [Lexer.isNameChar]⟩ ?_
      rintro ⟨gap, hgap, heq⟩
      have hgap_eq : ['8'] ++ [':'] = gap ++ [':'] := heq
      obtain rfl : ['8'] = gap := List.append_cancel_right hgap_eq
      exact absurd (hgap '8' (by simp)) (by decide)
    rw [hsome] at hw
    cases hw
    cases hword.unique hmeant

end Completion

end Abacus
