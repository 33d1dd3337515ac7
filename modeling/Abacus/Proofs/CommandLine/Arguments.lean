/-
Abacus.Proofs.CommandLine.Arguments — command lines one behind the other.

A command line is flags in front (`Reads`) and then its end, which is an
expression, an error or nothing (`Ends`); each has only one such form
(`splits`).  What flags ask for is added to what was asked before
(`followedBy`).  So a command line without an expression can go on with any other
one, which is read as if it stood alone (`parse_append`), and where there is an
expression it is all that follows the first `-c`.
-/
import Abacus.CommandLine.Arguments
import Mathlib

namespace Abacus.Arguments

/-! ## What flags ask for -/

/-- What a command line asks for and what another one behind it does. -/
def followedBy (first second : Arguments) : Arguments where
  command := second.command.or first.command
  mode := second.mode.or first.mode
  assignments := first.assignments ++ second.assignments
  help := first.help || second.help
  version := first.version || second.version

theorem none_followedBy (read : Arguments) : none.followedBy read = read := by
  simp [followedBy, none]

theorem followedBy_none (read : Arguments) : read.followedBy none = read := by
  simp [followedBy, none]

theorem followedBy_assoc (first second third : Arguments) :
    (first.followedBy second).followedBy third = first.followedBy (second.followedBy third) := by
  simp [followedBy, Option.or_assoc, Bool.or_assoc]

/-- `Takes piece asked`: a flag with its value, and what it asks for. -/
inductive Takes : List String → Arguments → Prop
  | mode {text name mode} : Flag.ofText? text = some .mode → Mode.ofName name = .ok mode →
      Takes [text, name] { none with mode := some mode }
  | assignment {text value} : Flag.ofText? text = some .assignment → '=' ∈ value.toList →
      Takes [text, value] { none with assignments := [value] }
  | help {text} : Flag.ofText? text = some .help → Takes [text] { none with help := true }
  | version {text} : Flag.ofText? text = some .version →
      Takes [text] { none with version := true }

/-- `Reads front asked`: flags with their values, and what all of them ask for. -/
inductive Reads : List String → Arguments → Prop
  | nil : Reads [] none
  | cons {piece front asked asked'} : Takes piece asked → Reads front asked' →
      Reads (piece ++ front) (asked.followedBy asked')

/-- `Ends rest result`: no flag with its value is in front, and that is what comes of it. -/
inductive Ends : List String → Except ArgumentError Arguments → Prop
  | nil : Ends [] (.ok none)
  | command {text words} : Flag.ofText? text = some .command → words ≠ [] →
      Ends (text :: words) (.ok { none with command := some (" ".intercalate words) })
  | missingExpression {text} : Flag.ofText? text = some .command →
      Ends [text] (.error .missingExpression)
  | missingMode {text} : Flag.ofText? text = some .mode → Ends [text] (.error .missingMode)
  | unknownMode {text name word rest} : Flag.ofText? text = some .mode →
      Mode.ofName name = .error word → Ends (text :: name :: rest) (.error (.unknownMode word))
  | missingAssignment {text} : Flag.ofText? text = some .assignment →
      Ends [text] (.error .missingAssignment)
  | notAnAssignment {text value rest} : Flag.ofText? text = some .assignment →
      '=' ∉ value.toList → Ends (text :: value :: rest) (.error (.notAnAssignment value))
  | unknownArgument {text rest} : Flag.ofText? text = .none →
      Ends (text :: rest) (.error (.unknownArgument text))

theorem Reads.of_takes {piece : List String} {asked : Arguments} (h : Takes piece asked) :
    Reads piece asked := by
  have hreads := Reads.cons h .nil
  rwa [List.append_nil, followedBy_none] at hreads

theorem Reads.append {front behind : List String} {asked asked' : Arguments}
    (h : Reads front asked) (h' : Reads behind asked') :
    Reads (front ++ behind) (asked.followedBy asked') := by
  induction h with
  | nil => rwa [List.nil_append, none_followedBy]
  | cons htakes _ ih =>
    rw [List.append_assoc, followedBy_assoc]
    exact .cons htakes ih

theorem reads_assignments {lines : List String} (h : ∀ line ∈ lines, '=' ∈ line.toList) :
    Reads (lines.flatMap (["-v", ·])) { none with assignments := lines } := by
  induction lines with
  | nil => exact .nil
  | cons line lines ih =>
    obtain ⟨hline, hlines⟩ := List.forall_mem_cons.1 h
    exact .cons (.assignment rfl hline) (ih hlines)

/-! ## Command lines as flags -/

/-- No flag takes a `-c` as its value. -/
theorem Takes.command_not_mem {piece : List String} {asked : Arguments} (h : Takes piece asked) :
    "-c" ∉ piece := by
  have other {text : String} {flag : Flag} (htext : Flag.ofText? text = some flag)
      (hflag : flag ≠ .command) : "-c" ≠ text := by
    rintro rfl
    exact hflag (Option.some.inj htext).symm
  cases h with
  | @mode text name mode htext hmode =>
    have hname : "-c" ≠ name := by
      rintro rfl
      cases hmode
    simp [other htext nofun, hname]
  | @assignment text value htext hequals =>
    have hvalue : "-c" ≠ value := by
      rintro rfl
      simp at hequals
    simp [other htext nofun, hvalue]
  | help htext => simp [other htext nofun]
  | version htext => simp [other htext nofun]

theorem Reads.command_not_mem {front : List String} {asked : Arguments} (h : Reads front asked) :
    "-c" ∉ front := by
  induction h with
  | nil => exact List.not_mem_nil
  | cons htakes _ ih => exact List.not_mem_append htakes.command_not_mem ih

theorem parseFrom_of_takes {piece : List String} {asked : Arguments} (h : Takes piece asked)
    (read : Arguments) (rest : List String) :
    parseFrom read (piece ++ rest) = parseFrom (read.followedBy asked) rest := by
  cases h with
  | mode htext hmode =>
    simp [parseFrom, htext, hmode, followedBy, none]
  | assignment htext hequals =>
    simp [parseFrom, htext, hequals, followedBy, none]
  | help htext => simp [parseFrom, htext, followedBy, none]
  | version htext => simp [parseFrom, htext, followedBy, none]

/-- Flags are read off the front, and what they ask for is kept. -/
theorem parseFrom_of_reads {front : List String} {asked : Arguments} (h : Reads front asked)
    (read : Arguments) (rest : List String) :
    parseFrom read (front ++ rest) = parseFrom (read.followedBy asked) rest := by
  induction h generalizing read with
  | nil => rw [List.nil_append, followedBy_none]
  | cons htakes _ ih => rw [List.append_assoc, parseFrom_of_takes htakes, ih, followedBy_assoc]

theorem parseFrom_of_ends {rest : List String} {result : Except ArgumentError Arguments}
    (h : Ends rest result) (read : Arguments) :
    parseFrom read rest = result.map read.followedBy := by
  cases h with
  | nil => rw [Except.map, followedBy_none, parseFrom]
  | @command text words htext hne =>
    obtain ⟨word, words, rfl⟩ := List.exists_cons_of_ne_nil hne
    simp [parseFrom, htext, Except.map, followedBy, none]
  | missingExpression htext => simp [parseFrom, htext, Except.map]
  | missingMode htext => simp [parseFrom, htext, Except.map]
  | unknownMode htext hname => simp [parseFrom, htext, hname, Except.map]
  | missingAssignment htext => simp [parseFrom, htext, Except.map]
  | notAnAssignment htext hequals => simp [parseFrom, htext, hequals, Except.map]
  | unknownArgument htext => simp [parseFrom, htext, Except.map]

/-- A command line as flags with their values, and an end. -/
inductive Splits : List String → Prop
  | mk {front rest asked result} : Reads front asked → Ends rest result → Splits (front ++ rest)

theorem Ends.splits {rest : List String} {result : Except ArgumentError Arguments}
    (h : Ends rest result) : Splits rest :=
  .mk .nil h

theorem Splits.behind {piece rest : List String} {asked : Arguments} (htakes : Takes piece asked)
    (h : Splits rest) : Splits (piece ++ rest) := by
  obtain ⟨hreads, hends⟩ := h
  rw [← List.append_assoc]
  exact .mk (.cons htakes hreads) hends

theorem splits (arguments : List String) : Splits arguments := by
  fun_induction parseFrom none arguments with
  | case1 => exact Ends.nil.splits
  | case2 _ text htext => exact (Ends.missingExpression htext).splits
  | case3 _ text words hne htext => exact (Ends.command htext hne).splits
  | case4 _ text htext => exact (Ends.missingMode htext).splits
  | case5 _ text name rest htext mode hmode ih => exact ih.behind (.mode htext hmode)
  | case6 _ text name rest htext word hword => exact (Ends.unknownMode htext hword).splits
  | case7 _ text htext => exact (Ends.missingAssignment htext).splits
  | case8 _ text value rest htext hequals ih =>
    exact ih.behind (.assignment htext (List.contains_iff_mem.1 hequals))
  | case9 _ text value rest htext hequals =>
    exact (Ends.notAnAssignment htext fun hmem => hequals (List.contains_iff_mem.2 hmem)).splits
  | case10 _ text rest htext ih => exact ih.behind (.help htext)
  | case11 _ text rest htext ih => exact ih.behind (.version htext)
  | case12 _ text rest htext => exact (Ends.unknownArgument htext).splits

theorem parse_of_ends {front rest : List String} {asked : Arguments}
    {result : Except ArgumentError Arguments} (hreads : Reads front asked)
    (hends : Ends rest result) : parse (front ++ rest) = result.map asked.followedBy := by
  rw [parse, parseFrom_of_reads hreads, none_followedBy, parseFrom_of_ends hends]

theorem parse_of_reads {front : List String} {asked : Arguments} (h : Reads front asked) :
    parse front = .ok asked := by
  have hparse := parse_of_ends h .nil
  rwa [List.append_nil, Except.map, followedBy_none] at hparse

/-- What was read before does not change how a command line is read. -/
theorem parseFrom_eq (read : Arguments) (arguments : List String) :
    parseFrom read arguments = (parse arguments).map read.followedBy := by
  obtain @⟨front, rest, asked, result, hreads, hends⟩ := splits arguments
  rw [parse_of_ends hreads hends, parseFrom_of_reads hreads, parseFrom_of_ends hends]
  cases result with
  | error e => rfl
  | ok asked' => exact congrArg Except.ok (followedBy_assoc read asked asked')

/-! ## Expressions -/

/-- A command line that asks for no expression has no end but flags. -/
theorem reads_of_parse {arguments : List String} {read : Arguments}
    (h : parse arguments = .ok read) (hcommand : read.command = .none) : Reads arguments read := by
  obtain ⟨hreads, hends⟩ := splits arguments
  rw [parse_of_ends hreads hends] at h
  cases hends with
  | nil =>
    cases h
    rwa [List.append_nil, followedBy_none]
  | command =>
    cases h
    cases hcommand
  | _ => cases h

/-! ## One behind the other -/

/-- Behind a command line that can be read and asks for no expression any other one is read as
if it stood alone.  Its error is the error of both.  Otherwise its expression counts, and its
mode if it has one; its assignments come behind those in front, and help or the version are
asked for in either.

So all that follows the first `-c` is the expression, whatever it looks like. -/
theorem parse_append {front : List String} {read : Arguments} (h : parse front = .ok read)
    (hcommand : read.command = .none) :
    (∀ behind e, parse behind = .error e → parse (front ++ behind) = .error e) ∧
    (∀ behind asked, parse behind = .ok asked → parse (front ++ behind) = .ok
      { command := asked.command
        mode := asked.mode.or read.mode
        assignments := read.assignments ++ asked.assignments
        help := read.help || asked.help
        version := read.version || asked.version }) ∧
    "-c" ∉ front ∧
    ∀ words, words ≠ [] → parse (front ++ "-c" :: words) = .ok
      { read with command := some (" ".intercalate words) } := by
  have hreads := reads_of_parse h hcommand
  have happend (behind : List String) :
      parse (front ++ behind) = (parse behind).map read.followedBy := by
    rw [parse, parseFrom_of_reads hreads, none_followedBy, parseFrom_eq]
  refine ⟨?refused, ?answered, hreads.command_not_mem, ?expression⟩
  case refused =>
    intro behind e he
    rw [happend, he]
    rfl
  case answered =>
    intro behind asked hasked
    rw [happend, hasked, Except.map, followedBy, hcommand, Option.or_none]
  case expression =>
    intro words hne
    have hend : parseFrom read ("-c" :: words) = _ := parseFrom_of_ends (.command rfl hne) read
    rw [happend, ← parseFrom_eq, hend]
    simp [Except.map, followedBy, none]

/-- The mode behind replaces the one in front, and what looks like a flag behind `-c` is part of
the expression. -/
theorem parse_append_flags :
    (parse ["-m", "int", "--var", "r = 2", "-h"] =
        .ok ⟨.none, some .integer, ["r = 2"], true, false⟩ ∧
      parse ["-v", "a = -c", "-m", "float", "-c", "a", "-m", "hex"] =
        .ok ⟨some "a -m hex", some .float, ["a = -c"], false, false⟩) ∧
    parse (["-m", "int", "--var", "r = 2", "-h"] ++
        ["-v", "a = -c", "-m", "float", "-c", "a", "-m", "hex"]) =
      .ok ⟨some "a -m hex", some .float, ["r = 2", "a = -c"], true, false⟩ ∧
    parse ["-m", "hex"] = .error (.unknownMode "hex") ∧
    parse (["-m", "int", "--var", "r = 2", "-h"] ++ ["-m", "hex"]) =
      .error (.unknownMode "hex") := by
  have hfront : parse ["-m", "int", "--var", "r = 2", "-h"] =
      .ok ⟨.none, some .integer, ["r = 2"], true, false⟩ := by
    decide +kernel
  have hbehind : parse ["-v", "a = -c", "-m", "float", "-c", "a", "-m", "hex"] =
      .ok ⟨some "a -m hex", some .float, ["a = -c"], false, false⟩ := by
    decide +kernel
  have hrefused : parse ["-m", "hex"] = .error (.unknownMode "hex") := by decide +kernel
  obtain ⟨herror, hasked, -, -⟩ := parse_append hfront rfl
  exact ⟨⟨hfront, hbehind⟩, hasked _ _ hbehind, hrefused, herror _ _ hrefused⟩

end Abacus.Arguments
