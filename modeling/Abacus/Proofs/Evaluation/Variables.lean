/-
Abacus.Proofs.Evaluation.Variables — which variables an evaluation reads.

The stack machine gets past a variable only if the environment has it, and stops
at the first one that it lacks (`unbound_of_foldlM`, `head?_unbound_of_foldlM`):
the operations of the number systems fail because of their arguments and never
complain about a variable.  As the conversion keeps the operands in order, the
variable complained about is the leftmost one that is lacking in the line
(`unbound_variables_are_noticed`).  Variables that do not occur are not read.
-/
import Abacus.Proofs.Evaluation.Safety

namespace Abacus

/-! ## The variables that are lacking -/

/-- The variable that a token is, if the environment lacks it. -/
def Token.unbound? (environment : Environment) : Token → Option String
  | identifier name =>
    match environment name with
    | none => some name
    | some _ => none
  | _ => none

/-- The variables of a list that the environment lacks, in their order. -/
def unbound (environment : Environment) (ts : List Token) : List String :=
  ts.filterMap (Token.unbound? environment)

section Unbound

variable {environment : Environment} {ts : List Token} {t : Token} {name : String}

theorem Token.unbound?_eq_some_iff :
    t.unbound? environment = some name ↔ t = .identifier name ∧ environment name = none := by
  cases t with
  | identifier other =>
    rw [unbound?, identifier.injEq]
    constructor
    · intro h
      split at h
      · next hnone =>
        cases h
        exact ⟨rfl, hnone⟩
      · cases h
    · rintro ⟨rfl, hnone⟩
      rw [hnone]
  | _ => simp [unbound?]

theorem mem_unbound_iff :
    name ∈ unbound environment ts ↔ .identifier name ∈ ts ∧ environment name = none := by
  simp only [unbound, List.mem_filterMap, Token.unbound?_eq_some_iff]
  constructor
  · rintro ⟨t, ht, rfl, hnone⟩
    exact ⟨ht, hnone⟩
  · rintro ⟨hmem, hnone⟩
    exact ⟨_, hmem, rfl, hnone⟩

theorem unbound_singleton (t : Token) :
    unbound environment [t] = (t.unbound? environment).toList := by
  rw [unbound, List.filterMap_cons]
  cases t.unbound? environment <;> rfl

/-- No other tokens than operands can be lacking. -/
theorem unbound_operands (ts : List Token) :
    unbound environment (operands ts) = unbound environment ts := by
  rw [unbound, operands, List.filterMap_filter, unbound]
  congr 1
  funext t
  cases t <;> rfl

/-- The conversion keeps the order in which variables are lacking. -/
theorem unbound_of_toPostfix {rpn : List Token} (h : toPostfix ts = .ok rpn) :
    unbound environment rpn = unbound environment ts := by
  rw [← unbound_operands rpn, operands_of_toPostfix h, unbound_operands]

end Unbound

/-! ## Running -/

namespace Evaluation

variable {V : Type} {system : NumberSystem V} {environment : Environment}

/-- A token that is no variable does not complain about one. -/
theorem step_failsWith (hsystem : system.FailsOnly EvaluationError.OfArguments) {t : Token}
    (ht : t.Admissible system.capabilities) (hname : ∀ name, t ≠ .identifier name)
    (stack : List V) :
    FailsWith (fun e => ∀ name, e ≠ .unknownVariable name)
      (step system environment stack t) := by
  have push {r : Except EvaluationError V} (hr : FailsWith EvaluationError.OfArguments r)
      (rest : List V) :
      FailsWith (fun e => ∀ name, e ≠ .unknownVariable name) (r.map (· :: rest)) := by
    refine (hr.map _).mono ?_
    rintro _ he name rfl
    exact he
  have missing (symbol : String) : FailsWith (fun e => ∀ name, e ≠ .unknownVariable name)
      (.error (.missingOperand symbol) : Except EvaluationError (List V)) :=
    (failsWith_error _).2 nofun
  cases t with
  | identifier name => exact absurd rfl (hname name)
  | number text =>
    rw [step_number]
    exact push (hsystem.readLiteral text ht) stack
  | operator op =>
    obtain ⟨u, rfl⟩ | ⟨b, rfl⟩ := op.unary_or_binary
    · match stack with
      | [] => cases u <;> exact missing _
      | x :: rest =>
        rw [step_unary]
        exact push (hsystem.unary u x) rest
    · match stack with
      | [] => cases b <;> exact missing _
      | [_] => cases b <;> exact missing _
      | y :: x :: rest =>
        rw [step_binary]
        exact push (hsystem.binary b x y (by rintro rfl; exact ht rfl)) rest
  | function f =>
    match stack with
    | [] => exact missing _
    | x :: rest =>
      rw [step_function]
      exact push (hsystem.apply f x ht) rest
  | leftParen => exact (failsWith_error _).2 nofun
  | rightParen => exact (failsWith_error _).2 nofun

/-- What runs has a value if it is a variable. -/
theorem unbound?_of_step {stack stack' : List V} {t : Token}
    (h : step system environment stack t = .ok stack') : t.unbound? environment = none := by
  cases steps_of_step_eq_ok h with
  | identifier hvalue _ => rw [Token.unbound?, hvalue]
  | _ => rfl

/-- The variable that is complained about is the token that is run. -/
theorem unbound?_of_step_error (hsystem : system.FailsOnly EvaluationError.OfArguments)
    {stack : List V} {t : Token} (ht : t.Admissible system.capabilities) {name : String}
    (h : step system environment stack t = .error (.unknownVariable name)) :
    t.unbound? environment = some name := by
  cases t with
  | identifier other =>
    rw [step_identifier, map_eq_error_iff, Expression.evaluate] at h
    cases hvalue : environment other with
    | none =>
      rw [hvalue] at h
      cases h
      exact Token.unbound?_eq_some_iff.2 ⟨rfl, hvalue⟩
    | some value =>
      rw [hvalue] at h
      exact absurd (hsystem.ofVariable other value _ h) id
  | _ => exact absurd rfl (step_failsWith hsystem ht (by simp) stack _ h name)

/-- What runs has a value for each of its variables. -/
theorem unbound_of_foldlM {ts : List Token} {stack stack' : List V}
    (h : ts.foldlM (step system environment) stack = .ok stack') :
    unbound environment ts = [] := by
  induction ts generalizing stack with
  | nil => rfl
  | cons t ts ih =>
    rw [List.foldlM_cons, bind_eq_ok_iff] at h
    obtain ⟨next, hstep, hrest⟩ := h
    rw [unbound, List.filterMap_cons_none (unbound?_of_step hstep)]
    exact ih hrest

/-- What stops at a variable stops at the first one that is lacking. -/
theorem head?_unbound_of_foldlM (hsystem : system.FailsOnly EvaluationError.OfArguments)
    {ts : List Token} (hts : ∀ t ∈ ts, t.Admissible system.capabilities) {stack : List V}
    {name : String}
    (h : ts.foldlM (step system environment) stack = .error (.unknownVariable name)) :
    (unbound environment ts).head? = some name := by
  induction ts generalizing stack with
  | nil => cases h
  | cons t ts ih =>
    obtain ⟨ht, hts⟩ := List.forall_mem_cons.1 hts
    rw [List.foldlM_cons, bind_eq_error_iff] at h
    rcases h with hstep | ⟨next, hstep, hrest⟩
    · rw [unbound, List.filterMap_cons_some (unbound?_of_step_error hsystem ht hstep)]
      rfl
    · rw [unbound, List.filterMap_cons_none (unbound?_of_step hstep)]
      exact ih hts hrest

theorem unbound_of_evaluate {ts : List Token} {x : V}
    (h : evaluate system environment ts = .ok x) : unbound environment ts = [] := by
  rw [evaluate_eq, bind_eq_ok_iff] at h
  obtain ⟨stack, hrun, -⟩ := h
  exact unbound_of_foldlM hrun

theorem head?_unbound_of_evaluate (hsystem : system.FailsOnly EvaluationError.OfArguments)
    {ts : List Token} (hts : ∀ t ∈ ts, t.Admissible system.capabilities) {name : String}
    (h : evaluate system environment ts = .error (.unknownVariable name)) :
    (unbound environment ts).head? = some name := by
  rw [evaluate_eq, bind_eq_error_iff] at h
  rcases h with hrun | ⟨stack, -, hfinish⟩
  · exact head?_unbound_of_foldlM hsystem hts hrun
  · match stack with
    | [] => cases hfinish
    | [_] => cases hfinish
    | _ :: _ :: _ => cases hfinish

/-! ## Variables that do not occur -/

section Agreement

variable {environment' : Environment}

theorem step_congr {t : Token}
    (h : ∀ name, t = .identifier name → environment' name = environment name) (stack : List V) :
    step system environment' stack t = step system environment stack t := by
  cases t with
  | identifier name => rw [step, step, h name rfl]
  | _ => rfl

/-- Where environments agree on the variables of a list, the list runs alike in both, step by
step. -/
theorem run_congr {ts : List Token}
    (h : ∀ name, .identifier name ∈ ts → environment' name = environment name)
    (stack : List V) :
    run system environment' stack ts = run system environment stack ts := by
  induction ts generalizing stack with
  | nil => rfl
  | cons t ts ih =>
    have htoken : step system environment' stack t = step system environment stack t :=
      step_congr (fun name ht => h name (ht ▸ List.mem_cons_self)) stack
    have hrest := ih fun name hname => h name (List.mem_cons_of_mem t hname)
    rw [run, run, htoken]
    simp only [hrest]

end Agreement

end Evaluation

/-! ## Lines -/

/-- A piece of a line has at most one variable, which is then a word of its own at its end. -/
theorem Lexer.Reads.unbound_eq {caps : Capabilities} {slot next : Slot}
    {piece rest : List Char} {tokens : List Token} (h : Reads caps slot piece rest next tokens)
    (environment : Environment) :
    unbound environment tokens = [] ∨
      ∃ name, environment name = none ∧ unbound environment tokens = [name] ∧
        next = .operator ∧ tokens = slot.signTokens ++ [.identifier name] := by
  have hsign (slot : Slot) (t : Token) :
      unbound environment (slot.signTokens ++ [t]) = unbound environment [t] := by
    unfold Slot.signTokens
    split_ifs <;> rfl
  cases h with
  | identifier =>
    rw [hsign, unbound_singleton]
    cases hname : Token.unbound? environment
        (.identifier (String.ofList (Abacus.lowercase piece))) with
    | none => exact .inl rfl
    | some name =>
      obtain ⟨heq, hnone⟩ := Token.unbound?_eq_some_iff.1 hname
      exact .inr ⟨name, hnone, rfl, rfl, by rw [heq]⟩
  | leftParen => exact .inl (hsign _ _)
  | call => exact .inl (hsign _ _)
  | _ => exact .inl rfl

/-- The name is that of a variable that the environment lacks; `word` is where it stands in the
text, and the tokens of the text in front of it have no such variable. -/
inductive LeftmostUnbound (caps : Capabilities) (environment : Environment) (slot : Lexer.Slot)
    (text : List Char) (name : String) : Prop
  | mk {front word rest : List Char} {place : Lexer.Slot} {tokens : List Token} :
      text = front ++ (word ++ rest) →
      Lexer.ReadsTo caps slot front (word ++ rest) place tokens →
      unbound environment tokens = [] →
      Lexer.Reads caps place word rest .operator (place.signTokens ++ [.identifier name]) →
      environment name = none →
      LeftmostUnbound caps environment slot text name

theorem Lexer.Scans.leftmostUnbound {caps : Capabilities} {environment : Environment}
    {slot : Slot} {text : List Char} {ts : List Token} {name : String}
    (h : Scans caps slot text ts) (hname : (unbound environment ts).head? = some name) :
    LeftmostUnbound caps environment slot text name := by
  induction h using Scans.byPieces with
  | nil => cases hname
  | @reads slot next piece rest tokens ts hread hrest ih =>
    rw [unbound, List.filterMap_append] at hname
    rcases hread.unbound_eq environment with hnone | ⟨first, hlacks, hone, rfl, rfl⟩
    · -- the variable stands behind this piece
      rw [unbound] at hnone
      rw [hnone, List.nil_append] at hname
      obtain ⟨rfl, hfront, hbound, hword, hlacks⟩ := ih hname
      refine ⟨(List.append_assoc _ _ _).symm, .cons hread hfront, ?_, hword, hlacks⟩
      rw [unbound, List.filterMap_append, hnone]
      exact hbound
    · rw [unbound] at hone
      rw [hone] at hname
      obtain rfl : first = name := by simpa using hname
      exact ⟨(List.nil_append _).symm, .nil, rfl, hread, hlacks⟩

/-- A line with a postfix list has a value only if the environment has all of its variables.  If
a variable is complained about, it is the leftmost one of the line that the environment lacks.
Environments that agree on the variables of the line give one outcome, and one log. -/
theorem unbound_variables_are_noticed (mode : Mode) (environment : Environment) {line : String}
    {ts rpn : List Token} (hts : tokenize mode.system.capabilities line = .ok ts)
    (hrpn : toPostfix ts = .ok rpn) :
    ((∃ name, .identifier name ∈ ts ∧ environment name = none) →
      ∀ text, (Calculator.evaluate mode environment line).value ≠ .ok text) ∧
    (∀ name, (Calculator.evaluate mode environment line).value =
        .error (.evaluation (.unknownVariable name)) →
      LeftmostUnbound mode.system.capabilities environment .operand line.toList name) ∧
    ∀ environment' : Environment,
      (∀ name, .identifier name ∈ ts → environment' name = environment name) →
      Calculator.evaluateIn mode.system environment' line =
        Calculator.evaluateIn mode.system environment line := by
  refine ⟨?noticed, ?leftmost, ?unread⟩
  case noticed =>
    rintro ⟨name, hname⟩ text htext
    obtain ⟨x, hx, -⟩ := Calculator.evaluate_eq_ok_iff.1 htext
    obtain ⟨ts', rpn', hts', hrpn', hvalue⟩ := Calculator.evaluateIn_eq_ok_iff.1 hx
    obtain rfl := Except.ok.inj (hts.symm.trans hts')
    have hnone := Evaluation.unbound_of_evaluate hvalue
    rw [unbound_of_toPostfix hrpn'] at hnone
    exact List.not_mem_nil (hnone ▸ mem_unbound_iff.2 hname)
  case leftmost =>
    intro name herror
    obtain ⟨ts', rpn', hts', hrpn', hfirst⟩ := Calculator.exists_postfix_of_evaluate herror
    have hhead := Evaluation.head?_unbound_of_evaluate mode.failsOnArguments_system
      (admissible_of_toPostfix hts' hrpn') hfirst
    rw [unbound_of_toPostfix hrpn'] at hhead
    exact (tokenize_eq_ok_iff.1 hts').leftmostUnbound hhead
  case unread =>
    intro environment' hagree
    have hrun : Evaluation.run mode.system environment' [] rpn =
        Evaluation.run mode.system environment [] rpn :=
      Evaluation.run_congr (fun name hname => hagree name (mem_of_toPostfix hrpn hname)) []
    unfold Calculator.evaluateIn Calculator.evaluatePostfix Evaluation.evaluateTraced
    rw [hts]
    dsimp only
    rw [hrpn]
    dsimp only
    rw [hrun]

/-- In `z! + x ^ y` the first variable has a value, and the second one is complained about. -/
theorem unbound_variables_are_noticed_second :
    let zero : Binary64 := .finite (.zero false)
    let environment : Environment := fun name => if name = "z" then some zero else none
    let environment' : Environment := fun name => if name = "w" then some zero else environment name
    (∀ text, (Calculator.evaluate .decimal environment "z! + x ^ y").value ≠ .ok text) ∧
    ((Calculator.evaluate .decimal environment "z! + x ^ y").value =
        .error (.evaluation (.unknownVariable "x")) ∧
      LeftmostUnbound .all environment .operand "z! + x ^ y".toList "x") ∧
    Calculator.evaluateIn (Mode.system .decimal) environment' "z! + x ^ y" =
      Calculator.evaluateIn (Mode.system .decimal) environment "z! + x ^ y" := by
  intro zero environment environment'
  have hts : tokenize (Mode.system .decimal).capabilities "z! + x ^ y" =
      .ok [.identifier "z", .operator .factorial, .operator .add, .identifier "x",
        .operator .pow, .identifier "y"] := by
    decide +kernel
  have hrpn : toPostfix [.identifier "z", .operator .factorial, .operator .add, .identifier "x",
        .operator .pow, .identifier "y"] =
      .ok [.identifier "z", .operator .factorial, .identifier "x", .identifier "y",
        .operator .pow, .operator .add] := by
    decide +kernel
  have herror : (Calculator.evaluate .decimal environment "z! + x ^ y").value =
      .error (.evaluation (.unknownVariable "x")) := by
    decide +kernel
  obtain ⟨hnoticed, hleftmost, hunread⟩ :=
    unbound_variables_are_noticed .decimal environment hts hrpn
  refine ⟨hnoticed ⟨"y", by simp, by decide⟩, ⟨herror, hleftmost _ herror⟩, hunread _ ?_⟩
  intro name hname
  have hw : name ≠ "w" := by
    rintro rfl
    simp at hname
  exact if_neg hw

end Abacus
