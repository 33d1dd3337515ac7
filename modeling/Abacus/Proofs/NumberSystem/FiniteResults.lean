/-
Abacus.Proofs.NumberSystem.FiniteResults — no result is infinite or undefined.

Lists of tokens that no line is converted to can be run too: with operands left
over or missing, and with texts such as `inf` in the place of a literal.  In
rounded arithmetic nothing but finite numbers comes onto the stack even then.
-/
import Abacus.Proofs.NumberSystem.PrintedText

namespace Abacus

variable {V : Type}

/-- In a run over these tokens the values on the stack have a property, from token
to token up to the end or the first error, and so has the result. -/
def Evaluation.StaysWithin (system : NumberSystem V) (environment : Environment) (P : V → Prop)
    (tokens : List Token) : Prop :=
  (∀ before stack, before <+: tokens → (run system environment [] before).2 = .ok stack →
    ∀ x ∈ stack, P x) ∧
  ∀ x, evaluate system environment tokens = .ok x → P x

/-- What the operations of a number system preserve holds in every run. -/
theorem NumberSystem.Preserves.staysWithin {system : NumberSystem V} {P : V → Prop}
    (h : system.Preserves P) (environment : Environment) (tokens : List Token) :
    Evaluation.StaysWithin system environment P tokens := by
  refine ⟨?_, fun x hx => h.evaluate hx⟩
  intro before stack _ hrun
  rw [Evaluation.snd_run] at hrun
  exact h.foldlM (List.forall_mem_nil P) hrun

/-- Whatever the tokens and the variables are, every value on the stack and every
result is finite, in double precision and in decimals; and no mode prints the text
of an infinity or of NaN. -/
theorem no_result_is_infinite_or_undefined (environment : Environment) :
    (∀ tokens, Evaluation.StaysWithin .float environment (fun x => x.isFinite = true) tokens) ∧
    (∀ tokens, Evaluation.StaysWithin .decimal environment (fun x => x.isFinite = true) tokens) ∧
    ∀ mode line text, (Calculator.evaluate mode environment line).value = .ok text →
      ∀ word ∈ ["NaN", "inf", "Infinity"], ¬word.toList <:+: text.toList := by
  refine ⟨NumberSystem.preserves_float.staysWithin environment,
    NumberSystem.preserves_decimal.staysWithin environment, ?_⟩
  intro mode line text htext word hword
  have hletter : ∃ c ∈ word.toList, c.isAlpha = true ∧ c ≠ 'E' := by
    simp only [List.mem_cons, List.not_mem_nil, or_false] at hword
    rcases hword with rfl | rfl | rfl
    · exact ⟨'N', by decide, by decide⟩
    · exact ⟨'n', by decide, by decide⟩
    · exact ⟨'I', by decide, by decide⟩
  exact (Calculator.isPrinted_of_evaluate htext).lacks_word hletter

/-- A run that fails at the text `inf` has a finite number on its stack until then,
and variables that are not numbers do not get into a result. -/
theorem no_result_is_infinite_or_undefined_before_error :
    ((Evaluation.run .float (fun _ => some .nan) [] [.number "5"]).2 =
        .ok [Format.binary64.ofInt 5] ∧
      ∀ x ∈ [Format.binary64.ofInt 5], x.isFinite = true) ∧
    ((Calculator.evaluate .decimal (fun _ => some .nan) "3! / -64").value = .ok "-0.09375" ∧
      ¬"inf".toList <:+: "-0.09375".toList) := by
  have hrun : (Evaluation.run .float (fun _ => some .nan) [] [.number "5"]).2 =
      .ok [Format.binary64.ofInt 5] := by
    decide +kernel
  have htext : (Calculator.evaluate .decimal (fun _ => some .nan) "3! / -64").value =
      .ok "-0.09375" := by
    decide +kernel
  obtain ⟨hfloat, -, hprinted⟩ := no_result_is_infinite_or_undefined fun _ => some .nan
  have hstack := (hfloat [.number "5", .number "inf"]).1 [.number "5"] _ ⟨[.number "inf"], rfl⟩ hrun
  exact ⟨⟨hrun, hstack⟩, htext, hprinted _ _ _ htext "inf" (by simp)⟩

end Abacus
