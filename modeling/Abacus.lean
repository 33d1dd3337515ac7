import Abacus.Calculator
import Abacus.Main
import Abacus.Proofs.CommandLine.Dialogue
import Abacus.Proofs.Decimal.Canonical
import Abacus.Proofs.Decimal.Monotone
import Abacus.Proofs.Decimal.Multiples
import Abacus.Proofs.Decimal.ReadBack
import Abacus.Proofs.Evaluation.StackMachine
import Abacus.Proofs.Evaluation.Variables
import Abacus.Proofs.NumberSystem.Agreement
import Abacus.Proofs.NumberSystem.Exactness
import Abacus.Proofs.NumberSystem.FiniteResults
import Abacus.Proofs.NumberSystem.Forms
import Abacus.Proofs.NumberSystem.Negligible
import Abacus.Proofs.NumberSystem.Quotients
import Abacus.Proofs.NumberSystem.RoundTrip
import Abacus.Proofs.Postfix.Precedence
import Abacus.Proofs.Postfix.Unmatched
import Abacus.Proofs.Session.Completion
import Abacus.Proofs.Session.Lookup
import Abacus.Proofs.Session.Substitution
import Abacus.Proofs.Syntax.Errors
import Abacus.Proofs.Syntax.Features
import Abacus.Proofs.Syntax.Variants
