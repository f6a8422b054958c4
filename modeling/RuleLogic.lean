import RuleLogic.Session
import RuleLogic.Main
import RuleLogic.Proofs.Validity
import RuleLogic.Proofs.Context
import RuleLogic.Proofs.Checked
import RuleLogic.Proofs.Occurrence
import RuleLogic.Proofs.Defaults
import RuleLogic.Proofs.NamedPaths
import RuleLogic.Proofs.Provenance
import RuleLogic.Proofs.Registration
import RuleLogic.Proofs.ShortCircuit
import RuleLogic.Proofs.EagerOrder
import RuleLogic.Proofs.FirstKeys
import RuleLogic.Proofs.ListedArguments
import RuleLogic.Proofs.DocumentOrder
import RuleLogic.Proofs.Lineage
import RuleLogic.Proofs.Allowlists
import RuleLogic.Proofs.RoundTrip
import RuleLogic.Proofs.Accumulation
import RuleLogic.Proofs.Equalities
import RuleLogic.Proofs.LooseOrder
import RuleLogic.Proofs.Misses
import RuleLogic.Proofs.Nesting
import RuleLogic.Proofs.MissingKeys
import RuleLogic.Proofs.Concatenation
import RuleLogic.Proofs.Truths
import RuleLogic.Proofs.Slicing
import RuleLogic.Proofs.NumericCast
import RuleLogic.Proofs.IntegerText
import RuleLogic.Proofs.Extremes
import RuleLogic.Proofs.Membership
import RuleLogic.Proofs.OwnText
import RuleLogic.Proofs.Printed
import RuleLogic.Proofs.KnownOperators
import RuleLogic.Proofs.Mentions
