import DerivedStats.Main
import DerivedStats.Statistic.Draft
import DerivedStats.Proofs.Formula.SampleLists
import DerivedStats.Proofs.Formula.Footprint
import DerivedStats.Proofs.Formula.Recompiling
import DerivedStats.Proofs.Writing.Composition
import DerivedStats.Proofs.Evaluation.Instantiation
import DerivedStats.Proofs.Formula.Expansion
import DerivedStats.Proofs.Formula.Refilling
import DerivedStats.Proofs.Formula.Stepwise
import DerivedStats.Proofs.Formula.Residue
import DerivedStats.Proofs.Evaluation.EntryOrder
import DerivedStats.Proofs.Grammar.Spans
import DerivedStats.Proofs.Grammar.Offence
import DerivedStats.Proofs.Formula.Overfull
import DerivedStats.Proofs.Statistic.Text
import DerivedStats.Proofs.Writing.Parentheses
import DerivedStats.Proofs.Syntax.Replacing
import DerivedStats.Proofs.Evaluation.Compensation
import DerivedStats.Proofs.Diagnostic.Excerpt
import DerivedStats.Proofs.Formula.ValueList
import DerivedStats.Proofs.Source.LineColumn
