import Categorial.Text.Lines
import Categorial.Scalar
import Categorial.Decimal.Written
import Categorial.Category.Reader
import Categorial.Grammar.Schema
import Categorial.Derivation.Render
import Categorial.Treebank.Reader
import Categorial.Grammar.Builder
import Categorial.Grammar.Files
import Categorial.Treebank.Resolve
import Categorial.Symbols
import Categorial.Supertags
import Categorial.Model.Generative
import Categorial.Model.Perceptron
import Categorial.Chart.Extraction
import Categorial.Statistics
import Categorial.Parser
import Categorial.Forest.Store
import Categorial.Training.Trainer
import Categorial.Main
import Categorial.Proofs.Fine.Viterbi
import Categorial.Proofs.KBest.Enumeration
import Categorial.Proofs.KBest.Agreement
import Categorial.Proofs.Coarse.Budget
import Categorial.Proofs.Coarse.Wider
import Categorial.Proofs.Grammar.Fields
import Categorial.Proofs.Grammar.Contents
import Categorial.Proofs.Grammar.Saved
import Categorial.Proofs.Grammar.RoundTrip
import Categorial.Proofs.Head.Side
import Categorial.Proofs.Head.Agreement
import Categorial.Proofs.Feature.Registered
import Categorial.Proofs.Forest.Packed
import Categorial.Proofs.Tally
import Categorial.Proofs.Forest.Rescored
import Categorial.Proofs.Forest.Best
import Categorial.Proofs.Forest.Gold
import Categorial.Proofs.KBest.Retention
import Categorial.Proofs.KBest.Given
import Categorial.Proofs.Forest.Marks
import Categorial.Proofs.Training.Reproducible
import Categorial.Proofs.Forest.Encoded
import Categorial.Proofs.Treebank.Observed
import Categorial.Proofs.Feature.WeightFile
import Categorial.Proofs.Training.Completed
import Categorial.Proofs.Fine.Retained
import Categorial.Proofs.Model.Finite
import Categorial.Proofs.Model.Reordered
import Categorial.Proofs.Dependency.Rebracketed
import Categorial.Proofs.Feature.Lifetime
import Categorial.Proofs.Treebank.Rejected
import Categorial.Proofs.Category.Formed
import Categorial.Proofs.Training.Averaged
import Categorial.Proofs.Training.Margin
import Categorial.Proofs.Training.Pruned
import Categorial.Proofs.Forest.Attained
import Categorial.Proofs.Statistics
import Categorial.Proofs.Fine.Coherent
import Categorial.Proofs.Model.Normalised
import Categorial.Proofs.Treebank.Covered
import Categorial.Proofs.Grammar.Counted
import Categorial.Proofs.Model.Scored
import Categorial.Proofs.Dependency.Filled
import Categorial.Proofs.Category.Matching
import Categorial.Proofs.Category.Mirrored
import Categorial.Proofs.Treebank.Lines
import Categorial.Proofs.Grammar.Answers
import Categorial.Proofs.Grammar.Spelled
import Categorial.Proofs.Supertags.Beam
import Categorial.Proofs.Supertags.Format
import Categorial.Proofs.KBest.Repeated
import Categorial.Proofs.Forest.Lifetime
