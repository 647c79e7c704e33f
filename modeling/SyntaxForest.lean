import SyntaxForest.Command
import SyntaxForest.Equality
import SyntaxForest.Forest.Grow
import SyntaxForest.Forest.Lemmas
import SyntaxForest.Forest.Unfolding
import SyntaxForest.Forest.WalkLog
import SyntaxForest.Forest.WellFormed
import SyntaxForest.Proofs.Attaching
import SyntaxForest.Proofs.Building
import SyntaxForest.Proofs.Comparison
import SyntaxForest.Proofs.Copying
import SyntaxForest.Proofs.Detaching
import SyntaxForest.Proofs.Duplication
import SyntaxForest.Proofs.Effects
import SyntaxForest.Proofs.Equivalence
import SyntaxForest.Proofs.Grammar
import SyntaxForest.Proofs.Insertion
import SyntaxForest.Proofs.Isolation
import SyntaxForest.Proofs.Layout
import SyntaxForest.Proofs.Payloads
import SyntaxForest.Proofs.Preorder
import SyntaxForest.Proofs.Progress
import SyntaxForest.Proofs.PropertyMap
import SyntaxForest.Proofs.Realization
import SyntaxForest.Proofs.Recording
import SyntaxForest.Proofs.Records
import SyntaxForest.Proofs.Refusals
import SyntaxForest.Proofs.Removal
import SyntaxForest.Proofs.Roots
import SyntaxForest.Proofs.Runs
import SyntaxForest.Proofs.Separation
import SyntaxForest.Proofs.Worklists
import SyntaxForest.Property.Change
import SyntaxForest.SourceMap
import SyntaxForest.Proofs.Partition
import SyntaxForest.Proofs.Commutation
import SyntaxForest.Proofs.PayloadAccess
import SyntaxForest.Proofs.DepthFirst
import SyntaxForest.Proofs.NumberValues
import SyntaxForest.Proofs.PropertyEquality
import SyntaxForest.Proofs.StructuralEquality
import SyntaxForest.Proofs.Assembly
import SyntaxForest.Proofs.Sequencing
import SyntaxForest.Proofs.Reversal
import SyntaxForest.Proofs.Splicing
import SyntaxForest.Proofs.Navigation
import SyntaxForest.Proofs.Outlines
import SyntaxForest.Proofs.Appearance
import SyntaxForest.Proofs.Reproduction
import SyntaxForest.Proofs.PackedPositions
