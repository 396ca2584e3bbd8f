import CSubset.Command.TokenList
import CSubset.Main
import CSubset.Proofs.Command.Compile
import CSubset.Proofs.Command.Options
import CSubset.Proofs.ControlFlow.Programs
import CSubset.Proofs.Descent.Programs
import CSubset.Proofs.Dominance.Programs
import CSubset.Proofs.Folding.Modules
import CSubset.Proofs.Folding.Stable
import CSubset.Proofs.Layout.Integers
import CSubset.Proofs.Layout.Splitting
import CSubset.Proofs.LocalNames.Programs
import CSubset.Proofs.Lowering.Effects
import CSubset.Proofs.Modules.Reports
import CSubset.Proofs.Printing.Programs
import CSubset.Proofs.Surface.Calls
import CSubset.Proofs.Surface.Consumption
import CSubset.Proofs.Token.Positions
import CSubset.Proofs.Tree.Forest
import CSubset.Proofs.Tree.Ownership
import CSubset.Proofs.Typing.Programs
import CSubset.Proofs.Visibility.Programs
import CSubset.Proofs.WellFormed.Programs
import CSubset.Tree.Forest
