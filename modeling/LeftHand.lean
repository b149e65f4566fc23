import LeftHand.Main
import LeftHand.Workload.Run
import LeftHand.Proofs.Binding.Lexical
import LeftHand.Proofs.Command.Files
import LeftHand.Proofs.Exec.Chance
import LeftHand.Proofs.Format.Nesting
import LeftHand.Proofs.Grammar.Reserved
import LeftHand.Proofs.Grammar.Rewording
import LeftHand.Proofs.Lower.Relocation
import LeftHand.Proofs.Lower.Verbosity
import LeftHand.Proofs.Module.Constants
import LeftHand.Proofs.Module.Library
import LeftHand.Proofs.Module.Valid
import LeftHand.Proofs.Source.Arguments
import LeftHand.Proofs.Source.Integers
import LeftHand.Proofs.Source.Origins
import LeftHand.Proofs.Source.Outline
import LeftHand.Proofs.Source.Precedence
import LeftHand.Proofs.Source.RoundTrip
import LeftHand.Proofs.Source.Strings
import LeftHand.Proofs.Typing.Equality
import LeftHand.Proofs.Exec.Expr
