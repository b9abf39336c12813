import Fixity.CommandLine
import Fixity.Main
import Fixity.Proofs.Language.Blocks
import Fixity.Proofs.Language.Climbing
import Fixity.Proofs.Language.Decided
import Fixity.Proofs.Language.Elements
import Fixity.Proofs.Language.Gluing
import Fixity.Proofs.Language.Layout
import Fixity.Proofs.Language.Literals
import Fixity.Proofs.Language.Parameters
import Fixity.Proofs.Language.Parentheses
import Fixity.Proofs.Language.Repetition
import Fixity.Proofs.Language.Termination
import Fixity.Proofs.Language.Unused
import Fixity.Proofs.Operators.Listing
import Fixity.Proofs.Printing.Lines
import Fixity.Proofs.Reporting.Caret
import Fixity.Proofs.Reporting.Lookup
import Fixity.Proofs.Scanning.Newline
import Fixity.Proofs.Session.Completing
import Fixity.Proofs.Session.Conservation
import Fixity.Proofs.Session.Continuing
import Fixity.Proofs.Session.Ending
