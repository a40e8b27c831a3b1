import Scriptlet.Main
import Scriptlet.Proofs.CommandLine.Detection
import Scriptlet.Proofs.Compile.Arguments
import Scriptlet.Proofs.Compile.Pool
import Scriptlet.Proofs.Format.Truncation
import Scriptlet.Proofs.Formula.Sources
import Scriptlet.Proofs.Rules.LineMaps
import Scriptlet.Proofs.Script.Literals
import Scriptlet.Proofs.Script.Meaning
import Scriptlet.Proofs.Source.Pushback
import Scriptlet.Proofs.Source.Quotations
import Scriptlet.Proofs.Source.Tiling
import Scriptlet.Proofs.Value.Extremes
import Scriptlet.Proofs.Value.Substrings
import Scriptlet.Proofs.Value.Texts
