import StraightLine.Construction
import StraightLine.Main
import StraightLine.Proofs.CleanCheck
import StraightLine.Proofs.Confinement
import StraightLine.Proofs.DeadCode
import StraightLine.Proofs.Defects
import StraightLine.Proofs.Dependence
import StraightLine.Proofs.DivisionLaws
import StraightLine.Proofs.ExactArithmetic
import StraightLine.Proofs.Findings
import StraightLine.Proofs.IntegerLiterals
import StraightLine.Proofs.LexicalScoping
import StraightLine.Proofs.Lockstep
import StraightLine.Proofs.Lookup
import StraightLine.Proofs.NameSafety
import StraightLine.Proofs.NearestSettings
import StraightLine.Proofs.ReportReading
import StraightLine.Proofs.RoundTrip
import StraightLine.Proofs.SavedAgain
import StraightLine.Proofs.SourceLines
import StraightLine.Proofs.StaticKinds
import StraightLine.Proofs.Stripping
import StraightLine.Proofs.Truncation
import StraightLine.Proofs.UnknownKeys
import StraightLine.Proofs.Unparsing
import StraightLine.Proofs.Visibility
import StraightLine.Proofs.VisitOrder
