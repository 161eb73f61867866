import TesLang.Main
import TesLang.Proofs.Carry
import TesLang.Proofs.Checking.Assignment
import TesLang.Proofs.Checking.Discipline
import TesLang.Proofs.Checking.Lookup
import TesLang.Proofs.Checking.Variables
import TesLang.Proofs.Generation.Allocation
import TesLang.Proofs.Generation.Points
import TesLang.Proofs.Homes.OneRegister
import TesLang.Proofs.Lines.Blame
import TesLang.Proofs.Lines.Checking
import TesLang.Proofs.Lines.Generation
import TesLang.Proofs.Lines.Parsing
import TesLang.Proofs.Lines.Passes
import TesLang.Proofs.Lines.Reading
import TesLang.Proofs.Linking.Calls
import TesLang.Proofs.Order.Permutation
import TesLang.Proofs.Parsing.Arrow
import TesLang.Proofs.Parsing.Concatenation
import TesLang.Proofs.Parsing.FirstError
import TesLang.Proofs.Parsing.Recovery
import TesLang.Proofs.Printing.Diagram
import TesLang.Proofs.Printing.Repetition
import TesLang.Proofs.Procedures.Returns
import TesLang.Proofs.Procedures.Sequence
import TesLang.Proofs.Reading.Positions
import TesLang.Proofs.Reading.Rendering
import TesLang.Proofs.Reading.Termination
import TesLang.Proofs.Reading.TripleQuotes
import TesLang.Proofs.Reading.Stray
import TesLang.Proofs.Scalar.Arithmetic
import TesLang.Proofs.Scalar.Bound
import TesLang.Proofs.Scalar.Correctness
import TesLang.Proofs.Vectors.Elements
import TesLang.Proofs.WellFormed.Code
import TesLang.Proofs.WellFormed.Labels
import TesLang.Proofs.Writing.Program
import TesLang.Proofs.Written.Program
import TesLang.Token.Multiline
