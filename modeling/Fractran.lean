import Fractran.Word
import Fractran.Magnitude.Basic
import Fractran.Magnitude.Sum
import Fractran.Magnitude.Product
import Fractran.Magnitude.Quotient
import Fractran.Magnitude.Gcd
import Fractran.Magnitude.Numeral
import Fractran.Magnitude.Canonical
import Fractran.Magnitude.Decimal
import Fractran.Integer
import Fractran.Integer.Lemmas
import Fractran.Integer.Registers
import Fractran.Fraction
import Fractran.Fraction.Registers
import Fractran.Program
import Fractran.Source.Symbol
import Fractran.Source.Reader
import Fractran.Source.Stream
import Fractran.Source.Parser
import Fractran.Error
import Fractran.Log
import Fractran.Machine.Basic
import Fractran.Machine.Transcript
import Fractran.Machine.Session
import Fractran.Machine.Logged
import Fractran.CommandLine.Options
import Fractran.CommandLine.Console
import Fractran.CommandLine.Job
import Fractran.CommandLine.Device
import Fractran.Text
import Fractran.Main
import Fractran.Proofs.Integer.Comparison
import Fractran.Proofs.Integer.Registers
import Fractran.Proofs.Integer.Reading
import Fractran.Proofs.Fraction
import Fractran.Proofs.Program
import Fractran.Proofs.Machine.Step
import Fractran.Proofs.Machine.Run
import Fractran.Proofs.Source.Grammar
import Fractran.Proofs.CommandLine.Options
import Fractran.Proofs.CommandLine.Level
import Fractran.Proofs.CommandLine.Outcome
import Fractran.Proofs.Fraction.Registers
import Fractran.Proofs.Fraction.Product
import Fractran.Proofs.Source.Print
import Fractran.Proofs.Machine.Session
import Fractran.Proofs.Machine.Bound
import Fractran.Proofs.Integer.Division
import Fractran.Proofs.Integer.Sum
import Fractran.Proofs.Integer.Product
import Fractran.Proofs.Integer.Gcd
import Fractran.Proofs.Integer.Printing
import Fractran.Proofs.Integer.Conversion
import Fractran.Proofs.Integer.LongDivision
import Fractran.Proofs.Integer.WordLoops
import Fractran.Proofs.Source.Parser
import Fractran.Proofs.Source.Fault
import Fractran.Proofs.Machine.Alike
import Fractran.Proofs.Machine.History
import Fractran.Proofs.Machine.Trace
import Fractran.Proofs.CommandLine.Language
import Fractran.Proofs.Machine.Record
import Fractran.Proofs.Exponents
import Fractran.Proofs.Programs.Multiplication
import Fractran.Proofs.Programs.Primes
import Fractran.Proofs.CommandLine.Device
