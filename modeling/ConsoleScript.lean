import ConsoleScript.Executable.Parse
import ConsoleScript.Executable.Write
import ConsoleScript.Main
import ConsoleScript.Proofs.Code.Construction
import ConsoleScript.Proofs.Code.Placeholders
import ConsoleScript.Proofs.CommandLine.Build
import ConsoleScript.Proofs.CommandLine.Report
import ConsoleScript.Proofs.Composition
import ConsoleScript.Proofs.Coordinates
import ConsoleScript.Proofs.Executable.Truncation
import ConsoleScript.Proofs.Grammar.Code
import ConsoleScript.Proofs.Inlining
import ConsoleScript.Proofs.Listing.LoopControl
import ConsoleScript.Proofs.Listing.Lossless
import ConsoleScript.Proofs.Listing.SelfDelimiting
import ConsoleScript.Proofs.Redeclaration
import ConsoleScript.Proofs.Source.DeclaredName
import ConsoleScript.Proofs.Source.LookupFault
import ConsoleScript.Proofs.Source.QuotedLiteral
import ConsoleScript.Proofs.Source.Scanner
import ConsoleScript.Proofs.Source.ScannerOperations
import ConsoleScript.Proofs.Termination
import ConsoleScript.Proofs.VariableLimit
