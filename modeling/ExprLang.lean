import ExprLang.Text.Digit
import ExprLang.Text.Printable
import ExprLang.Text.Blank
import ExprLang.Text.Quoted
import ExprLang.Token
import ExprLang.Token.Lexer
import ExprLang.Expr
import ExprLang.Grammar
import ExprLang.Grammar.Table
import ExprLang.Grammar.Tree
import ExprLang.Grammar.Automaton
import ExprLang.Grammar.Meaning
import ExprLang.Source
import ExprLang.CMa.Generate
import ExprLang.Code.Layout
import ExprLang.Code.Listing
import ExprLang.CMa.Assembly
import ExprLang.Code.Compile
import ExprLang.Decimal.Format
import ExprLang.Scope
import ExprLang.Fault
import ExprLang.Value.Grid
import ExprLang.Value.ArrayText
import ExprLang.Value.Text
import ExprLang.Value.Arith
import ExprLang.Value.Part
import ExprLang.Eval
import ExprLang.Session
import ExprLang.Command
import ExprLang.Fingerprint
import ExprLang.Fingerprint.Bench
import ExprLang.Json
import ExprLang.Json.Reader
import ExprLang.Json.Writer
import ExprLang.Main
import ExprLang.Measure
import ExprLang.Workload
import ExprLang.Proofs.Generator
import ExprLang.Proofs.Placement
import ExprLang.Proofs.Words
import ExprLang.Proofs.CMaMachine
import ExprLang.Proofs.CMaCode
import ExprLang.Proofs.Evaluation
import ExprLang.Proofs.CMaMeaning
import ExprLang.Proofs.CMaCalls
import ExprLang.Proofs.Scopes
import ExprLang.Proofs.MaMaMachine
import ExprLang.Proofs.MaMaEvaluation
import ExprLang.Proofs.MaMaCode
import ExprLang.Proofs.MaMaMemory
import ExprLang.Proofs.MaMaVariables
import ExprLang.Proofs.MaMaMeaning
import ExprLang.Proofs.ParseItems
import ExprLang.Proofs.ParseTable
import ExprLang.Proofs.ParseTrees
import ExprLang.Proofs.ParseRuns
import ExprLang.Proofs.ParseMoves
import ExprLang.Proofs.Parsing
import ExprLang.Proofs.ParseSteps
import ExprLang.Proofs.LabelUse
import ExprLang.Proofs.Computations
import ExprLang.Proofs.Runs
import ExprLang.Proofs.Debugging
import ExprLang.Proofs.Recovery
import ExprLang.Proofs.ParseTidy
import ExprLang.Proofs.Printing
import ExprLang.Proofs.Lexing
import ExprLang.Proofs.PrintParse
import ExprLang.Proofs.CMaForms
import ExprLang.Proofs.CMaBalance
import ExprLang.Proofs.Listings
import ExprLang.Proofs.References
import ExprLang.Proofs.Regions
import ExprLang.Proofs.Tracing
import ExprLang.Proofs.LexicalThis
import ExprLang.Proofs.PlainEffects
import ExprLang.Proofs.Confinement
import ExprLang.Proofs.Encapsulation
import ExprLang.Proofs.TokenStreams
import ExprLang.Proofs.CompileFailures
import ExprLang.Proofs.OwnEffects
import ExprLang.Proofs.Transparency
import ExprLang.Proofs.Stops
import ExprLang.Proofs.ScopeShape
import ExprLang.Proofs.ReservedBytes
import ExprLang.Proofs.GlobalLayout
import ExprLang.Proofs.Spellings
import ExprLang.Proofs.TokenPlaces
import ExprLang.Proofs.ParsePatterns
import ExprLang.Proofs.Desugaring
import ExprLang.Proofs.FilePlaces
import ExprLang.Proofs.BuildFiles
import ExprLang.Proofs.MaMaCaptures
import ExprLang.Proofs.MaMaPaths
import ExprLang.Proofs.MaMaLayout
import ExprLang.Proofs.MaMaLevels
import ExprLang.Proofs.MaMaSound
import ExprLang.Proofs.MaMaOutcomes
import ExprLang.Proofs.MaMaKinds
import ExprLang.Proofs.CMaLoops
import ExprLang.Proofs.Precedence
import ExprLang.Proofs.SyntaxNodes
import ExprLang.Proofs.NodeOrigins
import ExprLang.Proofs.Positions
import ExprLang.Proofs.Texts
import ExprLang.Proofs.LayoutFields
import ExprLang.Proofs.AssemblyLines
import ExprLang.Proofs.GeneratedText
import ExprLang.Proofs.ScopeLookup
import ExprLang.Proofs.StringLiterals
import ExprLang.Proofs.X86Machine
import ExprLang.Proofs.X86Arithmetic
import ExprLang.Proofs.ArrayShapes
import ExprLang.Proofs.ArrayElements
import ExprLang.Proofs.Numerals
import ExprLang.Proofs.LabelClashes
import ExprLang.Proofs.LayoutTwice
import ExprLang.Proofs.Rooms
import ExprLang.Proofs.ListFunctions
import ExprLang.Proofs.FingerprintPieces
import ExprLang.Proofs.FingerprintReadings
import ExprLang.Proofs.Fingerprints
