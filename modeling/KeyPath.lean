import KeyPath.Text
import KeyPath.Numeral
import KeyPath.Template
import KeyPath.Template.Reader
import KeyPath.Glob
import KeyPath.Glob.Search
import KeyPath.Regex
import KeyPath.Regex.Tabled
import KeyPath.Pattern
import KeyPath.Fault
import KeyPath.Journal
import KeyPath.Pattern.OfKey
import KeyPath.Spec
import KeyPath.Trail
import KeyPath.Render
import KeyPath.Accept
import KeyPath.Shift
import KeyPath.Session
import KeyPath.CommandLine.Arguments
import KeyPath.CommandLine
import KeyPath.Main
import KeyPath.Proofs.Arguments
import KeyPath.Proofs.Glob.Expression
import KeyPath.Proofs.Compiled
import KeyPath.Proofs.Decision
import KeyPath.Proofs.Descent
import KeyPath.Proofs.Leaves
import KeyPath.Proofs.Walk
import KeyPath.Proofs.Segments
import KeyPath.Proofs.Choice
import KeyPath.Proofs.Lookup
import KeyPath.Proofs.Template.Grammar
import KeyPath.Proofs.Template.Reading
import KeyPath.Proofs.Template.Rendering
import KeyPath.Proofs.Template.Resolution
import KeyPath.Proofs.Template.Writing
import KeyPath.Proofs.Glob.Captures
import KeyPath.Proofs.Glob.Match
import KeyPath.Proofs.Glob.Refill
import KeyPath.Proofs.Glob.Scan
import KeyPath.Proofs.Glob.Expansion
import KeyPath.Proofs.Glob.Regex
import KeyPath.Proofs.Scope
import KeyPath.Proofs.Relocation
import KeyPath.Proofs.Dotted
import KeyPath.Proofs.ReadBack
import KeyPath.Proofs.Shape
import KeyPath.Proofs.Relevance
import KeyPath.Proofs.WellFormed
import KeyPath.Proofs.Provenance
import KeyPath.Proofs.Report
import KeyPath.Proofs.Nodes
import KeyPath.Proofs.Template.Concatenation
import KeyPath.Proofs.Template.Index
import KeyPath.Proofs.Outputs
import KeyPath.Proofs.Search
import KeyPath.Proofs.SearchJournal
import KeyPath.Proofs.CompilationJournal
