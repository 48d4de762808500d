import HeaderMacros.CommandLine.Plan
import HeaderMacros.Harvest
import HeaderMacros.Main
import HeaderMacros.Report.Record
import HeaderMacros.Search.Directories
import HeaderMacros.Settings.Environment
import HeaderMacros.Settings.Formats
import HeaderMacros.Settings.Load
import HeaderMacros.Shell.Flags
import HeaderMacros.Yaml.Document
import HeaderMacros.Proofs.Nesting.Block
import HeaderMacros.Proofs.Nesting.Meaning
import HeaderMacros.Proofs.Nesting.Skipping
import HeaderMacros.Proofs.Nesting.Refinement
import HeaderMacros.Proofs.Condition.Decimal
import HeaderMacros.Proofs.Condition.Layers
import HeaderMacros.Proofs.Condition.Reduction
import HeaderMacros.Proofs.Report.RoundTrip
import HeaderMacros.Proofs.Macro.Definition
import HeaderMacros.Proofs.Report.Harvested
import HeaderMacros.Proofs.Source.Splicing
import HeaderMacros.Proofs.Source.Placement
import HeaderMacros.Proofs.Condition.Expansion
import HeaderMacros.Proofs.Condition.Positions
import HeaderMacros.Proofs.Macro.Parsed
import HeaderMacros.Proofs.Condition.Budget
import HeaderMacros.Proofs.Condition.Parentheses
import HeaderMacros.Proofs.Condition.Subexpression
import HeaderMacros.Proofs.Run.Trace
import HeaderMacros.Proofs.Run.Line
import HeaderMacros.Proofs.Run.IncludeOnce
import HeaderMacros.Proofs.Nesting.Matching
import HeaderMacros.Proofs.Run.Termination
import HeaderMacros.Proofs.FileTree.Cleaning
import HeaderMacros.Proofs.Nesting.Ignored
import HeaderMacros.Proofs.Run.Places
import HeaderMacros.Proofs.Text.LetterCase
import HeaderMacros.Proofs.Search.FoundOnce
import HeaderMacros.Proofs.Macro.History
import HeaderMacros.Proofs.Nesting.Branching
import HeaderMacros.Proofs.Report.RecordLines
import HeaderMacros.Proofs.Run.Code
import HeaderMacros.Proofs.Source.Continuation
import HeaderMacros.Proofs.Source.Scanning
import HeaderMacros.Proofs.Source.RawString
import HeaderMacros.Proofs.Run.RawString
import HeaderMacros.Proofs.Condition.Replacement
import HeaderMacros.Proofs.Condition.WhiteSpace
import HeaderMacros.Proofs.Source.Normal
import HeaderMacros.Proofs.Run.Notes
import HeaderMacros.Proofs.Report.Headers
import HeaderMacros.Proofs.FileTree.Writing
import HeaderMacros.Proofs.Report.Rewriting
import HeaderMacros.Proofs.Macro.Spelling
import HeaderMacros.Proofs.Include.Spelling
import HeaderMacros.Proofs.Source.Seam
import HeaderMacros.Proofs.Condition.Invocation
import HeaderMacros.Proofs.Condition.NameTest
import HeaderMacros.Proofs.Token.Spacing
import HeaderMacros.Proofs.Run.NameTest
import HeaderMacros.Proofs.Source.Quoted
import HeaderMacros.Proofs.FileTree.Walking
import HeaderMacros.Proofs.Search.Ordered
import HeaderMacros.Proofs.Search.Nesting
import HeaderMacros.Proofs.CommandLine.Delivery
import HeaderMacros.Proofs.Macro.Option
import HeaderMacros.Proofs.Settings.Environment
import HeaderMacros.Proofs.Token.MaximalMunch
import HeaderMacros.Proofs.Source.Coalesced
import HeaderMacros.Proofs.Source.LineTokens
import HeaderMacros.Proofs.Condition.Literal
