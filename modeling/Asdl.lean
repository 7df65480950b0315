import Asdl.CommandLine.Arguments
import Asdl.CommandLine.FileTree
import Asdl.CommandLine.Plan
import Asdl.Error
import Asdl.Generate
import Asdl.Header.Bodies
import Asdl.Header.Class
import Asdl.Header.Declarations
import Asdl.Header.Guard
import Asdl.Header.Item
import Asdl.Header.Line
import Asdl.Header.Section
import Asdl.Header.Tree
import Asdl.Header.Type
import Asdl.Json.Ignored
import Asdl.Json.Number
import Asdl.Json.Quoted
import Asdl.Json.Token
import Asdl.Json.Writer
import Asdl.Log
import Asdl.Log.Directive
import Asdl.Log.Filter
import Asdl.Log.Value
import Asdl.Main
import Asdl.Model
import Asdl.Model.Resolution
import Asdl.NameTable
import Asdl.Naming
import Asdl.Options
import Asdl.Options.Json
import Asdl.Pattern
import Asdl.Pattern.Class
import Asdl.Pattern.Escape
import Asdl.Pattern.Flags
import Asdl.Pattern.Height
import Asdl.Run
import Asdl.Schema
import Asdl.Schema.Catalog
import Asdl.Schema.Error
import Asdl.Schema.Reader
import Asdl.Schema.Validity
import Asdl.SortedMap
import Asdl.TagTables
import Asdl.Text.Alphanumeric
import Asdl.Text.Blank
import Asdl.Token
import Asdl.Token.Lexer
import Asdl.Proofs.Checks
import Asdl.Proofs.Resolved
import Asdl.Proofs.Tags
import Asdl.Proofs.Sections
import Asdl.Proofs.Totality
import Asdl.Proofs.HeaderNames
import Asdl.Proofs.Spelling
import Asdl.Proofs.SortedMaps
import Asdl.Proofs.Agreement
import Asdl.Proofs.Grammar
import Asdl.Proofs.Reading
import Asdl.Proofs.Acceptance
import Asdl.Proofs.TopLevel
import Asdl.Proofs.Signatures
import Asdl.Proofs.Needs
import Asdl.Proofs.DeclarationOrder
import Asdl.Proofs.Lexing
import Asdl.Proofs.Writing
import Asdl.Proofs.Viability
import Asdl.Proofs.Reordering
import Asdl.Proofs.Relevance
import Asdl.Proofs.MacroNames
import Asdl.Proofs.Bases
import Asdl.Proofs.ArgumentLists
import Asdl.Proofs.Closed
import Asdl.Proofs.FileTrees
import Asdl.Proofs.Runs
import Asdl.Proofs.Defects
import Asdl.Proofs.DataClasses
import Asdl.Proofs.TreeBodies
import Asdl.Proofs.RecordNames
import Asdl.Proofs.Segmentation
import Asdl.Proofs.Layouts
import Asdl.Proofs.Calls
import Asdl.Proofs.Delimiters
import Asdl.Proofs.Nesting
import Asdl.Proofs.RepeatedVariants
import Asdl.Proofs.MemberNames
import Asdl.Proofs.JsonTexts
import Asdl.Proofs.OptionTexts
import Asdl.Proofs.ByteOrder
import Asdl.Proofs.Sidecars
import Asdl.Proofs.Lookups
import Asdl.Proofs.Lines
import Asdl.Proofs.TypeNames
