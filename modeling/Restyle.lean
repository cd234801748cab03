import Restyle.Chain.Basic
import Restyle.Chain.Command
import Restyle.Chain.Edit
import Restyle.Chain.Error
import Restyle.Chain.Line
import Restyle.Chain.Trail
import Restyle.ClassDecl
import Restyle.Data.Basic
import Restyle.Data.Json
import Restyle.Data.Record
import Restyle.Data.Toml.Document
import Restyle.Data.Toml.Quoted
import Restyle.Data.Toml.Reader
import Restyle.Data.Toml.Scalar
import Restyle.Files
import Restyle.Group
import Restyle.Item
import Restyle.Lexer.Analyzer
import Restyle.Lexer.Comment
import Restyle.Lexer.Error
import Restyle.Lexer.Heredoc
import Restyle.Lexer.Metrics
import Restyle.Lexer.Notices
import Restyle.Lexer.Number
import Restyle.Lexer.Quoted
import Restyle.Lexer.Scan
import Restyle.Lexer.Symbol
import Restyle.Lexer.Word
import Restyle.Limits
import Restyle.Limits.Build
import Restyle.Log.Code
import Restyle.Log.Event
import Restyle.Log.Level
import Restyle.Log.Session
import Restyle.Log.Structured
import Restyle.Pass.Basic
import Restyle.Pass.Run
import Restyle.Pass.Validate
import Restyle.Rule.Basic
import Restyle.Rule.ConstructorDefaults
import Restyle.Rule.Shipped
import Restyle.Settings.Basic
import Restyle.Settings.Codec
import Restyle.Text
import Restyle.Token
import Restyle.Token.Codec
import Restyle.Proofs.Chain.Table
import Restyle.Proofs.Chain.WellFormed
import Restyle.Proofs.Chain.Splice
import Restyle.Proofs.Chain.Edits
import Restyle.Proofs.Chain.Line
import Restyle.Proofs.Chain.Reachable
import Restyle.Proofs.Chain.Join
import Restyle.Proofs.Chain.History
import Restyle.Proofs.Chain.Refinement
import Restyle.Proofs.Chain.Lifecycle
import Restyle.Proofs.Chain.Strays
import Restyle.Proofs.Chain.Relink
import Restyle.Proofs.Chain.SelfLink
import Restyle.Proofs.Lexer.Cuts
import Restyle.Proofs.Lexer.Lossless
import Restyle.Proofs.Group.Forest
import Restyle.Proofs.Group.Parse
import Restyle.Proofs.Group.Balance
import Restyle.Proofs.Group.Same
import Restyle.Proofs.Group.Pieces
import Restyle.Proofs.Class.Header
import Restyle.Proofs.Class.Decl
import Restyle.Proofs.Class.Runs
import Restyle.Proofs.Class.Defaults
import Restyle.Proofs.Class.Rename
import Restyle.Proofs.Class.Slices
import Restyle.Proofs.Class.Placement
import Restyle.Proofs.Class.Anonymous
import Restyle.Proofs.Rule.Active
import Restyle.Proofs.Class.Reread
import Restyle.Proofs.Rule.Effect
import Restyle.Proofs.Rule.Tokens
import Restyle.Proofs.Rule.Edited
import Restyle.Proofs.Rule.Invariant
import Restyle.Proofs.Rule.Drops
import Restyle.Proofs.Rule.Copies
import Restyle.Proofs.Rule.Statements
import Restyle.Proofs.Rule.Additions
import Restyle.Proofs.Rule.NewConstructor
import Restyle.Proofs.Rule.Run
import Restyle.Proofs.Rule.Frame
import Restyle.Proofs.Rule.Failure
import Restyle.Proofs.Rule.Progress
import Restyle.Proofs.Rule.Comments
import Restyle.Proofs.Lexer.Heredoc
import Restyle.Proofs.Lexer.HeredocHeader
import Restyle.Proofs.Lexer.Context
import Restyle.Proofs.Lexer.Legible
import Restyle.Proofs.Lexer.Reread
import Restyle.Proofs.Rule.Writing
import Restyle.Proofs.Rule.Reading
import Restyle.Proofs.Rule.Commands
import Restyle.Proofs.Pass.Accounting
import Restyle.Proofs.Pass.FixedPoint
import Restyle.Proofs.Chain.Names
import Restyle.Proofs.Lexer.Sections
import Restyle.Proofs.Log.Share
import Restyle.Proofs.Rule.Exact
import Restyle.Proofs.Rule.Rebuilt
import Restyle.Proofs.Lexer.Munch
import Restyle.Proofs.Lexer.Literals
import Restyle.Proofs.Lexer.Failures
import Restyle.Proofs.Lexer.Keywords
import Restyle.Proofs.Lexer.Metrics
import Restyle.Proofs.Text
import Restyle.Proofs.Text.Utf8
import Restyle.Proofs.Lexer.Quoted
import Restyle.Proofs.Lexer.Longest
import Restyle.Proofs.Lexer.Numerals
import Restyle.Proofs.Lexer.NumeralBytes
import Restyle.Proofs.Log.Clip
import Restyle.Proofs.Lexer.Offsets
