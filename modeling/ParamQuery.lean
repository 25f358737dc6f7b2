import ParamQuery.Compile.Call
import ParamQuery.Compile.Emit
import ParamQuery.Compile.Error
import ParamQuery.Compile.Mode
import ParamQuery.Compile.Naming
import ParamQuery.Compile.Session
import ParamQuery.Filter.Basic
import ParamQuery.Filter.Command
import ParamQuery.Filter.Path
import ParamQuery.Json.Basic
import ParamQuery.Json.Decode
import ParamQuery.Json.Printer
import ParamQuery.Json.Reader
import ParamQuery.Literal
import ParamQuery.Number.Binary64
import ParamQuery.Number.Scaled
import ParamQuery.Number.Shortest
import ParamQuery.Param.Command
import ParamQuery.Param.Registry
import ParamQuery.Proofs.BuiltTerms
import ParamQuery.Proofs.CaseArms
import ParamQuery.Proofs.EmitInline
import ParamQuery.Proofs.ExprFacts
import ParamQuery.Proofs.FilterFacts
import ParamQuery.Proofs.FragmentFacts
import ParamQuery.Proofs.Inline
import ParamQuery.Proofs.Lexing
import ParamQuery.Proofs.NamingFacts
import ParamQuery.Proofs.Noninterference
import ParamQuery.Proofs.OperatorTrees
import ParamQuery.Proofs.Pieces
import ParamQuery.Proofs.Placement
import ParamQuery.Proofs.QueryRuns
import ParamQuery.Proofs.Repeats
import ParamQuery.Proofs.ReplaceFacts
import ParamQuery.Proofs.Settling
import ParamQuery.Proofs.Styles
import ParamQuery.Proofs.TermFacts
import ParamQuery.Proofs.Transcripts
import ParamQuery.Query.Expr
import ParamQuery.Query.Method
import ParamQuery.Query.Operator
import ParamQuery.Query.Same
import ParamQuery.Query.ValueType
import ParamQuery.Schema.Column
import ParamQuery.Schema.ColumnType
import ParamQuery.Schema.Encoding
import ParamQuery.Schema.Shape
import ParamQuery.Schema.Table
import ParamQuery.Settings
import ParamQuery.Sql.Decision
import ParamQuery.Sql.Frame
import ParamQuery.Sql.Template
import ParamQuery.Sql.Term
import ParamQuery.Sql.Token
import ParamQuery.Text.Blank
import ParamQuery.Text.CodePoints
import ParamQuery.Text.DecimalDigit
import ParamQuery.Text.Invisible
import ParamQuery.Text.Padded
import ParamQuery.Text.Quoted
import ParamQuery.Text.Replace
import ParamQuery.Timestamp
import ParamQuery.Uuid
import ParamQuery.Proofs.OpenStatements
import ParamQuery.Proofs.SessionRegistry
import ParamQuery.Proofs.Nesting
import ParamQuery.Proofs.OperatorGrammar
import ParamQuery.Proofs.Quoting
import ParamQuery.Proofs.OperatorText
import ParamQuery.Proofs.ExpressionText
import ParamQuery.Proofs.Grouping
import ParamQuery.Proofs.FilterAgreement
import ParamQuery.Proofs.ForeignNames
import ParamQuery.Proofs.PhraseGrammar
import ParamQuery.Proofs.PhraseReading
import ParamQuery.Proofs.Regrouping
import ParamQuery.Proofs.PlainPhrases
import ParamQuery.Proofs.Conversions
import ParamQuery.Proofs.CallOperands
import ParamQuery.Proofs.EmittedSlots
import ParamQuery.Proofs.Refusals
import ParamQuery.Proofs.TextBindings
import ParamQuery.Proofs.SubqueryPlaces
import ParamQuery.Proofs.ColumnOrder
import ParamQuery.Proofs.TableBuilding
import ParamQuery.Proofs.ConditionGrammar
import ParamQuery.Proofs.FilterConditions
import ParamQuery.Proofs.ClauseParts
import ParamQuery.Proofs.WhereClause
import ParamQuery.Proofs.Qualification
import ParamQuery.Proofs.Renumbering
import ParamQuery.Proofs.Projections
import ParamQuery.Proofs.JoinKeys
import ParamQuery.Proofs.EqualityCalls
import ParamQuery.Proofs.SelectLists
import ParamQuery.Proofs.FilterOccurrences
import ParamQuery.Proofs.StrictColumns
import ParamQuery.Proofs.ListedMembers
import ParamQuery.Proofs.LengthChains
import ParamQuery.Proofs.Rounding
import ParamQuery.Proofs.JsonLiterals
import ParamQuery.Proofs.AccessReading
import ParamQuery.Proofs.TemplateSlots
