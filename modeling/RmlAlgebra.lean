import RmlAlgebra.CommandLine
import RmlAlgebra.CommandLine.Argument
import RmlAlgebra.CommandLine.Help
import RmlAlgebra.CommandLine.Host
import RmlAlgebra.CommandLine.Request
import RmlAlgebra.Document
import RmlAlgebra.Engine.Answer
import RmlAlgebra.Engine.BuiltIn
import RmlAlgebra.Engine.Interface
import RmlAlgebra.FileSystem
import RmlAlgebra.Files
import RmlAlgebra.Files.Error
import RmlAlgebra.Graph
import RmlAlgebra.Iri.Character
import RmlAlgebra.Iri.Host
import RmlAlgebra.Iri.Reference
import RmlAlgebra.Iri.Resolve
import RmlAlgebra.Label
import RmlAlgebra.LanguageTag
import RmlAlgebra.Main
import RmlAlgebra.Normal
import RmlAlgebra.Normal.Class
import RmlAlgebra.Normal.Constant
import RmlAlgebra.Normal.PredicateObject
import RmlAlgebra.Normal.Separation
import RmlAlgebra.Normal.SubGraph
import RmlAlgebra.Pipeline
import RmlAlgebra.Pipeline.Block
import RmlAlgebra.Pipeline.Error
import RmlAlgebra.Pipeline.Options
import RmlAlgebra.Pipeline.PlanText
import RmlAlgebra.Plan
import RmlAlgebra.Plan.Expression
import RmlAlgebra.Plan.Rule
import RmlAlgebra.Plan.TermMap
import RmlAlgebra.Proofs.LineFormat
import RmlAlgebra.Proofs.Separator
import RmlAlgebra.Statement
import RmlAlgebra.Template
import RmlAlgebra.Text.Blank
import RmlAlgebra.Text.Decimal
import RmlAlgebra.Text.Line
import RmlAlgebra.Text.Order
import RmlAlgebra.Text.Split
import RmlAlgebra.Triple
import RmlAlgebra.Turtle.Character
import RmlAlgebra.Turtle.Document
import RmlAlgebra.Turtle.Machine
import RmlAlgebra.Turtle.Quoted
import RmlAlgebra.Turtle.Token
import RmlAlgebra.Vocabulary
import RmlAlgebra.Wording
import RmlAlgebra.Proofs.Asking
import RmlAlgebra.Proofs.BlockFraming
import RmlAlgebra.Proofs.FreshLabel
import RmlAlgebra.Proofs.Removal
import RmlAlgebra.Proofs.Rewriting
import RmlAlgebra.Proofs.Traversal
import RmlAlgebra.Proofs.HandOff
import RmlAlgebra.Proofs.DocumentTerms
import RmlAlgebra.Proofs.DocumentHandOff
import RmlAlgebra.Proofs.Renaming
import RmlAlgebra.Proofs.PlanRenaming
import RmlAlgebra.Proofs.NewLabels
import RmlAlgebra.Proofs.LabelShift
import RmlAlgebra.Proofs.SeedIndependence
import RmlAlgebra.Proofs.MappingRule
import RmlAlgebra.Proofs.TermRules
import RmlAlgebra.Proofs.Arrangement
import RmlAlgebra.Proofs.SpelledOut
import RmlAlgebra.Proofs.PairRows
import RmlAlgebra.Proofs.PairRules
import RmlAlgebra.Proofs.SeparatedRules
import RmlAlgebra.Proofs.SubGraphRules
import RmlAlgebra.Proofs.RulePreservation
import RmlAlgebra.Proofs.CanonicalForm
import RmlAlgebra.Proofs.Fixpoint
import RmlAlgebra.Proofs.JoinForm
import RmlAlgebra.Proofs.CallTrace
import RmlAlgebra.Proofs.ParentSubject
import RmlAlgebra.Proofs.TakenNames
import RmlAlgebra.Proofs.SubjectMaps
import RmlAlgebra.Proofs.EmissionOrder
import RmlAlgebra.Proofs.LineRoundTrip
import RmlAlgebra.Proofs.Relabelling
import RmlAlgebra.Proofs.Refusals
import RmlAlgebra.Proofs.ExpressionText
import RmlAlgebra.Proofs.PlanLines
import RmlAlgebra.Proofs.SubGraphContent
import RmlAlgebra.Proofs.ClassOwners
import RmlAlgebra.Proofs.ArgumentSpelling
import RmlAlgebra.Proofs.CommandEffects
import RmlAlgebra.Proofs.PlannedRoot
import RmlAlgebra.Proofs.HandedOutLabels
import RmlAlgebra.Proofs.MovedLinks
import RmlAlgebra.Proofs.ConstantContraction
import RmlAlgebra.Proofs.TemplateParts
import RmlAlgebra.Proofs.NamedGraphs
import RmlAlgebra.Proofs.JoinConditions
import RmlAlgebra.Proofs.OwnSource
import RmlAlgebra.Proofs.ProjectedAttributes
import RmlAlgebra.Proofs.TemplateRenaming
import RmlAlgebra.Proofs.BlockSplitting
import RmlAlgebra.Proofs.PlanRoundTrip
import RmlAlgebra.Proofs.LineGrammar
