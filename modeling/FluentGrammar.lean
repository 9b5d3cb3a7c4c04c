import FluentGrammar.Config.Basic
import FluentGrammar.Config.OfToml
import FluentGrammar.Declaration.Basic
import FluentGrammar.Declaration.OfTree
import FluentGrammar.Declaration.TypeNode
import FluentGrammar.Definition.Basic
import FluentGrammar.DependencyOrder
import FluentGrammar.Fault
import FluentGrammar.LogLevel
import FluentGrammar.Method.Basic
import FluentGrammar.Method.Stub
import FluentGrammar.Modifier
import FluentGrammar.OrderedSet
import FluentGrammar.Owner
import FluentGrammar.Proofs.Alike
import FluentGrammar.Proofs.AncestorSearch
import FluentGrammar.Proofs.Ancestry
import FluentGrammar.Proofs.AnonymousClasses
import FluentGrammar.Proofs.ArchetypeCalls
import FluentGrammar.Proofs.ArchetypeCover
import FluentGrammar.Proofs.ArchetypeMethods
import FluentGrammar.Proofs.BodyText
import FluentGrammar.Proofs.Clashes
import FluentGrammar.Proofs.Completion
import FluentGrammar.Proofs.Composition
import FluentGrammar.Proofs.ContractSymmetry
import FluentGrammar.Proofs.ConversionClosure
import FluentGrammar.Proofs.ConversionCost
import FluentGrammar.Proofs.ConversionDistance
import FluentGrammar.Proofs.ConversionRun
import FluentGrammar.Proofs.ConversionStep
import FluentGrammar.Proofs.Delegation
import FluentGrammar.Proofs.DependencyCounters
import FluentGrammar.Proofs.DependencyCycles
import FluentGrammar.Proofs.DependencyLayers
import FluentGrammar.Proofs.DependencyOrder
import FluentGrammar.Proofs.Diamonds
import FluentGrammar.Proofs.DistinctParameters
import FluentGrammar.Proofs.DocumentationText
import FluentGrammar.Proofs.EmittedNames
import FluentGrammar.Proofs.Evolution
import FluentGrammar.Proofs.ExplicitMethods
import FluentGrammar.Proofs.FinalMembers
import FluentGrammar.Proofs.FinalMethods
import FluentGrammar.Proofs.FinalTables
import FluentGrammar.Proofs.ForeignParameters
import FluentGrammar.Proofs.Foundation
import FluentGrammar.Proofs.GainedAncestors
import FluentGrammar.Proofs.Hierarchy
import FluentGrammar.Proofs.Hygiene
import FluentGrammar.Proofs.Inheritance
import FluentGrammar.Proofs.InheritedStubs
import FluentGrammar.Proofs.LateMembers
import FluentGrammar.Proofs.LaterStages
import FluentGrammar.Proofs.Loading
import FluentGrammar.Proofs.MemberInstances
import FluentGrammar.Proofs.MethodCopy
import FluentGrammar.Proofs.MethodOutline
import FluentGrammar.Proofs.MethodTable
import FluentGrammar.Proofs.NameSearch
import FluentGrammar.Proofs.Obligations
import FluentGrammar.Proofs.PositionalBinding
import FluentGrammar.Proofs.PossibleNames
import FluentGrammar.Proofs.PromotedMembers
import FluentGrammar.Proofs.PromotedTables
import FluentGrammar.Proofs.RedundantInterfaces
import FluentGrammar.Proofs.RegisteredNames
import FluentGrammar.Proofs.Registry
import FluentGrammar.Proofs.Renaming
import FluentGrammar.Proofs.Replacement
import FluentGrammar.Proofs.RuleDocumentation
import FluentGrammar.Proofs.RuleFactories
import FluentGrammar.Proofs.Run
import FluentGrammar.Proofs.ScopedInterfaces
import FluentGrammar.Proofs.SelectionOptimum
import FluentGrammar.Proofs.Settlement
import FluentGrammar.Proofs.SignatureRenaming
import FluentGrammar.Proofs.StageEvolution
import FluentGrammar.Proofs.StageSteps
import FluentGrammar.Proofs.StageTables
import FluentGrammar.Proofs.StoredMethods
import FluentGrammar.Proofs.StringLiterals
import FluentGrammar.Proofs.StubTypes
import FluentGrammar.Proofs.Substitution
import FluentGrammar.Proofs.TableContents
import FluentGrammar.Proofs.TableRequests
import FluentGrammar.Proofs.TestNames
import FluentGrammar.Proofs.TextLines
import FluentGrammar.Proofs.TreePaths
import FluentGrammar.Proofs.TypeGrammar
import FluentGrammar.Proofs.TypeNodes
import FluentGrammar.Proofs.TypeText
import FluentGrammar.Proofs.TypeTokens
import FluentGrammar.Proofs.Unification
import FluentGrammar.Proofs.UnificationComplete
import FluentGrammar.Proofs.ValidSettings
import FluentGrammar.Proofs.ZeroDistance
import FluentGrammar.Registry.Ancestors
import FluentGrammar.Registry.Basic
import FluentGrammar.Registry.Methods
import FluentGrammar.Registry.Text
import FluentGrammar.Resolution.Basic
import FluentGrammar.Resolution.Closure
import FluentGrammar.Resolution.Factories
import FluentGrammar.Resolution.Finishing
import FluentGrammar.Resolution.Implementation
import FluentGrammar.Resolution.Loading
import FluentGrammar.Resolution.Promotion
import FluentGrammar.Resolution.Selection
import FluentGrammar.Resolution.Stage
import FluentGrammar.Settings
import FluentGrammar.Substitution
import FluentGrammar.Table
import FluentGrammar.Text.Blank
import FluentGrammar.Text.Body
import FluentGrammar.Text.CodeRange
import FluentGrammar.Text.Doc
import FluentGrammar.Text.Letter
import FluentGrammar.Text.Pieces
import FluentGrammar.Text.UpperCase
import FluentGrammar.Toml.Moment
import FluentGrammar.Toml.Number
import FluentGrammar.Toml.Reader
import FluentGrammar.Toml.Text
import FluentGrammar.Toml.Value
import FluentGrammar.Tree
import FluentGrammar.TypeExpr.Basic
import FluentGrammar.TypeExpr.Order
import FluentGrammar.TypeExpr.Reader
import FluentGrammar.TypeExpr.Token
import FluentGrammar.TypeParam
import FluentGrammar.Unification
