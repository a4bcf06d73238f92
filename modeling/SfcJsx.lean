import SfcJsx.Main
import SfcJsx.Proofs.AnnotatedProps
import SfcJsx.Proofs.BlockComments
import SfcJsx.Proofs.BlockSplitting
import SfcJsx.Proofs.CacheHistory
import SfcJsx.Proofs.CondensedText
import SfcJsx.Proofs.ConditionOperands
import SfcJsx.Proofs.CopiedText
import SfcJsx.Proofs.DeclarationRemoval
import SfcJsx.Proofs.DeclaratorLists
import SfcJsx.Proofs.DeclaredModels
import SfcJsx.Proofs.DefaultExports
import SfcJsx.Proofs.DirectiveNames
import SfcJsx.Proofs.FallbackPlaces
import SfcJsx.Proofs.FunctionTypes
import SfcJsx.Proofs.ImportRoundTrip
import SfcJsx.Proofs.ImportTargets
import SfcJsx.Proofs.JoinedExpressions
import SfcJsx.Proofs.LineStarts
import SfcJsx.Proofs.LoopProgress
import SfcJsx.Proofs.MaskedBrackets
import SfcJsx.Proofs.NestedTemplates
import SfcJsx.Proofs.OutputPlaces
import SfcJsx.Proofs.PatternDefaults
import SfcJsx.Proofs.QuotedAttributes
import SfcJsx.Proofs.RejoinedStatements
import SfcJsx.Proofs.ReturnedJsx
import SfcJsx.Proofs.ScanStops
import SfcJsx.Proofs.ScopeStack
import SfcJsx.Proofs.ShadowedTemplate
import SfcJsx.Proofs.SplitPartition
import SfcJsx.Proofs.StandaloneNames
import SfcJsx.Proofs.StyleClasses
import SfcJsx.Proofs.TemplateRoundTrip
import SfcJsx.Proofs.TokenTiling
import SfcJsx.Proofs.UnquotedValues
import SfcJsx.Proofs.WrappedHandlers
