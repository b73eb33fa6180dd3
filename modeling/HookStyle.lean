import HookStyle.Chain.Compile
import HookStyle.Chain.Resolution
import HookStyle.Css.Expression
import HookStyle.Css.Layout
import HookStyle.Css.Property
import HookStyle.Css.Rule
import HookStyle.Css.Value
import HookStyle.Decimal.Plain
import HookStyle.Decimal.Shortest
import HookStyle.Engine.Basic
import HookStyle.Engine.Config
import HookStyle.Engine.Registry
import HookStyle.Engine.Variables
import HookStyle.Error
import HookStyle.Hook.Condition
import HookStyle.Hook.Identifier
import HookStyle.Hook.Name
import HookStyle.Json.Document
import HookStyle.Json.Outline
import HookStyle.Json.Token
import HookStyle.OrderedMap.Basic
import HookStyle.Proofs.Chain.Agreement
import HookStyle.Proofs.Chain.Faults
import HookStyle.Proofs.Chain.Helpers
import HookStyle.Proofs.Chain.Independence
import HookStyle.Proofs.Chain.Reading
import HookStyle.Proofs.Chain.References
import HookStyle.Proofs.Chain.Shape
import HookStyle.Proofs.Chain.Soundness
import HookStyle.Proofs.Chain.Toggles
import HookStyle.Proofs.Css.Reading
import HookStyle.Proofs.Css.RoundTrip
import HookStyle.Proofs.Css.Spelling
import HookStyle.Proofs.Css.Written
import HookStyle.Proofs.Decimal.Characters
import HookStyle.Proofs.Engine.Acceptance
import HookStyle.Proofs.Engine.Families
import HookStyle.Proofs.Engine.Foreign
import HookStyle.Proofs.Engine.Generated
import HookStyle.Proofs.Engine.Ledger
import HookStyle.Proofs.Engine.Overrides
import HookStyle.Proofs.Engine.Parametric
import HookStyle.Proofs.Engine.Refusals
import HookStyle.Proofs.Engine.Registration
import HookStyle.Proofs.Engine.Registries
import HookStyle.Proofs.Engine.Runs
import HookStyle.Proofs.Engine.Themes
import HookStyle.Proofs.Engine.Together
import HookStyle.Proofs.Engine.Variables
import HookStyle.Proofs.Evaluation.Computed
import HookStyle.Proofs.Evaluation.Expression
import HookStyle.Proofs.Evaluation.References
import HookStyle.Proofs.Evaluation.Substitution
import HookStyle.Proofs.Evaluation.Text
import HookStyle.Proofs.Hook.Collision
import HookStyle.Proofs.Hook.Hash
import HookStyle.Proofs.Hook.Identifier
import HookStyle.Proofs.Hook.Names
import HookStyle.Proofs.Hook.Operands
import HookStyle.Proofs.Outcome
import HookStyle.Proofs.Style.Animations
import HookStyle.Proofs.Style.Cascade
import HookStyle.Proofs.Style.Filling
import HookStyle.Proofs.Style.LastWrites
import HookStyle.Proofs.Style.Mentions
import HookStyle.Proofs.Style.Merging
import HookStyle.Proofs.Style.Scripts
import HookStyle.Proofs.Text.Numbered
import HookStyle.Proofs.Toggle.Sheet
import HookStyle.Proofs.Toggle.State
import HookStyle.Proofs.Tree.Declarations
import HookStyle.Proofs.Tree.Defaults
import HookStyle.Proofs.Tree.Documents
import HookStyle.Proofs.Tree.Filling
import HookStyle.Proofs.Tree.Hooks
import HookStyle.Proofs.Tree.Leaves
import HookStyle.Proofs.Tree.Meaning
import HookStyle.Proofs.Tree.Parts
import HookStyle.Proofs.Tree.Paths
import HookStyle.Proofs.Tree.Walk
import HookStyle.Style.Basic
import HookStyle.Style.Keyframes
import HookStyle.Style.Merge
import HookStyle.Style.Parametric
import HookStyle.Text.Blank
import HookStyle.Text.Numeral
import HookStyle.Text.Start
import HookStyle.Text.Units
import HookStyle.Toggle.Basic
import HookStyle.Toggle.System
import HookStyle.Tree.Basic
import HookStyle.Tree.Document
import HookStyle.Tree.Layers
