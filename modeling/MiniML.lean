import MiniML.Name
import MiniML.Term.Basic
import MiniML.Term.Print
import MiniML.Term.Binding
import MiniML.Term.Outline
import MiniML.Ty.Basic
import MiniML.Ty.Subst
import MiniML.Ty.Env
import MiniML.Ty.Unify
import MiniML.Typing.Infer
import MiniML.Typing.Context
import MiniML.Eval.Store
import MiniML.Eval.Step
import MiniML.Eval.Run
import MiniML.Text.CharClass
import MiniML.Text.Quoted
import MiniML.Text.Hex
import MiniML.Text.Numeral
import MiniML.Text.Binary64
import MiniML.Text.Decimal
import MiniML.Text.Moment
import MiniML.Text.Base64
import MiniML.Text.EditDistance
import MiniML.Source.Glyph
import MiniML.Source.Token
import MiniML.Source.Scan
import MiniML.Source.Parse
import MiniML.Session
import MiniML.Session.Running
import MiniML.FileTree
import MiniML.Settings.Basic
import MiniML.Settings.Toml.Scalar
import MiniML.Settings.Toml.Syntax
import MiniML.Settings.Toml.Document
import MiniML.Settings.Toml
import MiniML.Settings.Yaml.Token
import MiniML.Settings.Yaml.Scalar
import MiniML.Settings.Yaml.Scan
import MiniML.Settings.Yaml.Node
import MiniML.Settings.Yaml.Content
import MiniML.Settings.Yaml
import MiniML.Settings.Load
import MiniML.Command.Style
import MiniML.Command.Arguments
import MiniML.Command.Tour
import MiniML.Command.Perform
import MiniML.Command.Paths
import MiniML.Main
import MiniML.Proofs.Ty.Mono
import MiniML.Proofs.Ty.Acyclic
import MiniML.Proofs.Ty.Unifier
import MiniML.Proofs.Name.Fresh
import MiniML.Proofs.Ty.Scheme
import MiniML.Proofs.Ty.Budget
import MiniML.Proofs.Ty.Resolution
import MiniML.Proofs.Ty.Quantifiers
import MiniML.Proofs.Ty.Generalization
import MiniML.Proofs.Typing.Declarative
import MiniML.Proofs.Typing.Hygiene
import MiniML.Proofs.Typing.Runs
import MiniML.Proofs.Typing.Budget
import MiniML.Proofs.Typing.Context
import MiniML.Proofs.Typing.Soundness
import MiniML.Proofs.Typing.Calls
import MiniML.Proofs.Typing.Composition
import MiniML.Proofs.Typing.Quantifiers
import MiniML.Proofs.Typing.Uniform
import MiniML.Proofs.Typing.Principal
import MiniML.Proofs.Typing.Invariance
import MiniML.Proofs.Typing.Scope
import MiniML.Proofs.Term.Alpha
import MiniML.Proofs.Eval.Runs
import MiniML.Proofs.Eval.Preservation
import MiniML.Proofs.Eval.Progress
import MiniML.Proofs.Eval.Safety
import MiniML.Proofs.Source.Denotable
import MiniML.Proofs.Session.Weak
import MiniML.Proofs.Session.Safety
import MiniML.Proofs.Term.Nameless
import MiniML.Proofs.Term.Renaming
import MiniML.Proofs.Term.Canonical
import MiniML.Proofs.Term.Distinct
import MiniML.Proofs.Term.Levels
import MiniML.Proofs.Term.Substitution
import MiniML.Proofs.Eval.Nameless
import MiniML.Proofs.Session.Nested
import MiniML.Proofs.Session.Scoping
import MiniML.Proofs.Session.Capture
import MiniML.Proofs.Session.Provenance
import MiniML.Proofs.Session.Rejection
import MiniML.Proofs.Session.Concatenation
import MiniML.Proofs.Session.Writing
import MiniML.Proofs.Eval.Regions
import MiniML.Proofs.Eval.Allocation
import MiniML.Proofs.Eval.Nonexpansive
import MiniML.Proofs.Source.Grammar
import MiniML.Proofs.Source.Program
import MiniML.Proofs.Source.Scanning
import MiniML.Proofs.Source.Decoding
import MiniML.Proofs.Source.Separation
import MiniML.Proofs.Source.Encoding
import MiniML.Proofs.Source.Items
import MiniML.Proofs.Source.Surface
import MiniML.Proofs.Source.Agreement
import MiniML.Proofs.Source.Tiling
import MiniML.Proofs.Source.Cursor
import MiniML.Proofs.Source.Gaps
import MiniML.Proofs.Source.Layout
import MiniML.Proofs.Source.Rendering
import MiniML.Proofs.Eval.CallByValue
import MiniML.Proofs.Ty.Occurrences
import MiniML.Proofs.Ty.Application
import MiniML.Proofs.Settings.Search
import MiniML.Proofs.Term.Printing
