import JsxHoist.Binding
import JsxHoist.Datum
import JsxHoist.Element
import JsxHoist.Event
import JsxHoist.Hoister
import JsxHoist.Json.Reader
import JsxHoist.Json.Token
import JsxHoist.JsxName
import JsxHoist.LibraryImport
import JsxHoist.NameSupply
import JsxHoist.Options.Basic
import JsxHoist.Options.Reader
import JsxHoist.Program
import JsxHoist.Proofs.Anchors
import JsxHoist.Proofs.Changes
import JsxHoist.Proofs.ComponentTags
import JsxHoist.Proofs.Edits
import JsxHoist.Proofs.Exhaustion
import JsxHoist.Proofs.FreshNames
import JsxHoist.Proofs.HostOptions
import JsxHoist.Proofs.Hygiene
import JsxHoist.Proofs.Inlining
import JsxHoist.Proofs.Insertions
import JsxHoist.Proofs.Interiors
import JsxHoist.Proofs.JsonTexts
import JsxHoist.Proofs.JsonTokens
import JsxHoist.Proofs.LeastNumbers
import JsxHoist.Proofs.Lockstep
import JsxHoist.Proofs.ModuleWalk
import JsxHoist.Proofs.NameSearch
import JsxHoist.Proofs.OptionMembers
import JsxHoist.Proofs.Paths
import JsxHoist.Proofs.Renaming
import JsxHoist.Proofs.Reports
import JsxHoist.Proofs.Scoping
import JsxHoist.Proofs.SecondRun
import JsxHoist.Proofs.Sessions
import JsxHoist.Proofs.Sharing
import JsxHoist.Proofs.Sites
import JsxHoist.Proofs.TwoPhases
import JsxHoist.Proofs.WalkStates
import JsxHoist.Registry
import JsxHoist.SourceMap
import JsxHoist.Span
import JsxHoist.Tree.Basic
import JsxHoist.Tree.Hoisting
import JsxHoist.Tree.Interchange
import JsxHoist.Tree.Layout
