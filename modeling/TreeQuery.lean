import TreeQuery.Number.Encoding
import TreeQuery.Query
import TreeQuery.Tree.DocumentOrder
import TreeQuery.Tree.Draft
import TreeQuery.Proofs.Filter.Strategy
import TreeQuery.Proofs.Typing.Occurrence
import TreeQuery.Proofs.Typing.Subtype
import TreeQuery.Proofs.Typing.Preorder
import TreeQuery.Proofs.Typing.Judgement
import TreeQuery.Proofs.Typing.Focus
import TreeQuery.Proofs.Typing.Sameness
import TreeQuery.Proofs.Typing.Conformance
import TreeQuery.Proofs.Typing.Built
import TreeQuery.Proofs.Typing.Annotation
import TreeQuery.Proofs.Typing.Chains
import TreeQuery.Proofs.Typing.Logic
import TreeQuery.Proofs.Typing.Checks
import TreeQuery.Proofs.Typing.Predicates
import TreeQuery.Proofs.Typing.Filters
import TreeQuery.Proofs.Typing.Compile
import TreeQuery.Proofs.Number.Exact
import TreeQuery.Proofs.Cursor.Items
import TreeQuery.Proofs.Filter.Lengths
import TreeQuery.Proofs.Typing.Environment
import TreeQuery.Proofs.Typing.Delivery
import TreeQuery.Proofs.Typing.Evaluation
import TreeQuery.Proofs.Typing.Calls
import TreeQuery.Proofs.Typing.Soundness
import TreeQuery.Proofs.Truth.Verdict
import TreeQuery.Proofs.Truth.Steps
import TreeQuery.Proofs.Eval.Location
import TreeQuery.Proofs.Truth.Relative
import TreeQuery.Proofs.Atomic.Compare
import TreeQuery.Proofs.Truth.Search
import TreeQuery.Proofs.Check.Streaming
import TreeQuery.Proofs.Eval.Dependency
import TreeQuery.Proofs.Check.Resolution
import TreeQuery.Proofs.Eval.Parameters
import TreeQuery.Proofs.Truth.Lifting
import TreeQuery.Proofs.Check.Agreement
import TreeQuery.Proofs.Check.Elision
import TreeQuery.Proofs.Eval.Size
import TreeQuery.Proofs.Compile.Unfocused
import TreeQuery.Proofs.Eval.Presence
import TreeQuery.Proofs.Tree.Order
import TreeQuery.Proofs.Tree.Sorted
import TreeQuery.Proofs.Tree.Axis
import TreeQuery.Proofs.Eval.Order
import TreeQuery.Proofs.Rewriting.Walk
import TreeQuery.Proofs.Rewriting.Path
import TreeQuery.Proofs.Rewriting.Truth
import TreeQuery.Proofs.Rewriting.Local
import TreeQuery.Proofs.Machine.State
import TreeQuery.Proofs.Machine.Cursor
import TreeQuery.Proofs.Machine.Tracking
import TreeQuery.Proofs.Machine.Evaluation
import TreeQuery.Proofs.Machine.Refinement
import TreeQuery.Proofs.Machine.Session
import TreeQuery.Proofs.Cursor.Hint
import TreeQuery.Proofs.Eval.Hint
import TreeQuery.Proofs.Compile.Failures
import TreeQuery.Proofs.Compile.Deferred
import TreeQuery.Proofs.Check.Sequence
import TreeQuery.Proofs.Check.Lookahead
import TreeQuery.Proofs.Tree.Inverse
import TreeQuery.Proofs.Tree.Sorting
import TreeQuery.Proofs.Filter.Sifting
import TreeQuery.Proofs.Eval.Step
import TreeQuery.Proofs.Filter.Places
import TreeQuery.Proofs.Filter.Merging
import TreeQuery.Proofs.Number.Written
import TreeQuery.Proofs.Atomic.Cast
import TreeQuery.Proofs.Compile.Effects
import TreeQuery.Proofs.Compile.TruePredicates
import TreeQuery.Proofs.Filter.Recognition
import TreeQuery.Proofs.Eval.Substitution
import TreeQuery.Proofs.Compile.Notes
import TreeQuery.Proofs.Cursor.Resemblance
import TreeQuery.Proofs.Eval.Gist
import TreeQuery.Proofs.Filter.Verdict
import TreeQuery.Proofs.Filter.Twins
import TreeQuery.Proofs.Filter.Unwrapping
import TreeQuery.Proofs.Filter.Narrowing
import TreeQuery.Proofs.Filter.Canonical
import TreeQuery.Proofs.Filter.Preservation
import TreeQuery.Proofs.Filter.Tidy
import TreeQuery.Proofs.Truth.Remaining
