import BuildGraph.Document.Access
import BuildGraph.Document.Build
import BuildGraph.Document.Composite
import BuildGraph.Document.Json
import BuildGraph.Document.Node
import BuildGraph.Document.Parse
import BuildGraph.Document.Select
import BuildGraph.Element.Architecture
import BuildGraph.Element.Basic
import BuildGraph.Element.Declaration
import BuildGraph.Element.Depends
import BuildGraph.Error
import BuildGraph.Graph.Cycle
import BuildGraph.Graph.Order
import BuildGraph.Graph.Unseen
import BuildGraph.Graph.Walk
import BuildGraph.Keyed
import BuildGraph.Layer
import BuildGraph.Load
import BuildGraph.Project.Discovery
import BuildGraph.Project.Files
import BuildGraph.Project.Include
import BuildGraph.Project.Path
import BuildGraph.Provenance
import BuildGraph.Resolved.Basic
import BuildGraph.Resolved.Collect
import BuildGraph.Resolved.Source
import BuildGraph.Roster
import BuildGraph.Stack
import BuildGraph.Text.Blank
import BuildGraph.Text.Decimal
import BuildGraph.Text.Quoted
import BuildGraph.Variant.Choice
import BuildGraph.Variant.Configuration
import BuildGraph.Variant.Error
import BuildGraph.Variant.Request
import BuildGraph.Variant.Search
import BuildGraph.Yaml.Character
import BuildGraph.Yaml.Cursor
import BuildGraph.Yaml.Event
import BuildGraph.Yaml.Event.Grammar
import BuildGraph.Yaml.Token
import BuildGraph.Yaml.Token.Block
import BuildGraph.Yaml.Token.Flow
import BuildGraph.Yaml.Token.Layout
import BuildGraph.Yaml.Token.Lexer
import BuildGraph.Yaml.Token.Tag
import BuildGraph.Proofs.Variant.Run
import BuildGraph.Proofs.Variant.Consistency
import BuildGraph.Proofs.Variant.Depth
import BuildGraph.Proofs.Variant.Termination
import BuildGraph.Proofs.Variant.Completeness
import BuildGraph.Proofs.Variant.Target
import BuildGraph.Proofs.Outcome
import BuildGraph.Proofs.Variant.Commit
import BuildGraph.Proofs.Graph.Order
import BuildGraph.Proofs.Graph.Walk
import BuildGraph.Proofs.Graph.Reach
import BuildGraph.Proofs.Stack.Expand
import BuildGraph.Proofs.Load.Discovery
import BuildGraph.Proofs.Resolved.Collect
import BuildGraph.Proofs.Load.Target
import BuildGraph.Proofs.Graph.Cycle
import BuildGraph.Proofs.Graph.Closure
import BuildGraph.Proofs.Graph.Arrangement
import BuildGraph.Proofs.Graph.Sorted
import BuildGraph.Proofs.Element.Declaration
import BuildGraph.Proofs.Project.Include
import BuildGraph.Proofs.Project.Reads
import BuildGraph.Proofs.Load.Discovered
import BuildGraph.Proofs.Resolved.Settings
import BuildGraph.Proofs.Load.Refinement
import BuildGraph.Proofs.Stack.Embedded
import BuildGraph.Proofs.Stack.InPlace
import BuildGraph.Proofs.Stack.Acyclic
import BuildGraph.Proofs.Variant.Reached
import BuildGraph.Proofs.Document.Latest
import BuildGraph.Proofs.Element.Kind
import BuildGraph.Proofs.Load.Kind
import BuildGraph.Proofs.Failure
import BuildGraph.Proofs.Variant.Known
import BuildGraph.Proofs.Resolved.Sharing
import BuildGraph.Proofs.Load.Known
import BuildGraph.Proofs.Load.Sibling
import BuildGraph.Proofs.Document.Scalar
import BuildGraph.Proofs.Document.Merge
import BuildGraph.Proofs.Document.Conflict
import BuildGraph.Proofs.Document.Kept
import BuildGraph.Proofs.Document.Distinct
import BuildGraph.Proofs.Document.Extension
import BuildGraph.Proofs.Document.Union
import BuildGraph.Proofs.Document.Pairs
import BuildGraph.Proofs.Document.Reading
import BuildGraph.Proofs.Yaml.Nesting
import BuildGraph.Proofs.Project.Run
import BuildGraph.Proofs.Project.Circle
import BuildGraph.Proofs.Project.Session
import BuildGraph.Proofs.Project.Permutation
import BuildGraph.Proofs.Project.Fragment
import BuildGraph.Proofs.Element.Kept
import BuildGraph.Proofs.Element.Directive
import BuildGraph.Proofs.Load.Provenance
import BuildGraph.Proofs.Variant.InOrder
import BuildGraph.Proofs.Stack.AnyOrder
import BuildGraph.Proofs.Project.Place
import BuildGraph.Proofs.Text.Blank
import BuildGraph.Proofs.Text.Decimal
import BuildGraph.Proofs.Text.Quoted
import BuildGraph.Proofs.Document.Json
import BuildGraph.Proofs.Document.Spelling
import BuildGraph.Proofs.Graph.Worklist
import BuildGraph.Proofs.Element.Effective
