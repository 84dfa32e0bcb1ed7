import Stencil.Attribute.Policy
import Stencil.Attribute.Setter
import Stencil.Document.Attribute
import Stencil.Document.Basic
import Stencil.Document.Command
import Stencil.Document.Event
import Stencil.Document.Forest
import Stencil.Document.Tree
import Stencil.Document.Walk
import Stencil.Inspect.Options
import Stencil.Inspect.Report
import Stencil.Inspect.Source
import Stencil.Main
import Stencil.Markup.Error
import Stencil.Markup.NameSet
import Stencil.Markup.Nesting
import Stencil.Markup.Outline
import Stencil.Markup.Piece
import Stencil.Markup.Reference
import Stencil.Markup.Token
import Stencil.Markup.Token.Scan
import Stencil.Markup.Tree
import Stencil.Markup.Walk
import Stencil.Number.Basic
import Stencil.Number.Shortest
import Stencil.Number.Text
import Stencil.Proofs.Document.Copy
import Stencil.Proofs.Document.Forest
import Stencil.Proofs.Document.Plant
import Stencil.Proofs.Document.Regrow
import Stencil.Proofs.Markup.Phrase
import Stencil.Proofs.Markup.WellNested
import Stencil.Proofs.Markup.Elements
import Stencil.Render.Bind
import Stencil.Render.Callback
import Stencil.Render.Container
import Stencil.Render.Effect
import Stencil.Render.Machine
import Stencil.Render.Script
import Stencil.Render.Session
import Stencil.Render.World
import Stencil.Signal.Graph
import Stencil.Signal.Network
import Stencil.Signal.Tracking
import Stencil.Template.Cache
import Stencil.Template.Config
import Stencil.Template.Registry
import Stencil.Template.Skeleton
import Stencil.Text.Blank
import Stencil.Text.Case
import Stencil.Text.Cut
import Stencil.Text.Escape
import Stencil.Text.Invisible
import Stencil.Text.Lines
import Stencil.Text.Quoted
import Stencil.Text.Split
import Stencil.Value.Basic
import Stencil.Value.Diagnostic
import Stencil.Value.Script
import Stencil.Proofs.Render.Insert
import Stencil.Proofs.Template.Skeleton
import Stencil.Proofs.Render.Lockstep
import Stencil.Proofs.Attribute.Usual
import Stencil.Proofs.Render.Direct
import Stencil.Proofs.Render.Yield
import Stencil.Proofs.Render.Rerun
import Stencil.Proofs.Attribute.Write
import Stencil.Proofs.Attribute.Aspect
import Stencil.Proofs.Render.Bound
import Stencil.Proofs.Render.Wired
import Stencil.Proofs.Render.Incremental
import Stencil.Proofs.Markup.Scanned
import Stencil.Proofs.Markup.Written
import Stencil.Proofs.Render.RoundTrip
import Stencil.Proofs.Markup.Content
import Stencil.Proofs.Markup.Leaves
import Stencil.Proofs.Markup.Structure
import Stencil.Proofs.Document.Unpack
import Stencil.Proofs.Document.Course
import Stencil.Proofs.Document.Reachable
import Stencil.Proofs.Render.Replace
import Stencil.Proofs.Render.Rendition
import Stencil.Proofs.Render.Shed
import Stencil.Proofs.Render.Stretch
import Stencil.Proofs.Render.Nested
import Stencil.Proofs.Render.Custody
import Stencil.Proofs.Render.Shared
import Stencil.Proofs.Render.HandOver
import Stencil.Proofs.Markup.Emission
import Stencil.Proofs.Markup.Layout
import Stencil.Proofs.Markup.Stream
import Stencil.Proofs.Markup.RawText
import Stencil.Proofs.Markup.AttributeList
import Stencil.Proofs.Document.Moves
import Stencil.Proofs.Value.Within
import Stencil.Proofs.Render.Regime
import Stencil.Proofs.Render.Governed
import Stencil.Proofs.Render.Deeper
import Stencil.Proofs.Template.Outcome
import Stencil.Proofs.Template.Filling
import Stencil.Proofs.Render.Typed
import Stencil.Proofs.Render.Primitive
import Stencil.Proofs.Render.Veiled
import Stencil.Proofs.Render.Supplied
import Stencil.Proofs.Render.Ward
import Stencil.Proofs.Render.Guard
import Stencil.Proofs.Render.Spared
import Stencil.Proofs.Render.Owner
import Stencil.Proofs.Render.Around
import Stencil.Proofs.Render.Precedence
import Stencil.Proofs.Render.Prebound
import Stencil.Proofs.Render.Told
import Stencil.Proofs.Render.Spread
import Stencil.Proofs.Attribute.Honest
import Stencil.Proofs.Document.Coloured
import Stencil.Proofs.Render.Palette
import Stencil.Proofs.Render.Sessions
import Stencil.Proofs.Render.Untouched
import Stencil.Proofs.Render.Apart
import Stencil.Proofs.Template.Memo
import Stencil.Proofs.Signal.Flow
import Stencil.Proofs.Signal.Veil
import Stencil.Proofs.Render.Listening
import Stencil.Proofs.Render.Routine
import Stencil.Proofs.Render.Given
import Stencil.Proofs.Markup.Legible
import Stencil.Proofs.Markup.Static
import Stencil.Proofs.Render.Normal
import Stencil.Proofs.Signal.Reentry
import Stencil.Proofs.Signal.Bracket
import Stencil.Proofs.Render.Passage
import Stencil.Proofs.Render.Failure
import Stencil.Proofs.Render.Offers
import Stencil.Proofs.Render.Discreet
import Stencil.Proofs.Document.Splice
import Stencil.Proofs.Document.Replica
import Stencil.Proofs.Document.History
import Stencil.Proofs.Document.Dispatch
import Stencil.Proofs.Signal.Trace
import Stencil.Proofs.Inspect.Form
import Stencil.Proofs.Inspect.Holes
import Stencil.Proofs.Attribute.Style
import Stencil.Proofs.Markup.Decoding
import Stencil.Proofs.Walk.Loop
import Stencil.Proofs.Markup.Position
import Stencil.Proofs.Document.Recursion
import Stencil.Proofs.Walk.Recursion
