import Stepcast.Archive
import Stepcast.Attribute
import Stepcast.Attribute.Document
import Stepcast.Box
import Stepcast.Box.Copy
import Stepcast.Box.Odometer
import Stepcast.Bytes
import Stepcast.Bytes.Lemmas
import Stepcast.Delivery.Courier
import Stepcast.Delivery.Outgoing
import Stepcast.Delivery.Publication
import Stepcast.Delivery.Responder
import Stepcast.Double
import Stepcast.Double.Shortest
import Stepcast.Double.Text
import Stepcast.Duration
import Stepcast.Element
import Stepcast.Fault
import Stepcast.Json
import Stepcast.Json.Number
import Stepcast.Json.Parser
import Stepcast.Layout
import Stepcast.Message.Contents
import Stepcast.Message.Draft
import Stepcast.Message.Frame
import Stepcast.Message.Record
import Stepcast.Message.Timeless
import Stepcast.Moment
import Stepcast.Monitor
import Stepcast.Network
import Stepcast.Network.Broadcast
import Stepcast.Network.Exchange
import Stepcast.Operator
import Stepcast.Operator.Lz4
import Stepcast.Operator.Output
import Stepcast.Operator.Standard
import Stepcast.Operator.Zstd
import Stepcast.Operator.Zstd.Bits
import Stepcast.Operator.Zstd.Block
import Stepcast.Operator.Zstd.Early
import Stepcast.Operator.Zstd.Literals
import Stepcast.Operator.Zstd.PrefixCode
import Stepcast.Operator.Zstd.Sequences
import Stepcast.Operator.Zstd.StateTable
import Stepcast.Operator.Zstd.XxHash
import Stepcast.Proofs.Archive.Alike
import Stepcast.Proofs.Archive.Attributes
import Stepcast.Proofs.Archive.Erasing
import Stepcast.Proofs.Archive.Operations
import Stepcast.Proofs.Archive.Receiving
import Stepcast.Proofs.Archive.Reclamation
import Stepcast.Proofs.Archive.Renaming
import Stepcast.Proofs.Archive.Reordering
import Stepcast.Proofs.Archive.Traversal
import Stepcast.Proofs.Box.Copying
import Stepcast.Proofs.Box.Intersection
import Stepcast.Proofs.Box.Overlap
import Stepcast.Proofs.Box.Places
import Stepcast.Proofs.Box.Pointwise
import Stepcast.Proofs.Box.Ranges
import Stepcast.Proofs.Box.Turning
import Stepcast.Proofs.Box.Walking
import Stepcast.Proofs.Delivery.Airing
import Stepcast.Proofs.Delivery.Alone
import Stepcast.Proofs.Delivery.Answering
import Stepcast.Proofs.Delivery.Arrivals
import Stepcast.Proofs.Delivery.Attendance
import Stepcast.Proofs.Delivery.Batching
import Stepcast.Proofs.Delivery.Clients
import Stepcast.Proofs.Delivery.Completeness
import Stepcast.Proofs.Delivery.Connections
import Stepcast.Proofs.Delivery.Correspondence
import Stepcast.Proofs.Delivery.Counting
import Stepcast.Proofs.Delivery.Exchanges
import Stepcast.Proofs.Delivery.Failures
import Stepcast.Proofs.Delivery.Faithfulness
import Stepcast.Proofs.Delivery.Fanout
import Stepcast.Proofs.Delivery.Feed
import Stepcast.Proofs.Delivery.Leaving
import Stepcast.Proofs.Delivery.Lines
import Stepcast.Proofs.Delivery.Listening
import Stepcast.Proofs.Delivery.Offers
import Stepcast.Proofs.Delivery.Requests
import Stepcast.Proofs.Delivery.Rounds
import Stepcast.Proofs.Delivery.Routing
import Stepcast.Proofs.Delivery.Runs
import Stepcast.Proofs.Delivery.Scripts
import Stepcast.Proofs.Delivery.Seats
import Stepcast.Proofs.Delivery.Sharing
import Stepcast.Proofs.Delivery.Showing
import Stepcast.Proofs.Delivery.Stations
import Stepcast.Proofs.Delivery.Telecast
import Stepcast.Proofs.Delivery.Turns
import Stepcast.Proofs.Delivery.Vanishing
import Stepcast.Proofs.Delivery.Writing
import Stepcast.Proofs.Endpoints
import Stepcast.Proofs.Options
import Stepcast.Proofs.Outcomes
import Stepcast.Proofs.Reader.Accounting
import Stepcast.Proofs.Reader.Assembly
import Stepcast.Proofs.Reader.Bounds
import Stepcast.Proofs.Reader.Calls
import Stepcast.Proofs.Reader.Endings
import Stepcast.Proofs.Reader.Links
import Stepcast.Proofs.Reader.Progress
import Stepcast.Proofs.Reader.Safety
import Stepcast.Proofs.Reader.Selection
import Stepcast.Proofs.Reader.Transparency
import Stepcast.Proofs.Rendezvous.Agreement
import Stepcast.Proofs.Rendezvous.Announcements
import Stepcast.Proofs.Rendezvous.Collectives
import Stepcast.Proofs.Rendezvous.Convergence
import Stepcast.Proofs.Rendezvous.Gathering
import Stepcast.Proofs.Rendezvous.Inboxes
import Stepcast.Proofs.Rendezvous.Knowledge
import Stepcast.Proofs.Rendezvous.Mailroom
import Stepcast.Proofs.Rendezvous.Names
import Stepcast.Proofs.Rendezvous.Overtaking
import Stepcast.Proofs.Rendezvous.Queues
import Stepcast.Proofs.Rendezvous.Receives
import Stepcast.Proofs.Rendezvous.Returns
import Stepcast.Proofs.Rendezvous.Slots
import Stepcast.Proofs.Rendezvous.Traffic
import Stepcast.Proofs.Session.Couriers
import Stepcast.Proofs.Session.Draining
import Stepcast.Proofs.Session.Reachability
import Stepcast.Proofs.Steps
import Stepcast.Proofs.Tables
import Stepcast.Proofs.Wire.Batches
import Stepcast.Proofs.Wire.Classification
import Stepcast.Proofs.Wire.Drafts
import Stepcast.Proofs.Wire.Forms
import Stepcast.Proofs.Wire.Histories
import Stepcast.Proofs.Wire.Keeping
import Stepcast.Proofs.Wire.Layout
import Stepcast.Proofs.Wire.Messages
import Stepcast.Proofs.Wire.Nesting
import Stepcast.Proofs.Wire.Numerals
import Stepcast.Proofs.Wire.Overlong
import Stepcast.Proofs.Wire.Prefixes
import Stepcast.Proofs.Wire.Records
import Stepcast.Proofs.Wire.Refusals
import Stepcast.Proofs.Wire.RoundTrip
import Stepcast.Proofs.Wire.Sealing
import Stepcast.Proofs.Wire.Sizes
import Stepcast.Proofs.Wire.TextOrder
import Stepcast.Proofs.Wire.Trees
import Stepcast.Reader
import Stepcast.Reader.Access
import Stepcast.Reader.Link
import Stepcast.Rendezvous.Announcement
import Stepcast.Rendezvous.Assembly
import Stepcast.Rendezvous.Coordinator
import Stepcast.Rendezvous.Group
import Stepcast.Rendezvous.Mail
import Stepcast.Session
import Stepcast.Session.Reading
import Stepcast.Session.Traffic
import Stepcast.Session.Writing
import Stepcast.Settings
import Stepcast.Settings.Document
import Stepcast.Settings.Options
import Stepcast.Stage
import Stepcast.Table
import Stepcast.Text.Blank
import Stepcast.Text.Hex
import Stepcast.Text.Numeral
import Stepcast.Text.Utf8
import Stepcast.Tree
import Stepcast.Tree.Codec
import Stepcast.Variable
import Stepcast.Writer
