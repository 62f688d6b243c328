import Hypergraph.Lib.Digits
import Hypergraph.Lib.Joined
import Hypergraph.Lib.Dict
import Hypergraph.Lib.Listing
import Hypergraph.Lib.Keyed
import Hypergraph.Lib.Latest
import Hypergraph.Lib.Merging
import Hypergraph.Lib.Passes
import Hypergraph.Lib.Normal
import Hypergraph.Lib.Utf16
import Hypergraph.Lib.CompactEncoding
import Hypergraph.Encodings
import Hypergraph.Records
import Hypergraph.Messages
import Hypergraph.RoundTrip
import Hypergraph.Fields.Checking
import Hypergraph.Fields.Codec
import Hypergraph.Fields.Back
import Hypergraph.Fields.Entries
import Hypergraph.Fields.Validated
import Hypergraph.Fields.Packages
import Hypergraph.Fields.Kept
import Hypergraph.Fields.Later
import Hypergraph.Lib.Table
import Hypergraph.Indexer.Gate
import Hypergraph.Indexer.Rows
import Hypergraph.Indexer.Puts
import Hypergraph.Indexer.Runs
import Hypergraph.Indexer.Contents
import Hypergraph.Indexer.Latest
import Hypergraph.Indexer.Counting
import Hypergraph.Indexer.Queries
import Hypergraph.Decisions.Roles
import Hypergraph.Decisions.View
import Hypergraph.Decisions.Names
import Hypergraph.Decisions.Apply
import Hypergraph.Decisions.State
import Hypergraph.Decisions.Readers
import Hypergraph.Decisions.Scopes
import Hypergraph.Decisions.Loading
import Hypergraph.Decisions.Sound
import Hypergraph.Decisions.Effects
import Hypergraph.Decisions.Writers
import Hypergraph.Decisions.Branches
import Hypergraph.Decisions.Equations
import Hypergraph.Decisions.Throws
import Hypergraph.Decisions.Steps
import Hypergraph.Decisions.Reachable
import Hypergraph.Decisions.Totality
import Hypergraph.Decisions.Rights
import Hypergraph.Decisions.WriterRights
import Hypergraph.Decisions.Bans
import Hypergraph.Decisions.Ledger
import Hypergraph.Decisions.Refusals
import Hypergraph.Decisions.Notes
import Hypergraph.Decisions.Tree
import Hypergraph.Decisions.Scoping
import Hypergraph.Decisions.Keeping
import Hypergraph.Decisions.Standings
import Hypergraph.Decisions.Rebuilt
import Hypergraph.Decisions.Agreement
import Hypergraph.Decisions.Accounts
import Hypergraph.Decisions.EpochKeys
import Hypergraph.Decisions.Escalation
import Hypergraph.Decisions.Limits
import Hypergraph.Decisions.Kept
import Hypergraph.Decisions.Losses
import Hypergraph.Decisions.Ownership
import Hypergraph.Decisions.Lasting
import Hypergraph.Decisions.Devices
import Hypergraph.Index.Limit
import Hypergraph.Index.Wiping
import Hypergraph.Index.Scan
import Hypergraph.Index.Scanned
import Hypergraph.Index.Later
import Hypergraph.Index.Readings
import Hypergraph.Declaring
import Hypergraph.Recording
import Hypergraph.Describing
import Hypergraph.Versions
import Hypergraph.Private.KeyLinks
import Hypergraph.Private.Sealing
import Hypergraph.Logs.Standing
import Hypergraph.Logs.Directory
import Hypergraph.Logs.Fetching
import Hypergraph.Logs.Recheck
import Hypergraph.Logs.Touching
import Hypergraph.Logs.Asking
import Hypergraph.Logs.Follows
import Hypergraph.Helping
import Hypergraph.Logs.Questions
import Hypergraph.Logs.Ranges
import Hypergraph.Logs.Prefixes
import Hypergraph.Logs.KeySet
import Hypergraph.Reading.Entries
import Hypergraph.Reading.Activity
import Hypergraph.Reading.Accounted
import Hypergraph.Reading.Covered
import Hypergraph.Reading.Complete
import Hypergraph.Reading.Deriving
import Hypergraph.Reading.Wiping
import Hypergraph.Reading.Whole
import Hypergraph.Lib.Hex
import Hypergraph.Lib.Runs
import Hypergraph.Engine.Registry
import Hypergraph.Engine.RoleBase
import Hypergraph.Engine.Governance
import Hypergraph.Engine.Repeats
import Hypergraph.Engine.Invitations
import Hypergraph.Engine.Linked
import Hypergraph.Engine.Scopes
import Hypergraph.Engine.Events
import Hypergraph.Engine.EventCodec
import Hypergraph.Engine.Layouts
import Hypergraph.Engine.Indexes
import Hypergraph.Engine.TextLayout
import Hypergraph.Engine.TupleLayout
import Hypergraph.Engine.Alike
import Hypergraph.Lib.Chunks
import Hypergraph.Engine.Applying
import Hypergraph.Engine.Standing
import Hypergraph.Engine.Relating
import Hypergraph.Engine.Settling
import Hypergraph.Engine.CountsApart
import Hypergraph.Engine.Contexts
import Hypergraph.Engine.Replaying
import Hypergraph.Engine.Records
import Hypergraph.Lib.JsonValue
import Hypergraph.Lib.Nested
import Hypergraph.Control.Invites
import Hypergraph.Control.Apply
import Hypergraph.Control.Steps
import Hypergraph.Control.Calm
import Hypergraph.Control.Following
import Hypergraph.Control.Copies
import Hypergraph.Control.Invitations
import Hypergraph.Control.Memory
import Hypergraph.Control.Hiding
import Hypergraph.Control.Rotations
import Hypergraph.Control.Rotating
import Hypergraph.Channels.Replication
import Hypergraph.Channels.Held
import Hypergraph.Lib.Newest
import Hypergraph.Lib.Proportion
import Hypergraph.Lib.Mapping
import Hypergraph.Channels.Pages
import Hypergraph.Channels.Rounds
import Hypergraph.Lib.Least
import Hypergraph.Channels.Listings
import Hypergraph.Channels.Unions
import Hypergraph.Channels.Keeping
import Hypergraph.Channels.Slices
import Hypergraph.Channels.Grants
import Hypergraph.Channels.Granting
import Hypergraph.Engine.Bulk
import Hypergraph.Engine.Flushing
import Hypergraph.Lib.Splits
import Hypergraph.Engine.EntityIds
import Hypergraph.Engine.KeyParts
import Hypergraph.Engine.GraphView
import Hypergraph.Engine.GraphReplays
import Hypergraph.Engine.GraphReads
import Hypergraph.Engine.Indexing
import Hypergraph.Storage
import Hypergraph.Index.Allowed
import Hypergraph.Writing
import Hypergraph.Lib.Ascending
import Hypergraph.Lib.Digest
import Hypergraph.Lib.Base32
import Hypergraph.Links
import Hypergraph.Engine.EdgeReads
import Hypergraph.Engine.Tagging
import Hypergraph.Engine.Indexers
import Hypergraph.Engine.Ending
import Hypergraph.Engine.Faultless
