import Atproto.Attestation.Binding
import Atproto.Attestation.Cid
import Atproto.Attestation.Compose
import Atproto.Attestation.Create
import Atproto.Attestation.Verify
import Atproto.Car.Archive
import Atproto.Car.Block
import Atproto.Car.Header
import Atproto.Car.Multiformats
import Atproto.Car.RoundTrip
import Atproto.Car.Varint
import Atproto.Car.VarintCodecs
import Atproto.Dasl.Cbor.Canonical
import Atproto.Dasl.Cbor.Decode
import Atproto.Dasl.Cbor.Deserializer
import Atproto.Dasl.Cbor.Encode
import Atproto.Dasl.Cbor.Item
import Atproto.Dasl.Cbor.Serializer
import Atproto.Dasl.Cbor.Tree
import Atproto.Dasl.Cid
import Atproto.Dasl.Errors
import Atproto.Dasl.Injective
import Atproto.Dasl.Ipld
import Atproto.Dasl.Multiformats
import Atproto.Dasl.RoundTrip
import Atproto.Dasl.Spillable
import Atproto.Dasl.Strict
import Atproto.Dasl.Text
import Atproto.Firehose.Consumer
import Atproto.Firehose.Wire
import Atproto.Identity.Endpoint
import Atproto.Identity.Key
import Atproto.Identity.Plc.Chain
import Atproto.Identity.Plc.ForkOrder
import Atproto.Identity.Plc.Forks
import Atproto.Identity.Plc.Operation
import Atproto.Identity.Webvh.Authority
import Atproto.Identity.Webvh.Canonical
import Atproto.Identity.Webvh.Chain
import Atproto.Identity.Webvh.History
import Atproto.Identity.Webvh.Jcs
import Atproto.Identity.Webvh.Log
import Atproto.Identity.Webvh.Proof
import Atproto.Identity.Webvh.Scid
import Atproto.Identity.Webvh.Times
import Atproto.Identity.Webvh.Witness
import Atproto.Json.Convert
import Atproto.Json.Encode
import Atproto.Json.Lossless
import Atproto.Json.Parse
import Atproto.Json.TextForms
import Atproto.Json.Value
import Atproto.Lexicon.Authority
import Atproto.Lexicon.Budget
import Atproto.Lexicon.Conforms
import Atproto.Lexicon.Data
import Atproto.Lexicon.EntryPaths
import Atproto.Lexicon.Recursive
import Atproto.Lexicon.Schema
import Atproto.Lexicon.Syntax
import Atproto.Lexicon.Unions
import Atproto.Lexicon.Validate
import Atproto.Logic.Action
import Atproto.Logic.Backoff
import Atproto.Logic.Checks
import Atproto.Logic.Cursor
import Atproto.Logic.Groups
import Atproto.Logic.Guard
import Atproto.Logic.Levels
import Atproto.Logic.Machine
import Atproto.Logic.Metered
import Atproto.Logic.Once
import Atproto.Logic.Pool
import Atproto.Logic.Reduce
import Atproto.Logic.Scan
import Atproto.Logic.Slots
import Atproto.Logic.Updates
import Atproto.Logic.Window
import Atproto.Pds.AccountRuns
import Atproto.Pds.Batch
import Atproto.Pds.BlobRefs
import Atproto.Pds.BlobSweep
import Atproto.Pds.EmailToken
import Atproto.Pds.ExportCar
import Atproto.Pds.Gc
import Atproto.Pds.Head
import Atproto.Pds.Import
import Atproto.Pds.ImportIndex
import Atproto.Pds.JtiReplay
import Atproto.Pds.Lifecycle
import Atproto.Pds.Lockstep
import Atproto.Pds.MemberCalls
import Atproto.Pds.MintAuthz
import Atproto.Pds.MissingBlobs
import Atproto.Pds.Namespace
import Atproto.Pds.Notifier
import Atproto.Pds.Oauth.Families
import Atproto.Pds.Oauth.History
import Atproto.Pds.Oauth.Reuse
import Atproto.Pds.Oauth.State
import Atproto.Pds.Oauth.Token
import Atproto.Pds.PermissionSet
import Atproto.Pds.PublicBlobs
import Atproto.Pds.PublicRealm
import Atproto.Pds.RateLimiter
import Atproto.Pds.RecordBytes
import Atproto.Pds.RecordIndex
import Atproto.Pds.RepoArchive
import Atproto.Pds.RepoWriter
import Atproto.Pds.Sequencer
import Atproto.Pds.SpaceReader
import Atproto.Pds.SpaceService
import Atproto.Pds.StorableRecords
import Atproto.Pds.Subscribe
import Atproto.Record.Monotone
import Atproto.Record.Tid
import Atproto.Record.TidText
import Atproto.Repo.Accepted
import Atproto.Repo.Canonical
import Atproto.Repo.Canonicity
import Atproto.Repo.Codec
import Atproto.Repo.Commit
import Atproto.Repo.CommitBytes
import Atproto.Repo.Covering
import Atproto.Repo.Delete
import Atproto.Repo.Diff
import Atproto.Repo.Emptied
import Atproto.Repo.Entries
import Atproto.Repo.EntryDiff
import Atproto.Repo.Inductive
import Atproto.Repo.Insert
import Atproto.Repo.Key
import Atproto.Repo.Lookup
import Atproto.Repo.Node
import Atproto.Repo.NodeBytes
import Atproto.Repo.NodeForms
import Atproto.Repo.Run
import Atproto.Repo.Store
import Atproto.Repo.Tree
import Atproto.Repo.Undo
import Atproto.Repo.Walk
import Atproto.Scopes.Grants
import Atproto.Scopes.Needed
import Atproto.Scopes.Normal
import Atproto.Scopes.Normalized
import Atproto.Scopes.Print
import Atproto.Scopes.Query
import Atproto.Scopes.Requests
import Atproto.Scopes.Scope
import Atproto.Scopes.Space
import Atproto.Scopes.WellFormed
import Atproto.SearchTree.Around
import Atproto.SearchTree.Canonical
import Atproto.SearchTree.Collect
import Atproto.SearchTree.Nodes
import Atproto.SearchTree.SortedList
import Atproto.SearchTree.Total
import Atproto.SearchTree.Unfolding
import Atproto.Space.Commit
import Atproto.Space.Commitment
import Atproto.Space.Listing
import Atproto.Space.Members
import Atproto.Space.Replay
import Atproto.Space.Repo
import Atproto.Space.SetHash
import Atproto.Space.Types
import Atproto.Space.Uri
import Atproto.Wire.Base
import Atproto.Wire.BigEndian
import Atproto.Wire.Reader
import Atproto.Wire.Seek
import Atproto.Wire.Source
import Atproto.Wire.Split
import Atproto.Wire.Varint
