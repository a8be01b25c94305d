import ConfigMerge.Access
import ConfigMerge.Api.Client
import ConfigMerge.Api.Reply
import ConfigMerge.Cluster.Basic
import ConfigMerge.Cluster.Controllers
import ConfigMerge.Cluster.Server
import ConfigMerge.Codec
import ConfigMerge.CommandLine.Command
import ConfigMerge.CommandLine.Options
import ConfigMerge.Consul.HeaderMatch
import ConfigMerge.Consul.Intention
import ConfigMerge.Consul.Route
import ConfigMerge.Digest.Sha256
import ConfigMerge.Error
import ConfigMerge.Error.Details
import ConfigMerge.Family
import ConfigMerge.Finalizer
import ConfigMerge.Fingerprint
import ConfigMerge.Http.Message
import ConfigMerge.Http.Script
import ConfigMerge.Http.Target
import ConfigMerge.Json.Basic
import ConfigMerge.Json.Patch
import ConfigMerge.Json.Reader
import ConfigMerge.Json.Text
import ConfigMerge.Json.Written
import ConfigMerge.Leader.Campaign
import ConfigMerge.Leader.Election
import ConfigMerge.Leader.Lease
import ConfigMerge.Main
import ConfigMerge.Merge
import ConfigMerge.Metrics
import ConfigMerge.Net.Address
import ConfigMerge.Number.Binary64
import ConfigMerge.Number.NearShortest
import ConfigMerge.Number.Notation
import ConfigMerge.Operator
import ConfigMerge.Pass
import ConfigMerge.Program
import ConfigMerge.Proofs.Codec.Admitted
import ConfigMerge.Proofs.Codec.Announced
import ConfigMerge.Proofs.Codec.Described
import ConfigMerge.Proofs.Codec.ReadsBack
import ConfigMerge.Proofs.Interleaving
import ConfigMerge.Proofs.Json.Arrangement
import ConfigMerge.Proofs.Json.Canonical
import ConfigMerge.Proofs.Json.Members
import ConfigMerge.Proofs.Json.Spelling
import ConfigMerge.Proofs.Json.Wanted
import ConfigMerge.Proofs.Leader.Contest
import ConfigMerge.Proofs.Leader.Holder
import ConfigMerge.Proofs.Leader.LeaseJson
import ConfigMerge.Proofs.Leader.LeaseServer
import ConfigMerge.Proofs.Leader.Takeover
import ConfigMerge.Proofs.Merge.Expected
import ConfigMerge.Proofs.Merge.Listing
import ConfigMerge.Proofs.Merge.Live
import ConfigMerge.Proofs.Merge.Repair
import ConfigMerge.Proofs.Merge.Resume
import ConfigMerge.Proofs.Merge.Single
import ConfigMerge.Proofs.Merge.Table
import ConfigMerge.Proofs.Reconcile.Answer
import ConfigMerge.Proofs.Reconcile.Attended
import ConfigMerge.Proofs.Reconcile.Bookkeeping
import ConfigMerge.Proofs.Reconcile.Concurrent
import ConfigMerge.Proofs.Reconcile.Contention
import ConfigMerge.Proofs.Reconcile.Convergence
import ConfigMerge.Proofs.Reconcile.Detection
import ConfigMerge.Proofs.Reconcile.Drift
import ConfigMerge.Proofs.Reconcile.Failure
import ConfigMerge.Proofs.Reconcile.Frame
import ConfigMerge.Proofs.Reconcile.History
import ConfigMerge.Proofs.Reconcile.Idle
import ConfigMerge.Proofs.Reconcile.Interruption
import ConfigMerge.Proofs.Reconcile.Membership
import ConfigMerge.Proofs.Reconcile.Outcome
import ConfigMerge.Proofs.Reconcile.Owners
import ConfigMerge.Proofs.Reconcile.Permutation
import ConfigMerge.Proofs.Reconcile.Race
import ConfigMerge.Proofs.Reconcile.Refusal
import ConfigMerge.Proofs.Reconcile.Retry
import ConfigMerge.Proofs.Reconcile.Run
import ConfigMerge.Proofs.Reconcile.Safe
import ConfigMerge.Proofs.Reconcile.Scene
import ConfigMerge.Proofs.Reconcile.Settle
import ConfigMerge.Proofs.Reconcile.Swap
import ConfigMerge.Proofs.Reconcile.Token
import ConfigMerge.Proofs.Reconcile.Traffic
import ConfigMerge.Proofs.Resource.Admission
import ConfigMerge.Proofs.Resource.Payload
import ConfigMerge.Proofs.Resource.RoundTrip
import ConfigMerge.Proofs.Resource.Written
import ConfigMerge.Proofs.Store.Atomic
import ConfigMerge.Proofs.Store.Change
import ConfigMerge.Proofs.Store.Collections
import ConfigMerge.Proofs.Store.Identity
import ConfigMerge.Proofs.Store.Operation
import ConfigMerge.Proofs.Store.Timeless
import ConfigMerge.Proofs.Store.Version
import ConfigMerge.Proofs.Time.Calendar
import ConfigMerge.Proofs.Time.Rfc3339
import ConfigMerge.Reconcile.Controller
import ConfigMerge.Reconcile.Intent
import ConfigMerge.Reconcile.Pass
import ConfigMerge.Reconcile.Schedule
import ConfigMerge.Reconcile.Watch
import ConfigMerge.Resource.Definition
import ConfigMerge.Resource.FragmentStatus
import ConfigMerge.Resource.Metadata
import ConfigMerge.Resource.Object
import ConfigMerge.Schema
import ConfigMerge.Service.Endpoint
import ConfigMerge.Service.Health
import ConfigMerge.Service.Tracing
import ConfigMerge.SortedMap
import ConfigMerge.Store.Basic
import ConfigMerge.Store.Faulty
import ConfigMerge.Text.Invisible
import ConfigMerge.Text.Quoted
import ConfigMerge.Text.Utf8
import ConfigMerge.Time.Calendar
import ConfigMerge.Time.Instant
import ConfigMerge.Time.Rfc3339
import ConfigMerge.Yaml.Block
