import ImageLedger.Activity
import ImageLedger.Authority.Cache
import ImageLedger.Authority.Client
import ImageLedger.Authority.Request
import ImageLedger.Chain.Basic
import ImageLedger.Chain.Commitment
import ImageLedger.Chain.Exchange
import ImageLedger.Consensus.Engine
import ImageLedger.Consensus.Round
import ImageLedger.Digest.HashText
import ImageLedger.Digest.Sha256
import ImageLedger.Fault
import ImageLedger.Http.Api
import ImageLedger.Http.Body
import ImageLedger.Http.Request
import ImageLedger.Http.Response
import ImageLedger.Http.Route
import ImageLedger.Http.Time
import ImageLedger.Intake.Fields
import ImageLedger.Json.Basic
import ImageLedger.Json.Reader
import ImageLedger.Json.Writer
import ImageLedger.Keys.Curve
import ImageLedger.Keys.Der
import ImageLedger.Keys.File
import ImageLedger.Keys.Key
import ImageLedger.Keys.Pem
import ImageLedger.Keys.Signature
import ImageLedger.Merkle.Tree
import ImageLedger.Merkle.Verify
import ImageLedger.Node.Basic
import ImageLedger.Node.Batching
import ImageLedger.Node.Intake
import ImageLedger.Node.Lookup
import ImageLedger.Node.Submit
import ImageLedger.Node.Validation
import ImageLedger.Node.Workers
import ImageLedger.Number.Basic
import ImageLedger.Number.Decimal
import ImageLedger.Rules
import ImageLedger.Schedule.Periodic
import ImageLedger.Schedule.Stopwatch
import ImageLedger.Settings
import ImageLedger.Store.Append
import ImageLedger.Store.Location
import ImageLedger.Store.Query
import ImageLedger.Store.Received
import ImageLedger.Store.Schema
import ImageLedger.Store.Submissions
import ImageLedger.Store.Tables
import ImageLedger.Store.Tamper
import ImageLedger.Text.Base64
import ImageLedger.Text.Blank
import ImageLedger.Text.Hex
import ImageLedger.Text.Order
import ImageLedger.Proofs.Activity.Interference
import ImageLedger.Proofs.Activity.Interleaving
import ImageLedger.Proofs.Activity.Lockstep
import ImageLedger.Proofs.Digest.HashText
import ImageLedger.Proofs.Store.Append
import ImageLedger.Proofs.Store.Chain
import ImageLedger.Proofs.Node.Reachable
import ImageLedger.Proofs.Json.Quote
import ImageLedger.Proofs.Json.ReadBack
import ImageLedger.Proofs.Node.ChainIntegrity
import ImageLedger.Proofs.Merkle.Levels
import ImageLedger.Proofs.Merkle.Completeness
import ImageLedger.Proofs.Store.InclusionProof
import ImageLedger.Proofs.Node.ServedProof
import ImageLedger.Proofs.Store.Submissions
import ImageLedger.Proofs.Store.Moves
import ImageLedger.Proofs.Node.Guarded
import ImageLedger.Proofs.Node.ValidationCycle
import ImageLedger.Proofs.Node.BatchingCycle
import ImageLedger.Proofs.Node.Pipeline
import ImageLedger.Proofs.Node.PipelineSafety
import ImageLedger.Proofs.Number.Rounding
import ImageLedger.Proofs.Number.Shortest
import ImageLedger.Proofs.Json.WholeNumbers
import ImageLedger.Proofs.Text.Pieces
import ImageLedger.Proofs.Number.WholeText
import ImageLedger.Proofs.Authority.Key
import ImageLedger.Proofs.Authority.KeptVerdicts
import ImageLedger.Proofs.Consensus.Round
import ImageLedger.Proofs.Text.Distinct
import ImageLedger.Proofs.Consensus.Engine
import ImageLedger.Proofs.Consensus.Quorum
import ImageLedger.Proofs.Consensus.EarlyDecision
import ImageLedger.Proofs.Merkle.Existence
import ImageLedger.Proofs.Chain.Commitment
import ImageLedger.Proofs.Rules
import ImageLedger.Proofs.Store.Extension
import ImageLedger.Proofs.Node.Perform
import ImageLedger.Proofs.Node.AcceptedBatch
import ImageLedger.Proofs.Store.Queue
import ImageLedger.Proofs.Node.Screening
import ImageLedger.Proofs.Node.BatchingProgress
import ImageLedger.Proofs.Node.UndisturbedCycle
import ImageLedger.Proofs.Node.Bookkeeping
import ImageLedger.Proofs.Activity.Course
import ImageLedger.Proofs.Node.DirectSubmission
import ImageLedger.Proofs.Store.Signatures
import ImageLedger.Proofs.Node.Signing
import ImageLedger.Proofs.Node.Signatures
import ImageLedger.Proofs.Activity.Turns
import ImageLedger.Proofs.Node.Failure
import ImageLedger.Proofs.Node.Attempts
import ImageLedger.Proofs.Node.Isolation
import ImageLedger.Proofs.Node.ValidationLifecycle
import ImageLedger.Proofs.Store.Staging
import ImageLedger.Proofs.Node.IntakeSteps
import ImageLedger.Proofs.Node.StagedOnce
import ImageLedger.Proofs.Activity.Follows
import ImageLedger.Proofs.Node.Sections
import ImageLedger.Proofs.Node.WriteLock
import ImageLedger.Proofs.Node.SerialCommits
import ImageLedger.Proofs.Node.TokenPrivacy
import ImageLedger.Proofs.Text.Order
import ImageLedger.Proofs.Json.Canonical
import ImageLedger.Proofs.Chain.SigningPayload
import ImageLedger.Proofs.Merkle.Replay
import ImageLedger.Proofs.Merkle.Outsiders
import ImageLedger.Proofs.Schedule.Runs
import ImageLedger.Proofs.Schedule.Timers
import ImageLedger.Proofs.Settings
import ImageLedger.Proofs.Node.Setup
import ImageLedger.Proofs.Node.SingleEntry
import ImageLedger.Proofs.Merkle.LeafProofs
import ImageLedger.Proofs.Merkle.Binding
import ImageLedger.Proofs.Node.CommittedCycle
import ImageLedger.Proofs.Authority.History
import ImageLedger.Proofs.Authority.Verdicts
import ImageLedger.Proofs.Node.ScreenedBatch
import ImageLedger.Proofs.Node.MalformedHash
import ImageLedger.Proofs.Node.DeclaredHashes
import ImageLedger.Proofs.Node.FirstBrokenRule
import ImageLedger.Proofs.Node.Provenance
import ImageLedger.Proofs.Node.Changes
import ImageLedger.Proofs.Intake.Fields
import ImageLedger.Proofs.Node.Service
import ImageLedger.Proofs.Node.IntakeRoundTrip
import ImageLedger.Proofs.Store.Lookup
import ImageLedger.Proofs.Merkle.Depth
import ImageLedger.Proofs.Intake.Height
