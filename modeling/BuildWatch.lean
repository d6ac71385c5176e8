import BuildWatch.Main
import BuildWatch.Service.Mailbox
import BuildWatch.Proofs.Diagnostic
import BuildWatch.Proofs.Runs
import BuildWatch.Proofs.Publisher
import BuildWatch.Proofs.History
import BuildWatch.Proofs.Standing
import BuildWatch.Proofs.Driving
import BuildWatch.Proofs.Service
import BuildWatch.Proofs.Sample
import BuildWatch.Proofs.Service.InStep
import BuildWatch.Proofs.Service.Accounts
import BuildWatch.Proofs.Service.Dropped
import BuildWatch.Proofs.Runs.Ownership
import BuildWatch.Proofs.Runs.Cancellation
import BuildWatch.Proofs.Service.Shutdown
import BuildWatch.Proofs.Service.Paced
import BuildWatch.Proofs.Json.Number
import BuildWatch.Proofs.Text.Utf8
import BuildWatch.Proofs.Aggregation
import BuildWatch.Proofs.CommandLine
import BuildWatch.Proofs.Json.Characters
import BuildWatch.Proofs.Json.Cut
import BuildWatch.Proofs.Json.Shape
import BuildWatch.Proofs.Record.Cut
import BuildWatch.Proofs.Watch
import BuildWatch.Proofs.Effect
import BuildWatch.Proofs.Sharing
import BuildWatch.Proofs.Failing
import BuildWatch.Proofs.Publication
import BuildWatch.Proofs.Resolution
import BuildWatch.Proofs.Scope
import BuildWatch.Proofs.Scope.Place
import BuildWatch.Proofs.Remembered
import BuildWatch.Proofs.Noise.Repeated
import BuildWatch.Proofs.Text.Cut
import BuildWatch.Proofs.Rendering
import BuildWatch.Proofs.Aggregation.Grouping
import BuildWatch.Proofs.Diagnostic.Store
import BuildWatch.Proofs.Outcome.LastWord
import BuildWatch.Proofs.Glob.Extension
import BuildWatch.Proofs.Spelling
import BuildWatch.Proofs.Trigger
import BuildWatch.Proofs.Trigger.Spelling
import BuildWatch.Proofs.Expansion
import BuildWatch.Proofs.Range
import BuildWatch.Proofs.Text.Words
import BuildWatch.Proofs.Joining
import BuildWatch.Proofs.Watch.Grammar
import BuildWatch.Proofs.Settings.Tool
import BuildWatch.Proofs.Execution.Capture
import BuildWatch.Proofs.Diagnostic.Map
import BuildWatch.Proofs.Aggregation.Message
import BuildWatch.Proofs.Normalization
