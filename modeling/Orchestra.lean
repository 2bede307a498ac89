import Orchestra.About
import Orchestra.Config.Environment
import Orchestra.Config.File
import Orchestra.Records
import Orchestra.Session.Trial
import Orchestra.Text.TypeName
import Orchestra.Proofs.Stop.Contract
import Orchestra.Proofs.FanOut.StoppedRace
import Orchestra.Proofs.Sequence.Nesting
import Orchestra.Proofs.Children.Orphans
import Orchestra.Proofs.Rely.Problem
import Orchestra.Proofs.Sequence.Grouping
import Orchestra.Proofs.Loop.Best
import Orchestra.Proofs.Loop.Stopping
import Orchestra.Proofs.Permits.Bounded
import Orchestra.Proofs.Permits.Queued
import Orchestra.Proofs.Permits.Conserved
import Orchestra.Proofs.Permits.Elements
import Orchestra.Proofs.Permits.Sequential
import Orchestra.Proofs.Loop.Recording
import Orchestra.Proofs.Caller.Episodes
import Orchestra.Proofs.Caller.Outside
import Orchestra.Proofs.Info.Coherent
import Orchestra.Proofs.Info.Regrouping
import Orchestra.Proofs.Info.Along
import Orchestra.Proofs.Session.Ledger
import Orchestra.Proofs.Session.Stops
import Orchestra.Proofs.Panic.Contained
import Orchestra.Proofs.FanOut.Merging
import Orchestra.Proofs.FanOut.Replicas
import Orchestra.Proofs.Loop.Patience
import Orchestra.Proofs.Loop.Retrying
import Orchestra.Proofs.Loop.Terminating
import Orchestra.Proofs.Sequence.Course
import Orchestra.Proofs.Profile.Counts
import Orchestra.Proofs.Fold.Merging
import Orchestra.Proofs.Selection.Samples
import Orchestra.Proofs.Tracking.Traces
import Orchestra.Proofs.Samples.Incremental
import Orchestra.Proofs.Samples.Best
import Orchestra.Proofs.Config.Environment
import Orchestra.Proofs.Samples.Written
import Orchestra.Proofs.FanOut.Observing
