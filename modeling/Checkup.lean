import Checkup.Log.State
import Checkup.Main
import Checkup.Service.Basic
import Checkup.Proofs.Ignore.Segments
import Checkup.Proofs.Json.Lines
import Checkup.Proofs.Outcome
import Checkup.Proofs.Project.Description
import Checkup.Proofs.Project.Globs
import Checkup.Proofs.Project.Rediscovery
import Checkup.Proofs.Repair.Directive
import Checkup.Proofs.Repair.Findings
import Checkup.Proofs.Repair.Frame
import Checkup.Proofs.Repair.StrictJson
import Checkup.Proofs.Repair.Versions
import Checkup.Proofs.Report.Items
import Checkup.Proofs.Rule.Candidates
import Checkup.Proofs.Rule.Components
import Checkup.Proofs.Rule.Dependencies
import Checkup.Proofs.Rule.Links
import Checkup.Proofs.Rule.Mentions
import Checkup.Proofs.Rule.Orphans
import Checkup.Proofs.Rule.Places
import Checkup.Proofs.Rule.Selection
import Checkup.Proofs.Run.AnyOrder
import Checkup.Proofs.Run.Containment
import Checkup.Proofs.Run.Faults
import Checkup.Proofs.Run.Filters
import Checkup.Proofs.Run.FixedCount
import Checkup.Proofs.Run.Hidden
import Checkup.Proofs.Run.Recorded
import Checkup.Proofs.Run.Reported
import Checkup.Proofs.Run.Scoring
import Checkup.Proofs.Run.Settings
import Checkup.Proofs.Run.SharedManifest
import Checkup.Proofs.Scan.Order
import Checkup.Proofs.Scan.Reach
import Checkup.Proofs.Scan.ReadBack
import Checkup.Proofs.Scan.Sandbox
import Checkup.Proofs.Scan.Workspace
import Checkup.Proofs.Service.FrontEnds
import Checkup.Proofs.Service.Requests
import Checkup.Proofs.Service.SharedLocks
import Checkup.Proofs.Tree.Agreement
import Checkup.Proofs.Tree.NormalForm
