import Shunt.Cp.Commit
import Shunt.Cp.FleetEvidence
import Shunt.Cp.Idempotency
import Shunt.Cp.Lineage
import Shunt.Cp.Watch
import Shunt.Directory.Barriers
import Shunt.Directory.FileDir
import Shunt.Directory.LeadingShare
import Shunt.Directory.Names
import Shunt.Directory.OwnerTables
import Shunt.Directory.LegNames
import Shunt.Directory.SetState
import Shunt.Member.Displaced
import Shunt.Member.Lease
import Shunt.Migrate.OwnsBeyond
import Shunt.Control.Worker
import Shunt.Migrate.Completion
import Shunt.Migrate.LostRange
import Shunt.Migrate.MoveRun
import Shunt.Migrate.Upkeep
import Shunt.Mover.StateFiles
import Shunt.Mover.Verdict
import Shunt.Proxy.CopyConditions
import Shunt.Proxy.CopySource
import Shunt.Proxy.CopyVersions
import Shunt.Proxy.DeleteAnswers
import Shunt.Proxy.Forward
import Shunt.Proxy.ForwardedKey
import Shunt.Proxy.OneBucket
import Shunt.Proxy.SpreadListing
import Shunt.Proxy.UploadRuns
import Shunt.Runtimecfg.Callbacks
import Shunt.Sigv4.Binding
import Shunt.Xmlrw.Splits
