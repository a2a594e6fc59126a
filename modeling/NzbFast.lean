import NzbFast.Index.Rebuild
import NzbFast.Index.Aggregates
import NzbFast.Index.SegCapped
import NzbFast.Par2.Doors
import NzbFast.Live.CleanRuns
import NzbFast.Live.Balance
import NzbFast.Live.Exclusive
import NzbFast.Live.Capture
import NzbFast.Live.Pieces
import NzbFast.Live.TwinDamage
import NzbFast.Live.Prefix
import NzbFast.Journal.Ownership
import NzbFast.Journal.Settling
import NzbFast.Journal.RestoreSafe
import NzbFast.Rar.Layout
import NzbFast.Rar.History
import NzbFast.Zip.Exact
import NzbFast.Zip.Ciphers
import NzbFast.Extract.Refinement
import NzbFast.Extract.InOrder
import NzbFast.Extract.DirectMap
import NzbFast.Extract.Recompose
import NzbFast.Pool.LeaseWakes
import NzbFast.Pool.Promoted
import NzbFast.Pool.Census
import NzbFast.Pool.PartGate
import NzbFast.Pool.Park
import NzbFast.Pool.Handover
import NzbFast.Disk.Conflict
import NzbFast.Disk.Ledger
import NzbFast.Crypt.Ff1
import NzbFast.Nntp.Articles
import NzbFast.Yenc.Placement
import NzbFast.Repair.Lockstep
import NzbFast.Repair.FoldWorkers
import NzbFast.Repair.RollingCrc
import NzbFast.Repair.Slabs
import NzbFast.Repair.Selection
import NzbFast.Repair.VolumeShape
import NzbFast.Repair.Destinations
import NzbFast.Par2.CreatePlan
import NzbFast.Forney.Locator
import NzbFast.Forney.Hankel
