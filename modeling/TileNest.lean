import TileNest.Codec.Schedule
import TileNest.Codec.Storage
import TileNest.Journal
import TileNest.Json.Reader
import TileNest.Kernel.Declaration
import TileNest.Proofs.BarrierLines
import TileNest.Proofs.Barriers
import TileNest.Proofs.BlockAcceptance
import TileNest.Proofs.CarriedValues
import TileNest.Proofs.Connection
import TileNest.Proofs.Construction
import TileNest.Proofs.Coordinates
import TileNest.Proofs.CopierNames
import TileNest.Proofs.Coverage
import TileNest.Proofs.DirectRun
import TileNest.Proofs.DraftRuns
import TileNest.Proofs.EdgeSets
import TileNest.Proofs.ElementAddresses
import TileNest.Proofs.Emission
import TileNest.Proofs.FirstFit
import TileNest.Proofs.IndexReader
import TileNest.Proofs.IndexValues
import TileNest.Proofs.LexicalScope
import TileNest.Proofs.LiveRanges
import TileNest.Proofs.LoopBalance
import TileNest.Proofs.LoopTree
import TileNest.Proofs.MachineArithmetic
import TileNest.Proofs.Ordering
import TileNest.Proofs.PathTable
import TileNest.Proofs.Placement
import TileNest.Proofs.PlanOutcome
import TileNest.Proofs.PrintedSchedules
import TileNest.Proofs.PrintedValues
import TileNest.Proofs.Renaming
import TileNest.Proofs.SafeTransfers
import TileNest.Proofs.ScanPositions
import TileNest.Proofs.Sharing
import TileNest.Proofs.SlotReuse
import TileNest.Proofs.Survival
import TileNest.Proofs.TrivialNesting
import TileNest.Proofs.ValueFlow
import TileNest.Proofs.WalkedCode
import TileNest.Storage.Switch
