import Icesee.Analysis.DenkfX5
import Icesee.Analysis.Filters
import Icesee.Analysis.GridDimensions
import Icesee.Analysis.RowUpdate
import Icesee.Analysis.StoredMean
import Icesee.Analysis.Transforms
import Icesee.Analysis.Truncation
import Icesee.Analysis.X5
import Icesee.Analysis.X5Effect
import Icesee.Analysis.X5Inputs
import Icesee.Driver.Alignment
import Icesee.Driver.Assimilation
import Icesee.Driver.Checkpoint
import Icesee.Driver.CheckpointFile
import Icesee.Driver.CollectiveEnd
import Icesee.Driver.Completion
import Icesee.Driver.Events
import Icesee.Driver.FullLoop
import Icesee.Driver.FullMoments
import Icesee.Driver.Initialization
import Icesee.Driver.Inversion
import Icesee.Driver.LocalizedCycle
import Icesee.Driver.MemberInversion
import Icesee.Driver.Noise
import Icesee.Driver.ParallelModes
import Icesee.Driver.Partial
import Icesee.Driver.ProcessNoise
import Icesee.Driver.Restart
import Icesee.Driver.Reuse
import Icesee.Driver.RunBarriers
import Icesee.Driver.Seeds
import Icesee.Driver.Serial
import Icesee.Driver.SerialCycle
import Icesee.Driver.SerialMoments
import Icesee.Driver.Timeline
import Icesee.Lib.BlockCopy
import Icesee.Lib.Collectives
import Icesee.Lib.Counting
import Icesee.Lib.Deal
import Icesee.Lib.Decimal
import Icesee.Lib.Firsts
import Icesee.Lib.Gain
import Icesee.Lib.GraphWalk
import Icesee.Lib.Hermitian
import Icesee.Lib.Interleaving
import Icesee.Lib.Kalman
import Icesee.Lib.Keyed
import Icesee.Lib.Machine
import Icesee.Lib.Masks
import Icesee.Lib.ModLattice
import Icesee.Lib.Nearest
import Icesee.Lib.OneHot
import Icesee.Lib.Paged
import Icesee.Lib.RealFourier
import Icesee.Lib.Regions
import Icesee.Lib.Slices
import Icesee.Lib.Spmd
import Icesee.Lib.Svd
import Icesee.Lib.Tiling
import Icesee.Lib.VarBlocks
import Icesee.Lib.WhileLoop
import Icesee.Localization.GaspariCohn
import Icesee.Localization.Inflation
import Icesee.Localization.Tapering
import Icesee.Matlab.CommandFile
import Icesee.Matlab.Launch
import Icesee.Mpi.Budget
import Icesee.Mpi.Calls
import Icesee.Mpi.Distribution
import Icesee.Mpi.ForecastProtocol
import Icesee.Mpi.Groups
import Icesee.Mpi.IndexMap
import Icesee.Mpi.LoadDistribution
import Icesee.Mpi.LocalStatistics
import Icesee.Mpi.ModelTasks
import Icesee.Mpi.RowMeans
import Icesee.Mpi.TrueWrongState
import Icesee.Noise.EnkfField
import Icesee.Noise.GraphFields
import Icesee.Noise.HermitianPhases
import Icesee.Noise.PeriodicExpCov
import Icesee.Noise.RandomFields
import Icesee.Noise.SpectralWidth
import Icesee.Obs.BedMasks
import Icesee.Obs.Counter
import Icesee.Obs.HMatrixFile
import Icesee.Obs.Matching
import Icesee.Obs.Operator
import Icesee.Obs.Schedule
import Icesee.Obs.Snapshots
import Icesee.Obs.Synthetic
import Icesee.Scripts.PipReqs
import Icesee.Store.BatchSwitches
import Icesee.Store.BedRelaxation
import Icesee.Store.Columns
import Icesee.Store.Ensemble
import Icesee.Store.Files
import Icesee.Store.Handler
import Icesee.Store.PhysicalFixes
import Icesee.Store.ReadAfterWrite
import Icesee.Store.ScalarSeries
import Icesee.Store.Stack
import Icesee.Store.StepWriters
