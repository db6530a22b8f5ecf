import Dee.ArenaCanonical
import Dee.CudaLayers
import Dee.CudaPrefetcher
import Dee.CudaReference
import Dee.DtypeConversion
import Dee.EngineCuda
import Dee.EngineFallbacks
import Dee.EngineTelemetry
import Dee.EnsureFailure
import Dee.Generation
import Dee.GenerationReference
import Dee.InflateEntry
import Dee.JsonDumps
import Dee.JsonErrors
import Dee.JsonGrammar
import Dee.JsonTermination
import Dee.LoaderManifest
import Dee.LookaheadTargets
import Dee.LruAgreement
import Dee.MmapOpen
import Dee.MockCudaDevice
import Dee.OracleForward
import Dee.OraclePredict
import Dee.PoolMisses
import Dee.PoolReads
import Dee.PrefetchRoom
import Dee.ReplaySweep
import Dee.ShardFile
import Dee.SlotArena
import Dee.SlotCompetitive
import Dee.SlotExceptions
import Dee.SlotHistory
import Dee.SlotTable
import Dee.StagingTypes
import Dee.TensorNames
import Dee.TrainingTargets
import Dee.TransferBytes
import Dee.TransferQueue
