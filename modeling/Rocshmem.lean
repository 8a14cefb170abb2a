import Rocshmem.GdaRingAllreduce
import Rocshmem.RoBlockingCalls
import Rocshmem.RoProgressEngine
import Rocshmem.RoReturnBuffers
import Rocshmem.GdaPutBroadcast
import Rocshmem.RoExchangeCompletion
import Rocshmem.GetBroadcast
import Rocshmem.GdaHybridReduceScatter
import Rocshmem.GdaTeamSlots
import Rocshmem.IpcDirectAllreduce
import Rocshmem.IpcAllreduce
import Rocshmem.AlltoallvCopyRounds
import Rocshmem.IpcChainBroadcast
import Rocshmem.IpcAlltoallSync
import Rocshmem.TeamSplit2d
import Rocshmem.TeamTranslatePe
import Rocshmem.TeamSplitAgreement
import Rocshmem.SymmetricRegistration
import Rocshmem.GdaFetchingAmo
import Rocshmem.GdaIonicSendQueue
import Rocshmem.GdaShcaQuietSingle
import Rocshmem.SdmaQuiet
import Rocshmem.SdmaPackets
import Rocshmem.BootstrapAlltoall
import Rocshmem.BootstrapBarriers
import Rocshmem.GdaCasAmo
import Rocshmem.GdaWorkRequests
import Rocshmem.GdaNicSelection
import Rocshmem.GdaTileReduce
import Rocshmem.GdaTileTransfers
import Rocshmem.OnStreamOrder
import Rocshmem.TileMemcpy
import Rocshmem.GdaBarrierAnnouncement
import Rocshmem.GdaBnxtBookkeeping
import Rocshmem.GdaQueuePairLayout
import Rocshmem.GdaReducePhases
import Rocshmem.GdaLaneGroups
import Rocshmem.GdaWaveFcollect
import Rocshmem.RoTransferSizes
import Rocshmem.AbqlBlockMutex
