import Alpine.Aimc.Check
import Alpine.Aimc.Cluster
import Alpine.Lib.Run
import Alpine.Aimc.Emulation
import Alpine.Aimc.Transfer
import Alpine.Aimc.Mvm
import Alpine.Arm.CmInst
import Alpine.Arm.Intrinsics
import Alpine.Arm.Isolation
import Alpine.Cpu.O3
import Alpine.Lib.Chain
import Alpine.Sim.EventOrder
import Alpine.Sim.EventRun
import Alpine.Sim.EventCheckpoint
import Alpine.Lib.Sweep
import Alpine.Mem.Packet
import Alpine.Mem.WirelessXBar
import Alpine.Mem.ExpBackoff
import Alpine.Mem.TokenPass
import Alpine.Mem.Routing
import Alpine.Mem.RoutingHistory
import Alpine.Mem.RoutingReq
import Alpine.Mem.RoutingRun
import Alpine.Mem.SnoopFilter
import Alpine.Mem.SnoopFilterRun
import Alpine.Base.AddrRange
import Alpine.Base.AddrRangeMap
import Alpine.Aimc.PyCheck
import Alpine.Lib.DList
import Alpine.Mem.FALRU
import Alpine.Lib.Mask
import Alpine.Mem.FALRUTrack
import Alpine.Mem.FALRURun
import Alpine.Lib.Lru
import Alpine.Mem.FALRUHits
import Alpine.Cpu.Rename
import Alpine.Cpu.RenameInv
import Alpine.Cpu.RenameRun
import Alpine.Mem.MSHR
import Alpine.Mem.MSHRPending
import Alpine.Mem.MSHRView
import Alpine.Lib.Outcome
import Alpine.Mem.MSHROps
import Alpine.Mem.MSHRResp
import Alpine.Mem.MSHRRun
import Alpine.Mem.BackoffIndex
import Alpine.Mem.BackoffQueue
import Alpine.Mem.WirelessTraffic
import Alpine.Mem.TokenWait
import Alpine.Lib.Ledger
import Alpine.Mem.BackoffGrants
import Alpine.Mem.LayerDrain
import Alpine.Mem.RefusedReq
import Alpine.Mem.CleanRendezvous
import Alpine.Base.Trie
import Alpine.Base.TrieInv
import Alpine.Base.TrieInsert
import Alpine.Base.TrieMap
import Alpine.Lib.Register
import Alpine.Mem.MemChecker
import Alpine.Mem.MemHistory
import Alpine.Mem.MemCheckerInv
import Alpine.Mem.MemCheckerSound
import Alpine.Mem.MemCheckerOps
import Alpine.Mem.MemCheckerRun
import Alpine.Cpu.RenameStage
import Alpine.Cpu.RenameStageLoop
import Alpine.Lib.Fifo
import Alpine.Cpu.RenameStageInv
import Alpine.Cpu.RenameStageTick
import Alpine.Cpu.RenameStageRun
import Alpine.Aimc.Param
import Alpine.Aimc.Single
import Alpine.Aimc.QueueRun
import Alpine.Lib.Grid
import Alpine.Aimc.MapFlat
import Alpine.Aimc.PyTransfer
import Alpine.Aimc.Scaled
import Alpine.Aimc.Checkpoint
import Alpine.Mem.SnoopFilterAnswers
import Alpine.Base.AddrRangeStripes
import Alpine.Base.AddrRangeSubset
import Alpine.Base.AddrRangeCache
import Alpine.Mem.XBarLayer
import Alpine.Lib.BackInsert
import Alpine.Mem.PacketQueue
import Alpine.Mem.PacketQueueOrder
import Alpine.Lib.ClassFifo
import Alpine.Mem.MSHRBare
import Alpine.Mem.MSHRServe
import Alpine.Mem.MSHRFlags
import Alpine.Lib.DyadicCount
import Alpine.Lib.Ranked
import Alpine.Mem.StackDist
import Alpine.Mem.StackDistTree
import Alpine.Mem.StackDistGrow
import Alpine.Mem.StackDistOps
import Alpine.Mem.StackDistRun
import Alpine.Base.AddrRangeMerge
import Alpine.Base.AddrRangeLookup
import Alpine.Mem.XBarRanges
import Alpine.Cpu.RenameMap
import Alpine.Mem.SecondChance
import Alpine.Lib.Since
import Alpine.Mem.LlscPacket
import Alpine.Mem.CacheBlkLocks
import Alpine.Mem.LockedAddr
import Alpine.Mem.FunctionalRead
import Alpine.Mem.SectorGeometry
import Alpine.Mem.SectorTags
import Alpine.Mem.MissQueue
import Alpine.Mem.MSHRCalls
import Alpine.Mem.TargetLimit
import Alpine.Mem.TargetLimitRun
import Alpine.Mem.MSHRPromotes
import Alpine.Mem.CacheMaintenance
import Alpine.Mem.MSHRWaits
import Alpine.Mem.MSHRAsserts
import Alpine.Mem.PromotionRun
import Alpine.Cpu.Rob
import Alpine.Cpu.RobRun
import Alpine.Cpu.RobSquash
import Alpine.Cpu.MemDepUnit
import Alpine.Cpu.MemDepBarriers
import Alpine.Lib.StrictInsert
import Alpine.Cpu.IssueOrder
import Alpine.Cpu.IssueOrderRun
import Alpine.Mem.DRAMCtrl
import Alpine.Mem.DRAMBursts
import Alpine.Mem.DRAMQueues
import Alpine.Mem.DRAMRequests
import Alpine.Mem.DRAMRetry
import Alpine.Lib.StripeOrder
import Alpine.Mem.DRAMDecode
import Alpine.Mem.DRAMTiming
import Alpine.Cpu.InstQueue
import Alpine.Cpu.InstQueueInv
import Alpine.Cpu.InstQueueInsert
import Alpine.Cpu.InstQueueSteps
import Alpine.Cpu.InstQueueWake
import Alpine.Cpu.InstQueueSquash
import Alpine.Lib.Ring
import Alpine.Base.CircleBuf
import Alpine.Base.Crc
import Alpine.Lib.Walk
import Alpine.Dev.VirtQueue
import Alpine.Dev.VirtQueueWalk
import Alpine.Dev.VirtChain
import Alpine.Dev.VirtQueueRun
import Alpine.Lib.Undo
import Alpine.Cpu.BPredUnit
import Alpine.Cpu.LocalBP
import Alpine.Cpu.BPredRun
import Alpine.Cpu.BPredRas
import Alpine.Cpu.Tournament
import Alpine.Cpu.BiMode
import Alpine.Cpu.BPredHistory
import Alpine.Cpu.LTAGE
import Alpine.Cpu.BPredIndirect
import Alpine.Cpu.StoreQueue
import Alpine.Cpu.StoreQueueInv
import Alpine.Cpu.StoreQueueTraffic
import Alpine.Cpu.StoreQueueSteps
import Alpine.Cpu.StoreQueueSend
import Alpine.Cpu.StoreQueueWriteback
import Alpine.Cpu.StoreQueueRun
import Alpine.Lib.EventLog
import Alpine.Lib.SendQueue
import Alpine.Mem.Bridge
import Alpine.Lib.HighHalf
import Alpine.Arm.Mulh
import Alpine.Base.ChunkGenerator
import Alpine.Lib.OrderedMap
import Alpine.Cpu.StoreSet
import Alpine.Lib.Scan
import Alpine.Mem.WirelessScan
