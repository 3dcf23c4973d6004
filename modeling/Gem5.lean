import Gem5.Sim.EventBins
import Gem5.Sim.EventLinking
import Gem5.Sim.EventQueueOps
import Gem5.Sim.EventRuns
import Gem5.Sim.EventCheckpoint
import Gem5.Sim.Drain
import Gem5.Sim.Clocked
import Gem5.Base.AddrRange
import Gem5.Base.AddrRangeMap
import Gem5.Base.AddrRangeMerge
import Gem5.Base.AddrRangeFind
import Gem5.Base.AddrRangeRuns
import Gem5.Base.AddrDecode
import Gem5.Base.Trie
import Gem5.Base.TrieShape
import Gem5.Base.TrieInsert
import Gem5.Base.TrieRuns
import Gem5.Ruby.CacheMemory
import Gem5.Ruby.DirectoryMemory
import Gem5.Ruby.WaitingBuffers
import Gem5.Ruby.TableRouting
import Gem5.Garnet.Flit
import Gem5.Garnet.Network
import Gem5.Garnet.NetworkInterface
import Gem5.Garnet.Router
import Gem5.Garnet.System
import Gem5.Garnet.Frames
import Gem5.Garnet.Multicast
import Gem5.Garnet.Lanes
import Gem5.Garnet.LaneSteps
import Gem5.Garnet.LaneNodes
import Gem5.Garnet.Timing
import Gem5.Garnet.Turns
import Gem5.Garnet.LaneRouter
import Gem5.Garnet.LaneSwitch
import Gem5.Garnet.LaneForward
import Gem5.Garnet.Flows
import Gem5.Garnet.FlowControl
import Gem5.Mem.PacketQueue
import Gem5.Mem.AbstractMemory
import Gem5.Lib.Ledger
import Gem5.O3.Rename
import Gem5.O3.RenameConservation
import Gem5.O3.RenameRollback
import Gem5.O3.MemDepBarriers
import Gem5.Lib.Ring
import Gem5.O3.LsqUnit
import Gem5.O3.LsqQueues
import Gem5.O3.LsqForward
import Gem5.O3.LsqInvariant
import Gem5.O3.LsqSteps
import Gem5.O3.LsqInsert
import Gem5.O3.LsqSquash
import Gem5.O3.LsqService
import Gem5.O3.LsqWriteback
import Gem5.O3.LsqRetry
import Gem5.O3.LsqReachable
import Gem5.O3.LsqLoads
import Gem5.O3.LsqStores
import Gem5.Lib.Radix
import Gem5.Mem.MultiLevelPageTable
import Gem5.Mem.PageTableRefinement
import Gem5.Mem.FunctionalAccess
import Gem5.Ruby.Sequencer
import Gem5.Mem.PageTable
import Gem5.Pred.BranchPredictor
import Gem5.Pred.ReturnStack
import Gem5.Pred.Training
import Gem5.Pred.Recovery
import Gem5.Mem.XBarLayer
import Gem5.Mem.Bridge
import Gem5.Mem.DramTiming
import Gem5.Mem.DramSpacing
import Gem5.O3.DependChains
import Gem5.O3.DependTracking
import Gem5.Arm.Tlb
import Gem5.Arm.TlbFlush
import Gem5.Arm.TlbCheckpoint
import Gem5.Dev.VirtQueue
import Gem5.Dev.VirtQueueChains
import Gem5.Lib.Spacing
import Gem5.Minor.BarrierOrder
import Gem5.Lib.Numeral
import Gem5.Base.IniFile
import Gem5.Sim.Serialize
import Gem5.Ruby.MessageBufferFifo
import Gem5.Mem.PacketQueueWakes
import Gem5.Cache.Blk
import Gem5.Cache.FaLru
import Gem5.Minor.InputBuffer
import Gem5.Minor.Scoreboard
import Gem5.Base.ChunkGenerator
import Gem5.Dev.PacketFifo
import Gem5.Ruby.PseudoLru
import Gem5.Cpu.TimeBuffer
