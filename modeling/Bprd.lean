import Bprd.Lib.WrapCounter
import Bprd.Model.Fault
import Bprd.Model.Netaddr
import Bprd.Model.FifoQueue
import Bprd.Model.Commodity
import Bprd.Model.Ntable
import Bprd.Model.Backlogger
import Bprd.Model.Router
import Bprd.Lib.Buffer
import Bprd.Lib.ConsumeLoop
import Bprd.Lib.Words
import Bprd.Model.HelloReader
import Bprd.Model.PbbWriter
import Bprd.Model.HelloWriter
import Bprd.Model.Node
import Bprd.Lib.Fallible
import Bprd.Lib.Runs
import Bprd.Model.Network
import Bprd.Proofs.FifoOrder
import Bprd.Proofs.NodeFrame
import Bprd.Proofs.VerdictOrder
import Bprd.Proofs.RouterUpdate
import Bprd.Proofs.Release
import Bprd.Proofs.ReleasePeriod
import Bprd.Proofs.Gradient
import Bprd.Proofs.Backpressure
import Bprd.Lib.KeyedList
import Bprd.Proofs.HelloMessage
import Bprd.Proofs.HelloTable
import Bprd.Proofs.LinkSymmetry
import Bprd.Proofs.HelloLayout
import Bprd.Proofs.PacketScan
import Bprd.Proofs.HelloParse
import Bprd.Proofs.HelloSent
import Bprd.Proofs.HelloRoundTrip
import Bprd.Proofs.ParserTraps
import Bprd.Proofs.MessageSafety
import Bprd.Proofs.NodeTable
import Bprd.Proofs.NetworkFacts
import Bprd.Proofs.Shortcut
import Bprd.Proofs.NextHop
import Bprd.Proofs.UniformConfig
import Bprd.Proofs.QueueReaders
import Bprd.Proofs.KernelIds
import Bprd.Model.Config
import Bprd.Proofs.Expiry
import Bprd.Proofs.ReleaseTicks
import Bprd.Spec.KernelRoutes
import Bprd.Lib.CText
import Bprd.Lib.LineReader
import Bprd.Proofs.RouteTracking
import Bprd.Proofs.ConfigLines
import Bprd.Lib.BitPrefix
import Bprd.Proofs.CaptureRoutes
import Bprd.Proofs.ConfigTaken
import Bprd.Lib.Reservoir
import Bprd.Proofs.TieBreaking
import Bprd.Lib.LinkedList
import Bprd.Model.ElementList
import Bprd.Proofs.ElementLists
import Bprd.Proofs.WireRecord
import Bprd.Lib.Overwrite
import Bprd.Proofs.NewestHello
import Bprd.Proofs.Progress
import Bprd.Proofs.Convergence
import Bprd.Lib.HeightTree
import Bprd.Lib.LinkRing
import Bprd.Model.Avl
import Bprd.Spec.SortedContents
import Bprd.Proofs.AvlHeap
import Bprd.Proofs.AvlAscent
import Bprd.Proofs.AvlRemoval
import Bprd.Proofs.AvlInsertion
import Bprd.Proofs.AvlSearch
import Bprd.Proofs.AvlContents
import Bprd.Proofs.AvlRuns
import Bprd.Proofs.AvlLookup
import Bprd.Lib.Refinement
import Bprd.Model.PbbHeap
import Bprd.Proofs.TlvTrees
import Bprd.Proofs.ParserMemory
import Bprd.Proofs.CaptureCommands
