import RdmaNic.ClockedMachine
import RdmaNic.DelayedEvents
import RdmaNic.DeadTime
import RdmaNic.JobServer
import RdmaNic.PacketFraming
import RdmaNic.PacketPlacement
import RdmaNic.StreamMerge
import RdmaNic.StreamPairing
import RdmaNic.StreamSegments
import RdmaNic.Turnaround
import RdmaNic.InOrderChecker
import RdmaNic.ClockingBlock
import RdmaNic.PortSignals
import RdmaNic.RdmaSched
import RdmaNic.SchedPackets
import RdmaNic.CmdParser
import RdmaNic.ParserEncoding
import RdmaNic.CommandCapture
import RdmaNic.RdmaTop
import RdmaNic.IngressPath
import RdmaNic.CommandPath
import RdmaNic.CommandFrame
import RdmaNic.TxOrigin
import RdmaNic.CommandServer
import RdmaNic.CmdDriver
import RdmaNic.IngressFate
import RdmaNic.Recovery
import RdmaNic.RdmaMonitor
import RdmaNic.SendPacket
import RdmaNic.RxArrivals
import RdmaNic.RdmaDriver
import RdmaNic.RdmaHostDriver
import RdmaNic.PortContention
import RdmaNic.UvmBase
import RdmaNic.RdmaScb
import RdmaNic.RdmaEnv
import RdmaNic.EnvTiming
import RdmaNic.ScoreboardEpochs
import RdmaNic.PairingOrder
import RdmaNic.DutInLoop
import RdmaNic.RdmaCompleteMonitor
import RdmaNic.EndToEnd
import RdmaNic.RxForwarded
import RdmaNic.SharedStart
import RdmaNic.RdmaTest
