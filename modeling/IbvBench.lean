import IbvBench.Archive.Basic
import IbvBench.Bench
import IbvBench.Control
import IbvBench.Protocol.Basic
import IbvBench.Protocol.Safety
import IbvBench.RecvAccounting
import IbvBench.Rendezvous.Read
import IbvBench.Rendezvous.ReadProtocol
import IbvBench.Rendezvous.Write
import IbvBench.Rendezvous.WriteImm
import IbvBench.Rendezvous.WriteProtocol
import IbvBench.Rendezvous.WriteImmProtocol
import IbvBench.Protocol.Contexts
import IbvBench.Protocol.Progress
import IbvBench.Rendezvous.Runs
import IbvBench.Archive.Concurrent
import IbvBench.Pingpong.VaryMsg
import IbvBench.Pingpong.Write
import IbvBench.Pingpong.WriteSafety
import IbvBench.Lib.CString
import IbvBench.Lib.PutFence
import IbvBench.Pmi.Mpi
import IbvBench.Pmi.MpiExchange
import IbvBench.Lib.CInt
import IbvBench.Setup.Layout
import IbvBench.Setup.Qp2Rank
import IbvBench.Archive.InTable
import IbvBench.Rendezvous.Transfer
import IbvBench.Pingpong.Ranges
import IbvBench.Pingpong.Notified
import IbvBench.Pingpong.NotifiedSafety
import IbvBench.Lib.Regex
import IbvBench.Results.Row
import IbvBench.Lib.Mealy
import IbvBench.Results.Graph
import IbvBench.Results.OnePass
import IbvBench.Results.Srun
import IbvBench.Results.Basic
import IbvBench.Results.Records
import IbvBench.Lib.Numerals
import IbvBench.Setup.Text
import IbvBench.Setup.Connect
import IbvBench.Lib.Prog
import IbvBench.Pingpong.Sweep
import IbvBench.Pingpong.SweepEnds
import IbvBench.Results.Chain
import IbvBench.Pmi.InitExchange
import IbvBench.Termination
import IbvBench.Pingpong.NotifiedProgress
import IbvBench.Pingpong.Read
import IbvBench.Pingpong.ReadSafety
import IbvBench.Pingpong.ReadRuns
import IbvBench.Lib.Pieces
import IbvBench.Lib.PutFenceJob
import IbvBench.Lib.Words
import IbvBench.Pmi.Strings
import IbvBench.Pmi.SimpleUtil
import IbvBench.Pmi.SimpleProtocol
import IbvBench.Lib.PutFencePhases
import IbvBench.Pmi.SimpleManager
import IbvBench.Pmi.SimpleExchange
import IbvBench.Pmi.SimpleLimits
import IbvBench.Lib.Escaped
import IbvBench.Pmi2.Command
import IbvBench.Pmi2.ReadCommand
import IbvBench.Pmi2.Exchange
import IbvBench.Pmi2.Limits
