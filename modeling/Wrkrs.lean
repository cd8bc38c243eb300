import Wrkrs.Library.Incremental
import Wrkrs.Library.Text
import Wrkrs.Library.Machine
import Wrkrs.Library.Runs
import Wrkrs.Library.Interleaving
import Wrkrs.Library.Scanning
import Wrkrs.Library.Splitting
import Wrkrs.Library.Tables
import Wrkrs.Library.Ranks
import Wrkrs.Library.Unfolding
import Wrkrs.Httparse
import Wrkrs.Framer
import Wrkrs.FramerDecoder
import Wrkrs.FramerDrain
import Wrkrs.FramerFeeds
import Wrkrs.FramerCapture
import Wrkrs.FramerSafety
import Wrkrs.FramerErrors
import Wrkrs.Wire
import Wrkrs.FramerRoundTrip
import Wrkrs.ChunkedCoding
import Wrkrs.FramerChunks
import Wrkrs.FramerPrecedence
import Wrkrs.Stats
import Wrkrs.StatsRecording
import Wrkrs.Connection
import Wrkrs.ConnectionReads
import Wrkrs.ConnectionWrites
import Wrkrs.ConnectionTrail
import Wrkrs.ConnectionSamples
import Wrkrs.Tls
import Wrkrs.TlsHandshake
import Wrkrs.EventLoop
import Wrkrs.EventLoopRuns
import Wrkrs.EventLoopStalls
import Wrkrs.EventLoopBursts
import Wrkrs.Url
import Wrkrs.UrlGrammar
import Wrkrs.UrlHost
import Wrkrs.UrlParse
import Wrkrs.Format
import Wrkrs.UrlRebuild
import Wrkrs.UrlComplete
import Wrkrs.Config
import Wrkrs.FormatTables
import Wrkrs.ConfigWire
import Wrkrs.Verify
import Wrkrs.RequestHeads
import Wrkrs.VerifyConfig
import Wrkrs.VerifyLoop
import Wrkrs.WrkLua
import Wrkrs.QuickJs
import Wrkrs.Worker
import Wrkrs.StopLimits
import Wrkrs.ConnectionEnds
import Wrkrs.StatsScripts
import Wrkrs.StatsCorrection
import Wrkrs.StatsWalks
import Wrkrs.Units
import Wrkrs.Getopt
import Wrkrs.Cli
import Wrkrs.GetoptRender
import Wrkrs.RunSetup
import Wrkrs.ValueTransfer
import Wrkrs.Library.Parallel
import Wrkrs.Loop
import Wrkrs.LoopSchedule
import Wrkrs.Ledger
import Wrkrs.Pool
import Wrkrs.FileRun
import Wrkrs.Library.Dialogues
import Wrkrs.Resolve
import Wrkrs.Handles
import Wrkrs.Prepare
import Wrkrs.PrepareFile
import Wrkrs.HandleRun
import Wrkrs.Library.Arenas
import Wrkrs.ValueTrees
import Wrkrs.ValueStores
import Wrkrs.ValueObjects
import Wrkrs.ValueCrossings
import Wrkrs.ValueGlobals
import Wrkrs.GetoptAccepts
import Wrkrs.CliConfigs
import Wrkrs.WorkerSlots
import Wrkrs.ScriptFormats
import Wrkrs.WorkerConnections
import Wrkrs.WorkerWires
import Wrkrs.ReportLatencies
