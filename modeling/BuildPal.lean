import BuildPal.Common.Message
import BuildPal.Common.Exceptions
import BuildPal.Server.HeaderRepository
import BuildPal.SessionProtocol
import BuildPal.Manager.NoTaskLost
import BuildPal.Manager.Cancelled
import BuildPal.Manager.Scheduling
import BuildPal.Manager.NodeDetector
import BuildPal.Lib.DecisionTrie
import BuildPal.Lib.TrieMap
import BuildPal.Scanner.HeaderTracker
import BuildPal.Server.Runner
import BuildPal.Server.RunnerSteps
import BuildPal.Server.Downloads
import BuildPal.Server.Waiters
import BuildPal.Server.Finished
import BuildPal.Server.VirtualPaths
import BuildPal.Scanner.NaivePreprocessor
import BuildPal.Scanner.NaiveScan
import BuildPal.Scanner.WarmScans
import BuildPal.Scanner.RecordedNames
import BuildPal.Scanner.GeneratedContent
import BuildPal.Scanner.Scans
import BuildPal.Scanner.ScanHeaders
import BuildPal.Scanner.SearchPaths
import BuildPal.Scanner.Preprocessing
import BuildPal.Scanner.Replay
import BuildPal.Client.WireFormat
import BuildPal.Client.HookProcess
import BuildPal.Client.MapFiles
import BuildPal.Client.DistributedCompilation
import BuildPal.Manager.Accounting
import BuildPal.Manager.Pending
import BuildPal.Manager.Recorded
import BuildPal.Manager.Compressor
import BuildPal.Manager.ClientProcessor
import BuildPal.Server.Stored
import BuildPal.Server.Timers
import BuildPal.Scanner.MacroPaths
import BuildPal.Scanner.CacheTree
import BuildPal.Scanner.HeaderCache
import BuildPal.Manager.Detection
import BuildPal.Manager.LocalCompiles
import BuildPal.Server.CreateProcess
import BuildPal.Server.ProcessRunner
import BuildPal.Scanner.ContentCache
import BuildPal.Scanner.ContentThreads
import BuildPal.Manager.CompressionWaiters
import BuildPal.Server.RemoteCommand
import BuildPal.Server.SourceFile
import BuildPal.Scanner.Flyweight
import BuildPal.Scanner.FlyweightThreads
import BuildPal.Client.FrameParser
import BuildPal.Client.SearchPath
import BuildPal.Scanner.Adler32
import BuildPal.Lib.Utf16
import BuildPal.Scanner.Encoding
import BuildPal.Manager.SourceScanner
import BuildPal.Manager.Database
import BuildPal.Lib.CSource
import BuildPal.BuildDeps.AsmParser
import BuildPal.BuildDeps.CodeArrayPrinter
import BuildPal.BuildDeps.AsmToInc
import BuildPal.Lib.CommandLine
import BuildPal.Manager.CreatePch
import BuildPal.Lib.Updates
import BuildPal.Client.Environment
import BuildPal.ClientProtocol
import BuildPal.Client.Injection
import BuildPal.Lib.WorkQueue
import BuildPal.Manager.DatabaseInserter
import BuildPal.Manager.ScannerThreads
import BuildPal.FileTransfer
import BuildPal.Manager.FirstCome
import BuildPal.SessionProgress
import BuildPal.CompilerOutput
