import Cs162Hw.Library.Directory
import Cs162Hw.Library.Pieces
import Cs162Hw.Library.Program
import Cs162Hw.Library.Pool
import Cs162Hw.Library.TwoPhase
import Cs162Hw.Library.Steady
import Cs162Hw.Library.Transactions
import Cs162Hw.Library.Ring
import Cs162Hw.Library.Register
import Cs162Hw.Library.Tiling
import Cs162Hw.Library.Buffer
import Cs162Hw.Library.Bytes
import Cs162Hw.Library.Dialogue
import Cs162Hw.Library.Run
import Cs162Hw.Library.Steps
import Cs162Hw.Kv.Message
import Cs162Hw.Kv.Numerals
import Cs162Hw.Kv.Store
import Cs162Hw.Kv.StoreMap
import Cs162Hw.Kv.StoreCalls
import Cs162Hw.Kv.FailingStore
import Cs162Hw.Kv.Log
import Cs162Hw.Kv.Server
import Cs162Hw.Kv.Handler
import Cs162Hw.Kv.Participant
import Cs162Hw.Kv.Crash
import Cs162Hw.Kv.Replay
import Cs162Hw.Kv.LogFiles
import Cs162Hw.Kv.TornLog
import Cs162Hw.Kv.FailingLog
import Cs162Hw.Kv.Workers
import Cs162Hw.Kv.Leader
import Cs162Hw.Kv.Placement
import Cs162Hw.Kv.LeaderCalls
import Cs162Hw.Kv.Cluster
import Cs162Hw.Kv.Serial
import Cs162Hw.Kv.Concurrent
import Cs162Hw.Kv.Exchanges
import Cs162Hw.Kv.Replicated
import Cs162Hw.Kv.Reads
import Cs162Hw.Kv.Url
import Cs162Hw.Kv.Http
import Cs162Hw.Kv.Wire
import Cs162Hw.Kv.Query
import Cs162Hw.Kv.ResponseHead
import Cs162Hw.Kv.LineEndings
import Cs162Hw.Kv.Arrays
import Cs162Hw.Kv.Connection
import Cs162Hw.Kv.Registration
import Cs162Hw.Kv.WorkQueue
import Cs162Hw.Httpserver.Proxy
import Cs162Hw.Httpserver.Request
import Cs162Hw.Httpserver.Files
import Cs162Hw.Wc
import Cs162Hw.Shell.Tokens
import Cs162Hw.Shell.Redirections
import Cs162Hw.Alloc.Memory
import Cs162Hw.Alloc.MmAlloc
import Cs162Hw.Alloc.Layout
import Cs162Hw.Alloc.Functions
import Cs162Hw.Alloc.Calls
import Cs162Hw.Alloc.Client
import Cs162Hw.Alloc.Runs
import Cs162Hw.Alloc.Contents
import Cs162Hw.Alloc.Machine
import Cs162Hw.Alloc.Alignment
import Cs162Hw.Library.Gaps
import Cs162Hw.Alloc.Arena
import Cs162Hw.Alloc.FirstFit
import Cs162Hw.Alloc.Space
import Cs162Hw.Library.Blocks
import Cs162Hw.Kv.Md5
import Cs162Hw.Kv.Md5Digest
import Cs162Hw.Kv.OverWire
import Cs162Hw.Library.Descriptors
import Cs162Hw.Shell.Session
import Cs162Hw.Library.Resumed
import Cs162Hw.Kv.LeaderCrash
import Cs162Hw.Kv.Prefixes
import Cs162Hw.Kv.CutMessages
import Cs162Hw.Kv.SocketServer
import Cs162Hw.Library.Chunks
import Cs162Hw.Httpserver.Answers
import Cs162Hw.Httpserver.Buffers
