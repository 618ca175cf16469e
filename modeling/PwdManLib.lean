import PwdManLib.Lib.Exec
import PwdManLib.Lib.Trace
import PwdManLib.Lib.Typestate
import PwdManLib.Lib.Process
import PwdManLib.Lib.Monitor
import PwdManLib.Lib.Registers
import PwdManLib.Lib.Bounds
import PwdManLib.Lib.Transfer
import PwdManLib.Lib.Power
import PwdManLib.Lib.Block
import PwdManLib.Lib.SwapEnds
import PwdManLib.Lib.Format
import PwdManLib.Lib.Delim
import PwdManLib.Lib.Lines
import PwdManLib.Lib.Refine
import PwdManLib.Lib.LexPath
import PwdManLib.Lib.Quoted
import PwdManLib.Lib.Verdict
import PwdManLib.Lib.Standstill
import PwdManLib.Util.StringOps
import PwdManLib.Util.Split
import PwdManLib.Util.SplitStores
import PwdManLib.Util.ReadFile
import PwdManLib.Util.Itoa
import PwdManLib.Util.StrReverse
import PwdManLib.Util.JoinPath
import PwdManLib.Util.Dict
import PwdManLib.Util.DictSlots
import PwdManLib.Util.DictMap
import PwdManLib.Util.DictFill
import PwdManLib.Util.DictEffect
import PwdManLib.Util.DictOrder
import PwdManLib.Util.DictFull
import PwdManLib.Util.DictCopies
import PwdManLib.Util.Vector
import PwdManLib.Util.VectorRoom
import PwdManLib.Util.VectorGrowth
import PwdManLib.Util.Arithmetic
import PwdManLib.Util.Primes
import PwdManLib.Server.FawkesProto
import PwdManLib.Server.Parse
import PwdManLib.Server.HeaderLoop
import PwdManLib.Server.LoopBound
import PwdManLib.Server.ParseSpec
import PwdManLib.Server.QueryParams
import PwdManLib.Server.QuerySteps
import PwdManLib.Server.RequestText
import PwdManLib.Server.RequestLine
import PwdManLib.Server.InfoByte
import PwdManLib.Server.HeaderValues
import PwdManLib.Server.TokenUse
import PwdManLib.Server.Limits
import PwdManLib.Server.Route
import PwdManLib.Server.ReadBuffer
import PwdManLib.Server.Copies
import PwdManLib.Server.Blocks
import PwdManLib.Server.Traversal
import PwdManLib.Server.Reject
import PwdManLib.Server.Contents
import PwdManLib.Server.NotFound
import PwdManLib.Server.Response
import PwdManLib.Server.CreateResponse
import PwdManLib.Server.Main
import PwdManLib.Server.Survives
import PwdManLib.Server.StartServer
import PwdManLib.Crypto.SendAll
import PwdManLib.Crypto.ReadAll
import PwdManLib.Crypto.HostName
import PwdManLib.Crypto.SslFuncs
import PwdManLib.Server.AcceptLoop
import PwdManLib.Server.Program
import PwdManLib.Db.Database
import PwdManLib.Db.Authenticate
import PwdManLib.Db.CreateTable
import PwdManLib.Db.Accounts
import PwdManLib.Db.Handles
import PwdManLib.Db.Releases
import PwdManLib.Db.CreateReleases
import PwdManLib.Db.OpenHandles
import PwdManLib.Client.ClientV2
import PwdManLib.Client.RoundTrip
import PwdManLib.Client.Sending
import PwdManLib.Client.Framing
import PwdManLib.Client.Session
import PwdManLib.Client.Exchange
import PwdManLib.Client.Arrival
