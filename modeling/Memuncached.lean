import Memuncached.Lib.Segments
import Memuncached.Lib.CallTree
import Memuncached.Lib.DirectMapped
import Memuncached.Lib.NearestEven
import Memuncached.Lib.Transitions
import Memuncached.Lib.SwapRemove
import Memuncached.C.Bytes
import Memuncached.C.Number
import Memuncached.C.Text
import Memuncached.C.Double
import Memuncached.C.Socket
import Memuncached.Table.HashTable
import Memuncached.Table.Calls
import Memuncached.Table.Refine
import Memuncached.Server.Reply
import Memuncached.Server.Answer
import Memuncached.Server.Tokens
import Memuncached.Server.HandleCommand
import Memuncached.Server.Connection
import Memuncached.Server.Run
import Memuncached.Server.ReadLine
import Memuncached.Server.Payload
import Memuncached.Server.StoreRequest
import Memuncached.Server.Spoiled
import Memuncached.Server.Framing
import Memuncached.Server.SetStores
import Memuncached.Server.FailedRequest
import Memuncached.Server.TableRun
import Memuncached.Server.Counter
import Memuncached.Server.Initial
import Memuncached.Server.CounterExact
import Memuncached.Server.Offset
import Memuncached.Server.PayloadEnds
import Memuncached.Server.PayloadStores
import Memuncached.Server.Length
import Memuncached.Server.Disconnect
import Memuncached.Server.Vector
import Memuncached.Server.Registry
import Memuncached.Server.Shutdown
import Memuncached.Server.OneReply
import Memuncached.Client.Recv
import Memuncached.Client.Lines
import Memuncached.Client.Decode
import Memuncached.Client.Response
import Memuncached.Client.Misread
import Memuncached.Client.Session
import Memuncached.Client.SetGet
import Memuncached.Lib.Interleave
import Memuncached.Server.Linearizable
import Memuncached.Server.Concurrent
import Memuncached.Server.VectorRun
import Memuncached.C.Escape
import Memuncached.Client.IncDec
import Memuncached.Server.Terminated
import Memuncached.Server.Type
import Memuncached.Client.Pointers
import Memuncached.Server.SetFailure
import Memuncached.C.Recognisers
import Memuncached.C.Search
import Memuncached.Client.Stats
import Memuncached.Table.Fnv
import Memuncached.Server.Assembly
import Memuncached.Lib.Runs
import Memuncached.Server.Trim
import Memuncached.Server.Words
import Memuncached.Lib.Separation
import Memuncached.Table.Memory
import Memuncached.Table.Ownership
import Memuncached.Table.OwnedCalls
import Memuncached.Table.Lifetime
import Memuncached.Lib.ProgramOrder
import Memuncached.Server.Thread
import Memuncached.Server.Receive
import Memuncached.Server.Clients
import Memuncached.Server.Alone
import Memuncached.Server.Respond
import Memuncached.Client.Library
import Memuncached.Client.Calls
import Memuncached.Client.Remote
import Memuncached.Lib.Fairness
import Memuncached.Server.Answered
import Memuncached.Server.ShutdownEnds
import Memuncached.Server.CommandLine
