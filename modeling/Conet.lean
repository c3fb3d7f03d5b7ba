import Conet.Lib.Circular
import Conet.Lib.Loop
import Conet.Lib.Chain
import Conet.Lib.Bytes
import Conet.Lib.Frame
import Conet.Lib.Find
import Conet.Lib.Directory
import Conet.Lib.Ragel
import Conet.Lib.RagelLang
import Conet.Lib.RagelParts
import Conet.Lib.Trace
import Conet.Lib.Waiting
import Conet.Lib.Epoll
import Conet.Lib.Protobuf
import Conet.Lib.DynMessage
import Conet.Base.ListHead
import Conet.Base.ListCut
import Conet.Base.ListRings
import Conet.Base.FixedMempool
import Conet.Base.Llist
import Conet.Base.HttpParser
import Conet.Base.StringTpl
import Conet.Base.RedisParse
import Conet.Base.LogShift
import Conet.Base.HttpTrace
import Conet.Base.HttpLines
import Conet.Base.HttpKnown
import Conet.Base.HttpHeaders
import Conet.Base.HttpOrigin
import Conet.Base.HttpHead
import Conet.Base.Pbc
import Conet.Base.PbcFields
import Conet.Base.PbcSkip
import Conet.Base.NetTool
import Conet.Base.NetToolRead
import Conet.Base.PacketStreamRun
import Conet.Base.PacketStreamFail
import Conet.Base.PacketStreamHostile
import Conet.Base.NetToolSend
import Conet.Base.NetToolWritev
import Conet.Base.StringBuilder
import Conet.Base.HashTable
import Conet.Base.QueryString
import Conet.Base.QueryStringGrammar
import Conet.Base.Pb2json
import Conet.Base.String2number
import Conet.Base.UrlEncode
import Conet.Base.Base64
import Conet.Core.Coroutine
import Conet.Core.CoroutineRun
import Conet.Core.WaitQueue
import Conet.Core.WaitQueueRun
import Conet.Core.HookTime
import Conet.Core.Join
import Conet.Core.PthreadCond
import Conet.Core.PthreadCondRun
import Conet.Core.Dispatch
import Conet.Core.DispatchCounters
import Conet.Core.DispatchRounds
import Conet.Core.TimerService
import Conet.Core.Timewheel
import Conet.Core.TimewheelScan
import Conet.Core.TimewheelInv
import Conet.Core.TimewheelCancel
import Conet.Core.TimewheelRun
import Conet.Core.TimewheelCount
import Conet.Core.Network
import Conet.Core.NetworkMirror
import Conet.Core.NetworkPoll
import Conet.Core.NetworkBatch
import Conet.Core.NetworkRun
import Conet.Core.NetworkConform
import Conet.Core.Select
import Conet.Core.NetworkClose
import Conet.Core.NetworkComplete
import Conet.Core.NetworkLevel
import Conet.Svrkit.Websocket
import Conet.Svrkit.WebsocketRead
import Conet.Svrkit.WebsocketCodec
import Conet.Svrkit.WebsocketBounds
import Conet.Svrkit.HttpConn
import Conet.Svrkit.HttpConnRun
import Conet.Svrkit.HttpConnSplit
import Conet.Svrkit.HttpConnBody
import Conet.Svrkit.HttpOutput
import Conet.Svrkit.CmdRegistry
import Conet.Svrkit.CmdBase
import Conet.Svrkit.CmdBaseParse
import Conet.Svrkit.CmdBaseCodec
import Conet.Svrkit.CmdBaseSchema
import Conet.Svrkit.RpcServerBase
import Conet.Svrkit.RpcServer
import Conet.Svrkit.RpcHttp
import Conet.Svrkit.RpcTcpConn
import Conet.Svrkit.AsyncRead
import Conet.Svrkit.Channel
import Conet.Svrkit.DuplexRead
import Conet.Svrkit.DuplexCalls
import Conet.Svrkit.DuplexSend
import Conet.Svrkit.DuplexOutcome
import Conet.Core.FdMode
import Conet.Core.SocketHook
import Conet.Core.FdLife
import Conet.Core.FdTable
import Conet.Core.StackPool
import Conet.Core.ScopeGc
import Conet.Core.DiskIo
import Conet.Core.FunctionTimer
import Conet.Core.AresWrap
import Conet.Core.HookFcntl
import Conet.Lib.Dependencies
import Conet.Base.Module
import Conet.Base.ModuleInit
import Conet.Svrkit.TcpServer
import Conet.Lib.Counter
import Conet.Svrkit.TcpServerConns
import Conet.Svrkit.UdpServer
import Conet.Base.Json2pbTypes
import Conet.Base.QueryStringAgree
import Conet.Lib.Json
import Conet.Lib.JsonText
import Conet.Lib.JsonTokens
import Conet.Base.JsonMeaning
import Conet.Base.JsonWriters
import Conet.Base.JsonEscape
import Conet.Base.ToJson
import Conet.Base.JsonTo
import Conet.Base.Pb2Sqlite
import Conet.Base.JsonWritersAgree
import Conet.Base.JsonRoundTrip
import Conet.Svrkit.RpcHttpReply
import Conet.Base.StringTpl
import Conet.Base.RedisParse
import Conet.Base.LogShift
import Conet.Lib.X86
import Conet.Core.Fcontext
import Conet.Core.FcontextRun
import Conet.Core.CoroutineMachine
import Conet.Core.TimeCache
import Conet.Base.LlistRun
import Conet.Base.PLog
import Conet.Base.FdQueue
import Conet.Svrkit.RpcCall
import Conet.Svrkit.RpcClient
import Conet.Lib.Mixing
import Conet.Base.HashCode
import Conet.Base.Rand
import Conet.Base.BobHash
import Conet.Base.Tls
import Conet.Svrkit.DuplexWake
