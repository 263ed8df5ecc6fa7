import CPlayground.Builtin.Ctz
import CPlayground.Codec.Base64
import CPlayground.Codec.ClipVarchar
import CPlayground.Codec.DdlConv
import CPlayground.Codec.DnsConvert
import CPlayground.Codec.DnsEncoders
import CPlayground.Codec.DnsMessage
import CPlayground.Codec.DnsName
import CPlayground.Codec.DnsReader
import CPlayground.Codec.IdDecoder
import CPlayground.Codec.IdPositional
import CPlayground.Codec.NameCodec
import CPlayground.Codec.Utf8
import CPlayground.Codec.Utf8Canonical
import CPlayground.Codec.VarcharSafety
import CPlayground.Container.BlockingQueue
import CPlayground.Coroutine.Schedule
import CPlayground.Lib.AddressSpace
import CPlayground.Lib.Bytes
import CPlayground.Lib.CInt
import CPlayground.Lib.CString
import CPlayground.Lib.CType
import CPlayground.Lib.Condvar
import CPlayground.Lib.Cyclic
import CPlayground.Lib.Drain
import CPlayground.Lib.Handles
import CPlayground.Lib.Loop
import CPlayground.Lib.Memory
import CPlayground.Lib.PopCount
import CPlayground.Lib.Search
import CPlayground.Lib.Table
import CPlayground.Lib.Trace
import CPlayground.Lib.Words
import CPlayground.Lib.ZeroByte
import CPlayground.Monitor.Coordinator.HeartBeat
import CPlayground.Monitor.Coordinator.Protocol
import CPlayground.Monitor.Coordinator.Workers
import CPlayground.Monitor.Defer
import CPlayground.Monitor.EndPoint
import CPlayground.Monitor.Export
import CPlayground.Monitor.FileWatcher
import CPlayground.Monitor.Forwarder.Confluence
import CPlayground.Monitor.Forwarder.Daemon
import CPlayground.Monitor.Forwarder.Delivery
import CPlayground.Monitor.Forwarder.Model
import CPlayground.Monitor.Forwarder.Moves
import CPlayground.Monitor.Forwarder.Ownership
import CPlayground.Monitor.Heartbeat
import CPlayground.Monitor.HeartbeatSession
import CPlayground.Monitor.Listener.Binding
import CPlayground.Monitor.Listener.Connection
import CPlayground.Monitor.Listener.Model
import CPlayground.Monitor.Listener.Moves
import CPlayground.Monitor.Listener.Session
import CPlayground.Monitor.Listener.Wakeup
import CPlayground.Monitor.Message
import CPlayground.Monitor.Notifier
import CPlayground.Monitor.Packing
import CPlayground.Monitor.Poll
import CPlayground.Monitor.PollLifecycle
import CPlayground.Monitor.Strlcpy
import CPlayground.Monitor.TaskRunner
import CPlayground.Monitor.TaskRunnerStop
import CPlayground.Monitor.TimeWheel
import CPlayground.Monitor.TimerArming
import CPlayground.Monitor.TimerBatch
import CPlayground.Monitor.TimerCancel
import CPlayground.Monitor.TimerIds
import CPlayground.Monitor.TimerLifecycle
import CPlayground.Monitor.TimerRunner
import CPlayground.Monitor.Unpacking
import CPlayground.Num.Int2Bin
import CPlayground.Pattern.BlockQueue
import CPlayground.Ptrace.PtraceSyscall
import CPlayground.Ptrace.Tracer
import CPlayground.Relay.Codec
import CPlayground.Relay.Collector.HandOver
import CPlayground.Relay.Collector.Pool
import CPlayground.Relay.Collector.Ports
import CPlayground.Relay.Collector.Queue
import CPlayground.Relay.Collector.Reconnect
import CPlayground.Relay.Collector.Shutdown
import CPlayground.Relay.Logger
import CPlayground.Relay.Message
import CPlayground.Relay.Notifier
import CPlayground.Relay.ParseTopic
import CPlayground.Relay.Pipeline
import CPlayground.Relay.RandomReader
import CPlayground.Relay.ReaderRun
import CPlayground.Relay.Registration
import CPlayground.Relay.RemoteReader
import CPlayground.Relay.Secure
import CPlayground.Relay.Server
import CPlayground.Trivial.CmdBuffer
import CPlayground.Trivial.Counter
import CPlayground.Trivial.QuorumVote
import CPlayground.Trivial.RingBuffer
import CPlayground.Trivial.TreeIndex
import CPlayground.Trivial.ZeroByte
