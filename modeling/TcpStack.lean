import TcpStack.Actions
import TcpStack.Address
import TcpStack.AfterFin
import TcpStack.Agreement
import TcpStack.Attendance
import TcpStack.Backlog
import TcpStack.Backoff
import TcpStack.BbrModes
import TcpStack.Blocking
import TcpStack.Chain
import TcpStack.Challenge
import TcpStack.Checksum
import TcpStack.Circle
import TcpStack.Codec
import TcpStack.Congestion
import TcpStack.Connection
import TcpStack.Conservation
import TcpStack.Conversation
import TcpStack.Cookie
import TcpStack.CookieHandshake
import TcpStack.Coverage
import TcpStack.CubicArithmetic
import TcpStack.Delivery
import TcpStack.Device
import TcpStack.Discipline
import TcpStack.Dispatch
import TcpStack.Double
import TcpStack.EarlyReturn
import TcpStack.Echo
import TcpStack.Emission
import TcpStack.EndAround
import TcpStack.EndToEnd
import TcpStack.Ending
import TcpStack.EventLoop
import TcpStack.Facade
import TcpStack.FlowControl
import TcpStack.Frame
import TcpStack.Framing
import TcpStack.Grammar
import TcpStack.Guards
import TcpStack.Handshake
import TcpStack.Host
import TcpStack.Http
import TcpStack.Incarnation
import TcpStack.Injection
import TcpStack.Intake
import TcpStack.InternetSum
import TcpStack.Ip
import TcpStack.Issued
import TcpStack.Joint
import TcpStack.Karn
import TcpStack.Keepalive
import TcpStack.Lifetime
import TcpStack.Machine
import TcpStack.MonotoneDeque
import TcpStack.Mss
import TcpStack.Nagle
import TcpStack.OnSegment
import TcpStack.Opening
import TcpStack.Outgoing
import TcpStack.Paws
import TcpStack.Piece
import TcpStack.Pipe
import TcpStack.Pipeline
import TcpStack.Progress
import TcpStack.Reaction
import TcpStack.Reassembly
import TcpStack.Receive
import TcpStack.Recovery
import TcpStack.Refine
import TcpStack.Reorder
import TcpStack.Resend
import TcpStack.Reset
import TcpStack.Retention
import TcpStack.RetxQueue
import TcpStack.RoundTrip
import TcpStack.Rtt
import TcpStack.RttBounds
import TcpStack.Sack
import TcpStack.SackRecovery
import TcpStack.SegmentSize
import TcpStack.Segmentation
import TcpStack.Seq
import TcpStack.Server
import TcpStack.Service
import TcpStack.Silence
import TcpStack.Sockets
import TcpStack.SortedMap
import TcpStack.Stream
import TcpStack.System
import TcpStack.Table
import TcpStack.Teardown
import TcpStack.Throttle
import TcpStack.Timers
import TcpStack.Timestamps
import TcpStack.Tracking
import TcpStack.Transmit
import TcpStack.Visit
import TcpStack.WindowMax
import TcpStack.Wire
import TcpStack.Word
