import Nmdns.Lib.KeyedMap
import Nmdns.Record
import Nmdns.Cache
import Nmdns.Lib.Register
import Nmdns.History
import Nmdns.Message
import Nmdns.Iface
import Nmdns.Timing
import Nmdns.Lib.Unique
import Nmdns.Responder
import Nmdns.Answers
import Nmdns.Daemon
import Nmdns.RateLimit
import Nmdns.Delay
import Nmdns.Sources
import Nmdns.Engine
import Nmdns.Lib.TaskPool
import Nmdns.Schedule
import Nmdns.Config
import Nmdns.Invariant
import Nmdns.Sweep
import Nmdns.Lib.Positions
import Nmdns.Repeater
import Nmdns.TrackerHistory
import Nmdns.Outgoing
import Nmdns.Peer
import Nmdns.Filter
import Nmdns.Capacity
import Nmdns.Race
import Nmdns.Additionals
import Nmdns.Defense
import Nmdns.Probe
import Nmdns.Netmask
import Nmdns.Hostname
import Nmdns.Network
import Nmdns.Limiter
import Nmdns.Lib.Async
import Nmdns.Tasks
import Nmdns.Process
import Nmdns.Refinement
import Nmdns.Lifecycle
import Nmdns.Shutdown
import Nmdns.Browser
import Nmdns.Evictor
import Nmdns.Relay
