import Traxos.Lockseq.Progress
import Traxos.Pancy.ConditionalUpdates
import Traxos.Pancy.Diff
import Traxos.Pancy.Presence
import Traxos.Pancy.Replay
import Traxos.Pancy.Skew
import Traxos.Service.Linearizability
import Traxos.Lockseq.Exclusion
import Traxos.Lockseq.Contents
import Traxos.Lockseq.Sequences
import Traxos.Lockseq.Wraparound
import Traxos.Lockseq.Survival
import Traxos.Core.OrderedStrings
import Traxos.Lockseq.Check
import Traxos.Lockseq.NoFalseAlarm
import Traxos.Lockseq.Grammar
import Traxos.Lockseq.Recognition
import Traxos.Tracker.Types
import Traxos.Core.Numerals
import Traxos.Tracker.Numbers
import Traxos.Tracker.Announce
import Traxos.Core.KeyedStore
import Traxos.Tracker.State
import Traxos.Core.Bencode
import Traxos.Tracker.Response
import Traxos.Tracker.Connections
import Traxos.Core.Timers
import Traxos.Netsim.Receiver
import Traxos.Netsim.Delivery
import Traxos.Pancy.Frame
import Traxos.Core.Renaming
import Traxos.Pancy.Interference
import Traxos.Pancy.RemovalLog
import Traxos.Lockseq.Digits
import Traxos.Lockseq.KeyDecoding
import Traxos.Netsim.ClientServer
import Traxos.Core.CountedLoop
import Traxos.Netsim.OneWay
import Traxos.Service.Wiring
import Traxos.Service.Setup
import Traxos.Netsim.Transit
import Traxos.Lockseq.Deployment
import Traxos.Service.InFlight
import Traxos.Lockseq.Simulation
import Traxos.Lockseq.TestRun
import Traxos.Lockseq.Sessions
import Traxos.Tracker.Messages
import Traxos.Core.Readable
import Traxos.Tracker.DebugPage
import Traxos.Pancy.Printing
import Traxos.Lockseq.Counts
import Traxos.Lockseq.Report
import Traxos.Pancy.Formatting
import Traxos.Lockseq.Release
import Traxos.Core.FixedWidth
import Traxos.Lockseq.RandomHex
import Traxos.Netsim.Progress
import Traxos.Lockseq.Serving
import Traxos.Lockseq.Program
