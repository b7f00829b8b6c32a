import Espos.Sk.Token.Pairing
import Espos.Lib.Run
import Espos.Sk.Token.Refinement
import Espos.Sk.Token.Moves
import Espos.Sk.Token.Sound
import Espos.Sk.Token.Persistence
import Espos.Sk.Token.Offer
import Espos.Sk.Token.StandIn
import Espos.Sk.Token.World
import Espos.Sk.Token.Attribution
import Espos.Sk.Token.Liveness
import Espos.Sk.Token.SecondOpinion
import Espos.Lib.Ring
import Espos.Sk.Delta.Document
import Espos.Sk.Delta.Engine
import Espos.Sk.Delta.Queue
import Espos.Sk.Delta.Accounting
import Espos.Sk.Delta.Bounds
import Espos.Lib.Lists
import Espos.Sk.Delta.Rendering
import Espos.Sk.Delta.Closing
import Espos.Sk.Delta.Order
import Espos.Sk.Delta.Delivery
import Espos.Sk.Inbound.Subscriptions
import Espos.Sk.Inbound.Agreement
import Espos.Sk.Inbound.Puts
import Espos.Sk.Inbound.PutsKept
import Espos.Sk.Inbound.PutsEnd
import Espos.Lib.Best
import Espos.Lib.Orders
import Espos.Sk.Select.Servers
import Espos.Sk.Select.Election
import Espos.Sk.Select.Merge
import Espos.Sk.Select.MergeSound
import Espos.Sk.Tls.Policy
import Espos.Sk.Tls.Hosts
import Espos.Sk.Tls.San
import Espos.Sk.Tls.Verify
import Espos.Sk.Tls.SlotOwner
import Espos.Lib.Nvs
import Espos.Sk.Tls.AnchorStore
import Espos.Sk.Tls.AnchorSurvives
import Espos.Sk.Token.StoreFile
import Espos.Sk.Meta.Round
import Espos.Sk.Meta.Attempts
import Espos.Sk.Meta.Race
import Espos.Sk.Select.Rounds
import Espos.Lib.Clock
import Espos.Wifi.Event
import Espos.Wifi.Policy
import Espos.Wifi.Sound
import Espos.Wifi.Invariant
import Espos.Wifi.Deadline
import Espos.Wifi.Association
import Espos.Wifi.PortalCalls
import Espos.Wifi.Queue
import Espos.Wifi.Stall
import Espos.Net.Announce
import Espos.Health.Table
import Espos.Health.Converge
import Espos.Config.Descriptor
import Espos.Config.Migrations
import Espos.Config.Base64
import Espos.Config.Import
import Espos.Config.Plan
import Espos.Config.Exact
import Espos.Config.Restore
import Espos.Health.Drills
import Espos.Httpd.AuthPolicy
import Espos.Httpd.Justified
import Espos.Httpd.Recovery
import Espos.Flow.Sched
import Espos.Flow.Loop
import Espos.Flow.Lockout
import Espos.Flow.Delivery
import Espos.Flow.Posted
import Espos.Lib.Lines
import Espos.N2k.Candump
import Espos.N2k.Overflow
import Espos.N2k.WholeLines
import Espos.N2k.TxSlots
import Espos.Lib.Crash
import Espos.Sdlog.Card
import Espos.Sdlog.Sha256
import Espos.Lib.Digits
import Espos.Sdlog.Session
import Espos.Sdlog.Logger
import Espos.Sdlog.Elsewhere
import Espos.Sdlog.Handed
import Espos.Sdlog.Directory
import Espos.Sdlog.Writes
import Espos.Sdlog.Removal
import Espos.Sdlog.Closing
import Espos.Sdlog.Recovery
import Espos.Sdlog.Appends
import Espos.Sdlog.Calls
import Espos.Sdlog.Survival
import Espos.Sdlog.Pruning
import Espos.UsbStorage.Follower
import Espos.UsbStorage.NoGap
import Espos.UsbStorage.Handoff
import Espos.UsbStorage.Complete
import Espos.UsbStorage.Restart
import Espos.Voice.Framing
import Espos.Voice.Decoding
import Espos.Voice.RoundTrip
import Espos.Voice.Satellite
import Espos.Voice.MicTask
import Espos.Voice.Switching
import Espos.Voice.Parking
import Espos.Ble.Radio
import Espos.Ble.InitWrites
import Espos.Ble.InitOrder
import Espos.Ble.ControlSocket
import Espos.Ble.Delivery
import Espos.Ble.Ownership
import Espos.Ble.Queues
import Espos.Sk.Delta.Waiting
import Espos.Sk.Delta.Reachable
import Espos.Sk.Delta.Refused
import Espos.Lib.JsonText
import Espos.Sk.Delta.Strings
import Espos.Time.OneOpinion
import Espos.Net.Mdns
import Espos.Sk.Delta.Numbering
import Espos.Sk.Delta.Wording
import Espos.Sk.Delta.Building
import Espos.Sk.Delta.Sender
import Espos.Sk.Delta.Dating
import Espos.Update.System
import Espos.Update.Exclusion
import Espos.Update.Manifest
import Espos.Update.Status
import Espos.Power.Cycle
import Espos.Power.Awake
import Espos.Config.Registry
import Espos.Config.ValidReads
import Espos.Config.Provision
import Espos.Nmea0183.Reader
import Espos.Nmea0183.Parse
import Espos.Sk.Tls.Supplied
import Espos.Httpd.Guessing
import Espos.Httpd.Eviction
import Espos.Wifi.Rounds
import Espos.Wifi.PortalDns
import Espos.Log.Ring
import Espos.Tone.Rtttl
import Espos.Ble.Uuid
import Espos.Sk.Inbound.Answer
import Espos.Sk.Inbound.Frames
import Espos.Sk.Inbound.Routing
import Espos.Sk.Inbound.Replies
import Espos.Lib.Calendar
import Espos.Time.Iso
import Espos.Time.Instants
import Espos.Flow.Wheel
import Espos.Flow.Timers
import Espos.Flow.Cadence
import Espos.Flow.Handles
import Espos.Flow.FromIsr
import Espos.Flow.Owned
import Espos.Flow.Debounce
import Espos.N2k.Decode
import Espos.N2k.Inbound
import Espos.Health.Policy
import Espos.Health.Restarts
import Espos.Lib.EventStream
import Espos.Httpd.Streams
import Espos.Lib.Crc
import Espos.Lib.Sha2
import Espos.Sdlog.Digest
import Espos.Config.Notify
import Espos.Wifi.HostedWatchdog
import Espos.Sk.Delta.Flushing
import Espos.N2k.FastPacket
import Espos.N2k.Reassembly
import Espos.N2k.Transmission
import Espos.N2k.SendBuffer
import Espos.Log.Answers
import Espos.Log.Follow
