import TinyMQ.Names
import TinyMQ.Lib.KeyedLog
import TinyMQ.Lib.Proc
import TinyMQ.Storage
import TinyMQ.Compaction
import TinyMQ.LogStore
import TinyMQ.Broker
import TinyMQ.Lib.Lts
import TinyMQ.Machine
import TinyMQ.Effects
import TinyMQ.Steps
import TinyMQ.Custody
import TinyMQ.Acknowledge
import TinyMQ.Ownership
import TinyMQ.AtMostOnce
import TinyMQ.Rest
import TinyMQ.Wiring
import TinyMQ.NoLoss
import TinyMQ.Lib.Register
import TinyMQ.Cluster
import TinyMQ.Election
import TinyMQ.Replication
import TinyMQ.Rejection
import TinyMQ.Acceptance
import TinyMQ.Restart
import TinyMQ.Requeue
import TinyMQ.Publishing
import TinyMQ.FanOut
import TinyMQ.Redrive
import TinyMQ.Groups
import TinyMQ.Bindings
import TinyMQ.Terms
import TinyMQ.Lib.Codec
import TinyMQ.Wire
import TinyMQ.Replicas
import TinyMQ.Ballots
import TinyMQ.World
import TinyMQ.Moves
import TinyMQ.Objects
import TinyMQ.Spies
import TinyMQ.Calls
import TinyMQ.Lib.Tokens
import TinyMQ.Channels
import TinyMQ.Provenance
import TinyMQ.Deliveries
import TinyMQ.Attendance
import TinyMQ.Wakeups
import TinyMQ.Lib.Fifo
import TinyMQ.Order
import TinyMQ.Turns
import TinyMQ.Frames
import TinyMQ.Lib.Levels
import TinyMQ.Patterns
import TinyMQ.Gateways
import TinyMQ.Nats
import TinyMQ.Lib.Utf8
import TinyMQ.Aims
import TinyMQ.Sdk
import TinyMQ.Pushes
import TinyMQ.Journal
import TinyMQ.Lib.Ranks
import TinyMQ.Reordering
import TinyMQ.Lib.Varint
import TinyMQ.Mqtt
import TinyMQ.Sessions
import TinyMQ.Lib.JsonText
import TinyMQ.Lib.SortedMap
import TinyMQ.Lib.JsonFields
import TinyMQ.Records
import TinyMQ.LogLines
import TinyMQ.TornWrites
import TinyMQ.Legacy
import TinyMQ.RingBuffer
import TinyMQ.Lines
import TinyMQ.Quorum
import TinyMQ.Broadcast
import TinyMQ.Idempotency
import TinyMQ.Handles
import TinyMQ.RateLimit
import TinyMQ.Sync
