import VortexMQ.Api.DeadLetters
import VortexMQ.Network.Channels
import VortexMQ.Network.ClientLimit
import VortexMQ.Network.Dialogue
import VortexMQ.Network.GroupReads
import VortexMQ.Network.Lists
import VortexMQ.Network.Locks
import VortexMQ.Network.Pushes
import VortexMQ.Network.StreamFields
import VortexMQ.Network.Truncation
import VortexMQ.Protocol.Framing
import VortexMQ.Protocol.Inline
import VortexMQ.Queue.BrokerPlaces
import VortexMQ.Queue.ClosedBroker
import VortexMQ.Queue.Consuming
import VortexMQ.Queue.DeadLetterLock
import VortexMQ.Queue.Identifiers
import VortexMQ.Queue.LinkedWheel
import VortexMQ.Queue.Places
import VortexMQ.Queue.Redelivery
import VortexMQ.Wal.AckRecords
import VortexMQ.Wal.Corruption
import VortexMQ.Wal.Faults
import VortexMQ.Wal.FrameLength
import VortexMQ.Wal.PowerLoss
import VortexMQ.Wal.SegmentOrder
