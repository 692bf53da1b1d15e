import SuparnaD.Api.BodyAssembly
import SuparnaD.Api.EventText
import SuparnaD.Api.FieldLookup
import SuparnaD.Api.Handler
import SuparnaD.Api.NameIsolation
import SuparnaD.Api.StringScanner
import SuparnaD.Api.TopicRace
import SuparnaD.Daemon.HostProgress
import SuparnaD.Daemon.HostedReplies
import SuparnaD.Daemon.LogService
import SuparnaD.Daemon.UploadProtocol
import SuparnaD.Messaging.AckOrder
import SuparnaD.Messaging.BatchAck
import SuparnaD.Messaging.CompressedPublish
import SuparnaD.Messaging.CursorBound
import SuparnaD.Messaging.DictionaryRoundTrip
import SuparnaD.Messaging.DirectoryCreation
import SuparnaD.Messaging.EventDelivery
import SuparnaD.Messaging.FailedPublish
import SuparnaD.Messaging.GroupIsolation
import SuparnaD.Messaging.GroupLifecycle
import SuparnaD.Messaging.GroupTable
import SuparnaD.Messaging.GrowingLog
import SuparnaD.Messaging.RoundTrip
import SuparnaD.Messaging.SeparateHandles
import SuparnaD.Messaging.SharedTopic
import SuparnaD.Messaging.SizedBatchAck
import SuparnaD.Messaging.SizedConsume
import SuparnaD.Messaging.StreamReads
import SuparnaD.Messaging.TopicLifecycle
import SuparnaD.Socket.Boundaries
import SuparnaD.Socket.CommandLines
import SuparnaD.Socket.DeliveryCount
import SuparnaD.Socket.HandleOwnership
import SuparnaD.Socket.LostPackets
import SuparnaD.Socket.NamedAck
import SuparnaD.Socket.ReplyStream
import SuparnaD.Socket.SessionCoherence
import SuparnaD.Socket.SharedGroups
import SuparnaD.Socket.SkippedPackets
import SuparnaD.Writer.ChunkMemory
import SuparnaD.Writer.DeltaWrites
import SuparnaD.Writer.FailedLoad
