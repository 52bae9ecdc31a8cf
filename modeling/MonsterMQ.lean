import MonsterMQ.PeerLinkLossOverlap
import MonsterMQ.PeerLinkDeliveryRuns
import MonsterMQ.PeerLinkFrameRoundTrip
import MonsterMQ.PeerLinkRecordAccepted
import MonsterMQ.PeerLinkInterestTakeover
import MonsterMQ.MqttInboundQos2
import MonsterMQ.TopicFanout
import MonsterMQ.MqttWriterGuarantees
import MonsterMQ.MqttExpirySweepRuns
import MonsterMQ.PacketPropertySections
import MonsterMQ.VirtualTreeNames
import MonsterMQ.PubsubBusRuns
import MonsterMQ.AggregatedHistory
import MonsterMQ.DiskQueueRuns
import MonsterMQ.ArchiveHistory
import MonsterMQ.VirtualTreeWrites
import MonsterMQ.KafkaRequests
import MonsterMQ.KafkaOffsets
import MonsterMQ.KafkaStoredOnce
import MonsterMQ.ConnectionClose
import MonsterMQ.NatsFrames
import MonsterMQ.PeerLinkTopicFilter
import MonsterMQ.PeerLinkHandshake
import MonsterMQ.MqttKeepalive
import MonsterMQ.PeerLinkLongPoll
import MonsterMQ.PeerLinkSnapshotTimes
import MonsterMQ.SubscriptionIndex
import MonsterMQ.MqttOversizedPublish
import MonsterMQ.VirtualTreeImport
import MonsterMQ.KafkaExpansion
import MonsterMQ.KafkaIsolation
import MonsterMQ.RedisHashScan
import MonsterMQ.RedisRequests
import MonsterMQ.NativeCommandsOnce
import MonsterMQ.H264NalUnits
import MonsterMQ.KafkaBridgeRoundTrip
import MonsterMQ.MqttPacketID
import MonsterMQ.MqttOutboundQueue
import MonsterMQ.PeerLinkInternCache
import MonsterMQ.Sha256
import MonsterMQ.TopicDatapoints
