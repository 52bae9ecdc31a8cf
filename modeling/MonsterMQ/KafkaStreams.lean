import MonsterMQ.TopicMatchers

/-!
# Kafka streams

A Kafka server of `internal/kafka` has streams, each with a name, the Kafka topic, and a filter of MQTT
topics.
-/

namespace MonsterMQ.Kafka

open LittleEndian Topics

structure Stream where
  streamName : Bytes
  topicFilter : Bytes
  allowWrite : Bool
  deriving DecidableEq, Repr

/-- A server; `Validate` refuses two streams of one name. -/
structure Server where
  streams : List Stream
  names : (streams.map Stream.streamName).Nodup

structure Message where
  messageUUID : Bytes
  topicName : Bytes
  payload : Bytes
  qos : ℕ
  clientID : Bytes
  time : ℕ
  deriving DecidableEq, Repr

namespace Server

variable (s : Server)

def byName (kafkaTopic : Bytes) : Option Stream := s.streams.find? fun st => st.streamName = kafkaTopic

def firstMatching (t : Bytes) : Option Stream := s.streams.find? fun st => matchFilter st.topicFilter t

@[grind =] def routeFetch (kafkaTopic : Bytes) : Option Stream :=
  match s.byName kafkaTopic with
  | some st => some st
  | none => s.firstMatching kafkaTopic

def routeEnqueue (mqttTopic : Bytes) : Option Stream :=
  match s.firstMatching mqttTopic with
  | some st => some st
  | none => s.byName mqttTopic

def isWriteAllowed (kafkaTopic mqttTopic : Bytes) : Bool :=
  match s.byName kafkaTopic with
  | none => true
  | some st => st.allowWrite && matchFilter st.topicFilter mqttTopic

end Server

end MonsterMQ.Kafka
