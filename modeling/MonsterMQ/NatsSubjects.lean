import MonsterMQ.PeerLinkInterestTrie

/-!
# Subjects and topics

`internal/nats/subject.go`: a subject of NATS and a topic of MQTT are the same text but for the
separator, the wildcards and the blank.
-/

namespace MonsterMQ.Nats

open LittleEndian PeerLink

def subjectByteToTopic (b : UInt8) : UInt8 :=
  if b = 0x2e then 0x2f
  else if b = 0x2a then 0x2b
  else if b = 0x3e then 0x23
  else b

def subjectToTopic (subject : Bytes) : Bytes := subject.map subjectByteToTopic

@[grind =] def topicByteToSubject (b : UInt8) : UInt8 :=
  if b = 0x2f then 0x2e
  else if b = 0x2b then 0x2a
  else if b = 0x23 then 0x3e
  else if b = 0x20 then 0x5f
  else b

@[grind =] def topicToSubject (topic : Bytes) : Bytes := topic.map topicByteToSubject

def filterPartsMatch : List Bytes → List Bytes → Bool
  | [], topicParts => topicParts.isEmpty
  | fp :: filterParts, topicParts =>
    if fp = hashLevel then true
    else match topicParts with
      | [] => false
      | t :: topicParts => if fp ≠ plusLevel ∧ fp ≠ t then false else filterPartsMatch filterParts topicParts

def topicMatchesFilter (topic filter : Bytes) : Bool :=
  filter = hashLevel || filterPartsMatch (levels filter) (levels topic)

end MonsterMQ.Nats
