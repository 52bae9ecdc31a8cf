import MonsterMQ.AuthAcl
import MonsterMQ.SqlSelects
import MonsterMQ.UtcTimes

/-!
# The tables of the SQLite stores

The archive and the message store keep the time of a message as a text in the layout `RFC3339Nano`, by which
the statements compare, order and delete.
-/

namespace MonsterMQ.Archive

open LittleEndian Auth SqlSelects UtcTimes

structure Message where
  topicName : Bytes
  time : UtcTime
  payload : Bytes
  qos : ℕ
  isRetain : Bool
  clientID : Bytes
  messageUUID : Bytes
  deriving DecidableEq, Repr

structure Row where
  topic : Bytes
  time : UtcTime
  payloadBlob : Bytes
  payloadJSON : Option Bytes
  qos : ℕ
  retained : Bool
  clientID : Bytes
  messageUUID : Bytes
  deriving DecidableEq, Repr

def Row.text (r : Row) : Bytes := r.time.rfc3339Nano

structure ArchivedMessage where
  topic : Bytes
  timestamp : UtcTime
  payload : Bytes
  qos : ℕ
  clientID : Bytes
  deriving DecidableEq, Repr

def archiveRow (jsonValid : Bytes → Bool) (json : Bool) (m : Message) : Row :=
  let asJSON := json && !m.payload.isEmpty && jsonValid m.payload
  { topic := m.topicName
    time := m.time
    payloadBlob := if asJSON then [] else m.payload
    payloadJSON := if asJSON then some m.payload else none
    qos := m.qos
    retained := m.isRetain
    clientID := m.clientID
    messageUUID := m.messageUUID }

/-- One row per topic and time; a second one is left out. -/
@[grind =] def addHistory (jsonValid : Bytes → Bool) (json : Bool) (table : List Row) (msgs : List Message) :
    List Row :=
  msgs.foldl (fun table m =>
    if table.any fun r => r.topic = m.topicName && r.text = m.time.rfc3339Nano then table
    else table ++ [archiveRow jsonValid json m]) table

/-- `AddAll` of the message store: one row per topic, the last one stays. -/
def addAll (table : List Row) (msgs : List Message) : List Row :=
  msgs.foldl (fun table m =>
    table.filter (fun r => r.topic ≠ m.topicName) ++ [archiveRow (fun _ => false) false m]) table

/-- Two bytes that SQLite's `LIKE` takes for the same. -/
def sameFold (c d : UInt8) : Bool :=
  (if 0x41 ≤ c ∧ c ≤ 0x5A then c + 0x20 else c) = (if 0x41 ≤ d ∧ d ≤ 0x5A then d + 0x20 else d)

@[grind =] def sqliteLike (pattern topic : Bytes) : Bool := like sameFold false pattern topic

/-- The two calls of `strings.ReplaceAll`. -/
def likePattern (topic : Bytes) : Bytes :=
  topic.map fun c => if c = 0x23 ∨ c = 0x2B then 0x25 else c

def textInside (start stop : Option UtcTime) (r : Row) : Bool :=
  (start.all fun t => !decide (r.text < t.rfc3339Nano)) &&
    (stop.all fun t => !decide (t.rfc3339Nano < r.text))

@[grind =] def historyLimit (limit : ℤ) : ℕ := if limit ≤ 0 then 100 else limit.toNat

def scanRow (r : Row) : ArchivedMessage where
  topic := r.topic
  timestamp := r.time
  payload := if r.payloadBlob.isEmpty then r.payloadJSON.getD r.payloadBlob else r.payloadBlob
  qos := r.qos
  clientID := r.clientID

@[grind =] def historyRows (table : List Row) (topic : Bytes) (start stop : Option UtcTime) : List Row :=
  table.filter fun r => sqliteLike (likePattern topic) r.topic && textInside start stop r

def GetHistory (table : List Row) (topic : Bytes) (start stop : Option UtcTime) (limit : ℤ)
    (out : List ArchivedMessage) : Prop :=
  ∃ rows, Newest Row.text (historyLimit limit) (historyRows table topic start stop) rows ∧
    out = rows.map scanRow

def purgeOlderThan (table : List Row) (t : UtcTime) : List Row :=
  table.filter fun r => !decide (r.text < t.rfc3339Nano)

def dayText (r : Row) : Bytes := r.text.take 10

/-- The days of some rows, each once and in order, with the number of rows. -/
def dailyCounts (rows : List Row) : List (Bytes × ℕ) :=
  let days := ((rows.map dayText).dedup).mergeSort fun a b => !decide (b < a)
  days.map fun day => (day, rows.countP fun r => dayText r = day)

structure ArchiveStats where
  minTimestamp : Option UtcTime
  dailyCounts : List (Bytes × ℕ)
  deriving DecidableEq, Repr

@[grind =] def minRow : List Row → Option Row
  | [] => none
  | r :: rows =>
    match minRow rows with
    | none => some r
    | some m => if m.text < r.text then some m else some r

def getArchiveStats (table : List Row) (start stop : Option UtcTime) : ArchiveStats :=
  let rows := table.filter (textInside start stop)
  { minTimestamp := (minRow rows).map Row.time
    dailyCounts := dailyCounts rows }

/-- The rows that the statement of `GetAggregatedHistory` groups and aggregates. -/
def aggregatedRows (table : List Row) (topics : List Bytes) (start stop : UtcTime) : List Row :=
  table.filter fun r => topics.contains r.topic && textInside (some start) (some stop) r

end MonsterMQ.Archive
