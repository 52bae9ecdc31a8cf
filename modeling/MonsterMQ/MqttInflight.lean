import MonsterMQ.FiniteMaps
import MonsterMQ.LittleEndian

/-!
# Messages in flight

`internal/mqtt/inflight.go`: the packets of one session that wait for an answer, with the quotas of its
connection. PUBLISH and PUBREL are outbound, PUBREC and PUBCOMP inbound.
-/

namespace MonsterMQ.Mqtt

open LittleEndian FiniteMaps

inductive PacketType where
  | publish
  | puback
  | pubrec
  | pubrel
  | pubcomp
  | suback
  | unsuback
  deriving DecidableEq, Repr

structure Code where
  code : UInt8
  reason : String
  deriving DecidableEq, Repr

def codeSuccess : Code := ⟨0x00, "success"⟩
def codeNoSubscriptionExisted : Code := ⟨0x11, "no subscription existed"⟩
@[grind =] def errUnspecifiedError : Code := ⟨0x80, "unspecified error"⟩
def errNotAuthorized : Code := ⟨0x87, "not authorized"⟩
def errPacketIdentifierInUse : Code := ⟨0x91, "packet identifier in use"⟩
def errPacketIdentifierNotFound : Code := ⟨0x92, "packet identifier not found"⟩
def errReceiveMaximum : Code := ⟨0x93, "receive maximum exceeded"⟩
def errTopicAliasInvalid : Code := ⟨0x94, "topic alias invalid"⟩

structure Properties where
  reasonString : String
  user : List (Bytes × Bytes)
  messageExpiryInterval : UInt32
  deriving DecidableEq

def Properties.none : Properties := ⟨"", [], 0⟩

structure Packet where
  type : PacketType
  qos : UInt8
  dup : Bool
  retain : Bool
  packetID : UInt16
  topicName : Bytes
  payload : Bytes
  reasonCode : UInt8
  reasonCodes : List UInt8
  properties : Properties
  protocolVersion : UInt8
  created : ℤ
  expiry : ℤ
  deriving DecidableEq

/-- A message the broker sends: PUBLISH, or PUBREL after the client's PUBREC. -/
@[grind =] def Packet.outbound (pk : Packet) : Bool := pk.type = .publish || pk.type = .pubrel

/-- A message of the client between PUBREC and the end of PUBREL handling. -/
@[grind =] def Packet.inbound (pk : Packet) : Bool := pk.type = .pubrec || pk.type = .pubcomp

@[grind =] def Packet.deferred (pk : Packet) : Bool := pk.expiry < 0

@[grind =] def Packet.holding (pk : Packet) : Bool := pk.outbound && !pk.deferred

/-- An entry keeps its arrival sequence when its packet is replaced. -/
structure InflightEntry where
  pk : Packet
  order : ℕ
  deriving DecidableEq

structure Inflight where
  internal : FMap UInt16 InflightEntry
  nextOrder : ℕ
  deferredCount : ℤ
  receiveQuota : ℤ
  sendQuota : ℤ
  maximumReceiveQuota : ℤ
  maximumSendQuota : ℤ

def newInflights : Inflight := ⟨∅, 0, 0, 0, 0, 0, 0⟩

namespace Inflight

@[grind =] def get (i : Inflight) (id : UInt16) : Option Packet := (i.internal.lookup id).map (·.pk)

def len (i : Inflight) : ℕ := size i.internal

@[grind =] def deferredUnit (pk : Packet) : ℤ := if pk.deferred then 1 else 0

@[grind =] def put (i : Inflight) (m : Packet) : Inflight :=
  match i.internal.lookup m.packetID with
  | some prev =>
    { i with
      deferredCount := i.deferredCount - deferredUnit prev.pk + deferredUnit m
      internal := i.internal.insert m.packetID ⟨m, prev.order⟩ }
  | none =>
    { i with
      deferredCount := i.deferredCount + deferredUnit m
      nextOrder := i.nextOrder + 1
      internal := i.internal.insert m.packetID ⟨m, i.nextOrder + 1⟩ }

/-- `Set`: the map afterwards, and whether the identifier was new. -/
@[grind =] def set (i : Inflight) (m : Packet) : Inflight × Bool := (i.put m, (i.get m.packetID).isNone)

@[grind =] def delete (i : Inflight) (id : UInt16) : Inflight × Bool :=
  match i.internal.lookup id with
  | some prev =>
    ({ i with deferredCount := i.deferredCount - deferredUnit prev.pk, internal := i.internal.erase id }, true)
  | none => (i, false)

def getAll (i : Inflight) : List Packet :=
  ((i.internal.entries.map (·.2)).mergeSort (fun a b => a.order ≤ b.order)).map (·.pk)

/-- `Clone` leaves the quotas behind. -/
def clone (i : Inflight) : Inflight :=
  { newInflights with
    internal := i.internal
    nextOrder := i.nextOrder
    deferredCount := (count (fun e : InflightEntry => e.pk.deferred) i.internal : ℤ) }

@[grind =] def hasDeferred (i : Inflight) : Bool := i.deferredCount > 0

/-- `SetOutbound`: the map afterwards and whether the packet waits for quota. -/
@[grind =] def setOutbound (i : Inflight) (m : Packet) : Inflight × Bool :=
  if i.maximumSendQuota > 0 then
    if i.sendQuota ≤ 0 ∨ i.deferredCount > 0 then (i.put { m with expiry := -1 }, true)
    else ({ i with sendQuota := i.sendQuota - 1 }.put m, false)
  else (i.put m, false)

/-- The loop of `ClaimNextImmediate`: the deferred entry that arrived first. -/
@[grind =] def oldestDeferred (i : Inflight) : Option InflightEntry :=
  (i.internal.entries.map (·.2)).foldl (fun next v =>
    if !v.pk.deferred then next
    else match next with
      | none => some v
      | some n => if v.order < n.order then some v else next) none

/-- `ClaimNextImmediate`; `expiryFn` gives the packet its normal expiry back. -/
@[grind =] def claimNextImmediate (i : Inflight) (expiryFn : Packet → ℤ) : Inflight × Option Packet :=
  if i.deferredCount = 0 then (i, none)
  else if i.maximumSendQuota > 0 ∧ i.sendQuota ≤ 0 then (i, none)
  else match i.oldestDeferred with
    | none => (i, none)
    | some next =>
      let pk := { next.pk with expiry := if expiryFn next.pk > 0 then expiryFn next.pk else 0 }
      ({ i with
        sendQuota := if i.maximumSendQuota > 0 then i.sendQuota - 1 else i.sendQuota
        deferredCount := i.deferredCount - 1
        internal := i.internal.insert pk.packetID ⟨pk, next.order⟩ }, some pk)

@[grind =] def decreaseReceiveQuota (i : Inflight) : Inflight × Bool :=
  if i.receiveQuota ≤ 0 then (i, false) else ({ i with receiveQuota := i.receiveQuota - 1 }, true)

@[grind =] def increaseReceiveQuota (i : Inflight) : Inflight × Bool :=
  if i.receiveQuota ≥ i.maximumReceiveQuota then (i, false)
  else ({ i with receiveQuota := i.receiveQuota + 1 }, true)

def resetReceiveQuota (i : Inflight) (n : ℤ) : Inflight :=
  { i with maximumReceiveQuota := n, receiveQuota := n }

@[grind =] def decreaseSendQuota (i : Inflight) : Inflight × Bool :=
  if i.sendQuota ≤ 0 then (i, false) else ({ i with sendQuota := i.sendQuota - 1 }, true)

@[grind =] def increaseSendQuota (i : Inflight) : Inflight × Bool :=
  if i.sendQuota ≥ i.maximumSendQuota then (i, false)
  else ({ i with sendQuota := i.sendQuota + 1 }, true)

def resetSendQuota (i : Inflight) (n : ℤ) : Inflight :=
  { i with maximumSendQuota := n, sendQuota := n }

structure Quotas where
  receiveQuota : ℤ
  sendQuota : ℤ
  maximumReceiveQuota : ℤ
  maximumSendQuota : ℤ

def quotas (i : Inflight) : Quotas := ⟨i.receiveQuota, i.sendQuota, i.maximumReceiveQuota, i.maximumSendQuota⟩

@[simp] theorem put_quotas (i : Inflight) (m : Packet) : (i.put m).quotas = i.quotas := by
  simp only [put]
  split <;> rfl

@[simp] theorem delete_quotas (i : Inflight) (id : UInt16) : (i.delete id).1.quotas = i.quotas := by
  simp only [delete]
  split <;> rfl

theorem lookup_put_self (i : Inflight) (m : Packet) :
    ∃ order, (i.put m).internal.lookup m.packetID = some ⟨m, order⟩ := by
  simp only [put]
  split
  · exact ⟨_, AList.lookup_insert _⟩
  · exact ⟨_, AList.lookup_insert _⟩

theorem lookup_put_ne (i : Inflight) {m : Packet} {n : UInt16} (h : n ≠ m.packetID) :
    (i.put m).internal.lookup n = i.internal.lookup n := by
  simp only [put]
  split
  · exact AList.lookup_insert_ne h
  · exact AList.lookup_insert_ne h

theorem lookup_delete_self (i : Inflight) (id : UInt16) : (i.delete id).1.internal.lookup id = none := by
  simp only [delete]
  split
  · exact AList.lookup_erase _ _
  · assumption

theorem lookup_delete_ne (i : Inflight) {id n : UInt16} (h : n ≠ id) :
    (i.delete id).1.internal.lookup n = i.internal.lookup n := by
  simp only [delete]
  split
  · exact AList.lookup_erase_ne h
  · rfl

theorem get_put_self (i : Inflight) (m : Packet) : (i.put m).get m.packetID = some m := by
  obtain ⟨order, h⟩ := i.lookup_put_self m
  rw [get, h]
  rfl

theorem get_put_ne (i : Inflight) {m : Packet} {n : UInt16} (h : n ≠ m.packetID) :
    (i.put m).get n = i.get n := by
  rw [get, i.lookup_put_ne h, get]

theorem get_delete_self (i : Inflight) (id : UInt16) : (i.delete id).1.get id = none := by
  rw [get, i.lookup_delete_self]
  rfl

theorem get_delete_ne (i : Inflight) {id n : UInt16} (h : n ≠ id) : (i.delete id).1.get n = i.get n := by
  rw [get, i.lookup_delete_ne h, get]

@[simp] theorem increaseReceiveQuota_internal (i : Inflight) :
    i.increaseReceiveQuota.1.internal = i.internal := by
  simp only [increaseReceiveQuota]
  split <;> rfl

@[simp] theorem increaseSendQuota_internal (i : Inflight) : i.increaseSendQuota.1.internal = i.internal := by
  simp only [increaseSendQuota]
  split <;> rfl

@[simp] theorem increaseReceiveQuota_sendQuota (i : Inflight) :
    i.increaseReceiveQuota.1.sendQuota = i.sendQuota := by
  simp only [increaseReceiveQuota]
  split <;> rfl

end Inflight

end MonsterMQ.Mqtt
