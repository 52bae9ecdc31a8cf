import MonsterMQ.FiniteMaps
import MonsterMQ.PeerLinkFrame
import MonsterMQ.PeerLinkInterestTrie

/-!
# The remote interest table of a source

`internal/peerlink/interest_table.go`: the filters each consumer announced and the trie the capture path
matches against.
-/

namespace MonsterMQ.PeerLink

open LittleEndian FiniteMaps

@[grind =] def interestNone : UInt8 := 0
def interestVol : UInt8 := 1
def interestPer : UInt8 := 2
def interestExpiryNever : UInt32 := 0xFFFFFFFF
@[grind =] def interestFlagFirst : UInt8 := 1
def interestFlagLast : UInt8 := 2

inductive InterestState where
  | unknown
  | live
  | disconnected
  deriving DecidableEq, Repr

inductive InterestError where
  /-- `INTEREST_SNAPSHOT continuation without an open snapshot` -/
  | noSnapshot
  /-- `INTEREST_SNAPSHOT chunk with a different generation` -/
  | generation
  deriving DecidableEq, Repr

inductive InterestFrame where
  | snapshot (s : InterestSnapshot)
  | delta (d : InterestDelta)
  deriving DecidableEq

structure EntryClass where
  cls : UInt8
  expirySec : UInt32
  deriving DecidableEq, Repr

def EntryClass.isPer (e : EntryClass) : Bool := e.cls = interestPer

structure PeerInterest where
  idx : ℕ
  enabled : Bool
  state : InterestState
  connected : Bool
  dense : Bool
  overLimit : Bool
  inTrie : Bool
  instanceID : UInt64
  instanceSeen : Bool
  disconnectedAt : ℤ
  entries : FMap Bytes EntryClass
  persistent : ℤ
  lastGen : UInt32
  haveGen : Bool
  snapOpen : Bool
  snapGen : UInt32
  snapMarks : FMap Bytes EntryClass
  snapshotGen : UInt32
  lastSnapshotAt : ℤ
  sweeping : Bool
  sweepFrom : ℕ
  sweepSeq : ℕ

@[grind =] def PeerInterest.bit (p : PeerInterest) : Mask := 1#64 <<< p.idx

structure InterestTable where
  trie : MaskNode
  always : Mask
  full : Mask
  peers : List PeerInterest
  unknownAll : Bool
  maxFilters : ℕ
  maxBytes : ℕ

@[grind =] def validInterestFilter (f : Bytes) (maxBytes : ℕ) : Bool :=
  if f.length = 0 || f.length > maxBytes || !Utf8.valid f || f.contains 0 then false
  else (validFilter f).isOk

namespace InterestTable

/-- `validEntry`: a snapshot announces only VOL and PER. -/
@[grind =] def validEntry (t : InterestTable) (e : InterestEntry) (delta : Bool) : Bool :=
  if e.cls = interestVol ∨ e.cls = interestPer then validInterestFilter e.filter t.maxBytes
  else if e.cls = interestNone then
    if delta then validInterestFilter e.filter t.maxBytes else false
  else false

def expiryOf (e : InterestEntry) : UInt32 := if e.cls = interestPer then e.expirySec else 0

@[grind =] def filteredLocked (p : PeerInterest) : Bool :=
  p.enabled && !p.dense && !p.overLimit && p.state ≠ .unknown

@[grind =] def alwaysLocked (t : InterestTable) (p : PeerInterest) : Bool :=
  if !p.enabled || p.dense || p.overLimit then true else p.state = .unknown && t.unknownAll

@[grind =] def setAll (t : InterestTable) (p : PeerInterest) (fs : List Bytes) (on : Bool) : InterestTable :=
  { t with trie := fs.foldl (fun n f => n.set f p.bit on) t.trie }

/-- `applyModeLocked`: brings the trie and the `always` mask in line with the peer's mode. -/
@[grind =] def applyModeLocked (t : InterestTable) (p : PeerInterest) : InterestTable × PeerInterest :=
  let want := filteredLocked p
  let t' := if want ≠ p.inTrie then t.setAll p p.entries.keys want else t
  ({ t' with always := MaskNode.setBit t'.always p.bit (t.alwaysLocked p) }, { p with inTrie := want })

@[grind =] def putLocked (t : InterestTable) (p : PeerInterest) (f : Bytes) (e : EntryClass) :
    InterestTable × PeerInterest :=
  let old := p.entries.lookup f
  let persistent := p.persistent - (weight EntryClass.isPer old : ℤ) + (weight EntryClass.isPer (some e) : ℤ)
  let t := if old.isNone && p.inTrie then t.setAll p [f] true else t
  (t, { p with entries := p.entries.insert f e, persistent := persistent })

@[grind =] def deleteLocked (t : InterestTable) (p : PeerInterest) (f : Bytes) : InterestTable × PeerInterest :=
  match p.entries.lookup f with
  | none => (t, p)
  | some old =>
    (if p.inTrie then t.setAll p [f] false else t,
      { p with
        entries := p.entries.erase f
        persistent := p.persistent - (weight EntryClass.isPer (some old) : ℤ) })

@[grind =] def clearEntriesLocked (t : InterestTable) (p : PeerInterest) : InterestTable × PeerInterest :=
  (if p.inTrie then t.setAll p p.entries.keys false else t,
    { p with entries := ∅, persistent := 0 })

/-- The loops that call `deleteLocked` for some of the entries. -/
def deleteAll (t : InterestTable) (p : PeerInterest) (fs : List Bytes) : InterestTable × PeerInterest :=
  fs.foldl (fun s f => s.1.deleteLocked s.2 f) (t, p)

@[grind =] def store (t : InterestTable) (p : PeerInterest) : InterestTable :=
  { t with peers := t.peers.set p.idx p }

@[grind =] def newPeer (i : ℕ) (enabled : Bool) : PeerInterest where
  idx := i
  enabled := enabled
  state := .unknown
  connected := false
  dense := false
  overLimit := false
  inTrie := false
  instanceID := 0
  instanceSeen := false
  disconnectedAt := 0
  entries := ∅
  persistent := 0
  lastGen := 0
  haveGen := false
  snapOpen := false
  snapGen := 0
  snapMarks := ∅
  snapshotGen := 0
  lastSnapshotAt := 0
  sweeping := false
  sweepFrom := 0
  sweepSeq := 0

@[grind =] def addPeer (t : InterestTable) (enabled : Bool) : InterestTable :=
  let p := newPeer t.peers.length enabled
  let t := { t with peers := t.peers ++ [p], full := t.full ||| p.bit }
  let (t, p) := t.applyModeLocked p
  t.store p

@[grind =]
def newInterestTable (peers : List Bool) (unknownAll : Bool) (maxFilters maxBytes : ℕ) : InterestTable :=
  peers.foldl addPeer
    { trie := .zero, always := 0, full := 0, peers := [], unknownAll := unknownAll
      maxFilters := maxFilters, maxBytes := maxBytes }

@[grind =] def matchTopic (t : InterestTable) (topic : Bytes) : Mask :=
  let m := t.always
  if m ≠ t.full ∧ (t.trie.children ≠ [] ∨ t.trie.plus.isSome ∨ t.trie.hashMask ≠ 0) then
    m ||| t.trie.matchTopic topic (t.full &&& ~~~m)
  else m

def filtersWhere (p : PeerInterest) (drop : EntryClass → Bool) : List Bytes :=
  (p.entries.entries.filter (fun e => drop e.2)).map (·.1)

@[grind =] def connectPeer (t : InterestTable) (p : PeerInterest) (inst : UInt64) (capable : Bool) :
    InterestTable × PeerInterest :=
  let prevDense := p.dense
  let restarted := p.instanceSeen && p.instanceID ≠ inst
  let p := { p with
    connected := true
    snapOpen := false
    haveGen := false
    sweeping := false
    instanceID := inst
    instanceSeen := true }
  if !capable then
    let (t, p) := t.clearEntriesLocked p
    t.applyModeLocked { p with dense := true, state := .live }
  else
    let p := { p with dense := false, state := if prevDense then .unknown else p.state }
    let (t, p) := if restarted then t.deleteAll p (filtersWhere p (fun e => e.cls = interestVol)) else (t, p)
    t.applyModeLocked p

/-- Runs `f` on an enabled peer and stores the result. -/
@[grind =] def onPeer (t : InterestTable) (idx : ℕ)
    (f : InterestTable → PeerInterest → InterestTable × PeerInterest) : InterestTable :=
  match t.peers[idx]? with
  | none => t
  | some p =>
    if !p.enabled then t
    else
      let (t, p) := f t p
      t.store p

def connect (t : InterestTable) (idx : ℕ) (inst : UInt64) (capable : Bool) : InterestTable :=
  t.onPeer idx (fun t p => t.connectPeer p inst capable)

@[grind =] def disconnectPeer (t : InterestTable) (p : PeerInterest) (now : ℤ) : InterestTable × PeerInterest :=
  if !p.connected then (t, p)
  else
    t.applyModeLocked { p with
      connected := false
      snapOpen := false
      snapMarks := ∅
      state := if p.state = .live then .disconnected else p.state
      disconnectedAt := if p.state = .live then now else p.disconnectedAt }

def disconnect (t : InterestTable) (idx : ℕ) (now : ℤ) : InterestTable :=
  t.onPeer idx (fun t p => t.disconnectPeer p now)

/-- The marks of a snapshot chunk: its valid entries, later ones over earlier ones. -/
@[grind =] def markEntries (t : InterestTable) (marks : FMap Bytes EntryClass) (es : List InterestEntry) :
    FMap Bytes EntryClass :=
  es.foldl (fun marks e =>
    if t.validEntry e false then marks.insert e.filter ⟨e.cls, expiryOf e⟩ else marks) marks

/-- The header checks of `applySnapshot`: FIRST opens a snapshot, any other chunk needs
the open one of its generation. -/
@[grind =] def openSnapshot (p : PeerInterest) (s : InterestSnapshot) : Except InterestError PeerInterest :=
  if s.flags &&& interestFlagFirst ≠ 0 then
    .ok { p with snapOpen := true, snapGen := s.generation, snapMarks := ∅ }
  else if !p.snapOpen then .error .noSnapshot
  else if s.generation ≠ p.snapGen then .error .generation
  else .ok p

/-- The end of `applySnapshot`: the marked set replaces the old one at once. -/
@[grind =] def sweepMarks (t : InterestTable) (p : PeerInterest) (gen : UInt32) (now : ℤ) :
    InterestTable × PeerInterest :=
  let (t, p) := t.clearEntriesLocked p
  let marks := p.snapMarks
  let exceeds : Bool := size marks > t.maxFilters
  let p := { p with
    snapMarks := ∅
    snapOpen := false
    overLimit := exceeds
    entries := if exceeds then p.entries else marks
    persistent := if exceeds then p.persistent else (count EntryClass.isPer marks : ℤ) }
  let t := if !exceeds && p.inTrie then t.setAll p p.entries.keys true else t
  t.applyModeLocked { p with
    lastGen := gen
    haveGen := true
    snapshotGen := gen
    lastSnapshotAt := now
    state := .live
    sweeping := false }

@[grind =] def applySnapshotPeer (t : InterestTable) (p : PeerInterest) (s : InterestSnapshot) (now : ℤ) :
    Except InterestError (InterestTable × PeerInterest) :=
  match openSnapshot p s with
  | .error e => .error e
  | .ok p =>
    let p := { p with snapMarks := t.markEntries p.snapMarks s.entries }
    if s.flags &&& interestFlagLast = 0 then .ok (t, p) else .ok (t.sweepMarks p s.generation now)

/-- `applySnapshot`: the table afterwards and the protocol error, if any. -/
@[grind =] def applySnapshot (t : InterestTable) (idx : ℕ) (s : InterestSnapshot) (now : ℤ) :
    InterestTable × Option InterestError :=
  match t.peers[idx]? with
  | none => (t, none)
  | some p =>
    if !p.enabled then (t, none)
    else match t.applySnapshotPeer p s now with
      | .error e => (t, some e)
      | .ok (t, p) => (t.store p, none)

@[grind =] def applyEntries (t : InterestTable) (p : PeerInterest) (es : List InterestEntry) :
    InterestTable × PeerInterest :=
  es.foldl (fun s e =>
    if !s.1.validEntry e true then s
    else if e.cls = interestNone then s.1.deleteLocked s.2 e.filter
    else s.1.putLocked s.2 e.filter ⟨e.cls, expiryOf e⟩) (t, p)

@[grind =] def applyDeltaPeer (t : InterestTable) (p : PeerInterest) (d : InterestDelta) :
    InterestTable × PeerInterest :=
  if p.haveGen && d.generation ≤ p.lastGen then (t, p)
  else
    let p := { p with lastGen := d.generation, haveGen := true }
    if p.overLimit then (t, p)
    else
      let (t, p) := t.applyEntries p d.entries
      if size p.entries > t.maxFilters then
        let (t, p) := t.clearEntriesLocked p
        t.applyModeLocked { p with overLimit := true }
      else (t, p)

@[grind =] def applyDelta (t : InterestTable) (idx : ℕ) (d : InterestDelta) : InterestTable :=
  t.onPeer idx (fun t p => t.applyDeltaPeer p d)

def secondNs : ℤ := 1000000000

def expired (down : ℤ) (e : EntryClass) : Bool :=
  e.cls = interestPer && e.expirySec ≠ interestExpiryNever && down > e.expirySec.toNat * secondNs

@[grind =] def expirePeer (t : InterestTable) (p : PeerInterest) (now : ℤ) : InterestTable × PeerInterest :=
  if p.state ≠ .disconnected || p.connected || p.persistent = 0 then (t, p)
  else
    let drop := filtersWhere p (expired (now - p.disconnectedAt))
    let (t, p) := t.deleteAll p drop
    if drop.length > 0 then
      (t, { p with sweeping := true, sweepFrom := 0, sweepSeq := p.sweepSeq + 1 })
    else (t, p)

@[grind =] def expireAt (now : ℤ) (t : InterestTable) (i : ℕ) : InterestTable :=
  match t.peers[i]? with
  | none => t
  | some p =>
    let (t, p) := t.expirePeer p now
    t.store p

/-- `expire` drops the persistent filters of disconnected peers that ran out. -/
@[grind =] def expire (t : InterestTable) (now : ℤ) : InterestTable :=
  (List.range t.peers.length).foldl (expireAt now) t

end InterestTable

end MonsterMQ.PeerLink
