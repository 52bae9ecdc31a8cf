import MonsterMQ.PeerLinkInterestTable

/-!
# The interest tracker of a consumer

`internal/peerlink/interest_tracker.go`. A loop over a Go map visits the entries in any order, so every
operation takes the order its loops follow. Timers are steps of their own; `classOf` is the class an
operation is given.
-/

namespace MonsterMQ.PeerLink

open LittleEndian FiniteMaps

def trackerFlushPending : ℕ := 1024
def trackerFrameEntries : ℕ := 1024
def trackerCursorFrames : ℕ := 1024
def maxConsumerFrame : ℕ := 65536
def interestSnapshotHeaderLen : ℕ := 9
def interestDeltaHeaderLen : ℕ := 8

structure HoldClass where
  per : Bool
  exp : UInt32
  deriving DecidableEq

def HoldClass.vol : HoldClass := ⟨false, 0⟩

structure TrackEntry where
  vol : UInt32
  per : UInt32
  perExp : FMap UInt32 UInt32

structure ClientSubKey where
  filter : Bytes
  group : Bytes
  deriving DecidableEq

structure InlineSubKey where
  id : ℤ
  filter : Bytes
  deriving DecidableEq

/-- A puller session's position: the frames it has not sent. -/
structure InterestCursor where
  queue : List InterestFrame
  resnap : Bool
  deriving DecidableEq

structure InterestTracker where
  maxFilterBytes : ℕ
  sharedDeliver : Bool
  entries : FMap Bytes TrackEntry
  clients : FMap Bytes (FMap ClientSubKey HoldClass)
  inline : FMap InlineSubKey Unit
  provided : FMap Bytes (FMap Bytes HoldClass)
  restored : FMap Bytes (FMap ClientSubKey Unit)
  announced : FMap Bytes InterestEntry
  pending : FMap Bytes Unit
  gen : UInt32
  cursors : List InterestCursor
  closed : Bool

@[grind =] def newInterestTracker (maxFilterBytes : ℕ) (sharedDeliver : Bool) : InterestTracker where
  maxFilterBytes := maxFilterBytes
  sharedDeliver := sharedDeliver
  entries := ∅
  clients := ∅
  inline := ∅
  provided := ∅
  restored := ∅
  announced := ∅
  pending := ∅
  gen := 0
  cursors := []
  closed := false

/-- `strings.EqualFold` with `$SHARE`; `S` also folds with U+017F. -/
def isSharePrefix : Bytes → Bool
  | 0x24 :: 0xC5 :: 0xBF :: rest => isShareRest rest
  | 0x24 :: b :: rest => (b = 0x53 || b = 0x73) && isShareRest rest
  | _ => false
where
  isShareRest : Bytes → Bool
    | [h, a, r, e] => (h = 0x48 || h = 0x68) && (a = 0x41 || a = 0x61) && (r = 0x52 || r = 0x72) &&
        (e = 0x45 || e = 0x65)
    | _ => false

def isSharedFilter (f : Bytes) : Bool := isSharePrefix (splitLevel f).1

def splitSharedFilter (f : Bytes) : Bytes × Bytes :=
  match (splitLevel f).2 with
  | none => ([], [])
  | some rest =>
    match splitLevel rest with
    | (group, none) => (group, [])
    | (group, some plain) => (group, plain)

def InterestEntry.len (e : InterestEntry) : ℕ := interestEntryOverhead + e.filter.length

/-- The loop of `splitInterest`; `part` is the chunk being filled, last entry first. -/
@[grind =] def splitLoop (budget : ℕ) (part : List InterestEntry) (size : ℕ) :
    List InterestEntry → List (List InterestEntry)
  | [] => if part = [] then [] else [part.reverse]
  | e :: es =>
    if part ≠ [] ∧ (part.length ≥ trackerFrameEntries ∨ size + e.len > budget) then
      part.reverse :: splitLoop budget [e] e.len es
    else splitLoop budget (e :: part) (size + e.len) es

/-- `splitInterest` cuts the entries into chunks that fit one frame. -/
@[grind =] def splitInterest (es : List InterestEntry) (headerLen : ℕ) : List (List InterestEntry) :=
  splitLoop (maxConsumerFrame - 1 - headerLen) [] 0 es

/-- `interestChanged`: a class change, or a PER expiry that crosses "never" or moves by more
than a tenth. -/
@[grind =] def interestChanged (old next : InterestEntry) : Bool :=
  if old.cls ≠ next.cls then true
  else if old.cls ≠ interestPer ∨ old.expirySec = next.expirySec then false
  else if old.expirySec = interestExpiryNever ∨ next.expirySec = interestExpiryNever ∨ old.expirySec = 0 then
    true
  else
    let d := (max old.expirySec next.expirySec - min old.expirySec next.expirySec).toNat
    d * 10 > old.expirySec.toNat

namespace InterestTracker

@[grind =] def accept (t : InterestTracker) (f : Bytes) : Bool :=
  if f.head? = some dollarByte then false else validInterestFilter f t.maxFilterBytes

@[grind =] def classLocked (t : InterestTracker) (f : Bytes) : InterestEntry :=
  match t.entries.lookup f with
  | none => ⟨interestNone, 0, f⟩
  | some e =>
    if e.per = 0 then ⟨interestVol, 0, f⟩
    else ⟨interestPer, e.perExp.keys.foldl max 0, f⟩

def maxGen : UInt32 := 0xFFFFFFFF

/-- One turn of the flush loop: the announced set and the changes so far. -/
@[grind =]
def noteChange (t : InterestTracker) (s : FMap Bytes InterestEntry × List InterestEntry) (f : Bytes) :
    FMap Bytes InterestEntry × List InterestEntry :=
  let next := t.classLocked f
  let old := (s.1.lookup f).getD ⟨interestNone, 0, f⟩
  if !interestChanged old next then s
  else (if next.cls = interestNone then s.1.erase f else s.1.insert f next, s.2 ++ [next])

/-- The delta frames of the chunks and the generation after them; `none` when it wraps. -/
@[grind =] def deltaFrames (gen : UInt32) : List (List InterestEntry) → Option (List InterestFrame × UInt32)
  | [] => some ([], gen)
  | es :: rest =>
    if gen = maxGen then none
    else (deltaFrames (gen + 1) rest).map (fun r => (.delta ⟨gen + 1, es⟩ :: r.1, r.2))

/-- Queues frames for a cursor, or gives up its queue for a fresh snapshot. -/
@[grind =] def enqueue (frames : List InterestFrame) (c : InterestCursor) : InterestCursor :=
  if c.resnap then c
  else if c.queue.length + frames.length > trackerCursorFrames then ⟨[], true⟩
  else ⟨c.queue ++ frames, false⟩

@[grind =] def flushLocked (o : MapOrder) (t : InterestTracker) : InterestTracker :=
  if t.pending.keys = [] then t
  else
    let (announced, changes) := (o.visit t.pending.keys).foldl t.noteChange (t.announced, [])
    let t := { t with announced := announced, pending := ∅ }
    if changes = [] then t
    else match deltaFrames t.gen (splitInterest changes interestDeltaHeaderLen) with
      | none =>
        { t with gen := 0, cursors := t.cursors.map (fun _ => ⟨[], true⟩) }
      | some (frames, gen) =>
        { t with gen := gen, cursors := t.cursors.map (enqueue frames) }

@[grind =] def markLocked (o : MapOrder) (t : InterestTracker) (f : Bytes) : InterestTracker :=
  if t.closed then t
  else
    let t := { t with pending := t.pending.insert f () }
    if size t.pending ≥ trackerFlushPending then t.flushLocked o else t

@[grind =] def addLocked (o : MapOrder) (t : InterestTracker) (f : Bytes) (hc : HoldClass) : InterestTracker :=
  let e := (t.entries.lookup f).getD ⟨0, 0, ∅⟩
  let e := if hc.per then
      { e with per := e.per + 1, perExp := e.perExp.insert hc.exp ((e.perExp.lookup hc.exp).getD 0 + 1) }
    else { e with vol := e.vol + 1 }
  { t with entries := t.entries.insert f e }.markLocked o f

/-- The holder counts after one holder left; `none` when it was not counted. -/
def dropHolder (e : TrackEntry) (hc : HoldClass) : Option TrackEntry :=
  if hc.per then
    if e.per = 0 then none
    else
      let n := (e.perExp.lookup hc.exp).getD 0
      some { e with
        per := e.per - 1
        perExp := if n ≤ 1 then e.perExp.erase hc.exp else e.perExp.insert hc.exp (n - 1) }
  else if e.vol = 0 then none
  else some { e with vol := e.vol - 1 }

@[grind =]
def removeLocked (o : MapOrder) (t : InterestTracker) (f : Bytes) (hc : HoldClass) : InterestTracker :=
  match t.entries.lookup f with
  | none => t
  | some e =>
    match dropHolder e hc with
    | none => t
    | some e =>
      let entries := if e.vol = 0 ∧ e.per = 0 then t.entries.erase f else t.entries.insert f e
      { t with entries := entries }.markLocked o f

def injectorPrefix : Bytes := [0x70, 0x65, 0x65, 0x72, 0x6C, 0x69, 0x6E, 0x6B, 0x3A]

def inlineAdded (o : MapOrder) (t : InterestTracker) (f : Bytes) (id : ℤ) : InterestTracker :=
  if !t.accept f then t
  else if (⟨id, f⟩ : InlineSubKey) ∈ t.inline then t
  else { t with inline := t.inline.insert ⟨id, f⟩ () }.addLocked o f .vol

def clientAdded (o : MapOrder) (t : InterestTracker) (client : Bytes) (k : ClientSubKey) (hc : HoldClass) :
    InterestTracker :=
  let subs := (t.clients.lookup client).getD ∅
  let t := match subs.lookup k with
    | none => t
    | some old => t.removeLocked o k.filter old
  let t := { t with clients := t.clients.insert client (subs.insert k hc) }.addLocked o k.filter hc
  match t.restored.lookup client with
  | none => t
  | some r => { t with restored := t.restored.insert client (r.erase k) }

/-- `SubscriptionAdded`; `hc` is `classOf(client)`. -/
def subscriptionAdded (o : MapOrder) (t : InterestTracker) (client f group : Bytes) (inline : Bool)
    (inlineID : ℤ) (hc : HoldClass) : InterestTracker :=
  if group ≠ [] ∧ !t.sharedDeliver then t
  else if inline then t.inlineAdded o f inlineID
  else if injectorPrefix <+: client ∨ !t.accept f then t
  else t.clientAdded o client ⟨f, group⟩ hc

/-- Stores the subscriptions of a client, dropping an empty set. -/
def putClient (t : InterestTracker) (client : Bytes) (subs : FMap ClientSubKey HoldClass) : InterestTracker :=
  { t with clients := if subs.keys = [] then t.clients.erase client else t.clients.insert client subs }

def subscriptionRemoved (o : MapOrder) (t : InterestTracker) (client f group : Bytes) (inline : Bool)
    (inlineID : ℤ) : InterestTracker :=
  if inline then
    if (⟨inlineID, f⟩ : InlineSubKey) ∈ t.inline then
      { t with inline := t.inline.erase ⟨inlineID, f⟩ }.removeLocked o f .vol
    else t
  else
    let subs := (t.clients.lookup client).getD ∅
    match subs.lookup ⟨f, group⟩ with
    | none => t
    | some hc =>
      let t := t.putClient client (subs.erase ⟨f, group⟩)
      let t := match t.restored.lookup client with
        | none => t
        | some r => { t with restored := t.restored.insert client (r.erase ⟨f, group⟩) }
      t.removeLocked o f hc

@[grind =] def filtersAdded (o : MapOrder) (t : InterestTracker) (fs : List Bytes) : InterestTracker :=
  fs.foldl (fun t f => if t.accept f then t.addLocked o f .vol else t) t

def filtersRemoved (o : MapOrder) (t : InterestTracker) (fs : List Bytes) : InterestTracker :=
  fs.foldl (fun t f => if t.accept f then t.removeLocked o f .vol else t) t

/-- The classes `SetProvided` gives the accepted filters of its two lists. -/
def providedClasses (t : InterestTracker) (vol per : List Bytes) : FMap Bytes HoldClass :=
  let next := vol.foldl (fun m f => if t.accept f then m.insert f HoldClass.vol else m) ∅
  per.foldl (fun m f => if t.accept f then m.insert f ⟨true, interestExpiryNever⟩ else m) next

def removeAll (o : MapOrder) (t : InterestTracker) (m : List (Σ _ : Bytes, HoldClass)) : InterestTracker :=
  m.foldl (fun t e => t.removeLocked o e.1 e.2) t

def addAll (o : MapOrder) (t : InterestTracker) (m : List (Σ _ : Bytes, HoldClass)) : InterestTracker :=
  m.foldl (fun t e => t.addLocked o e.1 e.2) t

def setProvided (o : MapOrder) (t : InterestTracker) (source : Bytes) (vol per : List Bytes) :
    InterestTracker :=
  let next := t.providedClasses vol per
  let old := (t.provided.lookup source).getD ∅
  let t := t.removeAll o (o.visit old.entries)
  let t := t.addAll o (o.visit next.entries)
  { t with provided := if next.keys = [] then t.provided.erase source else t.provided.insert source next }

/-- The subscription a stored filter stands for, if it may be announced. -/
def restoredKey (t : InterestTracker) (f : Bytes) : Option ClientSubKey :=
  if isSharedFilter f then
    let (group, plain) := splitSharedFilter f
    if !t.sharedDeliver then none
    else if t.accept plain then some ⟨plain, group⟩
    else none
  else if t.accept f then some ⟨f, []⟩
  else none

def restoreKey (o : MapOrder) (client : Bytes) (hc : HoldClass) (s : InterestTracker × FMap ClientSubKey Unit)
    (k : ClientSubKey) : InterestTracker × FMap ClientSubKey Unit :=
  let subs := (s.1.clients.lookup client).getD ∅
  if k ∈ subs then s
  else
    ({ s.1 with clients := s.1.clients.insert client (subs.insert k hc) }.addLocked o k.filter hc,
      s.2.insert k ())

def restore (o : MapOrder) (t : InterestTracker) (client : Bytes) (fs : List Bytes) (hc : HoldClass) :
    InterestTracker :=
  let keys := fs.filterMap t.restoredKey
  if keys = [] then t
  else if client ∈ t.restored then t
  else
    let t := if client ∈ t.clients then t else { t with clients := t.clients.insert client ∅ }
    let (t, r) := keys.foldl (restoreKey o client hc) (t, ∅)
    { t with restored := t.restored.insert client r }

def dropKey (o : MapOrder) (client : Bytes) (t : InterestTracker) (k : ClientSubKey) : InterestTracker :=
  let subs := (t.clients.lookup client).getD ∅
  match subs.lookup k with
  | none => t
  | some hc => { t with clients := t.clients.insert client (subs.erase k) }.removeLocked o k.filter hc

/-- `dropRestoredLocked`: the restored subscriptions that were not added again. -/
def dropRestoredLocked (o : MapOrder) (t : InterestTracker) (client : Bytes) : InterestTracker :=
  match t.restored.lookup client with
  | none => t
  | some r =>
    let t := { t with restored := t.restored.erase client }
    let t := (o.visit r.keys).foldl (dropKey o client) t
    if ((t.clients.lookup client).getD ∅).keys = [] then { t with clients := t.clients.erase client } else t

def reclassifyKey (o : MapOrder) (client : Bytes) (hc : HoldClass) (t : InterestTracker)
    (e : Σ _ : ClientSubKey, HoldClass) : InterestTracker :=
  if e.2 = hc then t
  else
    let t := (t.removeLocked o e.1.filter e.2).addLocked o e.1.filter hc
    let subs := (t.clients.lookup client).getD ∅
    { t with clients := t.clients.insert client (subs.insert e.1 hc) }

/-- `reclassify`; `hc` is `classOf(client)`. -/
def reclassify (o : MapOrder) (t : InterestTracker) (client : Bytes) (hc : HoldClass) : InterestTracker :=
  let t := t.dropRestoredLocked o client
  (o.visit ((t.clients.lookup client).getD ∅).entries).foldl (reclassifyKey o client hc) t

def close (t : InterestTracker) : InterestTracker := { t with closed := true }

@[grind =] def snapshotFrames (gen : UInt32) (first : Bool) : List (List InterestEntry) → List InterestFrame
  | [] => []
  | [es] => [.snapshot ⟨gen, (if first then interestFlagFirst else 0) ||| interestFlagLast, es⟩]
  | es :: es' :: rest =>
    .snapshot ⟨gen, if first then interestFlagFirst else 0, es⟩ :: snapshotFrames gen false (es' :: rest)

/-- `snapshotLocked`: the announced set at the current generation. -/
def snapshotLocked (o : MapOrder) (t : InterestTracker) : InterestTracker × List InterestFrame :=
  let t := t.flushLocked o
  let es := (o.visit t.announced.entries).map (·.2)
  let parts := splitInterest es interestSnapshotHeaderLen
  (t, snapshotFrames t.gen true (if parts = [] then [[]] else parts))

/-- `attach`: the new cursor stands last; the frames are what its puller sends first. -/
def attach (o : MapOrder) (t : InterestTracker) : InterestTracker × List InterestFrame :=
  let (t, snap) := t.snapshotLocked o
  ({ t with cursors := t.cursors ++ [⟨[], false⟩] }, snap)

/-- `take` of cursor `c`: queued deltas, or a fresh snapshot after an overflow. -/
@[grind =] def take (o : MapOrder) (t : InterestTracker) (c : ℕ) : InterestTracker × List InterestFrame :=
  match t.cursors[c]? with
  | none => (t, [])
  | some cur =>
    if cur.resnap then
      let t := { t with cursors := t.cursors.set c { cur with resnap := false } }
      let (t, snap) := t.snapshotLocked o
      ({ t with cursors := t.cursors.modify c (fun x => { x with queue := [] }) }, snap)
    else ({ t with cursors := t.cursors.set c { cur with queue := [] } }, cur.queue)

end InterestTracker

end MonsterMQ.PeerLink
