import MonsterMQ.PeerLinkRecordRoundTrip
import MonsterMQ.SystemClock

/-!
# Times of retained snapshots

`snapshotRecord` (`internal/peerlink/snapshot.go`) writes the age and the expiry of a retained
packet into a record, and the consumer's `applyRecord` and `snapshotCreated`
(`internal/peerlink/inject.go`) turn them back into a creation time and an expiry interval.
-/

namespace MonsterMQ.PeerLink

open LittleEndian SystemClock

def flagRetain : UInt16 := 0x0004
def flagSnapshot : UInt16 := 0x0100

structure RetainedPacket where
  qos : UInt8
  topicName : Bytes
  payload : Bytes
  origin : Bytes
  created : Int64
  expiry : Int64
  properties : Properties

/-- `SetPacket` without a cap, on a record that has only the snapshot flag; the packet is retained and
no duplicate. -/
def setPacket (pk : RetainedPacket) : Record :=
  let p := pk.properties
  let f := flagSnapshot ||| (UInt16.ofNat pk.qos.toNat &&& flagQoSMask) ||| flagRetain
  { flags := if p.payloadFormatFlag then f ||| flagPayloadFormat else f
    publishWallNs := 0
    captureMonoMs := 0
    expirySec := p.messageExpiryInterval
    payloadFormat := if p.payloadFormatFlag then p.payloadFormat else 0
    topic := pk.topicName
    clientID := pk.origin
    username := []
    contentType := p.contentType
    responseTopic := p.responseTopic
    correlationData := p.correlationData
    user := p.user
    payload := pk.payload }

/-- The creation time a snapshot goes by: one that is unknown or ahead of the clock counts as now. -/
@[grind =] def snapshotBase (pk : RetainedPacket) (now : Instant) : ℤ :=
  if pk.created.toInt ≤ 0 ∨ pk.created.toInt > now.unix then now.unix else pk.created.toInt

/-- The age of the value in milliseconds, at most the uptime of the source. -/
def snapshotAgeMs (created : ℤ) (now : Instant) (nowMono : UInt64) : ℤ :=
  let ageMs := uint64 (uint64 (int64 (now.unix - created)) * 1000)
  if ageMs > nowMono.toNat then nowMono.toNat else ageMs

def snapshotExpiry (pk : RetainedPacket) (created : ℤ) : ℤ :=
  if pk.expiry.toInt = 0 ∧ 0 < pk.properties.messageExpiryInterval.toNat then
    int64 (created + pk.properties.messageExpiryInterval.toNat)
  else pk.expiry.toInt

def snapshotRecordOf (pk : RetainedPacket) (nowMono : UInt64) (created ageMs expirySec : ℤ) : Option Record :=
  let r : Record :=
    { setPacket pk with
      captureMonoMs := UInt64.ofNat (uint64 (nowMono.toNat - ageMs)).toNat
      publishWallNs := Int64.ofInt (created * 1000000000)
      expirySec := UInt32.ofNat (expirySec % 4294967296).toNat }
  if !r.validContent || recordSize r = 0 then none else some r

/-- The record of a retained packet; none for an expired value or one that cannot be encoded. -/
@[grind =] def snapshotRecord (pk : RetainedPacket) (now : Instant) (nowMono : UInt64) : Option Record :=
  let created := snapshotBase pk now
  let ageMs := snapshotAgeMs created now nowMono
  let expiry := snapshotExpiry pk created
  if expiry > 0 then
    let remaining := int64 (expiry - now.unix)
    if remaining ≤ 0 then none
    else snapshotRecordOf pk nowMono created ageMs (min (int64 (remaining + ageMs / 1000)) 4294967295)
  else snapshotRecordOf pk nowMono created ageMs 0

/-- What the consumer knows when a record is applied: its clock, the time since the batch came, half
the round trip, the skew of the clocks, and the source's uptime when it sent the batch. -/
structure Arrival where
  now : Instant
  sinceRecvMs : ℤ
  rttHalf : ℤ
  skewMs : ℤ
  sourceMonoMs : UInt64

structure ReplicaTimes where
  created : ℤ
  messageExpiryInterval : UInt32

/-- Backdate a snapshot value to its original publish time, with the expiry interval stretched by the
same amount. -/
def snapshotCreated (pk : ReplicaTimes) (wallMs : ℤ) : ReplicaTimes :=
  let c := max (wallMs.tdiv 1000) 1
  if wallMs ≤ 0 ∨ c ≥ pk.created then pk
  else
    let mei := pk.messageExpiryInterval.toNat
    ⟨c, if 0 < mei then UInt32.ofNat (min (mei + pk.created - c) 4294967295).toNat
      else pk.messageExpiryInterval⟩

def RecordView.isSnapshot (v : RecordView) : Bool := v.flags &&& flagSnapshot ≠ 0

def recordAgeMs (a : Arrival) (v : RecordView) : ℤ :=
  int64 (int64 (uint64 (a.sourceMonoMs.toNat - v.captureMonoMs.toNat)) + a.sinceRecvMs + a.rttHalf)

/-- The part of `applyRecord` that is about time: none when a record is dropped as expired, else the
times of the packet. -/
def applyTimes (a : Arrival) (v : RecordView) : Option ReplicaTimes :=
  let ageMs := recordAgeMs a v
  let retain := v.flags &&& flagRetain ≠ 0
  let expired := 0 < v.expirySec.toNat ∧ ageMs ≥ v.expirySec.toNat * 1000
  if expired ∧ ¬ (retain ∧ v.payload = []) then none
  else
    let pk : ReplicaTimes :=
      ⟨max ((a.now.unixMilli - ageMs).tdiv 1000) 1, (v.properties Properties.zero).messageExpiryInterval⟩
    some (if v.isSnapshot then snapshotCreated pk (v.publishWallNs.toInt.tdiv millisecond - a.skewMs) else pk)

/-- The quantities of a snapshot in exact arithmetic: the clock's second, the creation time the
snapshot goes by, the uptime and the remaining seconds. -/
structure SnapshotRange (n b m remaining : ℤ) : Prop where
  base_pos : 1 ≤ b
  base_le : b ≤ n
  now_lt : n < 9223372037
  mono_nonneg : 0 ≤ m
  mono_lt : m < 18446744073709551616
  remaining_pos : 1 ≤ remaining
  interval_lt : remaining + (n - b) < 4294967296

def exactAge (n b m : ℤ) : ℤ := min ((n - b) * 1000) m

variable {remaining : ℤ}

theorem exactAge_le {n b m : ℤ} (h : SnapshotRange n b m remaining) :
    0 ≤ exactAge n b m ∧ exactAge n b m ≤ m ∧ exactAge n b m ≤ (n - b) * 1000 := by
  have hb := h.base_le
  have hm := h.mono_nonneg
  refine ⟨le_min (by omega) hm, min_le_right _ _, min_le_left _ _⟩

variable {now : Instant}

private theorem snapshotBase_range (pk : RetainedPacket) (hnow : 0 < now.unix) :
    1 ≤ snapshotBase pk now ∧ snapshotBase pk now ≤ now.unix := by
  rw [snapshotBase]
  split
  · omega
  · rename_i hpos
    omega

variable {nowMono : UInt64}

theorem snapshotAgeMs_eq {b : ℤ} (h : SnapshotRange now.unix b nowMono.toNat remaining) :
    snapshotAgeMs b now nowMono = exactAge now.unix b nowMono.toNat := by
  have hb := h.base_le
  have hpos := h.base_pos
  have hnow := h.now_lt
  have hdiff : int64 (now.unix - b) = now.unix - b := int64_of_range (by omega) (by omega)
  have hdiff' : uint64 (now.unix - b) = now.unix - b := uint64_of_range (by omega) (by omega)
  have hms : uint64 ((now.unix - b) * 1000) = (now.unix - b) * 1000 := uint64_of_range (by omega) (by omega)
  rw [snapshotAgeMs, hdiff, hdiff', hms, exactAge]
  split
  · rename_i hgt
    exact (min_eq_right (le_of_lt hgt)).symm
  · rename_i hle
    exact (min_eq_left (not_lt.mp hle)).symm

private theorem and_of_or_left (a b : UInt16) : (a ||| b) &&& a = a := by
  apply UInt16.eq_of_toBitVec_eq
  apply BitVec.eq_of_getLsbD_eq
  intro i _
  simp only [UInt16.toBitVec_and, UInt16.toBitVec_or, BitVec.getLsbD_and, BitVec.getLsbD_or]
  cases a.toBitVec.getLsbD i <;> simp

private theorem setPacket_snapshot (pk : RetainedPacket) : (setPacket pk).flags &&& flagSnapshot ≠ 0 := by
  have hflag : ∀ x : UInt16, (flagSnapshot ||| x) &&& flagSnapshot ≠ 0 := by
    intro x
    rw [and_of_or_left]
    decide
  simp only [setPacket]
  split
  · rw [UInt16.or_assoc, UInt16.or_assoc]
    exact hflag _
  · rw [UInt16.or_assoc]
    exact hflag _

structure SnapshotTimes (r : Record) (n b m remaining : ℤ) : Prop where
  captureMonoMs : (r.captureMonoMs.toNat : ℤ) = m - exactAge n b m
  publishWallNs : r.publishWallNs.toInt = b * 1000000000
  expirySec : (r.expirySec.toNat : ℤ) = remaining + exactAge n b m / 1000
  isSnapshot : r.flags &&& flagSnapshot ≠ 0

theorem snapshotRecord_times {pk : RetainedPacket} {r : Record}
    (h : SnapshotRange now.unix (snapshotBase pk now) nowMono.toNat remaining)
    (hexpiry : snapshotExpiry pk (snapshotBase pk now) = now.unix + remaining)
    (hr : snapshotRecord pk now nowMono = some r) :
    SnapshotTimes r now.unix (snapshotBase pk now) nowMono.toNat remaining := by
  obtain ⟨hage0, hagem, hagen⟩ := exactAge_le h
  have hage := snapshotAgeMs_eq h
  have hb := h.base_le
  have hpos := h.base_pos
  have hnow := h.now_lt
  have hrem := h.remaining_pos
  have hlt := h.interval_lt
  have hm := h.mono_lt
  have hwall := h.mono_nonneg
  have hremaining : int64 (snapshotExpiry pk (snapshotBase pk now) - now.unix) = remaining := by
    rw [hexpiry, int64_of_range (by omega) (by omega)]
    omega
  have hsum : int64 (remaining + exactAge now.unix (snapshotBase pk now) nowMono.toNat / 1000) =
      remaining + exactAge now.unix (snapshotBase pk now) nowMono.toNat / 1000 :=
    int64_of_range (by omega) (by omega)
  have hmin : min (remaining + exactAge now.unix (snapshotBase pk now) nowMono.toNat / 1000) 4294967295 =
      remaining + exactAge now.unix (snapshotBase pk now) nowMono.toNat / 1000 := min_eq_left (by omega)
  have hfuture : snapshotExpiry pk (snapshotBase pk now) > 0 := by omega
  simp only [snapshotRecord] at hr
  rw [if_pos hfuture, hremaining, if_neg (not_le.mpr (by omega)), hage, hsum, hmin] at hr
  simp only [snapshotRecordOf] at hr
  split at hr
  · cases hr
  · obtain rfl := Option.some.inj hr
    refine ⟨?_, ?_, ?_, setPacket_snapshot pk⟩
    · rw [uint64_of_range (by omega) (by omega), UInt64.toNat_ofNat', Nat.mod_eq_of_lt (by omega)]
      omega
    · rw [Int64.toInt_ofInt_of_le (by omega) (by omega)]
    · rw [UInt32.toNat_ofNat', Int.emod_eq_of_lt (by omega) (by omega), Nat.mod_eq_of_lt (by omega)]
      omega

/-- A consumer whose clock is the source's, with the batch just sent. -/
def instantArrival (now : Instant) (nowMono : UInt64) : Arrival := ⟨now, 0, 0, 0, nowMono⟩

/-- The creation time that the age alone gives: the original one, or a later one when the age is that
of the source process. -/
theorem aged_created {b m : ℤ} (h : SnapshotRange now.unix b m remaining) :
    ∃ c, max ((now.unixMilli - exactAge now.unix b m).tdiv 1000) 1 = c ∧ b ≤ c ∧
      (c + exactAge now.unix b m / 1000 = now.unix ∨ c + exactAge now.unix b m / 1000 = now.unix - 1) := by
  obtain ⟨f, hf, hms⟩ := now.unixMilli_eq
  obtain ⟨hage0, -, hagen⟩ := exactAge_le h
  have hb := h.base_le
  have hpos := h.base_pos
  have hmilli : (now.unixMilli : ℤ) = now.unix * 1000 + f := by
    rw [hms]
    push_cast
    ring
  generalize exactAge (now.unix : ℤ) b m = age at hage0 hagen ⊢
  refine ⟨_, rfl, ?_⟩
  rw [hmilli, Int.tdiv_eq_ediv_of_nonneg (by omega)]
  have hge : 1 ≤ ((now.unix : ℤ) * 1000 + f - age) / 1000 := by omega
  rw [max_eq_left hge]
  constructor <;> omega

theorem snapshotCreated_spec {c b : ℤ} {mei : UInt32} (hb : 1 ≤ b) (hle : b ≤ c)
    (hmei : 0 < mei.toNat) (hfit : mei.toNat + c - b < 4294967296) :
    (snapshotCreated ⟨c, mei⟩ (b * 1000)).created = b ∧
      b + (snapshotCreated ⟨c, mei⟩ (b * 1000)).messageExpiryInterval.toNat = c + mei.toNat := by
  have hdiv : max ((b * 1000).tdiv 1000) 1 = b := by
    rw [Int.mul_tdiv_cancel _ (by decide), max_eq_left hb]
  rw [snapshotCreated]
  simp only [hdiv]
  by_cases hlt : b < c
  · rw [if_neg (by omega), if_pos hmei]
    refine ⟨rfl, ?_⟩
    have hmin : min ((mei.toNat : ℤ) + c - b) 4294967295 = mei.toNat + c - b := min_eq_left (by omega)
    rw [hmin, UInt32.toNat_ofNat', Nat.mod_eq_of_lt (by omega)]
    omega
  · rw [if_pos (by omega)]
    have heq : c = b := by omega
    exact ⟨heq, by rw [heq]⟩

theorem applyTimes_snapshot {r : Record} {v : RecordView}
    {b : ℤ} (h : SnapshotRange now.unix b nowMono.toNat remaining)
    (ht : SnapshotTimes r now.unix b nowMono.toNat remaining) (hv : Carries v r) :
    ∃ t, applyTimes (instantArrival now nowMono) v = some t ∧ t.created = b ∧
      (b + t.messageExpiryInterval.toNat = now.unix + remaining ∨
        b + t.messageExpiryInterval.toNat = now.unix + remaining - 1) := by
  obtain ⟨hage0, hagem, hagen⟩ := exactAge_le h
  obtain ⟨c, hc, hbc, hsum⟩ := aged_created h
  have hb := h.base_le
  have hpos := h.base_pos
  have hnow := h.now_lt
  have hrem := h.remaining_pos
  have hlt := h.interval_lt
  have hcapture := ht.captureMonoMs
  have hexpiry := ht.expirySec
  have hage : recordAgeMs (instantArrival now nowMono) v = exactAge now.unix b nowMono.toNat := by
    have hdiff : (nowMono.toNat : ℤ) - r.captureMonoMs.toNat = exactAge now.unix b nowMono.toNat := by omega
    have hsigned : int64 (exactAge now.unix b nowMono.toNat) = exactAge now.unix b nowMono.toNat :=
      int64_of_range (by omega) (by omega)
    rw [recordAgeMs, instantArrival, hv.captureMonoMs]
    simp only
    rw [hdiff, uint64_of_range (by omega) (by omega), hsigned, add_zero, add_zero, hsigned]
  have hinterval : (v.properties Properties.zero).messageExpiryInterval = r.expirySec := by
    rw [hv.properties]
  have hwall : v.publishWallNs.toInt.tdiv millisecond - 0 = b * 1000 := by
    rw [hv.publishWallNs, ht.publishWallNs, Int.tdiv_eq_ediv_of_nonneg (by omega), millisecond]
    omega
  have hsnap : v.isSnapshot = true := by
    rw [RecordView.isSnapshot, hv.flags]
    exact decide_eq_true ht.isSnapshot
  have hfresh : ¬ ((0 < v.expirySec.toNat ∧
      exactAge now.unix b nowMono.toNat ≥ v.expirySec.toNat * 1000) ∧
      ¬ (v.flags &&& flagRetain ≠ 0 ∧ v.payload = [])) := by
    rintro ⟨⟨-, hold⟩, -⟩
    rw [hv.expirySec] at hold
    omega
  have hmei : 0 < r.expirySec.toNat := by omega
  obtain ⟨hcreated, hend⟩ := snapshotCreated_spec hpos hbc hmei (by omega)
  refine ⟨snapshotCreated ⟨c, r.expirySec⟩ (b * 1000), ?_, hcreated, ?_⟩
  · simp only [applyTimes, hage, hsnap, hinterval, if_true]
    rw [if_neg hfresh]
    simp only [instantArrival, hwall, hc]
  · rw [hend]
    rcases hsum with hs | hs
    · exact .inl (by omega)
    · exact .inr (by omega)

/-- The absolute expiry of a retained packet, the creation time taken as a snapshot takes it. -/
def HasExpiry (pk : RetainedPacket) (now : Instant) (E : ℤ) : Prop :=
  (pk.expiry.toInt ≠ 0 ∧ E = pk.expiry.toInt) ∨
    (pk.expiry.toInt = 0 ∧ 0 < pk.properties.messageExpiryInterval.toNat ∧
      E = snapshotBase pk now + pk.properties.messageExpiryInterval.toNat)

/-- A snapshot keeps the absolute expiry of a retained packet to the second, whatever the uptime of
the source; nothing wraps, and the value is never taken for expired. -/
theorem snapshot_keeps_expiry {pk : RetainedPacket} {now : Instant} {nowMono : UInt64} {E : ℤ} {r : Record}
    {v : RecordView} (hnow : 0 < now.unix) (hcreated : pk.created.toInt ≤ now.unix)
    (hE : HasExpiry pk now E) (hfuture : now.unix < E) (hfit : E - snapshotBase pk now < 2 ^ 32)
    (hr : snapshotRecord pk now nowMono = some r) (hv : Carries v r) :
    (∃ t, applyTimes (instantArrival now nowMono) v = some t ∧
      t.created = (if 0 < pk.created.toInt then pk.created.toInt else now.unix) ∧
      (t.created + t.messageExpiryInterval.toNat = E ∨ t.created + t.messageExpiryInterval.toNat = E - 1)) ∧
    snapshotBase pk now ≤ now.unix ∧
    (nowMono.toNat : ℤ) - r.captureMonoMs.toNat =
      min ((now.unix - snapshotBase pk now) * 1000) nowMono.toNat ∧
    (r.expirySec.toNat : ℤ) = E - now.unix + (nowMono.toNat - r.captureMonoMs.toNat) / 1000 := by
  obtain ⟨hpos, hle⟩ := snapshotBase_range pk hnow
  have hclock := now.unix_lt
  have hmono := nowMono.toNat_lt
  have hrange : SnapshotRange now.unix (snapshotBase pk now) nowMono.toNat (E - now.unix) :=
    ⟨hpos, hle, by omega, by omega, by omega, by omega, by omega⟩
  have hexpiry : snapshotExpiry pk (snapshotBase pk now) = now.unix + (E - now.unix) := by
    rw [snapshotExpiry]
    rcases hE with ⟨hne, rfl⟩ | ⟨hzero, hmei, rfl⟩
    · rw [if_neg fun h => hne h.1]
      omega
    · rw [if_pos ⟨hzero, hmei⟩, int64_of_range (by omega) (by omega)]
      omega
  have hbase : snapshotBase pk now = if 0 < pk.created.toInt then pk.created.toInt else now.unix := by
    rw [snapshotBase]
    split
    · rw [if_neg (by omega)]
    · rw [if_pos (by omega)]
  have ht := snapshotRecord_times hrange hexpiry hr
  obtain ⟨t, happly, htc, htE⟩ := applyTimes_snapshot hrange ht hv
  have hcapture := ht.captureMonoMs
  have hage : (nowMono.toNat : ℤ) - r.captureMonoMs.toNat = exactAge now.unix (snapshotBase pk now) nowMono.toNat := by
    omega
  refine ⟨⟨t, happly, htc.trans hbase, ?_⟩, hle, hage, ?_⟩
  · rw [htc]
    rcases htE with h | h
    · exact .inl (by omega)
    · exact .inr (by omega)
  · rw [hage]
    exact ht.expirySec

def retainedA (created expiry : Int64) (mei : UInt32) : RetainedPacket :=
  ⟨0, [0x61], [1], [], created, expiry, { Properties.zero with messageExpiryInterval := mei }⟩

def halfPast : Instant := ⟨1760000000500000000, by decide⟩

def retainedARecord (created expiry : Int64) (mei : UInt32) (nowMono : UInt64) (base ageMs expirySec : ℤ) :
    Record :=
  { setPacket (retainedA created expiry mei) with
    captureMonoMs := UInt64.ofNat (uint64 (nowMono.toNat - ageMs)).toNat
    publishWallNs := Int64.ofInt (base * 1000000000)
    expirySec := UInt32.ofNat (expirySec % 4294967296).toNat }

theorem retainedA_encoded (created expiry : Int64) (mei : UInt32) (nowMono : UInt64)
    (base ageMs expirySec : ℤ) :
    snapshotRecordOf (retainedA created expiry mei) nowMono base ageMs expirySec =
      some (retainedARecord created expiry mei nowMono base ageMs expirySec) := rfl

theorem carries_retainedA (created expiry : Int64) (mei : UInt32) (nowMono : UInt64)
    (base ageMs expirySec : ℤ) :
    Carries (retainedARecord created expiry mei nowMono base ageMs expirySec).layout.view
      (retainedARecord created expiry mei nowMono base ageMs expirySec) :=
  carries_layout ⟨Nat.zero_le _, Nat.zero_le _, Nat.zero_le _, fun _ hu => (List.not_mem_nil hu).elim,
    Nat.zero_le _⟩

theorem retainedA_aged : snapshotRecord (retainedA 1000000000 1760000100 0) halfPast 5700 =
    some (retainedARecord 1000000000 1760000100 0 5700 1000000000 5700 105) := by
  have hbase : snapshotBase (retainedA 1000000000 1760000100 0) halfPast = 1000000000 := by decide
  have hage : snapshotAgeMs 1000000000 halfPast 5700 = 5700 := by decide
  have hexpiry : snapshotExpiry (retainedA 1000000000 1760000100 0) 1000000000 = 1760000100 := by decide
  have hremaining : int64 (1760000100 - halfPast.unix) = 100 := by decide
  simp only [snapshotRecord, hbase, hage, hexpiry, hremaining]
  rw [if_pos (by decide), if_neg (by decide)]
  exact retainedA_encoded _ _ _ _ _ _ _

theorem snapshot_keeps_expiry_aged : snapshotRecord (retainedA 1000000000 1760000100 0) halfPast 5700 =
      some (retainedARecord 1000000000 1760000100 0 5700 1000000000 5700 105) ∧
    ∃ t, applyTimes (instantArrival halfPast 5700)
        (retainedARecord 1000000000 1760000100 0 5700 1000000000 5700 105).layout.view = some t ∧
      t.created = 1000000000 ∧
      (t.created + t.messageExpiryInterval.toNat = 1760000100 ∨
        t.created + t.messageExpiryInterval.toNat = 1760000100 - 1) := by
  have hkept := snapshot_keeps_expiry (E := 1760000100) (by decide) (by decide)
    (.inl ⟨by decide, by decide⟩) (by decide) (by decide) retainedA_aged (carries_retainedA _ _ _ _ _ _ _)
  obtain ⟨t, happly, hcreated, hE⟩ := hkept.1
  exact ⟨retainedA_aged, t, happly, hcreated.trans (by decide), hE⟩

/-- A value without a creation time whose interval reaches beyond the clock: the interval starts to
count now, not at the epoch. -/
theorem retainedA_uncreated : snapshotRecord (retainedA 0 0 4294967295) halfPast 0 =
    some (retainedARecord 0 0 4294967295 0 1760000000 0 4294967295) := by
  have hbase : snapshotBase (retainedA 0 0 4294967295) halfPast = 1760000000 := by decide
  have hage : snapshotAgeMs 1760000000 halfPast 0 = 0 := by decide
  have hexpiry : snapshotExpiry (retainedA 0 0 4294967295) 1760000000 = 6054967295 := by decide
  have hremaining : int64 (6054967295 - halfPast.unix) = 4294967295 := by decide
  simp only [snapshotRecord, hbase, hage, hexpiry, hremaining]
  rw [if_pos (by decide), if_neg (by decide)]
  exact retainedA_encoded _ _ _ _ _ _ _

theorem snapshot_expiry_from_now : snapshotRecord (retainedA 0 0 4294967295) halfPast 0 =
      some (retainedARecord 0 0 4294967295 0 1760000000 0 4294967295) ∧
    (halfPast.unix : ℤ) < 0 + 4294967295 ∧
    ∃ t, applyTimes (instantArrival halfPast 0)
        (retainedARecord 0 0 4294967295 0 1760000000 0 4294967295).layout.view = some t ∧
      t.created + t.messageExpiryInterval.toNat ≠ 0 + 4294967295 ∧
      t.created + t.messageExpiryInterval.toNat ≠ 0 + 4294967295 - 1 := by
  have hrange : SnapshotRange halfPast.unix (snapshotBase (retainedA 0 0 4294967295) halfPast)
      (0 : UInt64).toNat 4294967295 :=
    ⟨by decide, by decide, by decide, by decide, by decide, by decide, by decide⟩
  have ht := snapshotRecord_times hrange (by decide) retainedA_uncreated
  obtain ⟨t, happly, hcreated, hE⟩ := applyTimes_snapshot hrange ht (carries_retainedA _ _ _ _ _ _ _)
  have hbase : snapshotBase (retainedA 0 0 4294967295) halfPast = 1760000000 := by decide
  have hclock : halfPast.unix = 1760000000 := by decide
  refine ⟨retainedA_uncreated, by decide, t, happly, ?_, ?_⟩ <;> omega

end MonsterMQ.PeerLink
