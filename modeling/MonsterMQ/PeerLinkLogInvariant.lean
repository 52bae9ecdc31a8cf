import Mathlib.Data.List.GetD
import MonsterMQ.PeerLinkLogStorage

/-!
# The representation invariant of the log

`LogInvariant` joins the storage invariants with the consumer positions, the low-water mark and the record
counters.
-/

namespace MonsterMQ.PeerLink
namespace Log

open LittleEndian

structure Position (leo : ℕ) (con : LogConsumer) : Prop where
  one_le : 1 ≤ con.committed
  committed_le : con.committed ≤ leo
  served_le : con.served ≤ leo
  acct_le : con.acctNext ≤ leo

theorem Position.mono {leo leo' : ℕ} {con : LogConsumer} (h : Position leo con) (hle : leo ≤ leo') :
    Position leo' con :=
  ⟨h.1, h.2.trans hle, h.3.trans hle, h.4.trans hle⟩

@[grind =] def markAt (marks : List Mask) (x : ℕ) : Mask := marks.getD (x - 1) 0

theorem markAt_append_of_lt {marks : List Mask} {x : ℕ} (mask : Mask) (h1 : 1 ≤ x)
    (hx : x < marks.length + 1) : markAt (marks ++ [mask]) x = markAt marks x := by
  unfold markAt
  rw [List.getD_append _ _ _ _ (by omega)]

theorem markAt_append_self {marks : List Mask} {x : ℕ} (mask : Mask) (hx : x = marks.length + 1) :
    markAt (marks ++ [mask]) x = mask := by
  subst hx
  simp [markAt]

/-- What the mask arrays hold, of detached chunks too: a read may still scan them. -/
structure Marked (l : Log) (marks : List Mask) : Prop where
  leo_eq : l.leo = marks.length + 1
  one_le_base : ∀ id < l.nextChunk, 1 ≤ (l.heap id).base
  ordered : ∀ i j, i < j → j < l.nextChunk → (l.heap i).base + 1024 ≤ (l.heap j).base
  mask_eq : l.masked = true → ∀ id < l.nextChunk, ∀ s < 1024, (l.heap id).base + s < l.leo →
    (l.heap id).masks s = markAt marks ((l.heap id).base + s)

/-- The invariant while a consumer position has been moved and the low-water mark
has not been recomputed yet. -/
structure Loose (l : Log) (frames : List Bytes) (marks : List Mask) : Prop where
  stored : Stored l frames
  marked : Marked l marks
  counted : l.trimmed + l.evictedByCount + l.evictedByBytes + 1 = l.lso
  position : ∀ c < l.consumers.length, Position l.leo (l.con c)
  one_le_lwm : 1 ≤ l.lwm
  lwm_le_lso : l.lwm ≤ l.lso
  peers : l.consumers ≠ []
  everyone : l.masked = true → ∀ c < l.consumers.length, hasBit l.allMask c = true

structure LogInvariant (l : Log) (frames : List Bytes) (marks : List Mask) : Prop
    extends Loose l frames marks where
  bounded : Bounded l frames
  lwm_eq : l.lwm = l.minCommitted

structure Idle (l : Log) (frames : List Bytes) (marks : List Mask) : Prop where
  consumers_eq : l.consumers = []
  leo_eq : l.leo = frames.length + 1
  marks_eq : marks.length = frames.length
  lso_eq : l.lso = l.leo
  lwm_eq : l.lwm = l.leo
  chunks_eq : l.chunks = []
  nextChunk_eq : l.nextChunk = 0
  bytes_eq : l.bytes = 0
  counted : l.trimmed + 1 = l.leo
  evicted_eq : l.evictedByCount = 0 ∧ l.evictedByBytes = 0

structure ClearOk (l : Log) (req : ClearReq) : Prop where
  chunk_lt : req.chunk < l.nextChunk
  below : (l.heap req.chunk).base + req.b ≤ l.lso

structure SameSetup (l l' : Log) : Prop where
  epoch : l'.epoch = l.epoch
  sealedFlag : l'.sealedFlag = l.sealedFlag
  maxMessages : l'.maxMessages = l.maxMessages
  maxBytes : l'.maxBytes = l.maxBytes
  maxRecordBytes : l'.maxRecordBytes = l.maxRecordBytes
  masked : l'.masked = l.masked
  allMask : l'.allMask = l.allMask
  maxScan : l'.maxScan = l.maxScan
  chunkBytes : l'.chunkBytes = l.chunkBytes

theorem SameSetup.refl (l : Log) : SameSetup l l := ⟨rfl, rfl, rfl, rfl, rfl, rfl, rfl, rfl, rfl⟩

theorem SameSetup.trans {l l' l'' : Log} (e : SameSetup l l') (e' : SameSetup l' l'') : SameSetup l l'' :=
  ⟨e'.1.trans e.1, e'.2.trans e.2, e'.3.trans e.3, e'.4.trans e.4, e'.5.trans e.5, e'.6.trans e.6,
    e'.7.trans e.7, e'.8.trans e.8, e'.9.trans e.9⟩

section Trim
variable {l : Log} {frames : List Bytes}

theorem advanceTo_eq (l : Log) (y : ℕ) : ∃ k b, l.advanceTo y = { l with
    firstBase := l.firstBase + 1024 * k, chunks := l.chunks.drop k, lso := y, bytes := b } := by
  obtain ⟨k, -, heq, -, -⟩ := detachLocked_spec { l with
    bytes := sub64 l.bytes (sub64 (l.cumAtLocked y) (l.cumAtLocked l.lso)), lso := y }
  exact ⟨k, _, heq⟩

/-- The three outcomes of `updateLWMLocked`. -/
theorem updateLWMLocked_cases (l : Log) : (l.minCommitted ≤ l.lso ∨ l.minCommitted = l.lwm) ∧
        l.updateLWMLocked = ({ l with lwm := l.minCommitted }, none) ∨
      l.lso < l.minCommitted ∧ l.updateLWMLocked.1 = { l.advanceTo l.minCommitted with
        lwm := l.minCommitted, trimmed := l.trimmed + (l.minCommitted - l.lso) } ∧
        ∀ req ∈ l.updateLWMLocked.2, (l.advanceTo l.minCommitted).chunks[0]? = some req.chunk ∧
          (l.advanceTo l.minCommitted).firstBase + req.b = l.minCommitted := by
  by_cases h1 : l.minCommitted = l.lwm
  · left
    refine ⟨Or.inr h1, ?_⟩
    rw [updateLWMLocked, if_pos h1, h1]
  by_cases h2 : l.minCommitted ≤ l.lso
  · left
    refine ⟨Or.inl h2, ?_⟩
    rw [updateLWMLocked, if_neg h1, if_pos h2]
  · right
    have hdet : detachLocked { l with
        lwm := l.minCommitted
        bytes := sub64 l.bytes (sub64 (l.cumAtLocked l.minCommitted) (l.cumAtLocked l.lso))
        trimmed := l.trimmed + (l.minCommitted - l.lso)
        lso := l.minCommitted } = { l.advanceTo l.minCommitted with
          lwm := l.minCommitted, trimmed := l.trimmed + (l.minCommitted - l.lso) } := rfl
    refine ⟨by omega, ?_, ?_⟩
    · simp only [updateLWMLocked, if_neg h1, if_neg h2, hdet]
      split <;> rfl
    · intro req hreq
      simp only [updateLWMLocked, if_neg h1, if_neg h2, hdet] at hreq
      split at hreq
      · simp at hreq
      · rename_i hc
        simp only [Option.mem_def, Option.some.injEq] at hreq
        subst hreq
        simp only [Bool.or_eq_true, List.isEmpty_iff, decide_eq_true_eq, not_or, ge_iff_le,
          not_le] at hc
        refine ⟨?_, by simp only; omega⟩
        cases hcks : (l.advanceTo l.minCommitted).chunks with
        | nil => exact absurd hcks hc.1
        | cons ck cks => rfl

theorem Marked.congr {l' : Log} {marks : List Mask} (h : Marked l marks) (hleo : l'.leo = l.leo)
    (hnext : l'.nextChunk = l.nextChunk) (hmasked : l'.masked = l.masked)
    (hheap : ∀ id, (l'.heap id).base = (l.heap id).base ∧ (l'.heap id).masks = (l.heap id).masks) :
    Marked l' marks := by
  refine ⟨hleo.trans h.leo_eq, ?_, ?_, ?_⟩
  · intro id hid
    rw [(hheap id).1]
    exact h.one_le_base id (hnext ▸ hid)
  · intro i j hij hj
    rw [(hheap i).1, (hheap j).1]
    exact h.ordered i j hij (hnext ▸ hj)
  · intro hm id hid s hs hlt
    rw [(hheap id).1] at hlt ⊢
    rw [(hheap id).2]
    exact h.mask_eq (hmasked ▸ hm) id (hnext ▸ hid) s hs (hleo ▸ hlt)

/-- What `updateLWMLocked` changes: `lso` rises to the new minimum. -/
theorem updateLWMLocked_eq (hle : l.lwm ≤ l.lso) : ∃ k b t, l.updateLWMLocked.1 = { l with
    firstBase := l.firstBase + 1024 * k
    chunks := l.chunks.drop k
    bytes := b
    trimmed := t
    lwm := l.minCommitted
    lso := max l.lso l.minCommitted } := by
  rcases updateLWMLocked_cases l with ⟨hmin, heq⟩ | ⟨hlt, heq, -⟩
  · refine ⟨0, l.bytes, l.trimmed, ?_⟩
    rw [heq, max_eq_left (by omega)]
    rfl
  · obtain ⟨k, b, hadv⟩ := advanceTo_eq l l.minCommitted
    refine ⟨k, b, l.trimmed + (l.minCommitted - l.lso), ?_⟩
    rw [heq, hadv, max_eq_right hlt.le]

theorem Loose.minCommitted_le_leo {marks : List Mask} (h : Loose l frames marks) :
    l.minCommitted ≤ l.leo := by
  obtain ⟨c, hc, heq⟩ := exists_minCommitted l h.peers
  rw [heq]
  exact (h.position c hc).committed_le

theorem Loose.one_le_minCommitted {marks : List Mask} (h : Loose l frames marks) : 1 ≤ l.minCommitted := by
  obtain ⟨c, hc, heq⟩ := exists_minCommitted l h.peers
  rw [heq]
  exact (h.position c hc).one_le

theorem Loose.updateLWM {marks : List Mask} (h : Loose l frames marks) :
    Loose l.updateLWMLocked.1 frames marks ∧
      l.updateLWMLocked.1.lwm = l.updateLWMLocked.1.minCommitted ∧
      (Bounded l frames → Bounded l.updateLWMLocked.1 frames) ∧
      ∀ req ∈ l.updateLWMLocked.2, ClearOk l.updateLWMLocked.1 req := by
  have hhi := h.minCommitted_le_leo
  have hone := h.one_le_minCommitted
  rcases updateLWMLocked_cases l with ⟨hmin, heq⟩ | ⟨hlt, heq, hreq⟩
  · have hle : l.minCommitted ≤ l.lso := by have := h.lwm_le_lso; omega
    rw [heq]
    refine ⟨?_, rfl, ?_, by simp⟩
    · have e : SameStore l { l with lwm := l.minCommitted } :=
        ⟨rfl, rfl, rfl, rfl, rfl, rfl, rfl, rfl, rfl, rfl, rfl⟩
      exact ⟨e.stored h.stored, h.marked.congr rfl rfl rfl (fun _ => ⟨rfl, rfl⟩), h.counted,
        h.position, hone, hle, h.peers, h.everyone⟩
    · exact fun hb => hb
  · have hst := h.stored.advanceTo hlt.le hhi
    obtain ⟨k, b, hadv⟩ := advanceTo_eq l l.minCommitted
    have e : SameStore (l.advanceTo l.minCommitted) l.updateLWMLocked.1 := by
      rw [heq]
      exact ⟨rfl, rfl, rfl, rfl, rfl, rfl, rfl, rfl, rfl, rfl, rfl⟩
    refine ⟨⟨e.stored hst, ?_, ?_, ?_, ?_, ?_, ?_, ?_⟩, ?_, ?_, ?_⟩
    · rw [heq, hadv]
      exact h.marked.congr rfl rfl rfl (fun _ => ⟨rfl, rfl⟩)
    · have := h.counted
      rw [heq, hadv]
      simp only
      omega
    · rw [heq, hadv]
      exact h.position
    · rw [heq, hadv]
      exact hone
    · rw [heq, hadv]
    · rw [heq, hadv]
      exact h.peers
    · rw [heq, hadv]
      exact h.everyone
    · rw [heq, hadv]
      rfl
    · exact fun hb => e.bounded (hb.advanceTo hlt.le)
    · intro req hmem
      obtain ⟨hck, hb⟩ := hreq req hmem
      obtain ⟨hid, hbase⟩ := hst.geometry.attached 0 req.chunk hck
      have hlso : l.updateLWMLocked.1.lso = l.minCommitted := by rw [heq, hadv]
      refine ⟨by rw [e.nextChunk]; exact hid, ?_⟩
      rw [e.heap, hbase, hlso]
      omega

end Trim

/-- The charges of `k` evictions from offset `x` on, for consumer `c`. -/
@[grind =] def chargeRange (marks : List Mask) : ℕ → ℕ → ℕ → LogConsumer → LogConsumer
  | 0, _, _, con => con
  | k + 1, x, c, con => chargeRange marks k (x + 1) c (accountEvict x (markAt marks x) c con)

@[grind =] def evictCharges (masked : Bool) (marks : List Mask) (k x c : ℕ) (con : LogConsumer) : LogConsumer :=
  if masked then chargeRange marks k x c con else con

structure Evicts (marks : List Mask) (k : ℕ) (l l' : Log) : Prop where
  lso : l'.lso = l.lso + k
  consumers : l'.consumers = l.consumers.mapIdx (evictCharges l.masked marks k l.lso)
  heap : ∀ id, (l'.heap id).base = (l.heap id).base ∧ (l'.heap id).masks = (l.heap id).masks
  count : l'.evictedByCount + l'.evictedByBytes = l.evictedByCount + l.evictedByBytes + k
  setup : SameSetup l l'
  leo : l'.leo = l.leo
  lwm : l'.lwm = l.lwm
  trimmed : l'.trimmed = l.trimmed
  nextChunk : l'.nextChunk = l.nextChunk

section Evict
variable {l : Log} {frames : List Bytes} {marks : List Mask}

theorem Marked.maskAtLocked_eq (h : Marked l marks) (g : Geometry l) (hm : l.masked = true) {x : ℕ}
    (hl : l.lso ≤ x) (hx : x < l.leo) : l.maskAtLocked x = markAt marks x := by
  obtain ⟨-, hid, hbase, hs⟩ := g.locate hl hx
  rw [maskAtLocked, h.mask_eq hm _ hid _ hs (by omega), hbase]

/-- One eviction is an advance of `lso` by one together with the cleared slot, the
counters and the charges. -/
theorem evictOne_eq (hlt : l.lso < l.leo) (byCount : Bool) :
    l.evictOne byCount = { (l.advanceTo (l.lso + 1)).clearSlot (l.chunkAt l.lso) (l.slotOf l.lso) with
      evictedByCount := if byCount then l.evictedByCount + 1 else l.evictedByCount
      evictedByBytes := if byCount then l.evictedByBytes else l.evictedByBytes + 1
      evictedUnread := if l.lso ≥ l.lwm then l.evictedUnread + 1 else l.evictedUnread
      consumers := if l.masked then
        l.consumers.mapIdx (accountEvict l.lso (l.maskAtLocked l.lso)) else l.consumers } := by
  have hcum : l.cumAtLocked l.lso = (l.heap (l.chunkAt l.lso)).cum (l.slotOf l.lso) := by
    rw [cumAtLocked, if_neg (by omega)]
  have hdet : ∀ l' : Log, (if l'.lso - l'.firstBase ≥ logChunkSlots then l'.detachLocked else l') =
      l'.detachLocked := by
    intro l'
    split
    · rfl
    · rename_i h
      exact (detachLocked_of_lt l' h).symm
  unfold evictOne
  rw [hdet, ← hcum]
  rfl

theorem Position.accountEvict {leo x c : ℕ} {con : LogConsumer} (mask : Mask)
    (h : Position leo con) (hx : x < leo) : Position leo (accountEvict x mask c con) := by
  unfold Log.accountEvict
  split
  · exact h
  · exact ⟨h.1, h.2, h.3, hx⟩

theorem Loose.evictOne (h : Loose l frames marks) (hlt : l.lso < l.leo) (byCount : Bool) :
    Loose (l.evictOne byCount) frames marks ∧ Evicts marks 1 l (l.evictOne byCount) := by
  obtain ⟨-, hid, hbase, hs⟩ := h.stored.geometry.locate le_rfl hlt
  obtain ⟨k, b, hadv⟩ := advanceTo_eq l (l.lso + 1)
  have hheap : ∀ id, ((l.evictOne byCount).heap id).base = (l.heap id).base ∧
      ((l.evictOne byCount).heap id).masks = (l.heap id).masks := by
    intro id
    rw [evictOne_eq hlt, hadv]
    by_cases hi : id = l.chunkAt l.lso
    · simp [Log.clearSlot, updChunk, hi]
    · simp [Log.clearSlot, updChunk, Function.update_of_ne hi]
  have hcons : (l.evictOne byCount).consumers =
      l.consumers.mapIdx (evictCharges l.masked marks 1 l.lso) := by
    rw [evictOne_eq hlt]
    cases hm : l.masked with
    | false =>
      apply List.ext_getElem <;> simp [evictCharges]
    | true =>
      have hmask := h.marked.maskAtLocked_eq h.stored.geometry hm le_rfl hlt
      apply List.ext_getElem <;> simp [evictCharges, chargeRange, hmask]
  have e : SameStore ((l.advanceTo (l.lso + 1)).clearSlot (l.chunkAt l.lso) (l.slotOf l.lso))
      (l.evictOne byCount) := by
    rw [evictOne_eq hlt]
    exact ⟨rfl, rfl, rfl, rfl, rfl, rfl, rfl, rfl, rfl, rfl, rfl⟩
  have hlso : (l.evictOne byCount).lso = l.lso + 1 := by
    rw [evictOne_eq hlt, hadv]
    rfl
  have hleo : (l.evictOne byCount).leo = l.leo := by
    rw [evictOne_eq hlt, hadv]
    rfl
  have hcount : (l.evictOne byCount).evictedByCount + (l.evictOne byCount).evictedByBytes =
      l.evictedByCount + l.evictedByBytes + 1 := by
    rw [evictOne_eq hlt]
    cases byCount <;> simp <;> omega
  have hst : Stored ((l.advanceTo (l.lso + 1)).clearSlot (l.chunkAt l.lso) (l.slotOf l.lso))
      frames := by
    refine (h.stored.advanceTo (Nat.le_succ _) hlt).clearSlot ?_
    rw [hadv]
    simp only
    omega
  have hev : Evicts marks 1 l (l.evictOne byCount) := by
    refine ⟨hlso, hcons, hheap, hcount, ?_, hleo, ?_, ?_, ?_⟩ <;> rw [evictOne_eq hlt, hadv]
    · exact ⟨rfl, rfl, rfl, rfl, rfl, rfl, rfl, rfl, rfl⟩
    all_goals rfl
  refine ⟨⟨e.stored hst, ?_, ?_, ?_, ?_, ?_, ?_, ?_⟩, hev⟩
  · exact h.marked.congr hleo hev.nextChunk hev.setup.masked hheap
  · have h0 := h.counted
    have h1 := hev.trimmed
    omega
  · intro c hc
    have hlen : c < l.consumers.length := by rw [hcons] at hc; simpa using hc
    rw [con_eq_getElem _ hc, hleo]
    simp only [hcons, List.getElem_mapIdx]
    rw [← con_eq_getElem l hlen]
    unfold evictCharges
    split
    · exact (h.position c hlen).accountEvict _ hlt
    · exact h.position c hlen
  · rw [hev.lwm]
    exact h.one_le_lwm
  · rw [hev.lwm, hlso]
    exact Nat.le_succ_of_le h.lwm_le_lso
  · rw [hcons]
    simpa using h.peers
  · intro hm c hc
    rw [hcons] at hc
    rw [hev.setup.allMask]
    exact h.everyone (hev.setup.masked ▸ hm) c (by simpa using hc)

theorem Evicts.refl (marks : List Mask) (l : Log) : Evicts marks 0 l l := by
  refine ⟨rfl, ?_, fun _ => ⟨rfl, rfl⟩, rfl, SameSetup.refl l, rfl, rfl, rfl, rfl⟩
  apply List.ext_getElem <;> simp [evictCharges, chargeRange]

/-- One eviction followed by `k` more. -/
theorem Evicts.cons {l₁ l₂ : Log} {k : ℕ} (e : Evicts marks 1 l l₁) (e' : Evicts marks k l₁ l₂) :
    Evicts marks (k + 1) l l₂ := by
  have hlso := e.lso
  have hcount := e.count
  refine ⟨?_, ?_, ?_, ?_, e.setup.trans e'.setup, e'.leo.trans e.leo, e'.lwm.trans e.lwm,
    e'.trimmed.trans e.trimmed, e'.nextChunk.trans e.nextChunk⟩
  · have := e'.lso
    omega
  · rw [e'.consumers, e.consumers, e.setup.masked, hlso, List.mapIdx_mapIdx]
    congr 1
    funext c con
    simp only [Function.comp, evictCharges]
    cases l.masked <;> rfl
  · intro id
    exact ⟨(e'.heap id).1.trans (e.heap id).1, (e'.heap id).2.trans (e.heap id).2⟩
  · have := e'.count
    omega

/-- The eviction loop runs until a bound holds again or `n` records are gone. -/
theorem Loose.evictLoop {n : ℕ} (h : Loose l frames marks) (hn : l.lso + n < l.leo) :
    ∃ k ≤ n, Evicts marks k l (evictLoop n l) ∧ Loose (evictLoop n l) frames marks ∧
      (k = n ∨ (evictLoop n l).bytes ≤ l.maxBytes) := by
  induction n generalizing l with
  | zero => exact ⟨0, le_rfl, Evicts.refl marks l, h, Or.inl rfl⟩
  | succ n ih =>
    unfold Log.evictLoop
    simp only
    split
    · rename_i hstop
      simp only [Bool.and_eq_true, decide_eq_true_eq] at hstop
      exact ⟨0, Nat.zero_le _, Evicts.refl marks l, h, Or.inr hstop.2⟩
    · obtain ⟨h1, e1⟩ := h.evictOne (by omega) (decide (l.leo - l.lso > l.maxMessages))
      have hlso := e1.lso
      have hleo := e1.leo
      obtain ⟨k, hk, e2, h2, hstop⟩ := ih h1 (by omega)
      refine ⟨k + 1, by omega, e1.cons e2, h2, ?_⟩
      rw [e1.setup.maxBytes] at hstop
      exact hstop.imp_left (by omega)

end Evict

/-- `l'` is `l` after the low-water mark has been recomputed. -/
structure Trims (l l' : Log) : Prop where
  lso : l'.lso = max l.lso l.minCommitted
  consumers : l'.consumers = l.consumers
  setup : SameSetup l l'
  leo : l'.leo = l.leo
  heap : l'.heap = l.heap
  nextChunk : l'.nextChunk = l.nextChunk
  count : l'.evictedByCount = l.evictedByCount ∧ l'.evictedByBytes = l.evictedByBytes

section Append
variable {l : Log} {frames : List Bytes} {marks : List Mask}

theorem Loose.trims (h : Loose l frames marks) : Trims l l.updateLWMLocked.1 := by
  obtain ⟨k, b, t, heq⟩ := updateLWMLocked_eq h.lwm_le_lso
  rw [heq]
  exact ⟨rfl, rfl, ⟨rfl, rfl, rfl, rfl, rfl, rfl, rfl, rfl, rfl⟩, rfl, rfl, rfl, rfl, rfl⟩

theorem Loose.trims_refl (h : Loose l frames marks) (hlwm : l.lwm = l.minCommitted) : Trims l l := by
  refine ⟨?_, rfl, SameSetup.refl l, rfl, rfl, rfl, rfl, rfl⟩
  rw [max_eq_left]
  have := h.lwm_le_lso
  omega

theorem Marked.attachChunk (h : Marked l marks) (g : Geometry l)
    (hleo : l.leo = l.firstBase + 1024 * l.chunks.length) : Marked l.attachChunkLocked marks := by
  have hold : ∀ id < l.nextChunk, l.attachChunkLocked.heap id = l.heap id := fun id hid =>
    Function.update_of_ne (by omega) _ _
  have hnew : l.attachChunkLocked.heap l.nextChunk = LogChunk.new l.leo := by
    simp only [attachChunkLocked, Function.update_self, logChunkSlots, ← hleo]
  have hsplit : ∀ id < l.nextChunk + 1, id < l.nextChunk ∨ id = l.nextChunk := by omega
  refine ⟨h.leo_eq, ?_, ?_, ?_⟩
  · intro id hid
    rcases hsplit id hid with hlt | rfl
    · rw [hold id hlt]
      exact h.one_le_base id hlt
    · rw [hnew]
      exact g.one_le_lso.trans g.lso_le_leo
  · intro i j hij hj
    rcases hsplit j hj with hlt | rfl
    · rw [hold i (by omega), hold j hlt]
      exact h.ordered i j hij hlt
    · rw [hold i hij, hnew]
      simp only [LogChunk.new]
      rcases g.full i hij with hfull | hlast
      · exact hfull
      · have h0 : l.chunks ≠ [] := fun h0 => by simp [h0] at hlast
        have hlen0 : 0 < l.chunks.length := List.length_pos_iff.mpr h0
        rw [List.getLast?_eq_getElem?] at hlast
        have := (g.attached _ _ hlast).2
        omega
  · intro hm id hid s hs hlt
    rcases hsplit id hid with hid | rfl
    · rw [hold id hid] at hlt ⊢
      exact h.mask_eq hm id hid s hs hlt
    · rw [hnew] at hlt
      simp only [LogChunk.new, attachChunkLocked] at hlt
      omega

/-- The record of offset `leo` enters the history of masks. -/
theorem Marked.writeRecord (h : Marked l marks) (g : Geometry l) (hne : l.chunks ≠ [])
    (hroom : l.leo < l.firstBase + 1024 * l.chunks.length) (frame : Bytes) (mask : Mask) :
    Marked (l.writeRecord frame mask) (marks ++ [mask]) := by
  obtain ⟨-, hid, hbase, hslot⟩ := g.locate_covered hne g.lso_le_leo hroom
  have hbases : ∀ i, ((l.writeRecord frame mask).heap i).base = (l.heap i).base := by
    intro i
    by_cases hi : i = l.chunkAt l.leo
    · simp [Log.writeRecord, updChunk, hi]
    · simp [Log.writeRecord, updChunk, Function.update_of_ne hi]
  have hleo := h.leo_eq
  refine ⟨by simp [Log.writeRecord, updChunk, hleo], ?_, ?_, ?_⟩
  · intro id hid'
    rw [hbases]
    exact h.one_le_base id hid'
  · intro i j hij hj
    rw [hbases, hbases]
    exact h.ordered i j hij hj
  · intro hm id hid' s hs hlt
    rw [hbases] at hlt ⊢
    have hm' : l.masked = true := hm
    have hlt' : (l.heap id).base + s < l.leo + 1 := hlt
    by_cases hoff : (l.heap id).base + s = l.leo
    · obtain ⟨rfl, rfl⟩ := g.slot_unique hid' hid hs hslot hoff hbase
      rw [hbase, markAt_append_self mask hleo]
      simp [Log.writeRecord, updChunk, hm']
    · have hkeep : ((l.writeRecord frame mask).heap id).masks s = (l.heap id).masks s := by
        by_cases hi : id = l.chunkAt l.leo
        · have hs : s ≠ l.slotOf l.leo := fun hs => hoff (by rw [hi, hs]; exact hbase)
          simp [Log.writeRecord, updChunk, hi, hm', Function.update_of_ne hs]
        · simp [Log.writeRecord, updChunk, Function.update_of_ne hi]
      rw [hkeep, h.mask_eq hm' id hid' s hs (by omega)]
      have := h.one_le_base id hid'
      rw [markAt_append_of_lt mask (by omega) (by omega)]

structure Grows (l l' : Log) : Prop where
  nextChunk : l.nextChunk ≤ l'.nextChunk
  base : ∀ id < l.nextChunk, (l'.heap id).base = (l.heap id).base

theorem Grows.trans {l₁ l₂ : Log} (e : Grows l l₁) (e' : Grows l₁ l₂) : Grows l l₂ :=
  ⟨e.1.trans e'.1, fun id hid => (e'.2 id (hid.trans_le e.1)).trans (e.2 id hid)⟩

structure Stores (l l' : Log) : Prop where
  leo : l'.leo = l.leo + 1
  lso : l'.lso = l.lso
  lwm : l'.lwm = l.lwm
  consumers : l'.consumers = l.consumers
  setup : SameSetup l l'
  grows : Grows l l'
  count : l'.trimmed = l.trimmed ∧ l'.evictedByCount = l.evictedByCount ∧
    l'.evictedByBytes = l.evictedByBytes

theorem openChunk_cases (l : Log) : ∃ fb, (l.openChunk = { l with firstBase := fb } ∨
    l.openChunk = attachChunkLocked { l with firstBase := fb }) := by
  unfold Log.openChunk
  cases h0 : l.chunks.isEmpty with
  | false =>
    refine ⟨l.firstBase, ?_⟩
    simp only [Bool.false_eq_true, if_false]
    split
    · exact Or.inr rfl
    · exact Or.inl rfl
  | true =>
    refine ⟨l.leo, ?_⟩
    simp only [if_true]
    split
    · exact Or.inr rfl
    · exact Or.inl rfl

theorem stores_writeRecord (l : Log) (frame : Bytes) (mask : Mask) :
    Stores l (l.openChunk.writeRecord frame mask) := by
  have hgrow : ∀ l₁ : Log, Grows l₁ (l₁.writeRecord frame mask) := by
    intro l₁
    refine ⟨le_rfl, fun id _ => ?_⟩
    by_cases hi : id = l₁.chunkAt l₁.leo
    · simp [Log.writeRecord, updChunk, hi]
    · simp [Log.writeRecord, updChunk, Function.update_of_ne hi]
  have hattach : ∀ fb, Grows l (attachChunkLocked { l with firstBase := fb }) := by
    intro fb
    refine ⟨Nat.le_succ _, fun id hid => ?_⟩
    simp only [attachChunkLocked]
    rw [Function.update_of_ne (by omega)]
  have hfirst : ∀ fb, Grows l { l with firstBase := fb } := fun fb => ⟨le_rfl, fun _ _ => rfl⟩
  obtain ⟨fb, heq | heq⟩ := openChunk_cases l <;> rw [heq]
  · exact ⟨rfl, rfl, rfl, rfl, ⟨rfl, rfl, rfl, rfl, rfl, rfl, rfl, rfl, rfl⟩,
      (hfirst fb).trans (hgrow _), rfl, rfl, rfl⟩
  · exact ⟨rfl, rfl, rfl, rfl, ⟨rfl, rfl, rfl, rfl, rfl, rfl, rfl, rfl, rfl⟩,
      (hattach fb).trans (hgrow _), rfl, rfl, rfl⟩

theorem Marked.openChunk (h : Marked l marks) (g : Geometry l) : Marked l.openChunk marks := by
  by_cases h0 : l.chunks = []
  · have heq : l.openChunk = attachChunkLocked { l with firstBase := l.leo } := by
      simp [Log.openChunk, h0]
    have g' : Geometry { l with firstBase := l.leo } :=
      ⟨g.1, g.2, g.3, fun h => absurd h0 h, fun h => absurd h0 h, fun h => absurd h0 h,
        fun h => absurd h0 h, fun k id hk => by simp [h0] at hk, g.full⟩
    rw [heq]
    exact Marked.attachChunk (h.congr rfl rfl rfl (fun _ => ⟨rfl, rfl⟩)) g' (by simp [h0])
  · have h1 := g.first_le h0
    have h2 := g.leo_le h0
    have h3 := g.lso_le_leo
    by_cases hroom : (l.leo - l.firstBase) / 1024 = l.chunks.length
    · have heq : l.openChunk = l.attachChunkLocked := by
        simp [Log.openChunk, h0, logChunkSlots, hroom]
      rw [heq]
      exact h.attachChunk g (by omega)
    · have heq : l.openChunk = l := by simp [Log.openChunk, h0, logChunkSlots, hroom]
      rw [heq]
      exact h

theorem LogInvariant.store (h : LogInvariant l frames marks) {frame : Bytes} (mask : Mask)
    (hsize : frame.length ≤ l.maxRecordBytes) :
    Loose (l.openChunk.writeRecord frame mask) (frames ++ [frame]) (marks ++ [mask]) := by
  obtain ⟨hst, hne, hroom, hfoot⟩ := h.stored.openChunk h.bounded
  have e := stores_writeRecord l frame mask
  have hsmall : l.openChunk.footprint frames + logFrameAccounted frame.length < 2 ^ 64 := by
    have h1 := h.bounded.footprint_lt h.stored.geometry h.stored.contents h.stored.accounting
    have h2 := logFrameAccounted_le frame.length
    have h3 := h.stored.accounting.record_le
    have h4 := h.stored.accounting.maxBytes_lt
    have h5 := h.stored.accounting.chunk_le
    omega
  have hmax : l.openChunk.maxRecordBytes = l.maxRecordBytes := by
    obtain ⟨fb, heq | heq⟩ := openChunk_cases l
    all_goals rw [heq]
    rfl
  refine ⟨(hst.writeRecord hne hroom mask (hmax ▸ hsize) hsmall).1,
    (h.marked.openChunk h.stored.geometry).writeRecord hst.geometry hne hroom frame mask, ?_, ?_, ?_,
    ?_, ?_, ?_⟩
  · rw [e.lso, e.count.1, e.count.2.1, e.count.2.2]
    exact h.counted
  · intro c hc
    rw [e.consumers] at hc
    have hcon : (l.openChunk.writeRecord frame mask).con c = l.con c := by simp [con, e.consumers]
    rw [hcon, e.leo]
    exact (h.position c hc).mono (Nat.le_succ _)
  · rw [e.lwm]
    exact h.one_le_lwm
  · rw [e.lwm, e.lso]
    exact h.lwm_le_lso
  · rw [e.consumers]
    exact h.peers
  · intro hm c hc
    rw [e.setup.allMask]
    exact h.everyone (e.setup.masked ▸ hm) c (e.consumers ▸ hc)

/-- The consumers after `skipCaughtUpLocked`, which an unmasked log does not run. -/
@[grind =] def skipAll (l : Log) (off : ℕ) (mask : Mask) : Log :=
  if l.masked then { l with consumers := l.consumers.mapIdx (skipCaughtUp off mask) } else l

theorem Position.skipCaughtUp {leo off c : ℕ} {con : LogConsumer} (mask : Mask)
    (h : Position leo con) (hoff : off < leo) : Position leo (skipCaughtUp off mask c con) := by
  unfold Log.skipCaughtUp
  split
  · exact ⟨Nat.le_add_left _ _, hoff, h.3, h.4⟩
  · exact h

theorem Loose.withConsumers (h : Loose l frames marks) {cons : List LogConsumer}
    (hlen : cons.length = l.consumers.length)
    (hpos : ∀ c < l.consumers.length, Position l.leo (con { l with consumers := cons } c)) :
    Loose { l with consumers := cons } frames marks := by
  have e : SameStore l { l with consumers := cons } :=
    ⟨rfl, rfl, rfl, rfl, rfl, rfl, rfl, rfl, rfl, rfl, rfl⟩
  refine ⟨e.stored h.stored, h.marked.congr rfl rfl rfl (fun _ => ⟨rfl, rfl⟩), h.counted, ?_,
    h.one_le_lwm, h.lwm_le_lso, ?_, ?_⟩
  · exact fun c hc => hpos c (hlen ▸ hc)
  · intro h0
    apply h.peers
    rw [← List.length_eq_zero_iff, ← hlen, List.length_eq_zero_iff]
    exact h0
  · exact fun hm c hc => h.everyone hm c (hlen ▸ hc)

theorem Loose.skipAll (h : Loose l frames marks) {off : ℕ} (hoff : off < l.leo) (mask : Mask) :
    Loose (l.skipAll off mask) frames marks := by
  unfold Log.skipAll
  split
  · refine h.withConsumers (by simp) ?_
    intro c hc
    rw [con_mapIdx l _ hc]
    exact (h.position c hc).skipCaughtUp mask hoff
  · exact h

theorem skipAll_eq_self (off : ℕ) (mask : Mask)
    (hstay : ∀ c < l.consumers.length, l.masked = true → (l.con c).committed = off →
      hasBit mask c = true) : l.skipAll off mask = l := by
  unfold Log.skipAll
  split
  · rename_i hm
    have hcons : l.consumers.mapIdx (skipCaughtUp off mask) = l.consumers := by
      refine List.ext_getElem (by simp) ?_
      intro c h1 h2
      rw [List.getElem_mapIdx, skipCaughtUp, if_neg]
      rintro ⟨hc, hb⟩
      have := hstay c h2 hm (by rw [con_eq_getElem l h2]; exact hc)
      rw [this] at hb
      cases hb
    rw [hcons]
  · rfl

private theorem hasBit_of_and_eq {mask all : Mask} (h : mask &&& all = all) {c : ℕ}
    (hc : hasBit all c = true) : hasBit mask c = true := by
  rw [hasBit_eq_getLsbD] at hc ⊢
  rw [← h, BitVec.getLsbD_and, Bool.and_eq_true] at hc
  exact hc.1

/-- The first half of `settleAppend`: skipping and trimming. -/
@[grind =] def settleSkip (l : Log) (off : ℕ) (mask : Mask) : Log × Option ClearReq :=
  if l.masked && (mask &&& l.allMask) != l.allMask then l.skipCaughtUpLocked off mask else (l, none)

theorem Loose.settleSkip (h : Loose l frames marks) (hlwm : l.lwm = l.minCommitted) {off : ℕ}
    (hoff : off < l.leo) (mask : Mask) :
    Loose (l.settleSkip off mask).1 frames marks ∧ Trims (l.skipAll off mask) (l.settleSkip off mask).1 ∧
      (l.settleSkip off mask).1.lwm = (l.settleSkip off mask).1.minCommitted ∧
      ∀ req ∈ (l.settleSkip off mask).2, ClearOk (l.settleSkip off mask).1 req := by
  have hsame : l.skipAll off mask = l → l.settleSkip off mask = (l, none) →
      Loose (l.settleSkip off mask).1 frames marks ∧
        Trims (l.skipAll off mask) (l.settleSkip off mask).1 ∧
        (l.settleSkip off mask).1.lwm = (l.settleSkip off mask).1.minCommitted ∧
        ∀ req ∈ (l.settleSkip off mask).2, ClearOk (l.settleSkip off mask).1 req := by
    intro h1 h2
    rw [h1, h2]
    exact ⟨h, h.trims_refl hlwm, hlwm, by simp⟩
  cases hcond : l.masked && (mask &&& l.allMask) != l.allMask with
  | false =>
    apply hsame
    · apply skipAll_eq_self
      intro c hc hm _
      simp only [hm, Bool.true_and, bne_eq_false_iff_eq] at hcond
      exact hasBit_of_and_eq hcond (h.everyone hm c hc)
    · simp [Log.settleSkip, hcond]
  | true =>
    have hm : l.masked = true := (Bool.and_eq_true_iff.mp hcond).1
    cases hmoved : l.consumers.zipIdx.any
        (fun p => decide (p.1.committed = off ∧ hasBit mask p.2 = false)) with
    | false =>
      apply hsame
      · apply skipAll_eq_self
        intro c hc _ hcom
        rw [List.any_eq_false] at hmoved
        have hmem : (l.con c, c) ∈ l.consumers.zipIdx := by
          rw [List.mem_zipIdx_iff_getElem?, con_eq_getElem l hc]
          exact List.getElem?_eq_getElem hc
        have hno := hmoved _ hmem
        simp only [decide_eq_true_eq, not_and, Bool.not_eq_false] at hno
        exact hno hcom
      · simp only [Log.settleSkip, hcond, if_true, skipCaughtUpLocked, hmoved, Bool.false_eq_true,
          if_false]
    | true =>
      have heq : l.settleSkip off mask = (l.skipAll off mask).updateLWMLocked := by
        rw [Log.settleSkip, if_pos hcond, skipCaughtUpLocked, Log.skipAll, if_pos hm]
        simp only [hmoved, if_true]
      have h' := h.skipAll hoff mask
      rw [heq]
      obtain ⟨h1, h2, -, h4⟩ := h'.updateLWM
      exact ⟨h1, h'.trims, h2, h4⟩

/-- `l'` is `l` after a record with `mask` was appended and `k` records were evicted
for it. -/
structure Appends (marks : List Mask) (mask : Mask) (k : ℕ) (l l' : Log) : Prop where
  leo : l'.leo = l.leo + 1
  lso : l'.lso = max l.lso (l.skipAll l.leo mask).minCommitted + k
  kept : k = 0 ∨ l'.lso ≤ l.leo
  consumers : l'.consumers = (l.skipAll l.leo mask).consumers.mapIdx
    (evictCharges l.masked (marks ++ [mask]) k (max l.lso (l.skipAll l.leo mask).minCommitted))
  setup : SameSetup l l'
  grows : Grows l l'
  count : l'.evictedByCount + l'.evictedByBytes = l.evictedByCount + l.evictedByBytes + k

theorem skipAll_consumers (l : Log) (off : ℕ) (mask : Mask) : (l.skipAll off mask).consumers =
    if l.masked then l.consumers.mapIdx (skipCaughtUp off mask) else l.consumers := by
  unfold Log.skipAll
  split <;> rfl

theorem minCommitted_eq_map (l : Log) : l.minCommitted = match l.consumers.map LogConsumer.committed with
    | [] => 2 ^ 64 - 1
    | m :: ms => ms.foldl min m := by
  unfold minCommitted
  cases l.consumers with
  | nil => rfl
  | cons con cons => simp only [List.map_cons, List.foldl_map]

theorem minCommitted_congr {l l' : Log}
    (h : l'.consumers.map LogConsumer.committed = l.consumers.map LogConsumer.committed) :
    l'.minCommitted = l.minCommitted := by
  rw [minCommitted_eq_map, minCommitted_eq_map, h]

private theorem accountEvict_committed (x : ℕ) (mask : Mask) (c : ℕ) (con : LogConsumer) :
    (accountEvict x mask c con).committed = con.committed := by
  unfold accountEvict
  split <;> rfl

theorem evictCharges_committed (masked : Bool) (marks : List Mask) (k x c : ℕ) (con : LogConsumer) :
    (evictCharges masked marks k x c con).committed = con.committed := by
  have hrange : ∀ k x con, (chargeRange marks k x c con).committed = con.committed := by
    intro k
    induction k with
    | zero => exact fun _ _ => rfl
    | succ k ih =>
      intro x con
      rw [chargeRange, ih, accountEvict_committed]
  unfold evictCharges
  split
  · exact hrange k x con
  · rfl

theorem skipAll_congr {l l' : Log} (hc : l'.consumers = l.consumers) (hm : l'.masked = l.masked)
    (off : ℕ) (mask : Mask) : (l'.skipAll off mask).consumers = (l.skipAll off mask).consumers := by
  rw [skipAll_consumers, skipAll_consumers, hc, hm]

theorem skipAll_fields (l : Log) (off : ℕ) (mask : Mask) :
    SameSetup l (l.skipAll off mask) ∧ (l.skipAll off mask).leo = l.leo ∧
      (l.skipAll off mask).lso = l.lso ∧ (l.skipAll off mask).heap = l.heap ∧
      (l.skipAll off mask).nextChunk = l.nextChunk ∧
      (l.skipAll off mask).evictedByCount = l.evictedByCount ∧
      (l.skipAll off mask).evictedByBytes = l.evictedByBytes := by
  unfold Log.skipAll
  split <;> exact ⟨⟨rfl, rfl, rfl, rfl, rfl, rfl, rfl, rfl, rfl⟩, rfl, rfl, rfl, rfl, rfl, rfl⟩

/-- The second half of `settleAppend`: the record at `off` always stays. -/
@[grind =] def settleEvict (l : Log) (off : ℕ) : Log :=
  if l.leo - l.lso > l.maxMessages ∨ l.bytes > l.maxBytes then l.evictLocked off else l

private theorem settleAppend_eq (l : Log) (off : ℕ) (mask : Mask) : l.settleAppend off mask =
    ((l.settleSkip off mask).1.settleEvict off, (l.settleSkip off mask).2) := by
  rw [settleAppend, ← Log.settleSkip]
  simp only [settleEvict]
  split <;> rfl

theorem Loose.settleEvict (h : Loose l frames marks) {off : ℕ} (hoff : l.leo = off + 1) :
    ∃ k, Evicts marks k l (l.settleEvict off) ∧ Loose (l.settleEvict off) frames marks ∧
      Bounded (l.settleEvict off) frames ∧ (k = 0 ∨ (l.settleEvict off).lso ≤ off) := by
  unfold Log.settleEvict
  split
  · by_cases hlso : l.lso ≤ off
    · obtain ⟨k, hk, e, h', hstop⟩ := h.evictLoop (n := off - l.lso) (by omega)
      have hl := e.lso
      have hleo := e.leo
      refine ⟨k, e, h', ?_, ?_⟩
      · rcases hstop with hall | hbytes
        · right
          rw [evictLocked]
          omega
        · left
          rw [evictLocked, ← h'.stored.accounting.bytes_eq, e.setup.maxBytes]
          exact hbytes
      · right
        rw [evictLocked]
        omega
    · have heq : l.evictLocked off = l := by
        rw [evictLocked, show off - l.lso = 0 by omega]
        rfl
      rw [heq]
      exact ⟨0, Evicts.refl marks l, h, Or.inr (by omega), Or.inl rfl⟩
  · rename_i hb
    refine ⟨0, Evicts.refl marks l, h, Or.inl ?_, Or.inl rfl⟩
    rw [← h.stored.accounting.bytes_eq]
    omega

/-- The accepted branch of `AppendMask` on a log with consumers. -/
theorem LogInvariant.storeAndSettle (h : LogInvariant l frames marks) {frame : Bytes} (mask : Mask)
    (hsize : frame.length ≤ l.maxRecordBytes) :
    let r := (l.openChunk.writeRecord frame mask).settleAppend l.leo mask
    LogInvariant r.1 (frames ++ [frame]) (marks ++ [mask]) ∧
      (∃ k, Appends marks mask k l r.1) ∧ ∀ req ∈ r.2, ClearOk r.1 req := by
  have hl₁ := h.store mask hsize
  have e₁ := stores_writeRecord l frame mask
  generalize hl₁eq : l.openChunk.writeRecord frame mask = l₁ at hl₁ e₁
  have hlwm : l₁.lwm = l₁.minCommitted := by
    rw [e₁.lwm, h.lwm_eq]
    exact (minCommitted_congr (by rw [e₁.consumers])).symm
  have hleo := e₁.leo
  obtain ⟨h₂, e₂, hlwm₂, hclear⟩ := hl₁.settleSkip hlwm (show l.leo < l₁.leo by omega) mask
  obtain ⟨f₁, f₂, f₃, f₄, f₅, f₆, f₇⟩ := skipAll_fields l₁ l.leo mask
  have hleo₂ : (l₁.settleSkip l.leo mask).1.leo = l.leo + 1 := by rw [e₂.leo, f₂, hleo]
  obtain ⟨k, e₃, h₃, hb, hkept⟩ := h₂.settleEvict hleo₂
  have hmin : (l₁.skipAll l.leo mask).minCommitted = (l.skipAll l.leo mask).minCommitted :=
    minCommitted_congr (by rw [skipAll_congr e₁.consumers e₁.setup.masked])
  have hlso₂ : (l₁.settleSkip l.leo mask).1.lso = max l.lso (l.skipAll l.leo mask).minCommitted := by
    rw [e₂.lso, f₃, e₁.lso, hmin]
  have hmasked₂ : (l₁.settleSkip l.leo mask).1.masked = l.masked :=
    e₂.setup.masked.trans (f₁.masked.trans e₁.setup.masked)
  intro r
  have hr : r = ((l₁.settleSkip l.leo mask).1.settleEvict l.leo, (l₁.settleSkip l.leo mask).2) :=
    settleAppend_eq l₁ l.leo mask
  rw [hr]
  refine ⟨⟨h₃, hb, ?_⟩, ⟨k, ?_⟩, ?_⟩
  · rw [e₃.lwm, hlwm₂]
    refine (minCommitted_congr ?_).symm
    rw [e₃.consumers]
    refine List.ext_getElem (by simp) ?_
    intro c h1 h2
    simp [evictCharges_committed]
  · constructor
    case leo => rw [e₃.leo, e₂.leo, f₂, e₁.leo]
    case lso => rw [e₃.lso, hlso₂]
    case kept => exact hkept
    case consumers =>
      rw [e₃.consumers, e₂.consumers, hlso₂, hmasked₂,
        skipAll_congr e₁.consumers e₁.setup.masked]
    case setup => exact e₁.setup.trans (f₁.trans (e₂.setup.trans e₃.setup))
    case grows =>
      refine e₁.grows.trans ⟨?_, ?_⟩
      · rw [e₃.nextChunk, e₂.nextChunk, f₅]
      · intro id _
        rw [(e₃.heap id).1, e₂.heap, f₄]
    case count =>
      have h1 := e₃.count
      rw [e₂.count.1, e₂.count.2, f₆, f₇, e₁.count.2.1, e₁.count.2.2] at h1
      exact h1
  · intro req hreq
    have hc := hclear req hreq
    refine ⟨by simp only [e₃.nextChunk]; exact hc.chunk_lt, ?_⟩
    simp only [(e₃.heap _).1, e₃.lso]
    exact Nat.le_add_right_of_le hc.below

end Append

private theorem hasBit_ofNat_two_pow_sub_one {n c : ℕ} (hn : n < 64) (hc : c < n) :
    hasBit (BitVec.ofNat 64 (2 ^ n - 1)) c = true := by
  rw [hasBit_eq_getLsbD, BitVec.getLsbD_ofNat, Nat.testBit_two_pow_sub_one]
  simp [hc, hc.trans hn]

private theorem minCommitted_of_forall {l : Log} (hne : l.consumers ≠ []) {m : ℕ}
    (h : ∀ c < l.consumers.length, (l.con c).committed = m) : l.minCommitted = m := by
  obtain ⟨c, hc, heq⟩ := exists_minCommitted l hne
  rw [heq, h c hc]

theorem newLog_eq {epoch : ℕ} {cfg : LogConfig} {l : Log} (h : newLog epoch cfg = .ok l) :
    l.masked = cfg.masked ∧ l.consumers = cfg.consumers.map newLogConsumer := by
  unfold newLog at h
  simp only at h
  split at h
  · cases h
  · simp only [Except.ok.injEq] at h
    subst h
    exact ⟨rfl, rfl⟩

theorem newLog_con {epoch : ℕ} {cfg : LogConfig} {l : Log} (h : newLog epoch cfg = .ok l) :
    l.consumers.length = cfg.consumers.length ∧ ∀ c < cfg.consumers.length,
      l.con c = newLogConsumer (cfg.consumers.getD c "") := by
  obtain ⟨-, hcons⟩ := newLog_eq h
  have hlen : l.consumers.length = cfg.consumers.length := by rw [hcons, List.length_map]
  refine ⟨hlen, fun c hc => ?_⟩
  rw [con_eq_getElem l (hlen ▸ hc)]
  simp only [hcons, List.getElem_map]
  rw [List.getD_eq_getElem _ _ hc]

theorem newLog_valid {epoch : ℕ} {cfg : LogConfig} {l : Log} (h : newLog epoch cfg = .ok l) :
    LogInvariant l [] [] ∨ Idle l [] [] := by
  have hcon := (newLog_con h).2
  unfold newLog at h
  simp only at h
  split at h
  · cases h
  rename_i hguard
  simp only [Except.ok.injEq] at h
  subst h
  by_cases hne : cfg.consumers = []
  · right
    exact ⟨by simp [hne], rfl, rfl, rfl, rfl, rfl, rfl, rfl, rfl, rfl, rfl⟩
  · left
    have hmax : orDefault cfg.maxBytes logDefaultMaxBytes < 2 ^ 63 := by
      have := cfg.maxBytes_lt
      unfold orDefault logDefaultMaxBytes
      split <;> omega
    refine ⟨⟨⟨?_, ?_, ?_⟩, ?_, rfl, ?_, le_rfl, le_rfl, by simpa using hne, ?_⟩, Or.inr (by simp), ?_⟩
    · exact ⟨le_rfl, le_rfl, fun _ => rfl, fun h => absurd rfl h, fun h => absurd rfl h,
        fun h => absurd rfl h, fun h => absurd rfl h, by simp, by simp⟩
    · exact ⟨rfl, by simp, by simp, by simp, rfl, by simp⟩
    · refine ⟨rfl, by simp [footprint, accBefore], hmax, ?_, ?_⟩
      · simp only
        split <;> omega
      · simp only [logChunkBytes, logMasksBytes]
        split <;> omega
    · exact ⟨rfl, by simp, by simp, by simp⟩
    · intro c hc
      rw [hcon c (by simpa using hc)]
      exact ⟨le_rfl, le_rfl, le_rfl, le_rfl⟩
    · intro hm c hc
      simp only at hm
      simp only [List.length_map] at hc
      simp only [hm, Bool.true_and, decide_eq_true_eq, not_lt] at hguard
      simp only
      split
      · rw [hasBit_eq_getLsbD, BitVec.getLsbD_allOnes]
        simp only [decide_eq_true_eq]
        omega
      · exact hasBit_ofNat_two_pow_sub_one (by omega) hc
    · refine (minCommitted_of_forall (by simpa using hne) ?_).symm
      intro c hc
      rw [hcon c (by simpa using hc)]
      rfl

end Log
end MonsterMQ.PeerLink
