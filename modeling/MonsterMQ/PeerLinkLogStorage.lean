import Mathlib.Tactic.Linarith
import MonsterMQ.PeerLinkLog

/-!
# What the chunks of the log hold

`Geometry` relates the attached chunks to `lso` and `leo`, `Contents` fixes every slot and cumulative sum of
every chunk ever allocated, and `Accounting` ties the byte counter to both.
-/

namespace MonsterMQ.PeerLink
namespace Log

open LittleEndian List

/-- Accounted bytes of the first `x - 1` appended frames, the ones below offset `x`. -/
@[grind =] def accBefore (frames : List Bytes) (x : ℕ) : ℕ :=
  ((frames.take (x - 1)).map (fun f => logFrameAccounted f.length)).sum

theorem accBefore_mono (frames : List Bytes) {x y : ℕ} (h : x ≤ y) :
    accBefore frames x ≤ accBefore frames y := by
  have hy : y - 1 = (x - 1) + (y - 1 - (x - 1)) := by omega
  rw [accBefore, accBefore, hy, take_add, map_append, sum_append]
  exact Nat.le_add_right _ _

theorem accBefore_succ (frames : List Bytes) {x : ℕ} {f : Bytes} (hx : 1 ≤ x) (hf : frames[x - 1]? = some f) :
    accBefore frames (x + 1) = accBefore frames x + logFrameAccounted f.length := by
  obtain ⟨hlt, rfl⟩ := List.getElem?_eq_some_iff.mp hf
  obtain ⟨k, rfl⟩ : ∃ k, x = k + 1 := ⟨x - 1, by omega⟩
  simp only [accBefore, Nat.add_sub_cancel] at hlt ⊢
  rw [take_add_one, List.getElem?_eq_getElem hlt, Option.toList_some, map_append,
    sum_append, map_singleton, sum_singleton]

theorem accBefore_append (frames : List Bytes) (f : Bytes) {x : ℕ} (h : x ≤ frames.length + 1) :
    accBefore (frames ++ [f]) x = accBefore frames x := by
  unfold accBefore
  rw [take_append_of_le_length (by omega)]

structure Geometry (l : Log) : Prop where
  one_le_lso : 1 ≤ l.lso
  lso_le_leo : l.lso ≤ l.leo
  empty : l.chunks = [] → l.lso = l.leo
  first_le : l.chunks ≠ [] → l.firstBase ≤ l.lso
  lso_lt : l.chunks ≠ [] → l.lso < l.firstBase + 1024
  last_le : l.chunks ≠ [] → l.firstBase + 1024 * l.chunks.length ≤ l.leo + 1024
  leo_le : l.chunks ≠ [] → l.leo ≤ l.firstBase + 1024 * l.chunks.length
  attached : ∀ k id, l.chunks[k]? = some id →
    id < l.nextChunk ∧ (l.heap id).base = l.firstBase + 1024 * k
  full : ∀ id < l.nextChunk, (l.heap id).base + 1024 ≤ l.leo ∨ l.chunks.getLast? = some id

/-- What every slot of every chunk ever allocated holds. -/
structure Contents (l : Log) (frames : List Bytes) : Prop where
  leo_eq : l.leo = frames.length + 1
  live : ∀ id < l.nextChunk, ∀ s < 1024, l.lso ≤ (l.heap id).base + s →
    (l.heap id).base + s < l.leo → (l.heap id).slots s = frames[(l.heap id).base + s - 1]?
  held : ∀ id < l.nextChunk, ∀ s < 1024, ∀ f, (l.heap id).slots s = some f →
    frames[(l.heap id).base + s - 1]? = some f
  cum : ∀ id < l.nextChunk, ∀ s < 1024, (l.heap id).base + s < l.leo →
    (l.heap id).cum s = accBefore frames ((l.heap id).base + s) % 2 ^ 64
  total : l.total = accBefore frames l.leo % 2 ^ 64
  sizes : ∀ f ∈ frames, f.length ≤ l.maxRecordBytes

/-- The accounted footprint: the records in `[lso, leo)` and the attached chunks. -/
@[grind =] def footprint (l : Log) (frames : List Bytes) : ℕ :=
  accBefore frames l.leo - accBefore frames l.lso + l.chunkBytes * l.chunks.length

structure Accounting (l : Log) (frames : List Bytes) : Prop where
  bytes_eq : l.bytes = l.footprint frames
  small : l.footprint frames < 2 ^ 64
  maxBytes_lt : l.maxBytes < 2 ^ 63
  record_le : 4 * l.maxRecordBytes ≤ l.maxBytes
  chunk_le : l.chunkBytes ≤ 24576

/-- What eviction restores at the end of every append. -/
def Bounded (l : Log) (frames : List Bytes) : Prop :=
  l.footprint frames ≤ l.maxBytes ∨ l.leo ≤ l.lso + 1

section Locate
variable {l : Log} {frames : List Bytes}

/-- An offset that the attached chunks cover is found by `chunkAt` and `slotOf`. -/
theorem Geometry.locate_covered (g : Geometry l) {x : ℕ} (hne : l.chunks ≠ []) (hl : l.lso ≤ x)
    (hx : x < l.firstBase + 1024 * l.chunks.length) :
    l.chunks[(x - l.firstBase) / 1024]? = some (l.chunkAt x) ∧ l.chunkAt x < l.nextChunk ∧
      (l.heap (l.chunkAt x)).base + l.slotOf x = x ∧ l.slotOf x < 1024 := by
  have h1 := g.first_le hne
  have hk : (x - l.firstBase) / 1024 < l.chunks.length := by omega
  have hget : l.chunks[(x - l.firstBase) / 1024]? = some (l.chunkAt x) := by
    rw [chunkAt, logChunkSlots, getD_eq_getElem?_getD, List.getElem?_eq_getElem hk]
    rfl
  obtain ⟨hid, hbase⟩ := g.attached _ _ hget
  refine ⟨hget, hid, ?_, Nat.mod_lt _ (by decide)⟩
  rw [hbase, slotOf, logChunkSlots]
  omega

/-- Every offset in `[lso, leo)` has an attached chunk. -/
theorem Geometry.locate (g : Geometry l) {x : ℕ} (hl : l.lso ≤ x) (hx : x < l.leo) :
    l.chunks[(x - l.firstBase) / 1024]? = some (l.chunkAt x) ∧ l.chunkAt x < l.nextChunk ∧
      (l.heap (l.chunkAt x)).base + l.slotOf x = x ∧ l.slotOf x < 1024 := by
  have hne : l.chunks ≠ [] := fun h => by have := g.empty h; omega
  exact g.locate_covered hne hl (hx.trans_le (g.leo_le hne))

theorem frameAt_eq (g : Geometry l) (c : Contents l frames) {x : ℕ} (hl : l.lso ≤ x)
    (hx : x < l.leo) : l.frameAt x = frames[x - 1]? := by
  obtain ⟨-, hid, hbase, hs⟩ := g.locate hl hx
  rw [frameAt, c.live _ hid _ hs (by omega) (by omega), hbase]

theorem cumAtLocked_eq (g : Geometry l) (c : Contents l frames) {x : ℕ} (hl : l.lso ≤ x)
    (hx : x ≤ l.leo) : l.cumAtLocked x = accBefore frames x % 2 ^ 64 := by
  unfold cumAtLocked
  split
  · rename_i h
    rw [c.total, h]
  · obtain ⟨-, hid, hbase, hs⟩ := g.locate hl (by omega)
    rw [c.cum _ hid _ hs (by omega), hbase]

theorem Geometry.slot_unique (g : Geometry l) {id id' s s' : ℕ} (hid : id < l.nextChunk)
    (hid' : id' < l.nextChunk) (hs : s < 1024) (hs' : s' < 1024)
    (hleo : (l.heap id).base + s = l.leo) (hleo' : (l.heap id').base + s' = l.leo) : id = id' ∧ s = s' := by
  have h1 : l.chunks.getLast? = some id := by
    rcases g.full id hid with h | h
    · omega
    · exact h
  have h2 : l.chunks.getLast? = some id' := by
    rcases g.full id' hid' with h | h
    · omega
    · exact h
  have hid_eq : id = id' := Option.some.inj (h1.symm.trans h2)
  subst hid_eq
  exact ⟨rfl, by omega⟩

private theorem accBefore_step (c : Contents l frames) {x : ℕ} (h1 : 1 ≤ x) (hx : x < l.leo) :
    ∃ f ∈ frames, accBefore frames (x + 1) = accBefore frames x + logFrameAccounted f.length := by
  have hlt : x - 1 < frames.length := by have := c.leo_eq; omega
  exact ⟨frames[x - 1], getElem_mem hlt,
    accBefore_succ frames h1 (List.getElem?_eq_getElem hlt)⟩

end Locate

theorem detachLoop_spec (lso fb : ℕ) (cks : List ℕ) :
    ∃ k ≤ cks.length, detachLoop lso fb cks = (fb + 1024 * k, cks.drop k) ∧
      (0 < k → fb + 1024 * k ≤ lso) ∧ (k < cks.length → lso < fb + 1024 * k + 1024) := by
  induction cks generalizing fb with
  | nil => exact ⟨0, le_rfl, rfl, by omega, by simp⟩
  | cons ck cks ih =>
    by_cases h : lso - fb ≥ 1024
    · obtain ⟨k, hk, heq, hpos, hlt⟩ := ih (fb + 1024)
      refine ⟨k + 1, by simpa using hk, ?_, ?_, ?_⟩
      · simp only [detachLoop, logChunkSlots, h, if_true, heq, drop_succ_cons]
        congr 1
        omega
      · intro _
        rcases Nat.eq_zero_or_pos k with rfl | hk0
        · omega
        · have hle := hpos hk0
          linarith
      · intro hlen
        have := hlt (by simpa using hlen)
        omega
    · refine ⟨0, by simp, ?_, by omega, by intro; omega⟩
      simp only [detachLoop, logChunkSlots, h, if_false]
      simp

/-- `detachLocked` drops `k` whole chunks and uncharges them. -/
theorem detachLocked_spec (l : Log) : ∃ k ≤ l.chunks.length, l.detachLocked = { l with
        firstBase := l.firstBase + 1024 * k
        chunks := l.chunks.drop k
        bytes := if k > 0 then sub64 l.bytes (k * l.chunkBytes) else l.bytes } ∧
      (0 < k → l.firstBase + 1024 * k ≤ l.lso) ∧
      (k < l.chunks.length → l.lso < l.firstBase + 1024 * k + 1024) := by
  obtain ⟨k, hk, heq, hpos, hlt⟩ := detachLoop_spec l.lso l.firstBase l.chunks
  refine ⟨k, hk, ?_, hpos, hlt⟩
  simp only [detachLocked, heq, length_drop]
  rw [Nat.sub_sub_self hk]

/-- Nothing is detached while the first chunk still holds `lso`. -/
theorem detachLocked_of_lt (l : Log) (h : ¬ l.lso - l.firstBase ≥ logChunkSlots) : l.detachLocked = l := by
  have hloop : detachLoop l.lso l.firstBase l.chunks = (l.firstBase, l.chunks) := by
    cases l.chunks with
    | nil => rfl
    | cons ck cks => simp only [detachLoop, h, if_false]
  simp [detachLocked, hloop]

theorem sub64_of_le {a b : ℕ} (h : b ≤ a) (ha : a < 2 ^ 64) : sub64 a b = a - b := by
  unfold sub64
  omega

theorem add64_of_lt {a b : ℕ} (h : a + b < 2 ^ 64) : add64 a b = a + b := Nat.mod_eq_of_lt h

theorem sub64_mod {a b : ℕ} (h : b ≤ a) (hlt : a - b < 2 ^ 64) : sub64 (a % 2 ^ 64) (b % 2 ^ 64) = a - b := by
  unfold sub64
  omega

/-- Raise `lso` to `y`, uncharge the records below it and detach their chunks: the
common part of a trim and an eviction. -/
@[grind =] def advanceTo (l : Log) (y : ℕ) : Log :=
  detachLocked { l with bytes := sub64 l.bytes (sub64 (l.cumAtLocked y) (l.cumAtLocked l.lso)), lso := y }

section Advance
variable {l : Log} {frames : List Bytes} {y : ℕ}

theorem Geometry.length_le_two (g : Geometry l) (h : l.leo ≤ l.lso + 1) : l.chunks.length ≤ 2 := by
  by_cases h0 : l.chunks = []
  · simp [h0]
  · have := g.lso_lt h0
    have := g.last_le h0
    omega

theorem Bounded.footprint_lt (h : Bounded l frames) (g : Geometry l) (c : Contents l frames)
    (a : Accounting l frames) : l.footprint frames < 2 ^ 63 := by
  have hmax := a.maxBytes_lt
  rcases h with h | h
  · omega
  · have hrec := a.record_le
    have hchunk : l.chunkBytes * l.chunks.length ≤ 24576 * 2 :=
      Nat.mul_le_mul a.chunk_le (g.length_le_two h)
    have hacc : accBefore frames l.leo - accBefore frames l.lso ≤ l.maxRecordBytes + 32768 := by
      have hle := g.lso_le_leo
      rcases Nat.lt_or_ge l.lso l.leo with hlt | hge
      · obtain ⟨f, hf, heq⟩ := accBefore_step c g.one_le_lso hlt
        have hleo : l.leo = l.lso + 1 := by omega
        have := logFrameAccounted_le f.length
        have := c.sizes f hf
        rw [hleo, heq]
        omega
      · have hleo : l.leo = l.lso := by omega
        rw [hleo]
        omega
    unfold footprint
    omega

theorem Geometry.advance (g : Geometry l) (hlo : l.lso ≤ y) (hhi : y ≤ l.leo) {k : ℕ}
    (hk : k ≤ l.chunks.length) (b : ℕ) (hpos : 0 < k → l.firstBase + 1024 * k ≤ y)
    (hlt : k < l.chunks.length → y < l.firstBase + 1024 * k + 1024) : Geometry { l with
      firstBase := l.firstBase + 1024 * k, chunks := l.chunks.drop k, lso := y, bytes := b } := by
  have hone := g.one_le_lso
  have hne : l.chunks.drop k ≠ [] → l.chunks ≠ [] ∧ k < l.chunks.length := by
    intro h
    have hlen : k < l.chunks.length := by
      by_contra hge
      exact h (drop_eq_nil_of_le (by omega))
    exact ⟨fun h0 => by simp [h0] at hlen, hlen⟩
  constructor
  case one_le_lso => exact hone.trans hlo
  case lso_le_leo => exact hhi
  case empty =>
    intro h
    -- every chunk is gone, so the last one ended at `leo` and `lso` reached it
    have hge : l.chunks.length ≤ k := drop_eq_nil_iff.mp h
    by_cases h0 : l.chunks = []
    · have := g.empty h0
      dsimp only
      omega
    · have hlen : 0 < l.chunks.length := length_pos_iff.mpr h0
      have h1 := hpos (by omega)
      have h2 := g.leo_le h0
      have hk' : k = l.chunks.length := by omega
      dsimp only
      omega
  case first_le =>
    intro h
    have := g.first_le (hne h).1
    dsimp only
    rcases Nat.eq_zero_or_pos k with rfl | hk0
    · omega
    · exact hpos hk0
  case lso_lt => exact fun h => hlt (hne h).2
  case last_le =>
    intro h
    have := g.last_le (hne h).1
    simp only [length_drop]
    omega
  case leo_le =>
    intro h
    have := g.leo_le (hne h).1
    simp only [length_drop]
    omega
  case attached =>
    intro j id hj
    rw [List.getElem?_drop] at hj
    obtain ⟨hid, hb⟩ := g.attached _ _ hj
    refine ⟨hid, ?_⟩
    dsimp only
    omega
  case full =>
    intro id hid
    rcases g.full id hid with h | h
    · exact Or.inl h
    by_cases hlen : k < l.chunks.length
    · right
      rw [List.getLast?_drop, if_neg (by omega)]
      exact h
    · left
      have h0 : l.chunks ≠ [] := fun h0 => by simp [h0] at h
      have hlen0 : 0 < l.chunks.length := length_pos_iff.mpr h0
      rw [List.getLast?_eq_getElem?] at h
      obtain ⟨-, hb⟩ := g.attached _ _ h
      have := hpos (by omega)
      dsimp only
      omega

theorem Contents.advance (c : Contents l frames) (hlo : l.lso ≤ y) (fb : ℕ) (cks : List ℕ) (b : ℕ) :
    Contents { l with firstBase := fb, chunks := cks, lso := y, bytes := b } frames :=
  ⟨c.leo_eq, fun id hid s hs h => c.live id hid s hs (hlo.trans h), c.held, c.cum, c.total, c.sizes⟩

/-- `advanceTo` uncharges exactly what it drops. -/
theorem Accounting.advance (g : Geometry l) (c : Contents l frames) (a : Accounting l frames)
    (hlo : l.lso ≤ y) (hhi : y ≤ l.leo) {k : ℕ} (hk : k ≤ l.chunks.length) : Accounting { l with
      firstBase := l.firstBase + 1024 * k
      chunks := l.chunks.drop k
      lso := y
      bytes := if k > 0 then sub64 (sub64 l.bytes (sub64 (l.cumAtLocked y) (l.cumAtLocked l.lso)))
        (k * l.chunkBytes) else sub64 l.bytes (sub64 (l.cumAtLocked y) (l.cumAtLocked l.lso)) }
      frames := by
  have hlt := a.small
  have h1 := accBefore_mono frames hlo
  have h2 := accBefore_mono frames hhi
  have hmul : l.chunkBytes * l.chunks.length =
      l.chunkBytes * (l.chunks.length - k) + k * l.chunkBytes := by
    rw [Nat.mul_comm k, ← Nat.mul_add, Nat.sub_add_cancel hk]
  have hfoot : l.footprint frames = accBefore frames l.leo - accBefore frames l.lso +
      l.chunkBytes * l.chunks.length := rfl
  have hcum : sub64 (l.cumAtLocked y) (l.cumAtLocked l.lso) =
      accBefore frames y - accBefore frames l.lso := by
    rw [cumAtLocked_eq g c hlo hhi, cumAtLocked_eq g c le_rfl (hlo.trans hhi)]
    exact sub64_mod h1 (by omega)
  have hbytes : (if k > 0 then sub64 (sub64 l.bytes (accBefore frames y - accBefore frames l.lso))
      (k * l.chunkBytes) else sub64 l.bytes (accBefore frames y - accBefore frames l.lso)) =
        accBefore frames l.leo - accBefore frames y + l.chunkBytes * (l.chunks.length - k) := by
    rw [a.bytes_eq, sub64_of_le (b := accBefore frames y - _) (by omega) (by omega)]
    split
    · rw [sub64_of_le (by omega) (by omega)]
      omega
    · rename_i hk0
      have hk0 : k = 0 := by omega
      subst hk0
      omega
  refine ⟨?_, ?_, a.maxBytes_lt, a.record_le, a.chunk_le⟩
  · simp only [hcum, hbytes, footprint, length_drop]
  · simp only [footprint, length_drop]
    omega

theorem Bounded.advance (h : Bounded l frames) (hlo : l.lso ≤ y) {k : ℕ} (fb b : ℕ) :
    Bounded { l with firstBase := fb, chunks := l.chunks.drop k, lso := y, bytes := b } frames := by
  rcases h with h | h
  · left
    have h1 := accBefore_mono frames hlo
    have h2 : l.chunkBytes * (l.chunks.drop k).length ≤ l.chunkBytes * l.chunks.length :=
      Nat.mul_le_mul_left _ (by simp)
    simp only [footprint] at h ⊢
    omega
  · right
    dsimp only
    omega

structure Stored (l : Log) (frames : List Bytes) : Prop where
  geometry : Geometry l
  contents : Contents l frames
  accounting : Accounting l frames

theorem Stored.advanceTo (h : Stored l frames) (hlo : l.lso ≤ y) (hhi : y ≤ l.leo) :
    Stored (l.advanceTo y) frames := by
  obtain ⟨k, hk, heq, hpos, hlt⟩ := detachLocked_spec { l with
    bytes := sub64 l.bytes (sub64 (l.cumAtLocked y) (l.cumAtLocked l.lso)), lso := y }
  rw [Log.advanceTo, heq]
  exact ⟨h.geometry.advance hlo hhi hk _ hpos hlt, h.contents.advance hlo _ _ _,
    h.accounting.advance h.geometry h.contents hlo hhi hk⟩

theorem Bounded.advanceTo (h : Bounded l frames) (hlo : l.lso ≤ y) : Bounded (l.advanceTo y) frames := by
  obtain ⟨k, hk, heq, hpos, hlt⟩ := detachLocked_spec { l with
    bytes := sub64 l.bytes (sub64 (l.cumAtLocked y) (l.cumAtLocked l.lso)), lso := y }
  rw [Log.advanceTo, heq]
  exact h.advance hlo _ _

end Advance

structure SameStore (l l' : Log) : Prop where
  heap : l'.heap = l.heap
  nextChunk : l'.nextChunk = l.nextChunk
  chunks : l'.chunks = l.chunks
  firstBase : l'.firstBase = l.firstBase
  lso : l'.lso = l.lso
  leo : l'.leo = l.leo
  bytes : l'.bytes = l.bytes
  total : l'.total = l.total
  maxBytes : l'.maxBytes = l.maxBytes
  maxRecordBytes : l'.maxRecordBytes = l.maxRecordBytes
  chunkBytes : l'.chunkBytes = l.chunkBytes

theorem SameStore.stored {l l' : Log} {frames : List Bytes} (e : SameStore l l')
    (h : Stored l frames) : Stored l' frames := by
  obtain ⟨h1, h2, h3, h4, h5, h6, h7, h8, h9, h10, h11⟩ := e
  obtain ⟨g, c, a⟩ := h
  cases l'
  dsimp only at h1 h2 h3 h4 h5 h6 h7 h8 h9 h10 h11
  subst h1 h2 h3 h4 h5 h6 h7 h8 h9 h10 h11
  exact ⟨⟨g.1, g.2, g.3, g.4, g.5, g.6, g.7, g.8, g.9⟩, ⟨c.1, c.2, c.3, c.4, c.5, c.6⟩,
    ⟨a.1, a.2, a.3, a.4, a.5⟩⟩

theorem SameStore.footprint {l l' : Log} (e : SameStore l l') (frames : List Bytes) :
    l'.footprint frames = l.footprint frames := by
  simp only [Log.footprint, e.leo, e.lso, e.chunkBytes, e.chunks]

theorem SameStore.bounded {l l' : Log} {frames : List Bytes} (e : SameStore l l')
    (h : Bounded l frames) : Bounded l' frames := by
  unfold Bounded
  rwa [e.footprint, e.maxBytes, e.leo, e.lso]

section Store
variable {l : Log} {frames : List Bytes}

section

variable (h : Stored l frames)
include h

theorem Stored.attachChunk (hb : Bounded l frames)
    (hleo : l.leo = l.firstBase + 1024 * l.chunks.length) : Stored l.attachChunkLocked frames := by
  obtain ⟨g, c, a⟩ := h
  have hold : ∀ id < l.nextChunk, l.attachChunkLocked.heap id = l.heap id := fun id hid =>
    Function.update_of_ne (by omega) _ _
  have hnew : l.attachChunkLocked.heap l.nextChunk = LogChunk.new l.leo := by
    simp only [attachChunkLocked, Function.update_self, logChunkSlots, ← hleo]
  have hsplit : ∀ id < l.nextChunk + 1, id < l.nextChunk ∨ id = l.nextChunk := by omega
  have hlt := hb.footprint_lt g c a
  have hchunk := a.chunk_le
  refine ⟨?_, ?_, ?_⟩
  · constructor
    case one_le_lso => exact g.one_le_lso
    case lso_le_leo => exact g.lso_le_leo
    case empty => exact fun h => by simp [attachChunkLocked] at h
    case first_le =>
      intro _
      by_cases h0 : l.chunks = []
      · have := g.empty h0
        simp only [h0, length_nil, Nat.mul_zero] at hleo
        simp only [attachChunkLocked]
        omega
      · exact g.first_le h0
    case lso_lt =>
      intro _
      by_cases h0 : l.chunks = []
      · have := g.empty h0
        simp only [h0, length_nil, Nat.mul_zero] at hleo
        simp only [attachChunkLocked]
        omega
      · exact g.lso_lt h0
    case last_le =>
      intro _
      simp only [attachChunkLocked, length_append, length_singleton]
      omega
    case leo_le =>
      intro _
      simp only [attachChunkLocked, length_append, length_singleton]
      omega
    case attached =>
      intro k id hk
      simp only [attachChunkLocked, List.getElem?_append] at hk
      split at hk
      · obtain ⟨hid, hbase⟩ := g.attached k id hk
        refine ⟨Nat.lt_succ_of_lt hid, ?_⟩
        rw [hold id hid]
        exact hbase
      · rename_i hge
        obtain ⟨hlen, rfl⟩ := List.getElem?_eq_some_iff.mp hk
        simp only [length_singleton, Nat.lt_one_iff] at hlen
        refine ⟨by simp [attachChunkLocked], ?_⟩
        simp only [getElem_singleton, hnew, LogChunk.new]
        simp only [attachChunkLocked]
        omega
    case full =>
      intro id hid
      rcases hsplit id hid with hlt | rfl
      · left
        rw [hold id hlt]
        rcases g.full id hlt with h | h
        · exact h
        · have h0 : l.chunks ≠ [] := fun h0 => by simp [h0] at h
          have hlen0 : 0 < l.chunks.length := length_pos_iff.mpr h0
          rw [List.getLast?_eq_getElem?] at h
          have := (g.attached _ _ h).2
          simp only [attachChunkLocked]
          omega
      · right
        simp [attachChunkLocked]
  · constructor
    case leo_eq => exact c.leo_eq
    case live =>
      intro id hid s hs hlo hhi
      rcases hsplit id hid with hlt | rfl
      · rw [hold id hlt] at hlo hhi ⊢
        exact c.live id hlt s hs hlo hhi
      · rw [hnew] at hhi
        simp only [LogChunk.new, attachChunkLocked] at hhi
        omega
    case held =>
      intro id hid s hs f hf
      rcases hsplit id hid with hlt | rfl
      · rw [hold id hlt] at hf ⊢
        exact c.held id hlt s hs f hf
      · rw [hnew] at hf
        simp [LogChunk.new] at hf
    case cum =>
      intro id hid s hs hhi
      rcases hsplit id hid with hlt | rfl
      · rw [hold id hlt] at hhi ⊢
        exact c.cum id hlt s hs hhi
      · rw [hnew] at hhi
        simp only [LogChunk.new, attachChunkLocked] at hhi
        omega
    case total => exact c.total
    case sizes => exact c.sizes
  · have hfoot : l.attachChunkLocked.footprint frames = l.footprint frames + l.chunkBytes := by
      simp only [attachChunkLocked, footprint, length_append, length_singleton]
      ring
    refine ⟨?_, by omega, a.maxBytes_lt, a.record_le, a.chunk_le⟩
    rw [hfoot]
    simp only [attachChunkLocked]
    rw [a.bytes_eq, add64_of_lt (by omega)]

/-- After `openChunk` the attached chunks have room for one more record. -/
theorem Stored.openChunk (hb : Bounded l frames) : Stored l.openChunk frames ∧ l.openChunk.chunks ≠ [] ∧
      l.openChunk.leo < l.openChunk.firstBase + 1024 * l.openChunk.chunks.length ∧
      l.openChunk.footprint frames ≤ l.footprint frames + l.chunkBytes := by
  obtain ⟨g, c, a⟩ := h
  have hfoot : ∀ l' : Log, l'.leo = l.leo → l'.lso = l.lso → l'.chunkBytes = l.chunkBytes →
      l'.chunks = l.chunks → l'.attachChunkLocked.footprint frames =
        l.footprint frames + l.chunkBytes := by
    intro l' h1 h2 h3 h4
    simp only [attachChunkLocked, footprint, h1, h2, h3, h4, length_append,
      length_singleton]
    ring
  by_cases h0 : l.chunks = []
  · have hlso := g.empty h0
    have hst : Stored { l with firstBase := l.leo } frames := by
      refine ⟨?_, ⟨c.1, c.2, c.3, c.4, c.5, c.6⟩, ⟨a.1, a.2, a.3, a.4, a.5⟩⟩
      refine ⟨g.1, g.2, g.3, ?_, ?_, ?_, ?_, ?_, ?_⟩
      · exact fun h => absurd h0 h
      · exact fun h => absurd h0 h
      · exact fun h => absurd h0 h
      · exact fun h => absurd h0 h
      · exact fun k id hk => by simp [h0] at hk
      · exact g.full
    have heq : l.openChunk = attachChunkLocked { l with firstBase := l.leo } := by
      simp [Log.openChunk, h0]
    rw [heq]
    refine ⟨hst.attachChunk hb (by simp [h0]), by simp [attachChunkLocked], ?_, ?_⟩
    · simp [attachChunkLocked, h0]
    · exact (hfoot { l with firstBase := l.leo } rfl rfl rfl rfl).le
  · have h1 := g.first_le h0
    have h2 := g.leo_le h0
    have h3 := g.lso_le_leo
    by_cases hroom : (l.leo - l.firstBase) / 1024 = l.chunks.length
    · have heq : l.openChunk = l.attachChunkLocked := by
        simp [Log.openChunk, h0, logChunkSlots, hroom]
      rw [heq]
      have hleo : l.leo = l.firstBase + 1024 * l.chunks.length := by omega
      refine ⟨Stored.attachChunk ⟨g, c, a⟩ hb hleo, by simp [attachChunkLocked], ?_,
        (hfoot l rfl rfl rfl rfl).le⟩
      simp only [attachChunkLocked, length_append, length_singleton]
      omega
    · have heq : l.openChunk = l := by
        simp [Log.openChunk, h0, logChunkSlots, hroom]
      rw [heq]
      exact ⟨⟨g, c, a⟩, h0, by omega, by omega⟩

/-- Writing the slot of `leo` extends the history by one frame. -/
theorem Stored.writeRecord (hne : l.chunks ≠ [])
    (hroom : l.leo < l.firstBase + 1024 * l.chunks.length) {frame : Bytes} (mask : Mask)
    (hsize : frame.length ≤ l.maxRecordBytes)
    (hsmall : l.footprint frames + logFrameAccounted frame.length < 2 ^ 64) :
    Stored (l.writeRecord frame mask) (frames ++ [frame]) ∧
      (l.writeRecord frame mask).footprint (frames ++ [frame]) =
        l.footprint frames + logFrameAccounted frame.length := by
  obtain ⟨g, c, a⟩ := h
  obtain ⟨-, hid, hbase, hslot⟩ := g.locate_covered hne g.lso_le_leo hroom
  have hleo := c.leo_eq
  have hone := g.one_le_lso
  have hlo := g.lso_le_leo
  have hbases : ∀ i, ((l.writeRecord frame mask).heap i).base = (l.heap i).base := by
    intro i
    by_cases hi : i = l.chunkAt l.leo
    · simp [Log.writeRecord, updChunk, hi]
    · simp [Log.writeRecord, updChunk, Function.update_of_ne hi]
  have hother : ∀ i < l.nextChunk, ∀ s < 1024, (l.heap i).base + s ≠ l.leo →
      ((l.writeRecord frame mask).heap i).slots s = (l.heap i).slots s ∧
        ((l.writeRecord frame mask).heap i).cum s = (l.heap i).cum s := by
    intro i _ s _ hoff
    by_cases hi : i = l.chunkAt l.leo
    · have hs : s ≠ l.slotOf l.leo := fun hs => hoff (by rw [hi, hs]; exact hbase)
      simp [Log.writeRecord, updChunk, hi, Function.update_of_ne hs]
    · simp [Log.writeRecord, updChunk, Function.update_of_ne hi]
  have hself : ∀ i < l.nextChunk, ∀ s < 1024, (l.heap i).base + s = l.leo →
      ((l.writeRecord frame mask).heap i).slots s = some frame ∧
        ((l.writeRecord frame mask).heap i).cum s = l.total := by
    intro i hi s hs hoff
    obtain ⟨rfl, rfl⟩ := g.slot_unique hi hid hs hslot hoff hbase
    simp [Log.writeRecord, updChunk]
  have hacc : accBefore (frames ++ [frame]) (l.leo + 1) =
      accBefore frames l.leo + logFrameAccounted frame.length := by
    rw [accBefore_succ (f := frame) _ (by omega) (by rw [hleo]; simp),
      accBefore_append _ _ (by omega)]
  have hfoot : (l.writeRecord frame mask).footprint (frames ++ [frame]) =
      l.footprint frames + logFrameAccounted frame.length := by
    have := accBefore_mono frames hlo
    simp only [Log.writeRecord, updChunk, footprint, hacc,
      accBefore_append frames frame (x := l.lso) (by omega)]
    omega
  refine ⟨⟨?_, ?_, ?_⟩, hfoot⟩
  · refine ⟨g.1, Nat.le_succ_of_le g.2, fun h => absurd h hne, g.4, g.5, ?_, ?_, ?_, ?_⟩
    · exact fun h => by have := g.last_le h; simp only [Log.writeRecord, updChunk]; omega
    · exact fun _ => hroom
    · intro k i hk
      rw [hbases]
      exact g.attached k i hk
    · intro i hi
      rw [hbases]
      exact (g.full i hi).imp_left (fun h => Nat.le_succ_of_le h)
  · have hfront : ∀ x < l.leo, 1 ≤ x → (frames ++ [frame])[x - 1]? = frames[x - 1]? := by
      intro x hx h1
      rw [List.getElem?_append_left (by omega)]
    constructor
    case leo_eq => simp [Log.writeRecord, updChunk, hleo]
    case live =>
      intro i hi s hs h1 h2
      rw [hbases] at h1 h2 ⊢
      by_cases hoff : (l.heap i).base + s = l.leo
      · rw [(hself i hi s hs hoff).1, hoff, hleo]
        simp
      · have h1' : l.lso ≤ (l.heap i).base + s := h1
        have h2' : (l.heap i).base + s < l.leo + 1 := h2
        rw [(hother i hi s hs hoff).1, hfront _ (by omega) (by omega)]
        exact c.live i hi s hs h1 (by omega)
    case held =>
      intro i hi s hs f hf
      rw [hbases]
      by_cases hoff : (l.heap i).base + s = l.leo
      · rw [(hself i hi s hs hoff).1] at hf
        rw [hoff, hleo, ← hf]
        simp
      · rw [(hother i hi s hs hoff).1] at hf
        have hget := c.held i hi s hs f hf
        rw [List.getElem?_append_left (List.getElem?_eq_some_iff.mp hget).1]
        exact hget
    case cum =>
      intro i hi s hs h2
      rw [hbases] at h2 ⊢
      by_cases hoff : (l.heap i).base + s = l.leo
      · rw [(hself i hi s hs hoff).2, hoff, accBefore_append _ _ (by omega), c.total]
      · have h2' : (l.heap i).base + s < l.leo + 1 := h2
        rw [(hother i hi s hs hoff).2, accBefore_append _ _ (by omega)]
        exact c.cum i hi s hs (by omega)
    case total =>
      simp only [Log.writeRecord, updChunk, hacc, c.total, add64]
      omega
    case sizes =>
      intro f hf
      rcases mem_append.mp hf with hf | hf
      · exact c.sizes f hf
      · rw [mem_singleton.mp hf]
        exact hsize
  · refine ⟨?_, by rw [hfoot]; exact hsmall, a.maxBytes_lt, a.record_le, a.chunk_le⟩
    rw [hfoot]
    simp only [Log.writeRecord, updChunk]
    rw [a.bytes_eq, add64_of_lt hsmall]

/-- A slot below `lso` may be cleared at any time. -/
theorem Stored.clearSlot {id i : ℕ}
    (hi : (l.heap id).base + i < l.lso) : Stored (l.clearSlot id i) frames := by
  obtain ⟨g, c, a⟩ := h
  have hbases : ∀ j, ((l.clearSlot id i).heap j).base = (l.heap j).base := by
    intro j
    by_cases hj : j = id
    · simp [Log.clearSlot, updChunk, hj]
    · simp [Log.clearSlot, updChunk, Function.update_of_ne hj]
  have hcum : ∀ j, ((l.clearSlot id i).heap j).cum = (l.heap j).cum := by
    intro j
    by_cases hj : j = id
    · simp [Log.clearSlot, updChunk, hj]
    · simp [Log.clearSlot, updChunk, Function.update_of_ne hj]
  have hslots : ∀ j s, ((l.clearSlot id i).heap j).slots s = (l.heap j).slots s ∨
      (j = id ∧ s = i ∧ ((l.clearSlot id i).heap j).slots s = none) := by
    intro j s
    by_cases hj : j = id
    · subst hj
      by_cases hs : s = i
      · right
        simp [Log.clearSlot, updChunk, hs]
      · left
        simp [Log.clearSlot, updChunk, Function.update_of_ne hs]
    · left
      simp [Log.clearSlot, updChunk, Function.update_of_ne hj]
  refine ⟨⟨g.1, g.2, g.3, g.4, g.5, g.6, g.7, ?_, ?_⟩, ⟨c.1, ?_, ?_, ?_, c.5, c.6⟩,
    ⟨a.1, a.2, a.3, a.4, a.5⟩⟩
  · intro k j hk
    rw [hbases]
    exact g.attached k j hk
  · intro j hj
    rw [hbases]
    exact g.full j hj
  · intro j hj s hs h1 h2
    rw [hbases] at h1 h2 ⊢
    rcases hslots j s with heq | ⟨rfl, rfl, -⟩
    · rw [heq]
      exact c.live j hj s hs h1 h2
    · exact absurd h1 (Nat.not_le_of_lt hi)
  · intro j hj s hs f hf
    rw [hbases]
    rcases hslots j s with heq | ⟨-, -, hnone⟩
    · rw [heq] at hf
      exact c.held j hj s hs f hf
    · rw [hnone] at hf
      cases hf
  · intro j hj s hs h2
    rw [hbases] at h2 ⊢
    rw [hcum]
    exact c.cum j hj s hs h2

theorem Stored.withHeap {heap : ℕ → LogChunk}
    (hsame : ∀ id, (heap id).base = (l.heap id).base ∧ (heap id).slots = (l.heap id).slots ∧
      (heap id).cum = (l.heap id).cum) : Stored { l with heap := heap } frames := by
  obtain ⟨g, c, a⟩ := h
  refine ⟨⟨g.1, g.2, g.3, g.4, g.5, g.6, g.7, ?_, ?_⟩, ⟨c.1, ?_, ?_, ?_, c.5, c.6⟩,
    ⟨a.1, a.2, a.3, a.4, a.5⟩⟩
  · intro k j hk
    rw [(hsame j).1]
    exact g.attached k j hk
  · intro j hj
    rw [(hsame j).1]
    exact g.full j hj
  · intro j hj s hs h1 h2
    rw [(hsame j).1] at h1 h2 ⊢
    rw [(hsame j).2.1]
    exact c.live j hj s hs h1 h2
  · intro j hj s hs f hf
    rw [(hsame j).2.1] at hf
    rw [(hsame j).1]
    exact c.held j hj s hs f hf
  · intro j hj s hs h2
    rw [(hsame j).1] at h2 ⊢
    rw [(hsame j).2.2]
    exact c.cum j hj s hs h2

end

end Store

end Log
end MonsterMQ.PeerLink
