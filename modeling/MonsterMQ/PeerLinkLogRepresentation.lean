import Mathlib.Order.Bounds.Basic
import MonsterMQ.PeerLinkLogSoundness

/-!
# Representation and accounting of the log

What the storage invariants say about every reachable state, in terms of the
frames appended so far: where each held record lies, what the byte counter is, and
that no unsigned subtraction of a trim or an eviction goes below zero.
-/

namespace MonsterMQ.PeerLink

open LittleEndian

namespace Log

@[grind =] def accountedBetween (frames : List Bytes) (x y : ℕ) : ℕ :=
  (((frames.drop (x - 1)).take (y - x)).map (fun f => logFrameAccounted f.length)).sum

theorem accBefore_add (frames : List Bytes) {x y : ℕ} (h1 : 1 ≤ x) (hxy : x ≤ y) :
    accBefore frames y = accBefore frames x + accountedBetween frames x y := by
  have hy : y - 1 = (x - 1) + (y - x) := by omega
  rw [accBefore, accBefore, accountedBetween, hy, List.take_add, List.map_append, List.sum_append]

/-- Whatever prefix `[lso, y)` and however many chunks an operation drops now, the
wrapped difference of the cumulative sums is the exact amount and `bytes` covers it. -/
def SubtractionsExact (l : Log) (frames : List Bytes) : Prop :=
  ∀ y, l.lso ≤ y → y ≤ l.leo → ∀ k ≤ l.chunks.length,
    sub64 (l.cumAtLocked y) (l.cumAtLocked l.lso) = accountedBetween frames l.lso y ∧
      sub64 (l.cumAtLocked y) (l.cumAtLocked l.lso) + k * l.chunkBytes ≤ l.bytes

section Exact
variable {l : Log} {frames : List Bytes} {marks : List Mask}

theorem Stored.footprint_eq (h : Stored l frames) :
    l.footprint frames = accountedBetween frames l.lso l.leo + l.chunkBytes * l.chunks.length := by
  unfold footprint
  rw [accBefore_add frames h.geometry.one_le_lso h.geometry.lso_le_leo]
  omega

theorem Stored.subtractionsExact (h : Stored l frames) : SubtractionsExact l frames := by
  obtain ⟨g, c, a⟩ := h
  intro y hlo hhi k hk
  have hone := g.one_le_lso
  have hadd := accBefore_add frames hone hlo
  have hmono := accBefore_mono frames hhi
  have hsmall := a.small
  have hfoot : l.footprint frames = accBefore frames l.leo - accBefore frames l.lso +
      l.chunkBytes * l.chunks.length := rfl
  have hdiff : sub64 (l.cumAtLocked y) (l.cumAtLocked l.lso) = accountedBetween frames l.lso y := by
    rw [cumAtLocked_eq g c hlo hhi, cumAtLocked_eq g c le_rfl (hlo.trans hhi),
      sub64_mod (accBefore_mono frames hlo) (by omega)]
    omega
  have hmul : k * l.chunkBytes ≤ l.chunkBytes * l.chunks.length := by
    rw [Nat.mul_comm]
    exact Nat.mul_le_mul_left _ hk
  refine ⟨hdiff, ?_⟩
  rw [hdiff, a.bytes_eq]
  omega

/-- While a record is being appended, every iteration of the eviction loop starts
from exact subtractions too. -/
theorem LogInvariant.exact_midAppend (h : LogInvariant l frames marks) {frame : Bytes} (mask : Mask)
    (hsize : frame.length ≤ l.maxRecordBytes) {n : ℕ}
    (hn : ((l.openChunk.writeRecord frame mask).settleSkip l.leo mask).1.lso + n ≤ l.leo) : SubtractionsExact
      (evictLoop n ((l.openChunk.writeRecord frame mask).settleSkip l.leo mask).1)
      (frames ++ [frame]) := by
  have hl₁ := h.store mask hsize
  have e₁ := stores_writeRecord l frame mask
  have hlwm : (l.openChunk.writeRecord frame mask).lwm =
      (l.openChunk.writeRecord frame mask).minCommitted := by
    rw [e₁.lwm, h.lwm_eq]
    exact (minCommitted_congr (by rw [e₁.consumers])).symm
  have hoff : l.leo < (l.openChunk.writeRecord frame mask).leo := by rw [e₁.leo]; omega
  obtain ⟨h₂, e₂, -, -⟩ := hl₁.settleSkip hlwm hoff mask
  have hleo : ((l.openChunk.writeRecord frame mask).settleSkip l.leo mask).1.leo = l.leo + 1 := by
    rw [e₂.leo, (skipAll_fields _ _ _).2.1, e₁.leo]
  obtain ⟨-, -, -, h₃, -⟩ := h₂.evictLoop (n := n) (by omega)
  exact h₃.stored.subtractionsExact

end Exact

end Log

namespace LogSys

/-- Watermarks, slots, byte counter and record counters after any run: every
operation, the steps of reads and the deferred clears in any order. -/
theorem run_representation {epoch : ℕ} {cfg : LogConfig} {l : Log} (h : newLog epoch cfg = .ok l)
    (ops : List LogOp) : let s := run l ops
    (1 ≤ s.log.lwm ∧ s.log.lwm ≤ s.log.lso ∧ s.log.lso ≤ s.log.leo) ∧
      (s.log.consumers ≠ [] →
        IsLeast {x | ∃ c < s.log.consumers.length, x = (s.log.con c).committed} s.log.lwm) ∧
      (∀ c < s.log.consumers.length,
        (s.log.con c).committed ≤ s.log.leo ∧ (s.log.con c).served ≤ s.log.leo) ∧
      (∀ x, s.log.lso ≤ x → x < s.log.leo →
        s.log.chunks[(x - s.log.firstBase) / logChunkSlots]? = some (s.log.chunkAt x) ∧
          ∃ f, s.frames[x - 1]? = some f ∧ s.log.frameAt x = some f) ∧
      s.log.bytes = Log.accountedBetween s.frames s.log.lso s.log.leo +
        s.log.chunkBytes * s.log.chunks.length ∧
      Log.SubtractionsExact s.log s.frames ∧
      (∀ frame mask n, s.log.consumers ≠ [] → frame.length ≤ s.log.maxRecordBytes →
        ((s.log.openChunk.writeRecord frame mask).settleSkip s.log.leo mask).1.lso + n ≤ s.log.leo →
        Log.SubtractionsExact (Log.evictLoop n
          ((s.log.openChunk.writeRecord frame mask).settleSkip s.log.leo mask).1)
          (s.frames ++ [frame])) ∧
      s.log.trimmed + s.log.evictedByCount + s.log.evictedByBytes + (s.log.leo - s.log.lso) =
        s.frames.length := by
  intro s
  have hs : Sound s := sound_run h ops
  rcases hs.valid with hv | hv
  · have g := hv.stored.geometry
    have c := hv.stored.contents
    have hlso := g.lso_le_leo
    refine ⟨⟨hv.one_le_lwm, hv.lwm_le_lso, hlso⟩, ?_, ?_, ?_, ?_, ?_, ?_, ?_⟩
    · intro _
      rw [hv.lwm_eq]
      refine ⟨Log.exists_minCommitted s.log hv.peers, ?_⟩
      rintro x ⟨d, hd, rfl⟩
      exact Log.minCommitted_le s.log hd
    · exact fun d hd => ⟨(hv.position d hd).committed_le, (hv.position d hd).served_le⟩
    · intro x hlo hhi
      have hlt : x - 1 < s.frames.length := by
        have := c.leo_eq
        have := g.one_le_lso
        omega
      refine ⟨(g.locate hlo hhi).1, s.frames[x - 1], List.getElem?_eq_getElem hlt, ?_⟩
      rw [Log.frameAt_eq g c hlo hhi]
      exact List.getElem?_eq_getElem hlt
    · rw [hv.stored.accounting.bytes_eq, hv.stored.footprint_eq]
    · exact hv.stored.subtractionsExact
    · exact fun frame mask n _ hsize hn => hv.exact_midAppend mask hsize hn
    · have := hv.counted
      have := c.leo_eq
      omega
  · have hnil := hv.consumers_eq
    have hlso := hv.lso_eq
    have hlwm := hv.lwm_eq
    have hcount := hv.counted
    have hleo := hv.leo_eq
    obtain ⟨hev₁, hev₂⟩ := hv.evicted_eq
    refine ⟨by omega, fun hne => absurd hnil hne, by simp [hnil], ?_, ?_, ?_, ?_, ?_⟩
    · intro x hlo hhi
      omega
    · rw [hv.bytes_eq, hv.chunks_eq, hlso]
      simp [Log.accountedBetween]
    · intro y hlo hhi k hk
      have hy : y = s.log.lso := by omega
      subst hy
      simp only [hv.chunks_eq, List.length_nil, Nat.le_zero] at hk
      subst hk
      simp [Log.accountedBetween, sub64]
    · exact fun _ _ _ hne => absurd hnil hne
    · omega

/-- A two-consumer masked log with room for one record. -/
def sampleConfig : LogConfig := ⟨1, 0, 0, ["b", "c"], true, 0, LogConfig.unlimited_lt⟩

def sampleLog : Log := (newLog 7 sampleConfig).toOption.get rfl

theorem sampleLog_eq : newLog 7 sampleConfig = .ok sampleLog := rfl

theorem run_representation_sample :
    (run sampleLog [.append [0, 0, 0, 0] .client 1, .append [0, 0, 0, 0] .client 3]).log.bytes =
      24584 ∧ (run sampleLog [.append [0, 0, 0, 0] .client 1,
        .append [0, 0, 0, 0] .client 3]).log.lso = 2 := by
  obtain ⟨-, -, -, -, h, -⟩ := run_representation sampleLog_eq
    [.append [0, 0, 0, 0] .client 1, .append [0, 0, 0, 0] .client 3]
  exact ⟨h.trans (by decide), by decide⟩

end LogSys

end MonsterMQ.PeerLink
