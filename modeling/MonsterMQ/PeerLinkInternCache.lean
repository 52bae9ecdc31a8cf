import MonsterMQ.LittleEndian
import MonsterMQ.StateRuns
import Mathlib.Algebra.BigOperators.Group.Finset.Basic

/-!
# The string cache of a source

`internCache` of `internal/peerlink/inject.go`, two generations of strings, and what a source
can pin with it.
-/

namespace MonsterMQ.PeerLink

open LittleEndian StateRuns

structure InternCache where
  cur : Finset Bytes
  old : Finset Bytes
  curBytes : ℕ
  maxEntries : ℕ
  maxBytes : ℕ

namespace InternCache

def internGeneration : ℕ := 65536
def internGenBytes : ℕ := 8388608
def internMaxLen : ℕ := 256

def newInternCache : InternCache := ⟨∅, ∅, 0, internGeneration, internGenBytes⟩

def put (c : InternCache) (s : Bytes) : InternCache :=
  let c :=
    if c.cur.card ≥ c.maxEntries ∨ c.curBytes + s.length > c.maxBytes then
      { c with cur := ∅, old := c.cur, curBytes := 0 }
    else c
  { c with cur := insert s c.cur, curBytes := c.curBytes + s.length }

/-- The string is `b` in every case, also from the old generation. -/
def get (c : InternCache) (b : Bytes) : InternCache :=
  if b.length > internMaxLen then c else if b ∈ c.cur then c else c.put b

def bytes (g : Finset Bytes) : ℕ := ∑ s ∈ g, s.length

structure Bounded (c : InternCache) : Prop where
  maxEntries : c.maxEntries = internGeneration
  maxBytes : c.maxBytes = internGenBytes
  curBytes : c.curBytes = bytes c.cur
  cur : c.cur.card ≤ internGeneration ∧ bytes c.cur ≤ internGenBytes
  old : c.old.card ≤ internGeneration ∧ bytes c.old ≤ internGenBytes

variable {c : InternCache}

theorem Bounded.insert (h : c.Bounded) {s : Bytes} (hs : s ∉ c.cur) (hcard : c.cur.card < internGeneration)
    (hbytes : c.curBytes + s.length ≤ internGenBytes) :
    { c with cur := insert s c.cur, curBytes := c.curBytes + s.length }.Bounded := by
  have hsum : bytes (Insert.insert s c.cur) = c.curBytes + s.length := by
    rw [bytes, Finset.sum_insert hs, Nat.add_comm, h.curBytes, bytes]
  refine ⟨h.maxEntries, h.maxBytes, hsum.symm, ⟨?_, hsum.trans_le hbytes⟩, h.old⟩
  rw [Finset.card_insert_of_notMem hs]
  exact hcard

theorem Bounded.get (h : c.Bounded) (b : Bytes) : (c.get b).Bounded := by
  rw [InternCache.get]
  split
  · exact h
  next hlen =>
  split
  · exact h
  next hcur =>
  rw [InternCache.put]
  split
  · have hempty : { c with cur := ∅, old := c.cur, curBytes := 0 }.Bounded :=
      ⟨h.maxEntries, h.maxBytes, rfl, ⟨Nat.zero_le _, Nat.zero_le _⟩, h.cur⟩
    rw [internMaxLen] at hlen
    refine hempty.insert (Finset.notMem_empty b) (Nat.succ_pos _) ?_
    change 0 + b.length ≤ 8388608
    omega
  · next hroom =>
    rw [h.maxEntries, h.maxBytes] at hroom
    push Not at hroom
    exact h.insert hcur hroom.1 hroom.2

/-- However many strings a source sends, and in whatever order, its cache holds at most two full
generations, and a string that may be cached is in it after it was looked up. -/
theorem run_bounded (bs : List Bytes) (b : Bytes) : (run get newInternCache bs).Bounded ∧
    (b.length ≤ internMaxLen → b ∈ ((run get newInternCache bs).get b).cur) := by
  refine ⟨run_always (P := Bounded) (fun _ b h => h.get b) ?_ bs, fun hb => ?_⟩
  · exact ⟨rfl, rfl, rfl, ⟨Nat.zero_le _, Nat.zero_le _⟩, Nat.zero_le _, Nat.zero_le _⟩
  · rw [InternCache.get, if_neg (by omega)]
    split
    · assumption
    · exact Finset.mem_insert_self _ _

end InternCache

end MonsterMQ.PeerLink
