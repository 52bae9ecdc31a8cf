import MonsterMQ.MqttConnection

/-!
# The search for a packet identifier

The loop of `NextPacketID` goes up from the last identifier, starts over at the maximum and gives up when it
is back.
-/

namespace MonsterMQ.Mqtt

open List

structure IDSearch where
  i : ℕ
  overflowed : Bool
  checks : ℕ
  deriving DecidableEq, Repr

structure IDResult where
  id : Option ℕ
  packetID : ℕ
  checks : ℕ
  deriving DecidableEq, Repr

/-- The loop of `NextPacketID`, for a number of rounds; `none` if it goes on. -/
def searchID (inflight : Inflight) (max started : ℕ) : ℕ → IDSearch → Option IDResult
  | 0, _ => none
  | rounds + 1, s =>
    if s.overflowed ∧ s.i = started then some ⟨none, started, s.checks⟩
    else if s.i ≥ max then searchID inflight max started rounds ⟨0, true, s.checks⟩
    else if (inflight.get (UInt16.ofNat (s.i + 1))).isNone then some ⟨some (s.i + 1), s.i + 1, s.checks + 1⟩
    else searchID inflight max started rounds ⟨s.i + 1, s.overflowed, s.checks + 1⟩

/-- The `d`-th identifier after the last one, counted from 0. -/
def cyclicID (last max d : ℕ) : ℕ := (last + d) % max + 1

section Search

variable (inflight : Inflight) {max started : ℕ}

theorem search_wrapped (k : ℕ) : ∀ (i c rounds : ℕ), started = i + k → started ≤ max → k < rounds →
    searchID inflight max started rounds ⟨i, true, c⟩ =
      match (List.range' (i + 1) k).find? (fun n => (inflight.get (UInt16.ofNat n)).isNone) with
      | some n => some ⟨some n, n, c + (n - i)⟩
      | none => some ⟨none, started, c + k⟩ := by
  induction k with
  | zero =>
    intro i c rounds hi _ hrounds
    obtain ⟨rounds, rfl⟩ := Nat.exists_eq_add_of_lt hrounds
    rw [Nat.zero_add, searchID, if_pos ⟨rfl, hi.symm⟩]
    rfl
  | succ k ih =>
    intro i c rounds hi hmax hrounds
    obtain ⟨rounds, rfl⟩ := Nat.exists_eq_succ_of_ne_zero (by omega : rounds ≠ 0)
    rw [Nat.succ_eq_add_one, searchID, if_neg (fun h => by have := h.2; dsimp only at this; omega),
      if_neg (by dsimp only; omega), List.range'_succ, List.find?_cons]
    dsimp only
    by_cases hfree : (inflight.get (UInt16.ofNat (i + 1))).isNone = true
    · rw [if_pos hfree, hfree]
      dsimp only
      rw [Nat.add_sub_cancel_left]
    · rw [if_neg hfree, Bool.eq_false_iff.mpr hfree, ih (i + 1) (c + 1) rounds (by omega) hmax (by omega)]
      dsimp only
      cases hfind : (List.range' (i + 1 + 1) k).find? (fun n => (inflight.get (UInt16.ofNat n)).isNone) with
      | none =>
        dsimp only
        rw [Nat.add_right_comm, Nat.add_assoc]
      | some n =>
        have hn := mem_range'_1.mp (mem_of_find?_eq_some hfind)
        dsimp only
        rw [show c + 1 + (n - (i + 1)) = c + (n - i) by omega]

theorem search_forward (k : ℕ) : ∀ (i c rounds : ℕ), max = i + k →
    searchID inflight max started (k + 1 + rounds) ⟨i, false, c⟩ =
      match (List.range' (i + 1) k).find? (fun n => (inflight.get (UInt16.ofNat n)).isNone) with
      | some n => some ⟨some n, n, c + (n - i)⟩
      | none => searchID inflight max started rounds ⟨0, true, c + k⟩ := by
  induction k with
  | zero =>
    intro i c rounds hi
    rw [Nat.zero_add, Nat.add_comm 1, searchID, if_neg (fun h => Bool.false_ne_true h.1),
      if_pos (by dsimp only; omega)]
    rfl
  | succ k ih =>
    intro i c rounds hi
    rw [show k + 1 + 1 + rounds = (k + 1 + rounds) + 1 by omega, searchID,
      if_neg (fun h => Bool.false_ne_true h.1), if_neg (by dsimp only; omega), List.range'_succ, List.find?_cons]
    dsimp only
    by_cases hfree : (inflight.get (UInt16.ofNat (i + 1))).isNone = true
    · rw [if_pos hfree, hfree]
      dsimp only
      rw [Nat.add_sub_cancel_left]
    · rw [if_neg hfree, Bool.eq_false_iff.mpr hfree, ih (i + 1) (c + 1) rounds (by omega)]
      dsimp only
      cases hfind : (List.range' (i + 1 + 1) k).find? (fun n => (inflight.get (UInt16.ofNat n)).isNone) with
      | none =>
        dsimp only
        rw [Nat.add_right_comm, Nat.add_assoc]
      | some n =>
        have hn := mem_range'_1.mp (mem_of_find?_eq_some hfind)
        dsimp only
        rw [show c + 1 + (n - (i + 1)) = c + (n - i) by omega]

end Search

theorem range_cyclic {last max : ℕ} (hlast : last ≤ max) (hmax : 0 < max) :
    List.range' (last + 1) (max - last) ++ List.range' 1 last = (List.range max).map (cyclicID last max) := by
  apply ext_getElem
  · simp only [length_append, length_range', length_map, length_range]
    omega
  · intro d hd _
    rw [getElem_map, getElem_range, cyclicID, getElem_append]
    rw [length_append, length_range', length_range'] at hd
    split
    · next hlt =>
      rw [length_range'] at hlt
      rw [getElem_range', Nat.mod_eq_of_lt (by omega)]
      omega
    · next hge =>
      rw [length_range'] at hge
      rw [getElem_range', length_range', Nat.mod_eq_sub_mod (by omega), Nat.mod_eq_of_lt (by omega)]
      omega

theorem cyclicID_range {last max : ℕ} (hmax : 0 < max) (d : ℕ) :
    1 ≤ cyclicID last max d ∧ cyclicID last max d ≤ max := by
  have := Nat.mod_lt (last + d) hmax
  rw [cyclicID]
  omega

private theorem exists_cyclicID {last max n : ℕ} (hlast : last ≤ max) (hn : 1 ≤ n ∧ n ≤ max) :
    ∃ d < max, cyclicID last max d = n := by
  have hmem : n ∈ List.range' (last + 1) (max - last) ++ List.range' 1 last := by
    rw [mem_append, mem_range'_1, mem_range'_1]
    omega
  rw [range_cyclic hlast (by omega), mem_map] at hmem
  obtain ⟨d, hd, heq⟩ := hmem
  exact ⟨d, mem_range.mp hd, heq⟩

/-- The search ends, with at most as many lookups as there are identifiers, with the identifier that
`Conn.nextPacketID` names. -/
theorem searchID_eq (inflight : Inflight) {max last : ℕ} (hlast : last ≤ max) :
    ∃ checks ≤ max, searchID inflight max last (max + 2) ⟨last, false, 0⟩ =
      some ⟨Conn.nextPacketID inflight last max, (Conn.nextPacketID inflight last max).getD last, checks⟩ := by
  have hforward : searchID inflight max last (max - last + 1 + (last + 1)) ⟨last, false, 0⟩ = _ :=
    search_forward inflight (max - last) last 0 (last + 1) (show max = last + (max - last) by omega)
  have hwrapped := search_wrapped inflight last 0 (0 + (max - last)) (last + 1) (Nat.zero_add last).symm hlast
    (Nat.lt_succ_self last)
  rw [show max - last + 1 + (last + 1) = max + 2 by omega] at hforward
  rw [hforward, Conn.nextPacketID, List.find?_append]
  cases hfirst : (List.range' (last + 1) (max - last)).find? (fun n => (inflight.get (UInt16.ofNat n)).isNone) with
  | some n =>
    have hn := mem_range'_1.mp (mem_of_find?_eq_some hfirst)
    exact ⟨0 + (n - last), by omega, rfl⟩
  | none =>
    rw [Nat.zero_add 1] at hwrapped
    dsimp only
    rw [hwrapped, Option.none_or]
    cases hsecond : (List.range' 1 last).find? (fun n => (inflight.get (UInt16.ofNat n)).isNone) with
    | some n =>
      have hn := mem_range'_1.mp (mem_of_find?_eq_some hsecond)
      exact ⟨_, by omega, rfl⟩
    | none => exact ⟨_, by omega, rfl⟩

/-- The loop ends after at most `max + 1` lookups: with the first identifier of the cyclic order after the
last one that is not in use, if there is one, and otherwise with an error and the last one unchanged. -/
theorem nextPacketID_exact (inflight : Inflight) {max last : ℕ} (hmax : 1 ≤ max ∧ max ≤ 65535) (hlast : last ≤ max) :
    ∃ rounds r, searchID inflight max last rounds ⟨last, false, 0⟩ = some r ∧ r.checks ≤ max + 1 ∧
      ((∃ n, 1 ≤ n ∧ n ≤ max ∧ inflight.get (UInt16.ofNat n) = none) →
        ∃ d < max, r.id = some (cyclicID last max d) ∧ r.packetID = cyclicID last max d ∧
          (1 ≤ cyclicID last max d ∧ cyclicID last max d ≤ max) ∧
          inflight.get (UInt16.ofNat (cyclicID last max d)) = none ∧
          ∀ e < d, inflight.get (UInt16.ofNat (cyclicID last max e)) ≠ none) ∧
      ((∀ n, 1 ≤ n → n ≤ max → inflight.get (UInt16.ofNat n) ≠ none) → r.id = none ∧ r.packetID = last) := by
  obtain ⟨checks, hchecks, hsearch⟩ := searchID_eq inflight hlast
  refine ⟨max + 2, _, hsearch, Nat.le_succ_of_le hchecks, ?_, ?_⟩
  · rintro ⟨n, hlow, hhigh, hfree⟩
    obtain ⟨d₀, hd₀, heq⟩ := exists_cyclicID hlast ⟨hlow, hhigh⟩
    have hsome : ((List.range max).find? fun d =>
        (inflight.get (UInt16.ofNat (cyclicID last max d))).isNone).isSome := by
      rw [List.find?_isSome]
      exact ⟨d₀, mem_range.mpr hd₀, by rw [heq, hfree]; rfl⟩
    obtain ⟨d, hd⟩ := Option.isSome_iff_exists.mp hsome
    have hnext : Conn.nextPacketID inflight last max = some (cyclicID last max d) := by
      rw [Conn.nextPacketID, range_cyclic hlast hmax.1, List.find?_map]
      exact congrArg (Option.map (cyclicID last max)) hd
    obtain ⟨hp, hmem, hfirst⟩ := List.find?_range_eq_some.mp hd
    refine ⟨d, mem_range.mp hmem, hnext, by rw [hnext]; rfl, cyclicID_range hmax.1 d,
      Option.isNone_iff_eq_none.mp hp, ?_⟩
    intro e he hnone
    have hused := hfirst e he
    rw [hnone] at hused
    cases hused
  · intro hused
    have hnext : Conn.nextPacketID inflight last max = none := by
      rw [Conn.nextPacketID, range_cyclic hlast hmax.1, List.find?_eq_none]
      intro n hn hfree
      obtain ⟨d, -, rfl⟩ := mem_map.mp hn
      obtain ⟨hlow, hhigh⟩ := @cyclicID_range last max hmax.1 d
      exact hused _ hlow hhigh (Option.isNone_iff_eq_none.mp hfree)
    rw [hnext]
    exact ⟨rfl, rfl⟩

def sentPublish (id : UInt16) : Packet := ⟨.publish, 1, false, false, id, [0x61], [], 0, [], .none, 5, 0, 0⟩

def usedInflights : Inflight := (newInflights.put (sentPublish 1)).put (sentPublish 3)

/-- From 2 on, 3 and 1 are in use, and the search comes back to 2. -/
theorem nextPacketID_exact_wraps : ∃ rounds r, searchID usedInflights 3 2 rounds ⟨2, false, 0⟩ = some r ∧
    r.checks ≤ 4 ∧ r.id = some 2 := by
  obtain ⟨rounds, r, hsearch, hchecks, hfree, -⟩ :=
    nextPacketID_exact usedInflights (show 1 ≤ 3 ∧ 3 ≤ 65535 by decide) (show 2 ≤ 3 by decide)
  obtain ⟨d, hd, hid, -, -, hnone, -⟩ := hfree ⟨2, by decide, by decide, by decide⟩
  have htwo : ∀ d < 3, usedInflights.get (UInt16.ofNat (cyclicID 2 3 d)) = none → cyclicID 2 3 d = 2 := by decide
  exact ⟨rounds, r, hsearch, hchecks, by rw [hid, htwo d hd hnone]⟩

end MonsterMQ.Mqtt
