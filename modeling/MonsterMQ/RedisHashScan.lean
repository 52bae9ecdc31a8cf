import MonsterMQ.RedisFramingSafety
import MonsterMQ.RedisStructsAgree
import Mathlib.Algebra.Order.BigOperators.Group.Finset

/-!
# Scanning a hash

`HSCAN` answers a page of the fields that match and the cursor of the next page. A client begins with
cursor 0 and sends every cursor back as it is, with any options, until the cursor is 0 again.
-/

namespace MonsterMQ.Redis

open LittleEndian Auth JsonText FiniteMaps List

def pairs (F : Floats) (m : FMap Bytes Json) (keys : List Bytes) : List RespValue :=
  (keys.flatMap fun k => [k, valueAt F m k]).map bulk

/-- What the client collects in at most `k` requests, from the `i`-th on, if the scan ends there. -/
def scan (W : World) (topic : Bytes) (options : ℕ → List Bytes) : ℕ → ℕ → Bytes → Option (List RespValue)
  | 0, _, _ => none
  | k + 1, i, cursor =>
    match handleHscan W ([ascii "HSCAN", topic, cursor] ++ options i) with
    | some (.array [.bulk (some next), .array page]) =>
      if next = ascii "0" then some page else (scan W topic options k (i + 1) next).map (page ++ ·)
    | _ => none

private theorem signed_eq_zero_iff {n : ℤ} (hlow : 0 ≤ n) (hhigh : n ≤ 9223372036854775807) :
    signed n = ascii "0" ↔ n = 0 := by
  constructor
  · intro h
    have hread := atoi_signed hlow hhigh
    rw [h, show atoi (ascii "0") = some 0 by decide] at hread
    exact (Option.some.inj hread).symm
  · rintro rfl
    decide

theorem atoi_range {s : Bytes} {n : ℤ} (h : atoi s = some n) :
    -9223372036854775808 ≤ n ∧ n ≤ 9223372036854775807 := by
  unfold atoi at h
  split at h
  split at h
  · cases h
  · split at h
    · cases h
    · dsimp only at h
      rw [Option.ite_none_right_eq_some] at h
      obtain ⟨hrange, hv⟩ := h
      rwa [Option.some.inj hv] at hrange

theorem hscanCount_range (options : List Bytes) :
    -9223372036854775808 ≤ hscanCount options ∧ hscanCount options ≤ 9223372036854775807 := by
  rw [hscanCount]
  have hstep : ∀ l : List (Bytes × Bytes), ∀ n : ℤ, -9223372036854775808 ≤ n ∧ n ≤ 9223372036854775807 →
      -9223372036854775808 ≤ l.foldl (fun n p => if equalFold p.1 "MATCH" then n
        else if equalFold p.1 "COUNT" then (atoi p.2).getD n else n) n ∧
      l.foldl (fun n p => if equalFold p.1 "MATCH" then n
        else if equalFold p.1 "COUNT" then (atoi p.2).getD n else n) n ≤ 9223372036854775807 := by
    intro l
    induction l with
    | nil => exact fun n hn => hn
    | cons p l ih =>
      intro n hn
      rw [foldl_cons]
      apply ih
      split
      · exact hn
      · split
        · cases hread : atoi p.2 with
          | none => exact hn
          | some k => exact atoi_range hread
        · exact hn
  exact hstep _ (-1) (by decide)

theorem addInt_wraps {a b : ℤ} (hlow : 9223372036854775807 < a + b) (hhigh : a + b ≤ 18446744073709551614) :
    addInt a b = a + b - 18446744073709551616 := by
  rw [addInt]
  omega

theorem hscanPage_eq_none_iff {keys : List Bytes} {cursor count : ℤ}
    (hcursor : 0 ≤ cursor ∧ cursor ≤ 9223372036854775807) (hcount : count ≤ 9223372036854775807) :
    hscanPage keys cursor count = none ↔
      0 < count ∧ cursor < keys.length ∧ 9223372036854775807 < cursor + count := by
  constructor
  · intro h
    by_contra hn
    have hsome : (hscanPage keys cursor count).isSome := by
      by_cases hpos : 0 < count
      · apply hscanPage_isSome hcursor.1
        intro hlt
        by_contra hbig
        exact hn ⟨hpos, hlt, by omega⟩
      · rw [hscanPage]
        split
        · rw [if_neg fun h => hpos h.1]
          rfl
        · rfl
    rw [h] at hsome
    cases hsome
  · rintro ⟨hpos, hlt, hbig⟩
    have hwrap : addInt cursor count = cursor + count - 18446744073709551616 := addInt_wraps hbig (by omega)
    rw [hscanPage, if_pos hlt, if_pos ⟨hpos, by omega⟩, if_pos (by omega)]

theorem hscanPage_eq {keys : List Bytes} {cursor count : ℤ} (hcursor : 0 ≤ cursor)
    (h : 0 < count → cursor < keys.length → cursor + count ≤ 9223372036854775807) :
    hscanPage keys cursor count =
      if 0 < count ∧ cursor + count < keys.length then
        some ((keys.take (cursor + count).toNat).drop cursor.toNat, cursor + count)
      else some (keys.drop cursor.toNat, 0) := by
  rw [hscanPage]
  by_cases hlt : cursor < keys.length
  · rw [if_pos hlt]
    by_cases hpos : 0 < count
    · rw [addInt_eq (by omega) (h hpos hlt), if_neg (show ¬ cursor + count < cursor by omega)]
    · rw [if_neg fun h => hpos h.1, if_neg fun h => hpos h.1]
  · rw [if_neg hlt, if_neg (by omega), drop_of_length_le (by omega)]

section Scan

variable {W : World} {topic pattern : Bytes} {m : FMap Bytes Json}

structure Stored (W : World) (topic : Bytes) (m : FMap Bytes Json) : Prop where
  canRead : W.canRead topic = true
  group : W.group ≠ none
  value : readStored W.floats W.store topic hash asMap = .value m

variable {cursor : ℤ}

/-- What `HSCAN` answers for a cursor in range. -/
theorem handleHscan_bind (h : Stored W topic m) {text : Bytes} (hread : atoi text = some cursor)
    (hcursor : 0 ≤ cursor) (options : List Bytes) : handleHscan W ([ascii "HSCAN", topic, text] ++ options) =
      (hscanKeys W (hscanMatch options) (sortedKeys m)).bind fun keys =>
        (hscanPage keys cursor (hscanCount options)).map fun p =>
          .array [bulk (signed p.2), .array (pairs W.floats m p.1)] := by
  have hlen : ¬ ([ascii "HSCAN", topic, text] ++ options).length < 3 := by
    rw [length_append, length_cons, length_cons, length_singleton]
    omega
  have htopic : topicOf ([ascii "HSCAN", topic, text] ++ options) = topic := rfl
  have htext : ([ascii "HSCAN", topic, text] ++ options).getD 2 [] = text := rfl
  have hdrop : ([ascii "HSCAN", topic, text] ++ options).drop 3 = options := rfl
  have hread' : W.canRead topic ≠ false := by
    rw [h.canRead]
    decide
  rw [handleHscan, if_neg hlen, htext, hread, htopic, hdrop]
  dsimp only
  rw [if_neg (by omega), if_neg hread', if_neg h.group, h.value]
  rfl

theorem handleHscan_eq (h : Stored W topic m) {text : Bytes} (hread : atoi text = some cursor)
    (hcursor : 0 ≤ cursor) {options : List Bytes} (hglobs : Globs W (hscanMatch options) m) :
    handleHscan W ([ascii "HSCAN", topic, text] ++ options) =
      (hscanPage (matching W (hscanMatch options) m) cursor (hscanCount options)).map fun p =>
        .array [bulk (signed p.2), .array (pairs W.floats m p.1)] := by
  rw [handleHscan_bind h hread hcursor, hscanKeys_eq_some hglobs, Option.bind_some]

def counts (options : ℕ → List Bytes) (i : ℕ) : ℤ := hscanCount (options i)

variable {options : ℕ → List Bytes}

theorem scan_succ (h : Stored W topic m) (hglobs : Globs W pattern m)
    (hmatch : ∀ i, hscanMatch (options i) = pattern) (hcursor : 0 ≤ cursor ∧ cursor ≤ 9223372036854775807) (k i : ℕ) :
    scan W topic options (k + 1) i (signed cursor) =
      (hscanPage (matching W pattern m) cursor (counts options i)).bind fun p =>
        if signed p.2 = ascii "0" then some (pairs W.floats m p.1)
        else (scan W topic options k (i + 1) (signed p.2)).map (pairs W.floats m p.1 ++ ·) := by
  rw [scan, handleHscan_eq h (atoi_signed hcursor.1 hcursor.2) hcursor.1 ((hmatch i).symm ▸ hglobs), hmatch, counts]
  cases hscanPage (matching W pattern m) cursor (hscanCount (options i)) with
  | none => rfl
  | some p => rfl

private theorem pairs_append (F : Floats) (m : FMap Bytes Json) (ks ks' : List Bytes) :
    pairs F m (ks ++ ks') = pairs F m ks ++ pairs F m ks' := by
  rw [pairs, flatMap_append, map_append]
  rfl

/-- From a cursor on, the requests of a scan ask for no more than a number of 64 bits can hold. -/
def Fits (n : ℕ) (count : ℕ → ℤ) (cursor : ℤ) : Prop :=
  ∀ d, (∀ j ≤ d, 0 < count j) → cursor + ∑ j ∈ Finset.range d, count j < n →
    cursor + ∑ j ∈ Finset.range (d + 1), count j ≤ 9223372036854775807

theorem fits_of_le {n : ℕ} {count : ℕ → ℤ} (h : 0 < count 0 → (n : ℤ) ≤ cursor) : Fits n count cursor := by
  intro d hd hsum
  have hnonneg : 0 ≤ ∑ j ∈ Finset.range d, count j := by
    apply Finset.sum_nonneg
    intro j hj
    have := hd j (by have := Finset.mem_range.mp hj; omega)
    omega
  have := h (hd 0 (Nat.zero_le d))
  omega

theorem fits_iff {n : ℕ} {count : ℕ → ℤ} (hlt : cursor < n) (hpos : 0 < count 0) :
    Fits n count cursor ↔ cursor + count 0 ≤ 9223372036854775807 ∧
      Fits n (fun j => count (j + 1)) (cursor + count 0) := by
  constructor
  · intro h
    refine ⟨by simpa using h 0 (fun j hj => by rwa [Nat.le_zero.mp hj]) (by simpa using hlt), ?_⟩
    intro d hd hsum
    dsimp only at hsum ⊢
    have hpositive : ∀ j ≤ d + 1, 0 < count j := by
      intro j hj
      cases j with
      | zero => exact hpos
      | succ j => exact hd j (by omega)
    have hall := h (d + 1) hpositive (by rw [Finset.sum_range_succ']; omega)
    rw [Finset.sum_range_succ'] at hall
    omega
  · rintro ⟨hfirst, hrest⟩ d hd hsum
    cases d with
    | zero => simpa using hfirst
    | succ d =>
      rw [Finset.sum_range_succ'] at hsum ⊢
      have hall := hrest d (fun j hj => hd (j + 1) (by omega)) (by dsimp only; omega)
      dsimp only at hall
      omega

theorem scan_last (h : Stored W topic m) (hglobs : Globs W pattern m)
    (hmatch : ∀ i, hscanMatch (options i) = pattern) {i : ℕ} (hcursor : 0 ≤ cursor ∧ cursor ≤ 9223372036854775807)
    (hfits : 0 < counts options i → cursor < (matching W pattern m).length →
      cursor + counts options i ≤ 9223372036854775807)
    (hend : ¬ (0 < counts options i ∧ cursor + counts options i < (matching W pattern m).length)) :
    scan W topic options 1 i (signed cursor) =
      some (pairs W.floats m ((matching W pattern m).drop cursor.toNat)) := by
  rw [scan_succ h hglobs hmatch hcursor, hscanPage_eq hcursor.1 hfits, if_neg hend, Option.bind_some,
    if_pos (show signed 0 = ascii "0" by decide)]

theorem scan_next (h : Stored W topic m) (hglobs : Globs W pattern m)
    (hmatch : ∀ i, hscanMatch (options i) = pattern) {i : ℕ} (hcursor : 0 ≤ cursor) (hpos : 0 < counts options i)
    (hfits : cursor + counts options i ≤ 9223372036854775807)
    (hmore : cursor + counts options i < (matching W pattern m).length) (k : ℕ) :
    scan W topic options (k + 1) i (signed cursor) =
      (scan W topic options k (i + 1) (signed (cursor + counts options i))).map
        (pairs W.floats m (((matching W pattern m).take (cursor + counts options i).toNat).drop cursor.toNat) ++
          ·) := by
  have hnext : signed (cursor + counts options i) ≠ ascii "0" := by
    intro hzero
    have := (signed_eq_zero_iff (by omega) hfits).mp hzero
    omega
  rw [scan_succ h hglobs hmatch ⟨hcursor, by omega⟩, hscanPage_eq hcursor fun _ _ => hfits, if_pos ⟨hpos, hmore⟩,
    Option.bind_some, if_neg hnext]

private theorem drop_eq_append {α : Type} (l : List α) {a b : ℕ} (h : a ≤ b) :
    l.drop a = (l.take b).drop a ++ l.drop b := by
  conv_lhs => rw [← take_append_drop b l]
  by_cases hb : b ≤ l.length
  · rw [drop_append_of_le_length (by rw [length_take]; omega)]
  · rw [take_of_length_le (by omega), drop_of_length_le (by omega : l.length ≤ b), append_nil,
      append_nil]

/-- A scan that goes on at a cursor ends with the rest of the fields exactly when its requests fit. -/
theorem scan_from_iff (h : Stored W topic m) (hglobs : Globs W pattern m)
    (hmatch : ∀ i, hscanMatch (options i) = pattern) (n : ℕ) : ∀ (cursor : ℤ) (i : ℕ),
    0 ≤ cursor → cursor ≤ 9223372036854775807 → (matching W pattern m).length ≤ cursor + n →
      ((∃ k, scan W topic options k i (signed cursor) =
          some (pairs W.floats m ((matching W pattern m).drop cursor.toNat))) ↔
        Fits (matching W pattern m).length (fun j => counts options (i + j)) cursor) := by
  induction n using Nat.strong_induction_on with
  | _ n ih =>
    intro cursor i hlow hhigh hlen
    by_cases hgo : 0 < counts options i ∧ cursor < (matching W pattern m).length
    swap
    · have hend : ¬ (0 < counts options i ∧ cursor + counts options i < (matching W pattern m).length) := by omega
      refine iff_of_true ⟨1, scan_last h hglobs hmatch ⟨hlow, hhigh⟩ (fun hpos hlt => absurd ⟨hpos, hlt⟩ hgo) hend⟩ ?_
      apply fits_of_le
      intro hpos
      rw [Nat.add_zero] at hpos
      omega
    rw [fits_iff hgo.2 hgo.1, Nat.add_zero]
    by_cases hfits : cursor + counts options i ≤ 9223372036854775807
    swap
    · have hcount : counts options i ≤ 9223372036854775807 := (hscanCount_range (options i)).2
      have hnone : hscanPage (matching W pattern m) cursor (counts options i) = none :=
        (hscanPage_eq_none_iff ⟨hlow, hhigh⟩ hcount).mpr ⟨hgo.1, hgo.2, by omega⟩
      refine iff_of_false ?_ fun h => hfits h.1
      rintro ⟨k, hk⟩
      cases k with
      | zero => cases hk
      | succ k =>
        rw [scan_succ h hglobs hmatch ⟨hlow, hhigh⟩, hnone] at hk
        cases hk
    have hshift : (fun j => counts options (i + (j + 1))) = fun j => counts options (i + 1 + j) := by
      funext j
      rw [Nat.add_right_comm, Nat.add_assoc i j 1]
    rw [hshift]
    by_cases hmore : cursor + counts options i < (matching W pattern m).length
    swap
    · refine iff_of_true ⟨1, scan_last h hglobs hmatch ⟨hlow, hhigh⟩ (fun _ _ => hfits) fun hend => hmore hend.2⟩
        ⟨hfits, fits_of_le fun _ => by omega⟩
    have hsplit := drop_eq_append (matching W pattern m)
      (show cursor.toNat ≤ (cursor + counts options i).toNat by omega)
    have hrest := ih (n - 1) (by omega) (cursor + counts options i) (i + 1) (by omega) hfits (by omega)
    rw [iff_true_intro hfits, true_and, ← hrest, hsplit, pairs_append]
    constructor
    · rintro ⟨k, hk⟩
      cases k with
      | zero => cases hk
      | succ k =>
        rw [scan_next h hglobs hmatch hlow hgo.1 hfits hmore, Option.map_eq_some_iff] at hk
        obtain ⟨rest, hrest, heq⟩ := hk
        rw [append_cancel_left heq] at hrest
        exact ⟨k, hrest⟩
    · rintro ⟨k, hk⟩
      refine ⟨k + 1, ?_⟩
      rw [scan_next h hglobs hmatch hlow hgo.1 hfits hmore, hk, Option.map_some]

theorem nodup_matching (W : World) (pattern : Bytes) (m : FMap Bytes Json) : (matching W pattern m).Nodup := by
  apply List.Nodup.filter
  exact ((mergeSort_perm _ _).nodup_iff).mpr m.nodupKeys

theorem mem_matching (W : World) (pattern : Bytes) (m : FMap Bytes Json) (k : Bytes) :
    k ∈ matching W pattern m ↔
      (m.lookup k).isSome ∧ (pattern = [] ∨ globMatch W.compile pattern k = some true) := by
  rw [matching, mem_filter, sortedKeys, mem_mergeSort, Bool.or_eq_true, decide_eq_true_eq, decide_eq_true_eq]
  refine and_congr_left fun _ => ?_
  rw [AList.lookup_isSome, AList.mem_keys]

/-- A pattern that panics ends the scan. -/
theorem scan_eq_none (h : Stored W topic m) (hglobs : ¬ Globs W pattern m)
    (hmatch : ∀ i, hscanMatch (options i) = pattern) (k : ℕ) : scan W topic options k 0 (ascii "0") = none := by
  cases k with
  | zero => rfl
  | succ k =>
    rw [scan, handleHscan_bind h (show atoi (ascii "0") = some 0 by decide) (by decide), hmatch,
      hscanKeys_eq_none hglobs]
    rfl

end Scan

def twoFields : FMap Bytes Bytes :=
  ((∅ : FMap Bytes Bytes).insert (ascii "a") (ascii "1")).insert (ascii "b") (ascii "2")

def hashWorld : World :=
  { openWorld with
    store := fun _ => some (encodeEnvelope openWorld.floats hash
      (ofMap (((∅ : FMap Bytes Json).insert (ascii "a") (.str (ascii "1"))).insert (ascii "b") (.str (ascii "2"))))) }

theorem stored_twoFields : ∃ m, Stored hashWorld (ascii "k") m ∧ Strings m twoFields := by
  have hempty : Strings (∅ : FMap Bytes Json) (∅ : FMap Bytes Bytes) := fun _ => rfl
  have hs := (hempty.insert (ascii "a") (ascii "1")).insert (ascii "b") (ascii "2")
  have hnone : TextMap (∅ : FMap Bytes Bytes) := by
    intro k v hlook
    cases hlook
  have ht := (hnone.insert (k := ascii "a") (v := ascii "1") ⟨"a".toList, rfl⟩ ⟨"1".toList, rfl⟩).insert
    (k := ascii "b") (v := ascii "2") ⟨"b".toList, rfl⟩ ⟨"2".toList, rfl⟩
  obtain ⟨ms, hdecode, hms⟩ := decode_map (F := openWorld.floats) hs ht
  refine ⟨mapOf ms, ⟨rfl, Option.some_ne_none _, ?_⟩, hms⟩
  rw [readStored, hashWorld]
  dsimp only
  rw [hdecode, if_neg (not_not_intro rfl)]
  rfl

private theorem two_le_matching {m : FMap Bytes Json} (hm : Strings m twoFields) :
    1 < (matching hashWorld [] m).length := by
  have ha : ascii "a" ∈ matching hashWorld [] m := by
    rw [mem_matching, hm]
    exact ⟨rfl, .inl rfl⟩
  have hb : ascii "b" ∈ matching hashWorld [] m := by
    rw [mem_matching, hm]
    exact ⟨rfl, .inl rfl⟩
  have hsub : [ascii "a", ascii "b"] ⊆ matching hashWorld [] m := by
    intro k hk
    rcases mem_pair.mp hk with rfl | rfl
    · exact ha
    · exact hb
  exact (List.Nodup.subperm (by decide) hsub).length_le

end MonsterMQ.Redis
