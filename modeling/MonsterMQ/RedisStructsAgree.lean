import MonsterMQ.RedisStructsReference

/-!
# Redis structures agree with their data types

Each command answers as the data type does and leaves a payload that stands for its new value, unless
it lists a key without a value or removes the last element of a set or a list.
-/

namespace MonsterMQ.Redis

open LittleEndian Auth JsonText FiniteMaps List

variable {m : FMap Bytes Json}

theorem Strings.keys_perm {s : FMap Bytes Bytes} (h : Strings m s) : m.keys.Perm s.keys := by
  rw [perm_ext_iff_of_nodup m.keys_nodup s.keys_nodup]
  intro k
  rw [← AList.mem_keys, ← AList.mem_keys, ← AList.lookup_isSome, ← AList.lookup_isSome, h k, Option.isSome_map]

theorem Strings.size_eq {s : FMap Bytes Bytes} (h : Strings m s) : size m = size s := by
  rw [size_eq_keys_length, size_eq_keys_length, h.keys_perm.length_eq]

theorem pairwise_sorted (l : List Bytes) : (l.mergeSort fun a b => a ≤ b).Pairwise fun a b => a ≤ b := by
  have htrans : ∀ a b c : Bytes, decide (a ≤ b) = true → decide (b ≤ c) = true → decide (a ≤ c) = true := by
    intro a b c hab hbc
    exact decide_eq_true (List.le_trans (of_decide_eq_true hab) (of_decide_eq_true hbc))
  have htotal : ∀ a b : Bytes, (decide (a ≤ b) || decide (b ≤ a)) = true := by
    intro a b
    rw [Bool.or_eq_true, decide_eq_true_eq, decide_eq_true_eq]
    exact List.le_total a b
  exact (pairwise_mergeSort htrans htotal l).imp fun h => of_decide_eq_true h

theorem Strings.sortedKeys_eq {s : FMap Bytes Bytes} (h : Strings m s) : sortedKeys m = sortedKeys s := by
  have hperm : (sortedKeys m).Perm (sortedKeys s) :=
    (mergeSort_perm _ _).trans (h.keys_perm.trans (mergeSort_perm _ _).symm)
  refine hperm.eq_of_pairwise ?_ (pairwise_sorted _) (pairwise_sorted _)
  intro a b _ _ hab hba
  exact List.le_antisymm hab hba

theorem Strings.valueAt_eq {s : FMap Bytes Bytes} (h : Strings m s) (F : Floats) {k : Bytes}
    (hk : k ∈ sortedKeys s) : valueAt F m k = (s.lookup k).getD [] := by
  have hmem : k ∈ s := AList.mem_keys.mpr ((mem_mergeSort).mp hk)
  obtain ⟨v, hv⟩ := Option.isSome_iff_exists.mp (AList.lookup_isSome.mpr hmem)
  rw [valueAt, h k, hv]
  rfl

theorem Strings.insert {s : FMap Bytes Bytes} (h : Strings m s) (k v : Bytes) :
    Strings (m.insert k (.str v)) (s.insert k v) := by
  intro k'
  by_cases hk : k' = k
  · rw [hk, AList.lookup_insert, AList.lookup_insert]
    rfl
  · rw [AList.lookup_insert_ne hk, AList.lookup_insert_ne hk, h k']

theorem Strings.erase {s : FMap Bytes Bytes} (h : Strings m s) (k : Bytes) :
    Strings (m.erase k) (s.erase k) := by
  intro k'
  by_cases hk : k' = k
  · rw [hk, AList.lookup_erase, AList.lookup_erase]
    rfl
  · rw [AList.lookup_erase_ne hk, AList.lookup_erase_ne hk, h k']

theorem TextMap.insert {s : FMap Bytes Bytes} (h : TextMap s) {k v : Bytes} (hk : IsText k) (hv : IsText v) :
    TextMap (s.insert k v) := by
  intro k' v' hlook
  by_cases heq : k' = k
  · subst heq
    rw [AList.lookup_insert] at hlook
    cases hlook
    exact ⟨hk, hv⟩
  · rw [AList.lookup_insert_ne heq] at hlook
    exact h k' v' hlook

theorem TextMap.eraseAll {s : FMap Bytes Bytes} (h : TextMap s) (ks : List Bytes) : TextMap (eraseAll ks s) := by
  intro k v hlook
  rw [lookup_eraseAll] at hlook
  split at hlook
  · cases hlook
  · exact h k v hlook

theorem size_insert (s : FMap Bytes Bytes) (k v : Bytes) :
    (size (s.insert k v) : ℤ) = size s + if (s.lookup k).isSome then 0 else 1 := by
  have hcount := count_insert (fun _ => true) s k v
  rw [← size_eq_count, ← size_eq_count] at hcount
  cases hlook : s.lookup k with
  | none | some w =>
    rw [hlook] at hcount
    simp at hcount ⊢
    omega

theorem size_erase (s : FMap Bytes Bytes) (k : Bytes) :
    (size s : ℤ) = size (s.erase k) + if (s.lookup k).isSome then 1 else 0 := by
  have hcount := count_erase (fun _ => true) s k
  rw [← size_eq_count, ← size_eq_count] at hcount
  cases hlook : s.lookup k with
  | none | some w =>
    rw [hlook] at hcount
    simp at hcount ⊢
    omega

/-- The loop of `HSET` inserts the pairs and counts the new fields. -/
theorem hsetLoop_eq (pairs : List (Bytes × Bytes)) {s : FMap Bytes Bytes} (h : Strings m s)
    (ht : TextMap s) (hp : ∀ p ∈ pairs, IsText p.1 ∧ IsText p.2) (n : ℤ) : let r := pairs.foldl (fun acc p =>
      (acc.1.insert p.1 (.str p.2), if (acc.1.lookup p.1).isSome then acc.2 else acc.2 + 1)) (m, n)
    let s' := pairs.foldl (fun s p => s.insert p.1 p.2) s
    Strings r.1 s' ∧ TextMap s' ∧ r.2 = n + (size s' - size s) := by
  induction pairs generalizing m s n with
  | nil => exact ⟨h, ht, by simp⟩
  | cons p pairs ih =>
    obtain ⟨hk, hv⟩ := hp p mem_cons_self
    have hrec := ih (h.insert p.1 p.2) (ht.insert hk hv) (fun q hq => hp q (mem_cons_of_mem p hq))
      (if (m.lookup p.1).isSome then n else n + 1)
    obtain ⟨hs, htext, hcount⟩ := hrec
    refine ⟨hs, htext, ?_⟩
    rw [foldl_cons, foldl_cons, hcount, size_insert, h p.1, Option.isSome_map]
    split
    · omega
    · omega

/-- The loop of `HDEL` erases the fields and counts those that were there. -/
theorem hdelLoop_eq (fields : List Bytes) {s : FMap Bytes Bytes} (h : Strings m s) (n : ℤ) :
    let r := fields.foldl (fun acc f => if (acc.1.lookup f).isSome then (acc.1.erase f, acc.2 + 1) else acc) (m, n)
    Strings r.1 (eraseAll fields s) ∧ r.2 = n + (size s - size (eraseAll fields s)) := by
  induction fields generalizing m s n with
  | nil => exact ⟨h, by simp [eraseAll]⟩
  | cons f fields ih =>
    have hstep : eraseAll (f :: fields) s = eraseAll fields (s.erase f) := rfl
    have hsize := size_erase s f
    rw [foldl_cons, hstep]
    have hsome := congrArg Option.isSome (h f)
    rw [Option.isSome_map] at hsome
    cases hlook : (s.lookup f).isSome with
    | true =>
      rw [hlook] at hsome hsize
      rw [if_pos hsome]
      obtain ⟨hs, hcount⟩ := ih (h.erase f) (n + 1)
      refine ⟨hs, ?_⟩
      rw [hcount]
      simp only [if_true] at hsize
      omega
    | false =>
      rw [hlook] at hsome hsize
      rw [if_neg (by rw [hsome]; decide)]
      have herase : Strings m (s.erase f) := by
        intro k
        by_cases hk : k = f
        · rw [hk, AList.lookup_erase, h f]
          rw [Option.isSome_eq_false_iff, Option.isNone_iff_eq_none] at hlook
          rw [hlook]
        · rw [AList.lookup_erase_ne hk, h k]
      obtain ⟨hs, hcount⟩ := ih herase n
      refine ⟨hs, ?_⟩
      rw [hcount]
      simp only [Bool.false_eq_true, if_false] at hsize
      omega

theorem foldl_addNew_of_nodup (l acc : List Bytes) (h : (acc ++ l).Nodup) : l.foldl addNew acc = acc ++ l := by
  induction l generalizing acc with
  | nil => rw [foldl_nil, append_nil]
  | cons b l ih =>
    have hb : b ∉ acc := by
      intro hmem
      exact (nodup_append.mp h).2.2 b hmem b mem_cons_self rfl
    rw [foldl_cons, addNew, if_neg hb, ih (acc ++ [b]) (by simpa using h), append_assoc,
      singleton_append]

theorem nodup_foldl_addNew (ms l : List Bytes) (h : l.Nodup) : (ms.foldl addNew l).Nodup := by
  induction ms generalizing l with
  | nil => exact h
  | cons m ms ih =>
    refine ih _ ?_
    rw [addNew]
    split
    · exact h
    · next hm =>
      rw [nodup_append]
      refine ⟨h, nodup_singleton m, ?_⟩
      intro a ha b hb
      rw [mem_singleton.mp hb]
      exact fun heq => hm (heq ▸ ha)

theorem mem_foldl_addNew {ms l : List Bytes} {b : Bytes} (h : b ∈ ms.foldl addNew l) : b ∈ l ∨ b ∈ ms := by
  induction ms generalizing l with
  | nil => exact Or.inl h
  | cons m ms ih =>
    rcases ih h with h | h
    · rw [addNew] at h
      split at h
      · exact Or.inl h
      · rcases mem_append.mp h with h | h
        · exact Or.inl h
        · exact Or.inr (mem_cons.mpr (Or.inl (mem_singleton.mp h)))
    · exact Or.inr (mem_cons_of_mem m h)

private theorem countP_removed (l ms : List Bytes) :
    ((l.countP fun m => m ∈ ms : ℕ) : ℤ) = l.length - (l.filter fun m => m ∉ ms).length := by
  have hlen := length_eq_countP_add_countP (fun m => decide (m ∈ ms)) (l := l)
  rw [← countP_eq_length_filter]
  simp only [decide_not, decide_eq_true_eq] at hlen ⊢
  omega

private theorem foldl_cons_eq (vs l : List Bytes) : vs.foldl (fun l v => v :: l) l = vs.reverse ++ l := by
  induction vs generalizing l with
  | nil => rfl
  | cons v vs ih => rw [foldl_cons, ih, reverse_cons, append_assoc, singleton_append]

private theorem sliceAnyList_map {α γ : Type} (f : α → γ) (l : List α) (i j : ℤ) :
    sliceAnyList (l.map f) i j = (sliceAnyList l i j).map f := by
  simp only [sliceAnyList, map_eq_nil_iff, length_map, ← map_take, ← map_drop,
    apply_ite (List.map f), map_nil]

/-- The elements of a list at the positions from `a` to `b`, of which the first is at `k`. -/
theorem filter_zipIdx (l : List Bytes) (k a b : ℕ) :
    ((l.zipIdx k).filter fun p => (a : ℤ) ≤ p.2 ∧ (p.2 : ℤ) ≤ b).map Prod.fst = (l.take (b + 1 - k)).drop (a - k) := by
  induction l generalizing k with
  | nil => simp
  | cons x l ih =>
    rw [zipIdx_cons, filter_cons]
    by_cases hb : k ≤ b
    · have htake : (x :: l).take (b + 1 - k) = x :: l.take (b + 1 - (k + 1)) := by
        rw [show b + 1 - k = (b + 1 - (k + 1)) + 1 by omega, take_succ_cons]
      rw [htake]
      by_cases ha : a ≤ k
      · have hin : decide ((a : ℤ) ≤ (x, k).2 ∧ ((x, k).2 : ℤ) ≤ b) = true := by
          apply decide_eq_true
          dsimp only
          omega
        rw [if_pos hin, map_cons, ih, show a - (k + 1) = 0 by omega, show a - k = 0 by omega, drop_zero,
          drop_zero]
      · have hout : ¬ decide ((a : ℤ) ≤ (x, k).2 ∧ ((x, k).2 : ℤ) ≤ b) = true := by
          rw [decide_eq_true_eq]
          dsimp only
          omega
        rw [if_neg hout, ih, show a - k = (a - (k + 1)) + 1 by omega, drop_succ_cons]
    · have hout : ¬ decide ((a : ℤ) ≤ (x, k).2 ∧ ((x, k).2 : ℤ) ≤ b) = true := by
        rw [decide_eq_true_eq]
        dsimp only
        omega
      rw [if_neg hout, ih, show b + 1 - k = 0 by omega, show b + 1 - (k + 1) = 0 by omega]
      simp

/-- The positions of a list that are between two integers are those between the bounds of the slice. -/
theorem sliceAnyList_eq (l : List Bytes) (i j : ℤ) : sliceAnyList l i j = Value.range l i j := by
  have hmem : ∀ p ∈ l.zipIdx, p.2 < l.length := by
    intro p hp
    have hlt := snd_lt_add_of_mem_zipIdx hp
    omega
  rw [sliceAnyList, Value.range]
  by_cases hl : l = []
  · rw [if_pos hl, hl]
    rfl
  rw [if_neg hl]
  change (if Value.position l j < 0 ∨ (if Value.position l i < 0 then 0 else Value.position l i) ≥ l.length ∨
    (if Value.position l i < 0 then 0 else Value.position l i) > Value.position l j then [] else
    (l.take ((if Value.position l j ≥ l.length then (l.length : ℤ) - 1 else Value.position l j) + 1).toNat).drop
      (if Value.position l i < 0 then 0 else Value.position l i).toNat) = _
  generalize hlo : (if Value.position l i < 0 then 0 else Value.position l i) = lo
  generalize hhi : (if Value.position l j ≥ l.length then (l.length : ℤ) - 1 else Value.position l j) = hi
  have hlo' : (Value.position l i < 0 ∧ lo = 0) ∨ (0 ≤ Value.position l i ∧ lo = Value.position l i) := by
    split at hlo <;> omega
  have hhi' : (l.length ≤ Value.position l j ∧ hi = l.length - 1) ∨
      (Value.position l j < l.length ∧ hi = Value.position l j) := by
    split at hhi <;> omega
  by_cases hout : Value.position l j < 0 ∨ lo ≥ l.length ∨ lo > Value.position l j
  · rw [if_pos hout]
    symm
    rw [map_eq_nil_iff, filter_eq_nil_iff]
    intro p hp
    have hlt := hmem p hp
    rw [decide_eq_true_eq]
    omega
  · rw [if_neg hout]
    have hfilter : (l.zipIdx.filter fun p => Value.position l i ≤ p.2 ∧ (p.2 : ℤ) ≤ Value.position l j) =
        l.zipIdx.filter fun p => ((lo.toNat : ℕ) : ℤ) ≤ p.2 ∧ (p.2 : ℤ) ≤ ((hi.toNat : ℕ) : ℤ) := by
      apply filter_congr
      intro p hp
      have hlt := hmem p hp
      rw [decide_eq_decide]
      omega
    rw [hfilter, filter_zipIdx, Nat.sub_zero, Nat.sub_zero]
    congr 2
    omega

theorem pairsOf_flatMap (pairs : List (Bytes × Bytes)) : pairsOf (pairs.flatMap fun p => [p.1, p.2]) = pairs := by
  induction pairs with
  | nil => rfl
  | cons p pairs ih =>
    rw [flatMap_cons]
    change (p.1, p.2) :: pairsOf (pairs.flatMap fun p => [p.1, p.2]) = p :: pairs
    rw [ih]

private theorem length_flatMap_pairs (pairs : List (Bytes × Bytes)) :
    (pairs.flatMap fun p => [p.1, p.2]).length = 2 * pairs.length := by
  induction pairs with
  | nil => rfl
  | cons p pairs ih =>
    rw [flatMap_cons, length_append, ih]
    simp only [length_cons, length_nil]
    omega

section Commands

variable {E : Access} {S : Store} {key : Bytes} {s : Option Value}

theorem represents_map {F : Floats} {m : FMap Bytes Json} {t : FMap Bytes Bytes} (hs : Strings m t)
    (ht : TextMap t) : Represents F (some (encodeEnvelope F hash (ofMap m))) (some (.hash t)) := by
  obtain ⟨ms, hd, hms⟩ := decode_map (F := F) hs ht
  exact ⟨.obj ms, hd, hms, ht⟩

theorem represents_set {F : Floats} {l : List Bytes} (ht : ∀ b ∈ l, IsText b) (hn : l.Nodup) :
    Represents F (some (encodeEnvelope F setType (ofSlice (some l)))) (some (.set l)) :=
  ⟨.arr (l.map .str), decode_slice isText_set ht, rfl, ht, hn⟩

theorem represents_list {F : Floats} {l : List Bytes} (ht : ∀ b ∈ l, IsText b) :
    Represents F (some (encodeEnvelope F listType (ofSlice (some l)))) (some (.list l)) :=
  ⟨.arr (l.map .str), decode_slice isText_list ht, rfl, ht⟩

theorem sliceOf_eq {l : List Bytes} (h : l ≠ []) : sliceOf l = some l := if_neg h

section

variable (hE : E.Grants key)
include hE

theorem handleHset_agrees (h : Represents E.floats (S key) s) (name : Bytes)
    {pairs : List (Bytes × Bytes)} (hne : pairs ≠ []) (ht : ∀ b ∈ (StructCommand.hset pairs).operands, IsText b) :
    Agrees E key (handle E S name key (.hset pairs)) (Value.reference s (.hset pairs)) := by
  have hlen := length_flatMap_pairs pairs
  have hpos := length_pos_of_ne_nil hne
  have hargs : ¬ ((name :: key :: (StructCommand.hset pairs).operands).length < 4 ∨
      (name :: key :: (StructCommand.hset pairs).operands).length % 2 ≠ 0) := by
    simp only [StructCommand.operands, length_cons, hlen]
    omega
  have htexts : ∀ p ∈ pairs, IsText p.1 ∧ IsText p.2 := by
    intro p hp
    constructor
    · exact ht p.1 (mem_flatMap.mpr ⟨p, hp, mem_cons_self⟩)
    · exact ht p.2 (mem_flatMap.mpr ⟨p, hp, mem_cons_of_mem p.1 mem_cons_self⟩)
  have hdrop : pairsOf ((name :: key :: (StructCommand.hset pairs).operands).drop 2) = pairs := pairsOf_flatMap pairs
  have hloop : ∀ m t, Strings m t → TextMap t →
      (.integer (hsetLoop m pairs).2 : RespValue) =
          .integer (size (pairs.foldl (fun m p => m.insert p.1 p.2) t) - size t) ∧
        Represents E.floats (some (encodeEnvelope E.floats hash (ofMap (hsetLoop m pairs).1)))
          (some (.hash (pairs.foldl (fun m p => m.insert p.1 p.2) t))) := by
    intro m t hm htm
    obtain ⟨hs, htext, hcount⟩ := hsetLoop_eq pairs hm htm htexts 0
    refine ⟨?_, represents_map hs htext⟩
    rw [hsetLoop, hcount, zero_add]
  rw [handle, handleHset, if_neg hargs, hdrop]
  refine hE.write_agrees typed_hash h _ _ _ _ _ ?_ ?_
  · intro _
    exact hloop ∅ ∅ (fun k => rfl) (fun k v hk => by cases hk)
  · intro v a b _ _ hR
    exact hloop a b hR.1 hR.2

theorem handleHdel_agrees (h : Represents E.floats (S key) s) (name : Bytes)
    {fields : List Bytes} (hne : fields ≠ []) :
    Agrees E key (handle E S name key (.hdel fields)) (Value.reference s (.hdel fields)) := by
  have hargs : ¬ (name :: key :: (StructCommand.hdel fields).operands).length < 3 := by
    have hpos := length_pos_of_ne_nil hne
    simp only [StructCommand.operands, length_cons]
    omega
  rw [handle, handleHdel, if_neg hargs]
  refine hE.write_agrees typed_hash h _ _ _ _ _ ?_ ?_
  · intro hs
    subst hs
    refine ⟨?_, h⟩
    have herase : size (eraseAll fields (∅ : FMap Bytes Bytes)) = size (∅ : FMap Bytes Bytes) := by
      refine size_congr fun k => ?_
      rw [lookup_eraseAll]
      split <;> rfl
    rw [herase, sub_self]
  · intro v a b hs _ hR
    obtain ⟨hstr, hcount⟩ := hdelLoop_eq fields hR.1 0
    subst hs
    refine ⟨?_, represents_map hstr (hR.2.eraseAll fields)⟩
    change RespValue.integer (hdelLoop a fields).2 = _
    rw [hdelLoop, hcount, zero_add]

private theorem handleHget_agrees (h : Represents E.floats (S key) s) (name field : Bytes) :
    Agrees E key (handle E S name key (.hget field)) (Value.reference s (.hget field)) := by
  refine hE.read_agrees typed_hash h nullBulk _ ∅ (fun m => .bulk (m.lookup field)) (fun _ => rfl) ?_
  intro a b hR
  have hfield : (name :: key :: (StructCommand.hget field).operands).getD 2 [] = field := rfl
  rw [hfield, hR.1 field]
  cases b.lookup field with
  | none => rfl
  | some v => rfl

private theorem handleHlen_agrees (h : Represents E.floats (S key) s) (name : Bytes) :
    Agrees E key (handle E S name key .hlen) (Value.reference s .hlen) := by
  refine hE.read_agrees typed_hash h (.integer 0) _ ∅ (fun m => .integer (size m)) (fun _ => rfl) ?_
  intro a b hR
  rw [hR.1.size_eq]

private theorem handleHkeys_agrees (h : Represents E.floats (S key) s) (name : Bytes) (hs : s ≠ none) :
    Agrees E key (handle E S name key .hkeys) (Value.reference s .hkeys) := by
  refine hE.read_agrees typed_hash h .nullArray _ ∅ (fun m => bulks (sortedKeys m)) (fun h => absurd h hs) ?_
  intro a b hR
  rw [hR.1.sortedKeys_eq]

private theorem handleHvals_agrees (h : Represents E.floats (S key) s) (name : Bytes) (hs : s ≠ none) :
    Agrees E key (handle E S name key .hvals) (Value.reference s .hvals) := by
  refine hE.read_agrees typed_hash h .nullArray _ ∅
    (fun m => bulks ((sortedKeys m).map fun k => (m.lookup k).getD [])) (fun h => absurd h hs) ?_
  intro a b hR
  rw [hR.1.sortedKeys_eq]
  congr 1
  apply map_congr_left
  intro k hk
  exact hR.1.valueAt_eq E.floats hk

private theorem handleHgetall_agrees (h : Represents E.floats (S key) s) (name : Bytes) (hs : s ≠ none) :
    Agrees E key (handle E S name key .hgetall) (Value.reference s .hgetall) := by
  refine hE.read_agrees typed_hash h .nullArray _ ∅
    (fun m => bulks ((sortedKeys m).flatMap fun k => [k, (m.lookup k).getD []])) (fun h => absurd h hs) ?_
  intro a b hR
  rw [hR.1.sortedKeys_eq]
  congr 1
  apply flatMap_congr
  intro k hk
  rw [hR.1.valueAt_eq E.floats hk]

theorem handleSadd_agrees (h : Represents E.floats (S key) s) (name : Bytes)
    {members : List Bytes} (hne : members ≠ []) (ht : ∀ b ∈ members, IsText b) :
    Agrees E key (handle E S name key (.sadd members)) (Value.reference s (.sadd members)) := by
  have hargs : ¬ (name :: key :: (StructCommand.sadd members).operands).length < 3 := by
    have hpos := length_pos_of_ne_nil hne
    simp only [StructCommand.operands, length_cons]
    omega
  have htexts : ∀ l : List Bytes, (∀ b ∈ l, IsText b) → ∀ b ∈ members.foldl addNew l, IsText b := by
    intro l hl b hb
    rcases mem_foldl_addNew hb with hb | hb
    · exact hl b hb
    · exact ht b hb
  rw [handle, handleSadd, if_neg hargs]
  refine hE.write_agrees typed_set h _ _ _ _ _ ?_ ?_
  · intro _
    exact ⟨rfl, represents_set (htexts [] (by simp)) (nodup_foldl_addNew members [] nodup_nil)⟩
  · rintro v a l _ _ ⟨rfl, hl, hn⟩
    have hset : ((l.map Json.str).map (sprint E.floats)).foldl addNew [] = l := by
      rw [sprint_str, foldl_addNew_of_nodup l [] (by simpa using hn), nil_append]
    dsimp only
    rw [hset]
    exact ⟨rfl, represents_set (htexts l hl) (nodup_foldl_addNew members l hn)⟩

theorem handleSrem_agrees (h : Represents E.floats (S key) s) (name : Bytes)
    {members : List Bytes} (hne : members ≠ []) (hs : ∀ l, s = some (.set l) → ∃ m ∈ l, m ∉ members) :
    Agrees E key (handle E S name key (.srem members)) (Value.reference s (.srem members)) := by
  have hargs : ¬ (name :: key :: (StructCommand.srem members).operands).length < 3 := by
    have hpos := length_pos_of_ne_nil hne
    simp only [StructCommand.operands, length_cons]
    omega
  rw [handle, handleSrem, if_neg hargs]
  refine hE.write_agrees typed_set h _ _ _ _ _ ?_ ?_
  · intro hnone
    subst hnone
    exact ⟨rfl, h⟩
  · rintro v a l hv hview ⟨rfl, hl, hn⟩
    subst hv
    cases v with
    | set l' =>
      cases hview
      obtain ⟨m, hm, hkeep⟩ := hs l rfl
      have hne' : (l.filter fun m => m ∉ members) ≠ [] := by
        intro hnil
        have hin : m ∈ l.filter fun m => m ∉ members := mem_filter.mpr ⟨hm, by simpa using hkeep⟩
        rw [hnil] at hin
        cases hin
      dsimp only
      rw [sprint_str]
      refine ⟨congrArg RespValue.integer (countP_removed l members), ?_⟩
      change Represents _ (some (encodeEnvelope _ _ (ofSlice (sliceOf (l.filter fun m => m ∉ members))))) _
      rw [sliceOf_eq hne']
      exact represents_set (fun b hb => hl b (mem_filter.mp hb).1) (hn.filter _)
    | hash m => cases hview
    | list l' => cases hview

private theorem handleSmembers_agrees (h : Represents E.floats (S key) s) (name : Bytes) (hs : s ≠ none) :
    Agrees E key (handle E S name key .smembers) (Value.reference s .smembers) := by
  refine hE.read_agrees typed_set h .nullArray _ [] bulks (fun h => absurd h hs) ?_
  rintro a l ⟨rfl, -⟩
  rw [sprint_str]

private theorem handleSismember_agrees (h : Represents E.floats (S key) s) (name member : Bytes) :
    Agrees E key (handle E S name key (.sismember member)) (Value.reference s (.sismember member)) := by
  refine hE.read_agrees typed_set h (.integer 0) _ [] (fun l => .integer (if member ∈ l then 1 else 0))
    (fun _ => rfl) ?_
  rintro a l ⟨rfl, -⟩
  change RespValue.integer (if ((l.map Json.str).map (sprint E.floats)).any (fun m => m = member) then 1 else 0) = _
  rw [sprint_str]
  simp

private theorem handleScard_agrees (h : Represents E.floats (S key) s) (name : Bytes) :
    Agrees E key (handle E S name key .scard) (Value.reference s .scard) := by
  refine hE.read_agrees typed_set h (.integer 0) _ [] (fun l => .integer l.length) (fun _ => rfl) ?_
  rintro a l ⟨rfl, -⟩
  rw [length_map]

theorem handleListPush_agrees (h : Represents E.floats (S key) s) (name : Bytes) (isLeft : Bool)
    {values : List Bytes} (hne : values ≠ []) (ht : ∀ b ∈ values, IsText b) :
    Agrees E key (handle E S name key (.push isLeft values)) (Value.reference s (.push isLeft values)) := by
  have hargs : ¬ (name :: key :: (StructCommand.push isLeft values).operands).length < 3 := by
    have hpos := length_pos_of_ne_nil hne
    simp only [StructCommand.operands, length_cons]
    omega
  have hnew : ∀ l : List Bytes, (if isLeft then values.foldl (fun l v => v :: l) l else l ++ values) =
      if isLeft then values.reverse ++ l else l ++ values := by
    intro l
    rw [foldl_cons_eq]
  have htexts : ∀ l : List Bytes, (∀ b ∈ l, IsText b) →
      ∀ b ∈ (if isLeft then values.reverse ++ l else l ++ values), IsText b := by
    intro l hl b hb
    cases isLeft with
    | true =>
      rcases mem_append.mp hb with hb | hb
      · exact ht b (mem_reverse.mp hb)
      · exact hl b hb
    | false =>
      rcases mem_append.mp hb with hb | hb
      · exact hl b hb
      · exact ht b hb
  rw [handle, handleListPush, if_neg hargs]
  refine hE.write_agrees typed_list h _ _ _ _ _ ?_ ?_
  · intro _
    change RespValue.integer (if isLeft then values.foldl (fun l v => v :: l) [] else [] ++ values).length = _ ∧
      Represents _ (some (encodeEnvelope _ _ (ofSlice (some
        (if isLeft then values.foldl (fun l v => v :: l) [] else [] ++ values))))) _
    rw [hnew]
    exact ⟨rfl, represents_list (htexts [] (by simp))⟩
  · rintro v a l _ _ ⟨rfl, hl⟩
    change RespValue.integer (if isLeft then values.foldl (fun l v => v :: l) ((l.map Json.str).map (sprint E.floats))
        else (l.map Json.str).map (sprint E.floats) ++ values).length = _ ∧
      Represents _ (some (encodeEnvelope _ _ (ofSlice (some
        (if isLeft then values.foldl (fun l v => v :: l) ((l.map Json.str).map (sprint E.floats))
          else (l.map Json.str).map (sprint E.floats) ++ values))))) _
    rw [sprint_str, hnew]
    exact ⟨rfl, represents_list (htexts l hl)⟩

theorem handleListPop_agrees (h : Represents E.floats (S key) s) (name : Bytes) (isLeft : Bool)
    (hs : ∀ l, s = some (.list l) → l.length ≠ 1) :
    Agrees E key (handle E S name key (.pop isLeft)) (Value.reference s (.pop isLeft)) := by
  refine hE.write_agrees typed_list h _ _ _ [] _ ?_ ?_
  · intro hnone
    subst hnone
    cases isLeft with
    | true | false => exact ⟨rfl, h⟩
  · rintro v a l hv hview ⟨rfl, hl⟩
    subst hv
    cases v with
    | list l' =>
      cases hview
      have hlen := hs l rfl
      dsimp only
      rw [sprint_str]
      by_cases hnil : l = []
      · subst hnil
        cases isLeft with
        | true | false => exact ⟨rfl, h⟩
      · have hpos := length_pos_of_ne_nil hnil
        rw [if_neg hnil]
        cases isLeft with
        | true =>
          have hne : l.tail ≠ [] := by
            rw [← length_pos_iff, length_tail]
            omega
          refine ⟨rfl, ?_⟩
          change Represents _ (some (encodeEnvelope _ _ (ofSlice (sliceOf l.tail)))) _
          rw [sliceOf_eq hne]
          exact represents_list fun b hb => hl b (mem_of_mem_tail hb)
        | false =>
          have hne : l.dropLast ≠ [] := by
            rw [← length_pos_iff, length_dropLast]
            omega
          refine ⟨rfl, ?_⟩
          change Represents _ (some (encodeEnvelope _ _ (ofSlice (sliceOf l.dropLast)))) _
          rw [sliceOf_eq hne]
          exact represents_list fun b hb => hl b ((dropLast_sublist l).subset hb)
    | hash m => cases hview
    | set l' => cases hview

theorem handleLrange_agrees (h : Represents E.floats (S key) s) (name start stop : Bytes)
    (hs : s = none → atoi start = none ∨ atoi stop = none) :
    Agrees E key (handle E S name key (.lrange start stop)) (Value.reference s (.lrange start stop)) := by
  change Agrees E key (S, handleLrange E S [name, key, start, stop]) _
  have hstart : [name, key, start, stop].getD 2 [] = start := rfl
  have hstop : [name, key, start, stop].getD 3 [] = stop := rfl
  rw [handleLrange, if_neg (by simp), Value.reference, hstart, hstop]
  cases hi : atoi start with
  | none => exact ⟨rfl, h⟩
  | some i =>
    cases hj : atoi stop with
    | none => exact ⟨rfl, h⟩
    | some j =>
      refine hE.read_agrees typed_list h .nullArray _ [] (fun l => bulks (Value.range l i j)) ?_ ?_
      · intro hnone
        rcases hs hnone with hs | hs
        · rw [hi] at hs
          cases hs
        · rw [hj] at hs
          cases hs
      · rintro a l ⟨rfl, -⟩
        rw [sliceAnyList_map, sprint_str, sliceAnyList_eq]

private theorem handleLlen_agrees (h : Represents E.floats (S key) s) (name : Bytes) :
    Agrees E key (handle E S name key .llen) (Value.reference s .llen) := by
  refine hE.read_agrees typed_list h (.integer 0) _ [] (fun l => .integer l.length) (fun _ => rfl) ?_
  rintro a l ⟨rfl, -⟩
  rw [length_map]

theorem handleLindex_agrees (h : Represents E.floats (S key) s) (name index : Bytes) :
    Agrees E key (handle E S name key (.lindex index)) (Value.reference s (.lindex index)) := by
  change Agrees E key (S, handleLindex E S [name, key, index]) _
  have hindex : [name, key, index].getD 2 [] = index := rfl
  rw [handleLindex, if_neg (by simp), Value.reference, hindex]
  cases hi : atoi index with
  | none => exact ⟨rfl, h⟩
  | some i =>
    have hread : ∀ arr : List Json, Value.position (arr.map (sprint E.floats)) i =
        if i < 0 then arr.length + i else i := by
      intro arr
      rw [Value.position, length_map]
    simp only [← hread]
    refine hE.read_agrees typed_list h nullBulk _ [] (fun l => .bulk (Value.element l i)) ?_ ?_
    · intro _
      rw [Value.element, nullBulk]
      split
      · rfl
      · rw [List.getElem?_nil]
    · rintro a l ⟨rfl, -⟩
      rw [sprint_str, length_map, Value.element]
      split
      · next hout =>
        split
        · rfl
        · rw [List.getElem?_eq_none (by omega), nullBulk]
      · next hin =>
        rw [if_neg (by omega)]

end

end Commands

theorem handle_agrees {E : Access} {S : Store} {key : Bytes} {s : Option Value} (hE : E.Grants key)
    (h : Represents E.floats (S key) s) (name : Bytes) {c : StructCommand} (hc : c.Complete)
    (ht : ∀ b ∈ c.operands, IsText b) (hcareful : Value.Careful s c) :
    Agrees E key (handle E S name key c) (Value.reference s c) := by
  cases c with
  | hset pairs => exact handleHset_agrees hE h name hc ht
  | hdel fields => exact handleHdel_agrees hE h name hc
  | hget field => exact handleHget_agrees hE h name field
  | hgetall =>
    refine handleHgetall_agrees hE h name fun hs => ?_
    subst hs
    exact hcareful
  | hlen => exact handleHlen_agrees hE h name
  | hkeys =>
    refine handleHkeys_agrees hE h name fun hs => ?_
    subst hs
    exact hcareful
  | hvals =>
    refine handleHvals_agrees hE h name fun hs => ?_
    subst hs
    exact hcareful
  | sadd members => exact handleSadd_agrees hE h name hc ht
  | srem members =>
    refine handleSrem_agrees hE h name hc fun l hs => ?_
    subst hs
    exact hcareful
  | smembers =>
    refine handleSmembers_agrees hE h name fun hs => ?_
    subst hs
    exact hcareful
  | sismember member => exact handleSismember_agrees hE h name member
  | scard => exact handleScard_agrees hE h name
  | push isLeft values => exact handleListPush_agrees hE h name isLeft hc ht
  | pop isLeft =>
    refine handleListPop_agrees hE h name isLeft fun l hs => ?_
    subst hs
    exact hcareful
  | lrange start stop =>
    refine handleLrange_agrees hE h name start stop fun hs => ?_
    subst hs
    exact hcareful
  | lindex index => exact handleLindex_agrees hE h name index
  | llen => exact handleLlen_agrees hE h name

@[grind =] def replies (E : Access) (key : Bytes) : Store → List (Bytes × StructCommand) → List RespValue
  | _, [] => []
  | S, (name, c) :: cs => (handle E S name key c).2 :: replies E key (handle E S name key c).1 cs

namespace Value

@[grind =] def replies : Option Value → List StructCommand → List RespValue
  | _, [] => []
  | s, c :: cs => (reference s c).2 :: replies (reference s c).1 cs

def after (s : Option Value) (cs : List StructCommand) : Option Value := cs.foldl (fun s c => (reference s c).1) s

def CarefulRun : Option Value → List StructCommand → Prop
  | _, [] => True
  | s, c :: cs => Careful s c ∧ CarefulRun (reference s c).1 cs

end Value

def StructCommand.kind : StructCommand → Value.Kind
  | .hset _ | .hdel _ | .hget _ | .hgetall | .hlen | .hkeys | .hvals => .hash
  | .sadd _ | .srem _ | .smembers | .sismember _ | .scard => .set
  | .push _ _ | .pop _ | .lrange _ _ | .lindex _ | .llen => .list

def StructCommand.HasIndices : StructCommand → Prop
  | .lrange start stop => (atoi start).isSome ∧ (atoi stop).isSome
  | .lindex index => (atoi index).isSome
  | _ => True

theorem replies_agree {E : Access} {key : Bytes} (hE : E.Grants key) (cs : List (Bytes × StructCommand)) {S : Store}
    {s : Option Value} (h : Represents E.floats (S key) s) (hcomplete : ∀ c ∈ cs, c.2.Complete)
    (htext : ∀ c ∈ cs, ∀ b ∈ c.2.operands, IsText b) (hcareful : Value.CarefulRun s (cs.map Prod.snd)) :
    replies E key S cs = Value.replies s (cs.map Prod.snd) := by
  induction cs generalizing S s with
  | nil => rfl
  | cons c cs ih =>
    obtain ⟨name, c⟩ := c
    obtain ⟨hreply, hrep⟩ := handle_agrees hE h name (hcomplete _ mem_cons_self) (htext _ mem_cons_self)
      hcareful.1
    rw [replies, hreply, map_cons, Value.replies]
    congr 1
    exact ih hrep (fun d hd => hcomplete d (mem_cons_of_mem _ hd))
      (fun d hd => htext d (mem_cons_of_mem _ hd))
      hcareful.2

namespace Value

variable {v : Value}

theorem onType_kind {β : Type} {view : Value → Option β} (empty : β) {w : Value}
    {body : β → Option Value × RespValue}
    (hbody : ∀ b, view v = some b → ∀ w, (body b).1 = some w → w.kind = v.kind)
    (h : (onType view empty (some v) body).1 = some w) : w.kind = v.kind := by
  rw [onType] at h
  cases hview : view v with
  | none =>
    rw [hview] at h
    cases h
    rfl
  | some b =>
    rw [hview] at h
    exact hbody b hview w h

private theorem kind_of_hash? {m : FMap Bytes Bytes} (h : hash? v = some m) : v.kind = .hash := by
  cases v with
  | hash m => rfl
  | set l => cases h
  | list l => cases h

private theorem kind_of_set? {l : List Bytes} (h : set? v = some l) : v.kind = .set := by
  cases v with
  | hash m => cases h
  | set l => rfl
  | list l => cases h

theorem kind_of_list? {l : List Bytes} (h : list? v = some l) : v.kind = .list := by
  cases v with
  | hash m => cases h
  | set l => cases h
  | list l => rfl

theorem reference_kind {w : Value} (c : StructCommand) (h : (reference (some v) c).1 = some w) : w.kind = v.kind := by
  cases c with
  | hset pairs | hdel fields =>
    refine onType_kind ∅ (fun m hm w hw => ?_) h
    cases hw
    exact (kind_of_hash? hm).symm
  | hget | hgetall | hlen | hkeys | hvals =>
    refine onType_kind ∅ (fun m hm w hw => ?_) h
    cases hw
    rfl
  | smembers | sismember | scard | llen =>
    refine onType_kind [] (fun l hl w hw => ?_) h
    cases hw
    rfl
  | sadd members | srem members =>
    refine onType_kind [] (fun l hl w hw => ?_) h
    cases hw
    exact (kind_of_set? hl).symm
  | push isLeft values =>
    refine onType_kind [] (fun l hl w hw => ?_) h
    cases hw
    exact (kind_of_list? hl).symm
  | pop isLeft =>
    refine onType_kind [] (fun l hl w hw => ?_) h
    cases isLeft <;> cases hw <;> exact (kind_of_list? hl).symm
  | lrange start stop | lindex index =>
    rw [reference] at h
    split at h
    · refine onType_kind [] (fun m hm w hw => ?_) h
      cases hw
      rfl
    · cases h
      rfl

theorem onType_ne_error {β : Type} {view : Value → Option β} {empty : β} {s : Option Value}
    {body : β → Option Value × RespValue} (hview : ∀ v, s = some v → (view v).isSome)
    (hbody : ∀ b e, (body b).2 ≠ .error e) (e : Bytes) : (onType view empty s body).2 ≠ .error e := by
  cases s with
  | none => exact hbody empty e
  | some v =>
    obtain ⟨b, hb⟩ := Option.isSome_iff_exists.mp (hview v rfl)
    rw [onType, hb]
    exact hbody b e

private theorem isSome_hash? (h : v.kind = .hash) : (hash? v).isSome := by
  cases v <;> first | rfl | cases h

private theorem isSome_set? (h : v.kind = .set) : (set? v).isSome := by
  cases v <;> first | rfl | cases h

theorem isSome_list? (h : v.kind = .list) : (list? v).isSome := by
  cases v <;> first | rfl | cases h

theorem reference_ne_error {s : Option Value} {c : StructCommand} (hs : ∀ v, s = some v → v.kind = c.kind)
    (hi : c.HasIndices) (e : Bytes) : (reference s c).2 ≠ .error e := by
  cases c with
  | hset | hdel | hget | hgetall | hlen | hkeys | hvals =>
    exact onType_ne_error (fun v hv => isSome_hash? (hs v hv)) (fun b e h => by cases h) e
  | sadd | srem | smembers | sismember | scard =>
    exact onType_ne_error (fun v hv => isSome_set? (hs v hv)) (fun b e h => by cases h) e
  | push | llen => exact onType_ne_error (fun v hv => isSome_list? (hs v hv)) (fun b e h => by cases h) e
  | pop isLeft =>
    refine onType_ne_error (fun v hv => isSome_list? (hs v hv)) (fun b e h => ?_) e
    cases isLeft <;> cases h
  | lrange start stop =>
    obtain ⟨i, hi1⟩ := Option.isSome_iff_exists.mp hi.1
    obtain ⟨j, hi2⟩ := Option.isSome_iff_exists.mp hi.2
    rw [reference, hi1, hi2]
    exact onType_ne_error (fun v hv => isSome_list? (hs v hv)) (fun b e h => by cases h) e
  | lindex index =>
    obtain ⟨i, hi⟩ := Option.isSome_iff_exists.mp hi
    rw [reference, hi]
    exact onType_ne_error (fun v hv => isSome_list? (hs v hv)) (fun b e h => by cases h) e

theorem getElem?_replies (pre post : List StructCommand) (c : StructCommand) (s : Option Value) :
    (replies s (pre ++ c :: post))[pre.length]? = some (reference (after s pre) c).2 := by
  induction pre generalizing s with
  | nil => rfl
  | cons d pre ih =>
    rw [cons_append, replies, length_cons, List.getElem?_cons_succ, ih]
    rfl

end Value

/-- As long as no set or list loses its last element and nothing is listed while there is no value, the
replies are those of the data types, the type of the key stays that of its first write, and a command of
this type does not fail. -/
theorem structs_behave_of_careful {E : Access} {key : Bytes} (hE : E.Grants key) {S : Store} (hS : S key = none)
    (cs : List (Bytes × StructCommand)) (hcomplete : ∀ c ∈ cs, c.2.Complete)
    (htext : ∀ c ∈ cs, ∀ b ∈ c.2.operands, IsText b) (hcareful : Value.CarefulRun none (cs.map Prod.snd)) :
    replies E key S cs = Value.replies none (cs.map Prod.snd) ∧
      ∀ pre c post, cs.map Prod.snd = pre ++ c :: post →
        (∀ v w, Value.after none pre = some v → Value.after none (pre ++ [c]) = some w → w.kind = v.kind) ∧
          ((∀ v, Value.after none pre = some v → v.kind = c.kind) → c.HasIndices →
            ∀ e, (replies E key S cs)[pre.length]? ≠ some (.error e)) := by
  have hrep : Represents E.floats (S key) none := by
    rw [hS]
    trivial
  have hagree := replies_agree hE cs hrep hcomplete htext hcareful
  refine ⟨hagree, fun pre c post hsplit => ⟨fun v w hv hw => ?_, fun hkind hindex e => ?_⟩⟩
  · rw [Value.after, foldl_append] at hw
    rw [Value.after] at hv
    rw [hv] at hw
    exact Value.reference_kind c hw
  · rw [hagree, hsplit, Value.getElem?_replies]
    intro heq
    exact Value.reference_ne_error hkind hindex e (Option.some.inj heq)

/-- A group that keeps every topic and refuses nothing. -/
def openAccess : Access where
  floats := ⟨fun _ => true, fun _ => [], id⟩
  group := some (ascii "Default")
  matchesFilter := fun _ => true
  isGroupReadOnly := false
  isNative := fun _ => false
  canRead := fun _ => true
  canWrite := fun _ => true
  publishError := fun _ _ => none

theorem openAccess_grants : openAccess.Grants (ascii "k") :=
  ⟨by decide, rfl, ⟨_, rfl⟩, rfl, rfl, rfl, rfl, fun _ => rfl⟩

def addAndRemove : List (Bytes × StructCommand) :=
  [(ascii "SADD", .sadd [ascii "a", ascii "b"]), (ascii "SREM", .srem [ascii "a"]), (ascii "SMEMBERS", .smembers)]

theorem addAndRemove_behaves : replies openAccess (ascii "k") (fun _ => none) addAndRemove =
      [.integer 2, .integer 1, bulks [ascii "b"]] ∧ Value.CarefulRun none (addAndRemove.map Prod.snd) := by
  have htext : ∀ c ∈ addAndRemove, ∀ b ∈ c.2.operands, IsText b := by
    simp only [addAndRemove, mem_cons, not_mem_nil, or_false, forall_eq_or_imp, forall_eq,
      StructCommand.operands, false_implies, implies_true, and_true]
    exact ⟨⟨⟨"a".toList, rfl⟩, ⟨"b".toList, rfl⟩⟩, ⟨"a".toList, rfl⟩⟩
  have hcomplete : ∀ c ∈ addAndRemove, c.2.Complete := by
    simp [addAndRemove, StructCommand.Complete]
  have hcareful : Value.CarefulRun none (addAndRemove.map Prod.snd) :=
    ⟨trivial, ⟨ascii "b", by decide, by decide⟩, trivial, trivial⟩
  refine ⟨?_, hcareful⟩
  rw [(structs_behave_of_careful openAccess_grants rfl addAndRemove hcomplete htext hcareful).1]
  rfl

section Defects

variable {E : Access} {S : Store} {key : Bytes}

theorem handleSrem_empties (hE : E.Grants key) {l : List Bytes} (h : Represents E.floats (S key) (some (.set l)))
    (name : Bytes) {members : List Bytes} (hne : members ≠ []) (hall : ∀ m ∈ l, m ∈ members) :
    (handle E S name key (.srem members)).1 key = some (encodeEnvelope E.floats setType (ofSlice none)) := by
  have hargs : ¬ (name :: key :: (StructCommand.srem members).operands).length < 3 := by
    have hpos := length_pos_of_ne_nil hne
    simp only [StructCommand.operands, length_cons]
    omega
  have hnil : (l.filter fun m => m ∉ members) = [] := by
    rw [filter_eq_nil_iff]
    intro m hm
    simpa using hall m hm
  rw [handle, handleSrem, if_neg hargs]
  change (writeAs E S _ key setType _ _ _).1 key = _
  rw [hE.writeAs_eq, (hE.finish_eq setType _).2]
  rcases readStored_cases typed_set h with ⟨hs, -⟩ | ⟨v, hs, hview, -⟩ | ⟨v, a, b, hs, hview, hR, hread⟩
  · cases hs
  · cases hs
    cases hview
  · cases hs
    cases hview
    obtain ⟨rfl, -⟩ := hR
    have hvalue : readStored E.floats S key setType asSlice = .value (l.map .str) := hread
    rw [hvalue]
    change some (encodeEnvelope _ _ (ofSlice (sliceOf (List.filter (fun m => decide (m ∉ members))
      ((l.map Json.str).map (sprint E.floats)))))) = _
    rw [sprint_str, hnil]
    rfl

theorem handleSadd_wrong (hE : E.Grants key) (h : S key = some (encodeEnvelope E.floats setType (ofSlice none)))
    (name : Bytes) {members : List Bytes} (hne : members ≠ []) :
    (handle E S name key (.sadd members)).2 = errWrongType := by
  have hargs : ¬ (name :: key :: (StructCommand.sadd members).operands).length < 3 := by
    have hpos := length_pos_of_ne_nil hne
    simp only [StructCommand.operands, length_cons]
    omega
  have hread : readStored E.floats S key setType asSlice = .wrong := by
    rw [readStored, h]
    dsimp only
    rw [decode_nil isText_set]
    rfl
  rw [handle, handleSadd, if_neg hargs]
  change (writeAs E S _ key setType asSlice _ _).2 = _
  rw [hE.writeAs_eq, hread]
  rfl

end Defects

/-- A member comes, goes, and another one is to come. -/
def emptied : List (Bytes × StructCommand) :=
  [(ascii "SADD", .sadd [ascii "a"]), (ascii "SREM", .srem [ascii "a"]), (ascii "SADD", .sadd [ascii "b"])]

theorem emptied_fails : (replies openAccess (ascii "k") (fun _ => none) emptied)[2]? = some errWrongType ∧
    (Value.replies none (emptied.map Prod.snd))[2]? = some (.integer 1) ∧
    replies openAccess (ascii "k") (fun _ => none) [(ascii "SMEMBERS", .smembers)] = [.nullArray] ∧
    Value.replies none [.smembers] = [.array []] := by
  refine ⟨?_, rfl, rfl, rfl⟩
  have hE := openAccess_grants
  have hone : ∀ b : Bytes, [b] ≠ [] := fun b => cons_ne_nil b []
  have hadd := handleSadd_agrees (S := fun _ => none) (s := none) hE trivial (ascii "SADD") (hone (ascii "a"))
    (fun b hb => ⟨"a".toList, mem_singleton.mp hb⟩)
  have hrem := handleSrem_empties hE (l := [ascii "a"]) hadd.2 (ascii "SREM") (hone (ascii "a")) (fun m hm => hm)
  have hwrong := handleSadd_wrong hE hrem (ascii "SADD") (hone (ascii "b"))
  change some _ = _
  rw [hwrong]

end MonsterMQ.Redis
