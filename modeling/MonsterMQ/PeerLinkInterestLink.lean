import MonsterMQ.PeerLinkInterestConvergence

/-!
# The frames of a tracker

What a puller still has to send leads the gate to the tracker's generation and the shadow to the announced
set (`Synced`).
-/

namespace MonsterMQ.PeerLink

open LittleEndian FiniteMaps List

namespace InterestTracker

private theorem splitLoop_flatten (budget : ℕ) (es part : List InterestEntry) (size : ℕ) :
    (splitLoop budget part size es).flatten = part.reverse ++ es := by
  induction es generalizing part size with
  | nil =>
    simp only [splitLoop]
    split
    · rename_i hnil
      simp [hnil]
    · simp
  | cons e es ih =>
    simp only [splitLoop]
    split
    · rw [flatten_cons, ih]
      simp
    · rw [ih]
      simp

theorem splitInterest_flatten (es : List InterestEntry) (headerLen : ℕ) :
    (splitInterest es headerLen).flatten = es := by
  rw [splitInterest, splitLoop_flatten]
  simp

variable {e : InterestEntry}

private theorem mem_of_chunk {es : List InterestEntry} {headerLen : ℕ} {part : List InterestEntry}
    (h : part ∈ splitInterest es headerLen) (he : e ∈ part) : e ∈ es := by
  rw [← splitInterest_flatten es headerLen]
  exact mem_flatten.mpr ⟨part, h, he⟩

private theorem gen_lt_succ {gen : UInt32} (h : gen ≠ maxGen) : gen < gen + 1 := by
  have hne : gen.toNat ≠ 4294967295 := by
    intro hc
    apply h
    apply UInt32.toNat.inj
    rw [hc]
    rfl
  have hlt := gen.toNat_lt
  rw [UInt32.lt_iff_toNat_lt, UInt32.toNat_add]
  have hone : (1 : UInt32).toNat = 1 := rfl
  rw [hone, Nat.mod_eq_of_lt (by omega)]
  omega

variable {chunks parts : List (List InterestEntry)} {frames sent : List InterestFrame}

private theorem deltaFrames_gate {gen gen' : UInt32} (h : deltaFrames gen chunks = some (frames, gen')) :
    (⟨none, some gen⟩ : Gate).run frames = some ⟨none, some gen'⟩ := by
  induction chunks generalizing gen frames with
  | nil =>
    simp only [deltaFrames, Option.some.injEq, Prod.mk.injEq] at h
    rw [← h.1, ← h.2]
    rfl
  | cons es chunks ih =>
    simp only [deltaFrames] at h
    split at h
    · cases h
    · rename_i hmax
      obtain ⟨r, hr, heq⟩ := Option.map_eq_some_iff.mp h
      rw [Prod.mk.injEq] at heq
      rw [← heq.1]
      simp only [Gate.run, Gate.step, gen_lt_succ hmax, ↓reduceIte, Option.bind_some]
      apply ih
      rw [hr, ← heq.2]

theorem deltaFrames_shadow {gen gen' : UInt32} (h : deltaFrames gen chunks = some (frames, gen')) (m : ℕ)
    (sh : Shadow) : (frames.foldl (Shadow.step m) sh).set = chunks.flatten.foldl applyChange sh.set := by
  induction chunks generalizing gen frames sh with
  | nil =>
    simp only [deltaFrames, Option.some.injEq, Prod.mk.injEq] at h
    rw [← h.1]
    rfl
  | cons es chunks ih =>
    simp only [deltaFrames] at h
    split at h
    · cases h
    · obtain ⟨r, hr, heq⟩ := Option.map_eq_some_iff.mp h
      rw [Prod.mk.injEq] at heq
      rw [← heq.1, foldl_cons, flatten_cons, foldl_append]
      apply ih
      rw [hr, ← heq.2]

theorem deltaFrames_mem {gen gen' : UInt32} (h : deltaFrames gen chunks = some (frames, gen'))
    {fr : InterestFrame} (hfr : fr ∈ frames) : ∃ d, fr = .delta d ∧ d.entries ∈ chunks := by
  induction chunks generalizing gen frames with
  | nil =>
    simp only [deltaFrames, Option.some.injEq, Prod.mk.injEq] at h
    rw [← h.1] at hfr
    cases hfr
  | cons es chunks ih =>
    simp only [deltaFrames] at h
    split at h
    · cases h
    · obtain ⟨r, hr, heq⟩ := Option.map_eq_some_iff.mp h
      rw [Prod.mk.injEq] at heq
      rw [← heq.1] at hfr
      rcases mem_cons.mp hfr with rfl | hfr
      · exact ⟨⟨gen + 1, es⟩, rfl, mem_cons_self ..⟩
      · have hrest : deltaFrames (gen + 1) chunks = some (r.1, gen') := by rw [hr, ← heq.2]
        obtain ⟨d, hd, hmem⟩ := ih hrest hfr
        exact ⟨d, hd, mem_cons_of_mem _ hmem⟩

theorem first_flag (gen : UInt32) (first : Bool) (es : List InterestEntry) :
    (InterestSnapshot.mk gen (if first then interestFlagFirst else 0) es).first = first ∧
      (InterestSnapshot.mk gen (if first then interestFlagFirst else 0) es).last = false := by
  cases first
  · simp [InterestSnapshot.first, InterestSnapshot.last]
  · simp [InterestSnapshot.first, InterestSnapshot.last, interestFlagFirst, interestFlagLast]
    decide

theorem last_flag (gen : UInt32) (first : Bool) (es : List InterestEntry) :
    (InterestSnapshot.mk gen ((if first then interestFlagFirst else 0) ||| interestFlagLast) es).first
        = first ∧
      (InterestSnapshot.mk gen ((if first then interestFlagFirst else 0) ||| interestFlagLast) es).last
        = true := by
  cases first
  · simp [InterestSnapshot.first, InterestSnapshot.last, interestFlagFirst, interestFlagLast]
    decide
  · simp [InterestSnapshot.first, InterestSnapshot.last, interestFlagFirst, interestFlagLast]
    decide

variable {g : Gate}

theorem snapshotFrames_gate (hne : parts ≠ []) (gen : UInt32)
    {first : Bool} (hg : first = true ∨ g.snap = some gen) :
    g.run (snapshotFrames gen first parts) = some ⟨none, some gen⟩ := by
  induction parts generalizing first g with
  | nil => exact absurd rfl hne
  | cons es parts ih =>
    have hopen : (first || decide (g.snap = some gen)) = true := by
      rcases hg with hg | hg
      · simp [hg]
      · simp [hg]
    cases parts with
    | nil =>
      obtain ⟨hf, hl⟩ := last_flag gen first es
      simp only [snapshotFrames, Gate.run, Gate.step, hf, hl, hopen, ↓reduceIte, Option.bind_some]
    | cons es' rest =>
      obtain ⟨hf, hl⟩ := first_flag gen first es
      simp only [snapshotFrames, Gate.run, Gate.step, hf, hl, hopen, ↓reduceIte, Bool.false_eq_true,
        Option.bind_some]
      exact ih (by simp) (.inr rfl)

theorem snapshotFrames_shadow (hne : parts ≠ []) (gen : UInt32) (first : Bool) (m : ℕ) (sh : Shadow) :
    ((snapshotFrames gen first parts).foldl (Shadow.step m) sh).set =
      parts.flatten.foldl mark (if first then ∅ else sh.marks) := by
  induction parts generalizing first sh with
  | nil => exact absurd rfl hne
  | cons es parts ih =>
    cases parts with
    | nil =>
      obtain ⟨hf, hl⟩ := last_flag gen first es
      simp only [snapshotFrames, foldl_cons, foldl_nil, Shadow.step, hf, hl, ↓reduceIte,
        flatten_cons, flatten_nil, append_nil]
    | cons es' rest =>
      obtain ⟨hf, hl⟩ := first_flag gen first es
      simp only [snapshotFrames, foldl_cons]
      rw [ih (by simp) false]
      simp only [Shadow.step, hf, hl, Bool.false_eq_true, ↓reduceIte]
      rw [flatten_cons (l := es), foldl_append]

private theorem snapshotFrames_mem {gen : UInt32} {first : Bool}
    {fr : InterestFrame} (hfr : fr ∈ snapshotFrames gen first parts) :
    ∃ s, fr = .snapshot s ∧ s.entries ∈ parts := by
  induction parts generalizing first with
  | nil => cases hfr
  | cons es parts ih =>
    cases parts with
    | nil =>
      simp only [snapshotFrames, mem_singleton] at hfr
      exact ⟨_, hfr, mem_cons_self ..⟩
    | cons es' rest =>
      simp only [snapshotFrames] at hfr
      rcases mem_cons.mp hfr with rfl | hfr
      · exact ⟨_, rfl, mem_cons_self ..⟩
      · obtain ⟨s, hs, hmem⟩ := ih hfr
        exact ⟨s, hs, mem_cons_of_mem _ hmem⟩

/-- A set of filters holds what the receiver stores for the announced one. -/
def Rebuilt (m : FMap Bytes EntryClass) (a : FMap Bytes InterestEntry) : Prop :=
  ∀ f, m.lookup f = (a.lookup f).map InterestEntry.stored

theorem Rebuilt.foldl {m : FMap Bytes EntryClass} {a : FMap Bytes InterestEntry} (h : Rebuilt m a)
    (es : List InterestEntry) : Rebuilt (es.foldl applyChange m) (es.foldl announce a) := by
  induction es generalizing m a with
  | nil => exact h
  | cons e es ih =>
    apply ih
    intro f
    rw [applyChange_lookup, announce_lookup]
    split
    · split <;> rfl
    · exact h f

theorem foldl_mark_lookup {l : List (Σ _ : Bytes, InterestEntry)} (hl : l.NodupKeys)
    (hfilter : ∀ e ∈ l, e.2.filter = e.1) (m : FMap Bytes EntryClass) (f : Bytes) :
    ((l.map (·.2)).foldl mark m).lookup f =
      ((l.dlookup f).map InterestEntry.stored).or (m.lookup f) := by
  induction l generalizing m with
  | nil => simp
  | cons e l ih =>
    obtain ⟨k, e⟩ := e
    have hk : e.filter = k := hfilter ⟨k, e⟩ (mem_cons_self ..)
    rw [nodupKeys_cons] at hl
    rw [map_cons, foldl_cons, ih hl.2 (fun x hx => hfilter x (mem_cons_of_mem _ hx)),
      mark_lookup, hk]
    by_cases hf : f = k
    · subst hf
      rw [if_pos rfl, dlookup_cons_eq, dlookup_eq_none.mpr hl.1]
      simp
    · rw [if_neg hf, dlookup_cons_ne l ⟨k, e⟩ hf]

variable {t u : InterestTracker}

/-- The entries of a snapshot rebuild the announced set, in whatever order the loop ran. -/
theorem Consistent.rebuilt (h : t.Consistent) (o : MapOrder) :
    Rebuilt (((o.visit t.announced.entries).map (·.2)).foldl mark ∅) t.announced := by
  have hperm := o.perm t.announced.entries
  have hnodup : (o.visit t.announced.entries).NodupKeys :=
    (perm_nodupKeys hperm).mpr t.announced.nodupKeys
  have hfilter : ∀ e ∈ o.visit t.announced.entries, e.2.filter = e.1 := by
    intro e he
    apply h.filter
    exact mem_dlookup t.announced.nodupKeys (o.mem_visit.mp he)
  intro f
  rw [foldl_mark_lookup hnodup hfilter, perm_dlookup f hnodup hperm]
  simp [AList.lookup]

variable {table : InterestTable}

theorem Announceable.valid (h : t.Announceable e) (hb : table.maxBytes = t.maxFilterBytes) :
    table.validEntry e true = true := by
  have hf : validInterestFilter e.filter table.maxBytes = true := by
    have hacc := h.accepted
    simp only [accept] at hacc
    split at hacc
    · cases hacc
    · rw [hb]
      exact hacc
  simp only [InterestTable.validEntry, hf, ↓reduceIte]
  rcases h.cls with hc | hc | hc
  · simp [hc]
  · simp [hc]
  · simp [hc]

theorem Announceable.valid_snapshot (h : t.Announceable e)
    (hne : e.cls ≠ interestNone) (hb : table.maxBytes = t.maxFilterBytes) :
    table.validEntry e false = true := by
  have hv := h.valid hb
  have hcls : e.cls = interestVol ∨ e.cls = interestPer := by
    rcases h.cls with hc | hc
    · exact absurd hc hne
    · exact hc
  simp only [InterestTable.validEntry, hcls, ↓reduceIte] at hv ⊢
  exact hv

/-- A snapshot: valid frames that lead any gate to the generation and any shadow to the
announced set. -/
theorem Consistent.snapshot (h : t.Consistent) (o : MapOrder) (hb : table.maxBytes = t.maxFilterBytes) :
    (∀ fr ∈ (t.snapshotLocked o).2, FrameValid table fr) ∧
      (∀ g : Gate, g.run (t.snapshotLocked o).2 = some ⟨none, some (t.flushLocked o).gen⟩) ∧
      ∀ m sh, Rebuilt (((t.snapshotLocked o).2).foldl (Shadow.step m) sh).set
        (t.flushLocked o).announced := by
  have hcons := h.flush o
  have hmax : table.maxBytes = (t.flushLocked o).maxFilterBytes := by
    rw [hb, flushLocked_maxFilterBytes]
  generalize hes : (o.visit (t.flushLocked o).announced.entries).map (·.2) = es
  generalize hparts : (if splitInterest es interestSnapshotHeaderLen = [] then [[]]
    else splitInterest es interestSnapshotHeaderLen) = parts
  have hsnap : (t.snapshotLocked o).2 = snapshotFrames (t.flushLocked o).gen true parts := by
    rw [← hparts, ← hes]
    rfl
  have hne : parts ≠ [] := by
    rw [← hparts]
    split
    · simp
    · assumption
  have hflat : parts.flatten = es := by
    rw [← hparts]
    split
    · rename_i hnil
      have := splitInterest_flatten es interestSnapshotHeaderLen
      rw [hnil] at this
      rw [← this]
      rfl
    · exact splitInterest_flatten es interestSnapshotHeaderLen
  rw [hsnap]
  refine ⟨?_, ?_, ?_⟩
  · intro fr hfr
    obtain ⟨s, rfl, hmem⟩ := snapshotFrames_mem hfr
    intro e he
    have hin : e ∈ es := by
      rw [← hflat]
      exact mem_flatten.mpr ⟨s.entries, hmem, he⟩
    rw [← hes] at hin
    obtain ⟨x, hx, rfl⟩ := mem_map.mp hin
    have hlook := mem_dlookup (t.flushLocked o).announced.nodupKeys (o.mem_visit.mp hx)
    obtain ⟨hann, hcls⟩ := hcons.announceable _ _ hlook
    exact hann.valid_snapshot hcls hmax
  · intro g
    exact snapshotFrames_gate hne _ (.inl rfl)
  · intro m sh f
    rw [snapshotFrames_shadow hne, hflat, ← hes]
    exact hcons.rebuilt o f

/-- The frames `sent` and the queue of the cursor lead a receiver from `g` and `sh` to the
tracker, unless the next `take` sends a snapshot. -/
structure Stream (t : InterestTracker) (table : InterestTable) (cur : InterestCursor)
    (sent : List InterestFrame) (g : Gate) (sh : Shadow) : Prop where
  emptied : cur.resnap = true → cur.queue = []
  valid : ∀ fr ∈ sent ++ cur.queue, FrameValid table fr
  gate : ∃ g' g'', g.run sent = some g' ∧ g'.snap = none ∧ g'.run cur.queue = some g'' ∧
    g''.snap = none ∧ (cur.resnap = false → g'' = ⟨none, some t.gen⟩)
  set : cur.resnap = false →
    Rebuilt ((sent ++ cur.queue).foldl (Shadow.step table.maxFilters) sh).set t.announced

def Synced (t : InterestTracker) (table : InterestTable) (c : ℕ) (sent : List InterestFrame)
    (g : Gate) (sh : Shadow) : Prop :=
  ∃ cur, t.cursors[c]? = some cur ∧ Stream t table cur sent g sh

variable {sh : Shadow}

theorem Stream.giveUp {cur : InterestCursor} (h : Stream t table cur sent g sh) :
    Stream u table ⟨[], true⟩ sent g sh := by
  obtain ⟨g', g'', hsent, hnone, -, -, -⟩ := h.gate
  refine ⟨fun _ => rfl, ?_, ⟨g', g', hsent, hnone, rfl, hnone, ?_⟩, ?_⟩
  · intro fr hfr
    rw [append_nil] at hfr
    exact h.valid fr (mem_append_left _ hfr)
  · intro hc
    cases hc
  · intro hc
    cases hc

theorem Stream.enqueue {cur : InterestCursor} (h : Stream t table cur sent g sh)
    (hb : table.maxBytes = t.maxFilterBytes) {changes : List InterestEntry}
    (all : ∀ e ∈ changes, t.Announceable e) (announced : u.announced = changes.foldl announce t.announced)
    (deltas : deltaFrames t.gen (splitInterest changes interestDeltaHeaderLen) = some (frames, u.gen)) :
    Stream u table (enqueue frames cur) sent g sh := by
  simp only [InterestTracker.enqueue]
  split
  · rename_i hres
    obtain ⟨g', g'', hsent, hnone, hqueue, hnone', -⟩ := h.gate
    refine ⟨h.emptied, h.valid, ⟨g', g'', hsent, hnone, hqueue, hnone', ?_⟩, ?_⟩
    · intro hc
      rw [hres] at hc
      cases hc
    · intro hc
      rw [hres] at hc
      cases hc
  · rename_i hres
    have hres : cur.resnap = false := by simpa using hres
    split
    · exact h.giveUp
    · obtain ⟨g', g'', hsent, hnone, hqueue, -, hgen⟩ := h.gate
      rw [hgen hres] at hqueue
      refine ⟨?_, ?_, ⟨g', ⟨none, some u.gen⟩, hsent, hnone, ?_, rfl, fun _ => rfl⟩, ?_⟩
      · intro hc
        cases hc
      · intro fr hfr
        rw [← append_assoc] at hfr
        rcases mem_append.mp hfr with hfr | hfr
        · exact h.valid fr hfr
        · obtain ⟨d, rfl, hmem⟩ := deltaFrames_mem deltas hfr
          intro e he
          exact (all e (mem_of_chunk hmem he)).valid hb
      · rw [Gate.run_append, hqueue]
        exact deltaFrames_gate deltas
      · intro _ f
        rw [← append_assoc, foldl_append, deltaFrames_shadow deltas, splitInterest_flatten,
          announced]
        exact (h.set hres).foldl changes f

variable {c : ℕ}

theorem Synced.flush (ht : t.Consistent) (h : Synced t table c sent g sh)
    (hb : table.maxBytes = t.maxFilterBytes) (o : MapOrder) : Synced (t.flushLocked o) table c sent g sh := by
  obtain ⟨cur, hcur, hs⟩ := h
  cases flushLocked_flushed ht o with
  | nothing announced gen cursors =>
    refine ⟨cur, by rw [cursors, hcur], hs.emptied, hs.valid, ?_, ?_⟩
    · rw [gen]
      exact hs.gate
    · rw [announced]
      exact hs.set
  | sent changes frames all announced deltas cursors =>
    refine ⟨InterestTracker.enqueue frames cur, ?_, hs.enqueue hb all announced deltas⟩
    rw [cursors, List.getElem?_map, hcur]
    rfl
  | wrapped changes all announced gen cursors =>
    refine ⟨⟨[], true⟩, ?_, hs.giveUp⟩
    rw [cursors, List.getElem?_map, hcur]
    rfl

theorem Synced.congr (h : Synced t table c sent g sh)
    (announced : u.announced = t.announced) (gen : u.gen = t.gen) (cursor : u.cursors[c]? = t.cursors[c]?) :
    Synced u table c sent g sh := by
  obtain ⟨cur, hcur, hs⟩ := h
  refine ⟨cur, cursor.trans hcur, hs.emptied, hs.valid, ?_, ?_⟩
  · rw [gen]
    exact hs.gate
  · rw [announced]
    exact hs.set

theorem Synced.moves (hm : Moves t u) (ht : t.Consistent) (h : Synced t table c sent g sh)
    (hb : table.maxBytes = t.maxFilterBytes) :
    Synced u table c sent g sh := by
  induction hm with
  | refl => exact h
  | book _ same _ ih => exact ih.congr same.announced same.gen (by rw [same.cursors])
  | pend _ _ ih => exact ih.congr rfl rfl rfl
  | @flush v hv o ih => exact ih.flush (Consistent.moves hv ht) (by rw [hb, hv.maxFilterBytes]) o

theorem attach_synced (ht : t.Consistent)
    (hb : table.maxBytes = t.maxFilterBytes) (o : MapOrder) (g : Gate) (sh : Shadow) :
    Synced (t.attach o).1 table (t.flushLocked o).cursors.length (t.attach o).2 g sh := by
  obtain ⟨hvalid, hgate, hset⟩ := ht.snapshot o hb
  have hcursors : (t.attach o).1.cursors = (t.flushLocked o).cursors ++ [⟨[], false⟩] := rfl
  refine ⟨⟨[], false⟩, ?_, ?_, ?_, ?_, ?_⟩
  · rw [hcursors]
    exact List.getElem?_concat_length
  · intro hc
    cases hc
  · intro fr hfr
    rw [append_nil] at hfr
    exact hvalid fr hfr
  · exact ⟨_, _, hgate g, rfl, rfl, rfl, fun _ => rfl⟩
  · intro _ f
    rw [append_nil]
    exact hset _ sh f

theorem Synced.attach (ht : t.Consistent) (h : Synced t table c sent g sh)
    (hb : table.maxBytes = t.maxFilterBytes) (o : MapOrder) : Synced (t.attach o).1 table c sent g sh := by
  have hflush := h.flush ht hb o
  have hcursors : (t.attach o).1.cursors = (t.flushLocked o).cursors ++ [⟨[], false⟩] := rfl
  have hlen : c < (t.flushLocked o).cursors.length := by
    obtain ⟨cur, hcur, -⟩ := hflush
    exact (List.getElem?_eq_some_iff.mp hcur).1
  refine hflush.congr rfl rfl ?_
  rw [hcursors, List.getElem?_append_left hlen]

theorem Consistent.setCursors (h : t.Consistent) (cs : List InterestCursor) :
    { t with cursors := cs }.Consistent :=
  consistent_of_announced (t := t) (h.counted.of_eq rfl rfl rfl) rfl h.pending h.lookup

private theorem flushLocked_cursors_length (h : t.Consistent) (o : MapOrder) :
    (t.flushLocked o).cursors.length = t.cursors.length := by
  cases flushLocked_flushed h o with
  | nothing _ _ cursors => rw [cursors]
  | sent _ _ _ _ _ cursors | wrapped _ _ _ _ cursors => rw [cursors, length_map]

/-- `take` moves the queue to the frames that were sent, or replaces it by a snapshot. -/
theorem Synced.take (ht : t.Consistent) (h : Synced t table c sent g sh)
    (hb : table.maxBytes = t.maxFilterBytes) (o : MapOrder) :
    Synced (t.take o c).1 table c (sent ++ (t.take o c).2) g sh := by
  obtain ⟨cur, hcur, hs⟩ := h
  have hlen : c < t.cursors.length := (List.getElem?_eq_some_iff.mp hcur).1
  obtain ⟨g', g'', hsent, hnone, hqueue, hnone', hgen⟩ := hs.gate
  cases hres : cur.resnap with
  | false =>
    simp only [InterestTracker.take, hcur, hres, Bool.false_eq_true, ↓reduceIte]
    refine ⟨⟨[], cur.resnap⟩, ?_, ?_⟩
    · simp [hlen, hres]
    · refine ⟨fun _ => rfl, ?_, ⟨g'', g'', ?_, hnone', rfl, hnone', hgen⟩, ?_⟩
      · rw [append_nil]
        exact hs.valid
      · rw [Gate.run_append, hsent]
        exact hqueue
      · rw [append_nil]
        exact hs.set
  | true =>
    have hcons := ht.setCursors (t.cursors.set c { cur with resnap := false })
    obtain ⟨hvalid, hgate, hset⟩ := hcons.snapshot o hb
    have hlen' := flushLocked_cursors_length hcons o
    rw [length_set] at hlen'
    generalize hu : { t with cursors := t.cursors.set c { cur with resnap := false } } = u at *
    have htake : t.take o c = ({ u.flushLocked o with
        cursors := (u.flushLocked o).cursors.modify c (fun x => { x with queue := [] }) },
        (u.snapshotLocked o).2) := by
      simp only [InterestTracker.take, hcur, hres, ↓reduceIte]
      rw [← hu]
      rfl
    obtain ⟨cur', hcur'⟩ : ∃ cur', (u.flushLocked o).cursors[c]? = some cur' :=
      ⟨_, List.getElem?_eq_getElem (by omega)⟩
    rw [htake]
    refine ⟨{ cur' with queue := [] }, ?_, ?_⟩
    · simp [hcur']
    · refine ⟨fun _ => rfl, ?_, ⟨_, _, ?_, rfl, rfl, rfl, fun _ => rfl⟩, ?_⟩
      · intro fr hfr
        rw [append_nil] at hfr
        rcases mem_append.mp hfr with hfr | hfr
        · exact hs.valid fr (mem_append_left _ hfr)
        · exact hvalid fr hfr
      · rw [Gate.run_append, hsent]
        exact hgate g'
      · intro _ f
        rw [append_nil, foldl_append]
        exact hset _ _ f

/-- `take` of another cursor. -/
theorem Synced.take_other (ht : t.Consistent) {c' : ℕ} (h : Synced t table c sent g sh)
    (hb : table.maxBytes = t.maxFilterBytes) (o : MapOrder) (hne : c' ≠ c) :
    Synced (t.take o c').1 table c sent g sh := by
  simp only [InterestTracker.take]
  split
  · exact h
  · rename_i cur hcur
    split
    · have hcons := ht.setCursors (t.cursors.set c' { cur with resnap := false })
      have hset : Synced { t with cursors := t.cursors.set c' { cur with resnap := false } } table c
          sent g sh := by
        refine h.congr rfl rfl ?_
        rw [List.getElem?_set_ne hne]
      refine (hset.flush hcons hb o).congr rfl rfl ?_
      exact List.getElem?_modify_ne _ _ hne
    · refine h.congr rfl rfl ?_
      rw [List.getElem?_set_ne hne]

theorem Consistent.take (h : t.Consistent) (o : MapOrder) (c : ℕ) :
    (t.take o c).1.Consistent ∧ (t.take o c).1.maxFilterBytes = t.maxFilterBytes := by
  simp only [InterestTracker.take]
  split
  · exact ⟨h, rfl⟩
  · split
    · have hflush := (h.setCursors (t.cursors.set c { ‹InterestCursor› with resnap := false })).flush o
      exact ⟨hflush.setCursors _, flushLocked_maxFilterBytes o _⟩
    · exact ⟨h.setCursors _, rfl⟩

end InterestTracker

end MonsterMQ.PeerLink
