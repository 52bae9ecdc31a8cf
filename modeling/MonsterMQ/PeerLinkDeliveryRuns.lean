import MonsterMQ.PeerLinkDeliverySteps

/-!
# Delivery over a run

The offsets a puller processes are strictly increasing and contain every record it
needs. On sessions with the interest capability, and on unmasked logs, they are
exactly the records it needs.
-/

namespace MonsterMQ.PeerLink

open LittleEndian List

/-- The session reads with `ReadSparse`, and so it has read the batches on their way. -/
structure Session.Sparse (s : Session) : Prop where
  interest : s.interest = true
  batches : ∀ b ∈ s.ahead ++ s.batches, b.sparse = true

/-- Every batch so far was read by `ReadSparse`. -/
structure Interested (t : LinkSys) : Prop where
  greeting : ∀ g, t.greeting = some g → g.2 = true
  processed : ∀ p ∈ t.processed, p.2 = true
  session : ∀ s, t.session = some s → s.Sparse

section

variable {s : Session} (h : s.Sparse)
include h

theorem Session.Sparse.congr {s' : Session} (hint : s'.interest = s.interest)
    (hb : s'.ahead ++ s'.batches ⊆ s.ahead ++ s.batches) : s'.Sparse :=
  ⟨hint.trans h.interest, fun b hmem => h.batches b (hb hmem)⟩

theorem Session.Sparse.reply (r : LogReadResult) : Session.Sparse { s with
    serving := none, batches := s.batches ++ [Batch.ofResult s.interest r] } := by
  refine ⟨h.interest, fun b hmem => ?_⟩
  change b ∈ s.ahead ++ (s.batches ++ [Batch.ofResult s.interest r]) at hmem
  rw [← append_assoc] at hmem
  rcases mem_append.mp hmem with hmem | hmem
  · exact h.batches b hmem
  · rw [mem_singleton.mp hmem, Batch.ofResult_sparse, h.interest]

/-- A batch from the reader goes to the end of what lies before the injector. -/
theorem Session.Sparse.receive {b : Batch} {batches : List Batch}
    (hbatches : s.batches = b :: batches) : Session.Sparse { s with
      batches := batches, next := b.next, asked := false, handoff := s.handoff ++ [b] } := by
  refine h.congr rfl fun b' hmem => ?_
  simp only [Session.ahead, append_assoc, singleton_append] at hmem
  rwa [Session.ahead, hbatches, append_assoc]

theorem Session.Sparse.takeBatch (happly : s.applying = none) {b : Batch}
    {handoff : List Batch} (hhand : s.handoff = b :: handoff) : Session.Sparse { s with
      handoff := handoff, applying := some ⟨b.offsets, b.next, b.sparse, none⟩ } := by
  refine h.congr rfl fun b' hmem => ?_
  rwa [Session.ahead, happly, hhand]

/-- The batch in the injector is a sparse one, and remains one without its first record. -/
theorem Session.Sparse.applyRecord {off next : ℕ} {rest : List ℕ} {sparse : Bool}
    {last₀ : Option ℕ} (happly : s.applying = some ⟨off :: rest, next, sparse, last₀⟩) (last : Option ℕ) :
    sparse = true ∧ Session.Sparse { s with applying := some ⟨rest, next, sparse, last⟩ } := by
  have hsparse : sparse = true := h.batches ⟨off :: rest, next, sparse⟩ (by
    rw [Session.ahead, happly]
    exact mem_cons_self)
  refine ⟨hsparse, h.interest, fun b hmem => ?_⟩
  rcases mem_cons.mp hmem with rfl | hmem
  · exact hsparse
  · apply h.batches
    rw [Session.ahead, happly]
    exact mem_cons_of_mem _ hmem

theorem Session.Sparse.finishBatch : Session.Sparse { s with applying := none } := by
  refine h.congr rfl fun b hmem => ?_
  rw [Session.ahead, append_assoc]
  exact mem_append_right _ hmem

end

namespace Interested

variable {c : ℕ} {t : LinkSys}

section

variable (h : Interested t)
include h

theorem withSys (s : LogSys) : Interested { t with sys := s } :=
  ⟨h.greeting, h.processed, h.session⟩

theorem withSession {f : Session → Session} (hf : ∀ s, s.Sparse → (f s).Sparse) :
    Interested (t.withSession f) := by
  refine ⟨h.greeting, h.processed, fun s' hs' => ?_⟩
  obtain ⟨s, hs, rfl⟩ := Option.map_eq_some_iff.mp hs'
  exact hf s (h.session s hs)

theorem drop : Interested t.drop := by
  unfold LinkSys.drop
  split
  · exact h
  · exact ⟨h.greeting, h.processed, by simp⟩

theorem setSession {s : Session} (hs : s.Sparse) : Interested { t with session := some s } := by
  refine ⟨h.greeting, h.processed, fun s' hs' => ?_⟩
  cases hs'
  exact hs

/-- What does not change the batches keeps a session sparse. -/
theorem keepBatches {s s' : Session} (hs : t.session = some s)
    (hint : s'.interest = s.interest) (hb : s'.ahead ++ s'.batches = s.ahead ++ s.batches) :
    Interested { t with session := some s' } :=
  h.setSession ((h.session s hs).congr hint (fun b hmem => hb ▸ hmem))

theorem sourceCommit (off : ℕ) : Interested (t.sourceCommit c off).1 := by
  unfold LinkSys.sourceCommit
  split
  · exact (h.withSys _).drop
  · exact h.withSys _

theorem stepLog (op : LogOp) : Interested (t.stepLog c op).1 := by
  unfold LinkSys.stepLog
  split
  · split
    · exact (h.withSys _).withSession fun s hs => hs.congr rfl (Subset.refl _)
    · exact h.withSys _
  · exact h

theorem stepHello : Interested (t.stepHello c true).1 := by
  simp only [LinkSys.stepHello]
  split
  · exact h
  · split
    · refine ⟨fun g hg => ?_, h.processed, h.session⟩
      cases hg
      rfl
    · exact ⟨by simp, h.processed, h.session⟩
    · exact h.withSys _

theorem stepHelloOK : Interested t.stepHelloOK := by
  unfold LinkSys.stepHelloOK
  split
  · rename_i resumeAt interest hs hg
    refine ⟨by simp, h.processed, fun s heq => ?_⟩
    cases heq
    exact ⟨h.greeting _ hg, by simp [Session.start, Session.ahead]⟩
  · exact h

theorem stepHandleFrame : Interested (t.stepHandleFrame c).1 := by
  unfold LinkSys.stepHandleFrame
  split
  · exact h
  · rename_i s hs
    split
    · exact h
    · apply sourceCommit
      exact h.keepBatches hs rfl rfl
    · dsimp only
      split
      · apply sourceCommit
        exact (h.withSys _).keepBatches hs rfl rfl
      · exact (h.withSys _).keepBatches hs rfl rfl

theorem stepServe (maxRecords maxBytes : ℕ) : Interested (t.stepServe c maxRecords maxBytes).1 := by
  unfold LinkSys.stepServe
  split
  · rename_i s hs
    split
    · split
      · exact h.drop
      · exact (h.withSys _).keepBatches hs rfl rfl
    · exact h
  · exact h

theorem stepReadAgain (maxRecords maxBytes : ℕ) : Interested (t.stepReadAgain c maxRecords maxBytes) := by
  unfold LinkSys.stepReadAgain
  split
  · rename_i s hs
    split
    · exact (h.withSys _).keepBatches hs rfl rfl
    · exact h
  · exact h

theorem stepApplyRecord : Interested t.stepApplyRecord := by
  unfold LinkSys.stepApplyRecord
  split
  · rename_i s hs
    split
    · rename_i off rest next sparse last happly
      obtain ⟨hsparse, hskipped⟩ := (h.session s hs).applyRecord happly none
      split
      · exact h.setSession hskipped
      · have happlied := h.setSession ((h.session s hs).applyRecord happly (some off)).2
        refine ⟨h.greeting, fun p hp => ?_, happlied.session⟩
        rcases mem_append.mp hp with hp | hp
        · exact h.processed p hp
        · rw [mem_singleton.mp hp]
          exact hsparse
    · exact h
  · exact h

theorem stepFinishBatch : Interested t.stepFinishBatch := by
  unfold LinkSys.stepFinishBatch
  split
  · rename_i s hs
    split
    · have hset := h.setSession (h.session s hs).finishBatch
      exact ⟨hset.greeting, hset.processed, hset.session⟩
    · exact h
  · exact h

theorem step {op : LinkOp} (hop : op ≠ .hello false) : Interested (t.step c op) := by
  unfold LinkSys.step LinkSys.stepOut
  cases op with
  | log op => exact h.stepLog op
  | hello interest =>
    cases interest with
    | false => exact absurd rfl hop
    | true => exact h.stepHello
  | helloOK => exact h.stepHelloOK
  | disconnect =>
    simp only [LinkSys.stepDisconnect]
    split
    · split
      · exact h.drop
      · exact h
    · exact ⟨by simp, h.processed, h.session⟩
  | sendFetch =>
    refine h.withSession fun s hs => ?_
    split
    · exact hs
    · exact hs.congr rfl (Subset.refl _)
  | sendCommit off =>
    refine h.withSession fun s hs => ?_
    split
    · exact hs.congr rfl (Subset.refl _)
    · exact hs
  | handleFrame => exact h.stepHandleFrame
  | staleCommit i =>
    simp only [LinkSys.stepStaleCommit]
    split
    · exact h
    · split <;> exact ⟨h.greeting, h.processed, h.session⟩
  | serve maxRecords maxBytes => exact h.stepServe maxRecords maxBytes
  | readAgain maxRecords maxBytes => exact h.stepReadAgain maxRecords maxBytes
  | reply =>
    refine h.withSession fun s hs => ?_
    split
    · exact hs.reply _
    · exact hs
  | receive =>
    refine h.withSession fun s hs => ?_
    split
    · exact hs
    · rename_i hbatches
      exact hs.receive hbatches
  | takeBatch =>
    refine h.withSession fun s hs => ?_
    split
    · rename_i happly hhand
      exact hs.takeBatch happly hhand
    · exact hs
  | applyRecord => exact h.stepApplyRecord
  | commitFn =>
    simp only [LinkSys.stepCommitFn]
    split
    · split
      · exact ⟨h.greeting, h.processed, h.session⟩
      · exact h
    · exact h
  | finishBatch => exact h.stepFinishBatch
  | cancelBatch =>
    simp only [LinkSys.stepCancelBatch]
    split
    · split
      · exact drop (t := { t with appliedNext := _ }) ⟨h.greeting, h.processed, h.session⟩
      · exact h
    · exact h

end

end Interested

theorem LogSys.Tracked.run {s : LogSys} (h : s.Tracked) (hne : s.log.consumers ≠ [])
    (ops : List LogOp) : (StateRuns.run LogSys.step s ops).Tracked ∧
      (StateRuns.run LogSys.step s ops).log.consumers ≠ [] ∧
      s.evicted ⊆ (StateRuns.run LogSys.step s ops).evicted ∧
      (StateRuns.run LogSys.step s ops).log.masked = s.log.masked := by
  induction ops generalizing s with
  | nil => exact ⟨h, hne, fun x hx => hx, rfl⟩
  | cons op ops ih =>
    have hlen := (h.sound.step op).2.length_eq
    have hne' : (s.step op).log.consumers ≠ [] := by
      rw [← length_pos_iff] at hne ⊢
      omega
    obtain ⟨h1, h2, h3, h4⟩ := ih (h.step hne op) hne'
    exact ⟨h1, h2, (h.evicted_sub hne op).trans h3, h4.trans (h.sound.step op).2.masked⟩

namespace LinkSys

theorem sys_run {c : ℕ} {t : LinkSys} (h : t.sys.Tracked) (hne : t.sys.log.consumers ≠ [])
    (ops : List LinkOp) : t.sys.evicted ⊆ (StateRuns.run (step c) t ops).sys.evicted ∧
      (StateRuns.run (step c) t ops).sys.log.masked = t.sys.log.masked := by
  induction ops generalizing t with
  | nil => exact ⟨fun x hx => hx, rfl⟩
  | cons op ops ih =>
    obtain ⟨lops, hsys⟩ := sys_step c t op
    obtain ⟨h1, h2, h3, h4⟩ := h.run hne lops
    rw [← hsys] at h1 h2 h3 h4
    obtain ⟨h5, h6⟩ := ih h1 h2
    exact ⟨h3.trans h5, h6.trans h4⟩

theorem linked_run {c : ℕ} {t : LinkSys} (h : Linked c t) (ops : List LinkOp)
    (hev : (StateRuns.run (step c) t ops).sys.evicted = ∅) : Linked c (StateRuns.run (step c) t ops) ∧
      StateRuns.Along (step c) (fun t op => (t.stepOut c op).2 = none) t ops := by
  induction ops generalizing t with
  | nil => exact ⟨h, trivial⟩
  | cons op ops ih =>
    obtain ⟨lops, hsys⟩ := sys_step c t op
    obtain ⟨h1, h2, -, -⟩ := h.owes.tracked.run h.owes.ne_nil lops
    rw [← hsys] at h1 h2
    have hsub := (sys_run (c := c) h1 h2 ops).1
    have hempty : (t.step c op).sys.evicted = ∅ := by
      rw [← Finset.subset_empty, ← hev]
      exact hsub
    obtain ⟨hstep, hnone⟩ := h.step hempty
    obtain ⟨hrun, halong⟩ := ih hstep hev
    exact ⟨hrun, hnone, halong⟩

private theorem interested_run {c : ℕ} {t : LinkSys} (h : Interested t) {ops : List LinkOp}
    (hops : ∀ op ∈ ops, op ≠ .hello false) : Interested (StateRuns.run (step c) t ops) := by
  induction ops generalizing t with
  | nil => exact h
  | cons op ops ih =>
    exact ih (h.step (hops op mem_cons_self)) (fun op' h' => hops op' (mem_cons_of_mem _ h'))

theorem linked_start {epoch : ℕ} {cfg : LogConfig} {l : Log} (h : newLog epoch cfg = .ok l)
    (hepoch : epoch ≠ 0) {c : ℕ} (hc : c < l.consumers.length) : Linked c (start l) := by
  have hcommitted : ((start l).sys.log.con c).committed = 1 := by
    obtain ⟨hlen, hcon⟩ := Log.newLog_con h
    change (l.con c).committed = 1
    rw [hcon c (hlen ▸ hc)]
    rfl
  have hep : l.epoch = epoch := by
    unfold newLog at h
    simp only at h
    split at h
    · cases h
    · cases h
      rfl
  constructor
  · refine ⟨LogSys.tracked_start h, hc, rfl, ?_, ?_, Nat.zero_le _⟩
    · intro r hr
      cases hr
    · intro x h1 _ hx
      omega
  · exact fun h0 => hepoch (hep.symm.trans h0)
  · exact Or.inl ⟨rfl, rfl⟩
  · intro off hoff
    cases hoff
  · intro g hg
    cases hg
  · exact le_rfl
  · refine ⟨List.Pairwise.nil, ?_, ?_, ?_⟩
    · intro p hp
      cases hp
    · intro x _ hx
      cases hx
    · intro p hp
      cases hp
  · intro sess hs
    cases hs

/-- Delivery without eviction. The offsets processed are strictly increasing; every
needed record below the position was processed; one out of a sparse batch is needed.
With the interest capability on every session, or on an unmasked log, the records
processed below the position are exactly the needed ones. No step raises an error. -/
theorem run_delivers {epoch : ℕ} {cfg : LogConfig} {l : Log} (h : newLog epoch cfg = .ok l)
    (hepoch : epoch ≠ 0) {c : ℕ} (hc : c < l.consumers.length) (ops : List LinkOp)
    (hev : (run c l ops).sys.evicted = ∅) : ((run c l ops).processed.map Prod.fst).Pairwise (· < ·) ∧
      (∀ x, 1 ≤ x → x < (run c l ops).appliedNext → (run c l ops).sys.Needed c x →
        x ∈ (run c l ops).processed.map Prod.fst) ∧
      (∀ p ∈ (run c l ops).processed, p.2 = true → (run c l ops).sys.Needed c p.1) ∧
      ((l.masked = false ∨ ∀ op ∈ ops, op ≠ .hello false) →
        ∀ x, 1 ≤ x → x < (run c l ops).appliedNext →
          (x ∈ (run c l ops).processed.map Prod.fst ↔ (run c l ops).sys.Needed c x)) ∧
      StateRuns.Along (step c) (fun t op => (t.stepOut c op).2 = none) (start l) ops := by
  have hstart := linked_start h hepoch hc
  obtain ⟨hl, halong⟩ := linked_run hstart ops hev
  have hall : ∀ x, 1 ≤ x → x < (run c l ops).appliedNext → (run c l ops).sys.Needed c x →
      x ∈ (run c l ops).processed.map Prod.fst :=
    fun x h1 hx hn => hl.received.all x h1 (hx.trans_le hl.le_position) hn
  refine ⟨hl.received.sorted, hall, hl.received.only, ?_, halong⟩
  intro hsparse x h1 hx
  refine ⟨?_, hall x h1 hx⟩
  intro hmem
  obtain ⟨p, hp, rfl⟩ := mem_map.mp hmem
  rcases hsparse with hm | hops
  · exact Or.inl ((sys_run hstart.owes.tracked hstart.owes.ne_nil ops).2.trans hm)
  · have hint : Interested (run c l ops) := by
      apply interested_run _ hops
      exact ⟨by simp [start], by simp [start], by simp [start]⟩
    exact hl.received.only p hp (hint.processed p hp)

def roomyConfig : LogConfig := ⟨8, 0, 0, ["b", "c"], true, 0, LogConfig.unlimited_lt⟩

def roomyLog : Log := (newLog 7 roomyConfig).toOption.get rfl

theorem roomyLog_eq : newLog 7 roomyConfig = .ok roomyLog := rfl

/-- Two records, the second not meant for consumer 0, pulled in one session. -/
def pullBoth (interest : Bool) : List LinkOp :=
  [.hello interest, .helloOK, .log (.append [0, 0, 0, 0] .client 1), .log (.append [0, 0, 0, 0] .client 2),
    .sendFetch, .handleFrame, .serve 8 0, .log (.readSnapshot 0), .log (.readAdvance 0),
    .log (.readAdvance 0), .log (.readAdvance 0), .log (.readAdvance 0), .log (.readComplete 0), .reply,
    .receive, .takeBatch, .applyRecord, .applyRecord, .finishBatch]

theorem run_delivers_sample : newLog 7 roomyConfig = .ok roomyLog ∧
    ∀ x, 1 ≤ x → x < (run 0 roomyLog (pullBoth true)).appliedNext →
      (x ∈ (run 0 roomyLog (pullBoth true)).processed.map Prod.fst ↔
        (run 0 roomyLog (pullBoth true)).sys.Needed 0 x) :=
  ⟨roomyLog_eq, (run_delivers roomyLog_eq (by decide) (by decide) (pullBoth true) (by decide)).2.2.2.1
    (Or.inr (by simp [pullBoth]))⟩

/-- Without the capability the source answers with `ReadFor`: on a masked log the
puller then processes a record that is not meant for it. -/
theorem pull_without_interest : (run 0 roomyLog (pullBoth false)).sys.evicted = ∅ ∧
      (2 < (run 0 roomyLog (pullBoth false)).appliedNext ∧
        2 ∈ (run 0 roomyLog (pullBoth false)).processed.map Prod.fst ∧
        ¬ (run 0 roomyLog (pullBoth false)).sys.Needed 0 2) := by
  decide

end LinkSys

end MonsterMQ.PeerLink
