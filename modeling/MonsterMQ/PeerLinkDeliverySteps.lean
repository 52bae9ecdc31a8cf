import MonsterMQ.PeerLinkDeliveryInvariant

/-!
# Steps of the link

Every step keeps the invariant of the link and raises no error, one lemma for each
kind of step.
-/

namespace MonsterMQ.PeerLink

open LittleEndian List

namespace LinkSys

variable {c : ℕ} {t : LinkSys}

@[simp] theorem withSession_sys (t : LinkSys) (f : Session → Session) : (t.withSession f).sys = t.sys :=
  rfl

@[simp] theorem drop_sys (t : LinkSys) : t.drop.sys = t.sys := by
  unfold drop
  split <;> rfl

theorem stepLog_sys {op : LogOp} (hforeign : op.foreign c = true) :
    (t.stepLog c op).1.sys = t.sys.step op := by
  unfold stepLog
  rw [if_pos hforeign]
  simp only
  split <;> rfl

theorem sys_step (c : ℕ) (t : LinkSys) (op : LinkOp) :
    ∃ ops, (t.step c op).sys = StateRuns.run LogSys.step t.sys ops := by
  have hstay : ∀ s : LogSys, s = t.sys → ∃ ops, s = StateRuns.run LogSys.step t.sys ops :=
    fun s hs => ⟨[], hs⟩
  have hone : ∀ (s : LogSys) (lop : LogOp), s = t.sys.step lop →
      ∃ ops, s = StateRuns.run LogSys.step t.sys ops := fun s lop hs => ⟨[lop], hs⟩
  have hcommit : ∀ (t : LinkSys) (off : ℕ), (t.sourceCommit c off).1.sys = t.sys.step (.commit c off) := by
    intro t off
    unfold sourceCommit LogSys.step
    split
    · rename_i s e heq
      simp [heq]
    · rename_i s out _ heq
      simp [heq]
  unfold step stepOut
  cases op with
  | log op =>
    by_cases hforeign : op.foreign c = true
    · exact hone _ op (stepLog_sys hforeign)
    · apply hstay
      simp only [stepLog, if_neg hforeign]
  | hello interest =>
    simp only [stepHello]
    split
    · exact hstay _ rfl
    · generalize (if t.epoch ≠ 0 then (t.epoch, t.appliedNext) else (0, 0)) = ask
      apply hone _ (.resume c ask.1 ask.2)
      unfold LogSys.step
      split
      · rename_i heq
        simp [heq]
      · rename_i heq
        simp [heq]
      · rename_i heq
        simp [heq]
  | helloOK =>
    apply hstay
    simp only [stepHelloOK]
    split <;> rfl
  | disconnect =>
    apply hstay
    simp only [stepDisconnect]
    split
    · split
      · exact drop_sys t
      · rfl
    · rfl
  | handleFrame =>
    simp only [stepHandleFrame]
    split
    · exact hstay _ rfl
    · split
      · exact hstay _ rfl
      · exact hone _ _ (hcommit _ _)
      · rename_i offset upTo frames _
        split
        · exact ⟨[.observeConsumer c, .commit c upTo], hcommit _ _⟩
        · exact hone _ (.observeConsumer c) rfl
  | staleCommit i =>
    simp only [stepStaleCommit]
    split
    · exact hstay _ rfl
    · rename_i off hoff
      apply hone _ (.commit c off)
      unfold LogSys.step
      split
      · rename_i heq
        simp [heq]
      · rename_i heq
        simp [heq]
  | serve maxRecords maxBytes =>
    simp only [stepServe]
    split
    · split
      · split
        · exact hstay _ (drop_sys t)
        · exact hone _ _ rfl
      · exact hstay _ rfl
    · exact hstay _ rfl
  | readAgain maxRecords maxBytes =>
    simp only [stepReadAgain]
    split
    · split
      · exact hone _ _ rfl
      · exact hstay _ rfl
    · exact hstay _ rfl
  | applyRecord =>
    apply hstay
    simp only [stepApplyRecord]
    split
    · split
      · split <;> rfl
      · rfl
    · rfl
  | commitFn =>
    apply hstay
    simp only [stepCommitFn]
    split
    · split <;> rfl
    · rfl
  | finishBatch =>
    apply hstay
    simp only [stepFinishBatch]
    split
    · split <;> rfl
    · rfl
  | cancelBatch =>
    apply hstay
    simp only [stepCancelBatch]
    split
    · split
      · exact drop_sys _
      · rfl
    · rfl
  | _ => exact hstay _ rfl

end LinkSys

namespace Linked

variable {c : ℕ} {t : LinkSys}

variable {sess : Session}

theorem position_of_session (hs : t.session = some sess) :
    t.position = Applying.position t.appliedNext sess.applying := by
  simp only [LinkSys.position, hs, Option.bind_some]

section

variable (h : Linked c t)
include h

theorem position_le : t.position ≤ t.sys.log.leo := by
  unfold LinkSys.position
  cases hs : t.session with
  | none => exact h.owes.pos_le
  | some sess =>
    have hok := h.session sess hs
    exact hok.chain.le.trans hok.next_le

theorem one_le_next (hs : t.session = some sess) : 1 ≤ sess.next := by
  have hok := h.session sess hs
  have hle := hok.chain.le
  rw [← position_of_session hs] at hle
  exact hok.one_le.trans (h.le_position.trans hle)

theorem logStep {op : LogOp} (hask : Asks c t.sys t.appliedNext op)
    (hev : (t.sys.step op).evicted = ∅) : Linked c { t with sys := t.sys.step op } := by
  have he := (h.owes.tracked.sound.step op).2
  have hneed := h.owes.needed hask
  constructor
  · exact h.owes.step hask hev
  · simp only [he.epoch]
    exact h.epoch_ne
  · simp only [he.epoch]
    exact h.epoch
  · exact h.stale
  · intro g hg
    obtain ⟨hs, h1, h2, h3, h4⟩ := h.greeting g hg
    refine ⟨hs, h1, h2, h3.trans he.leo_le, ?_⟩
    intro x hx hpos hlt
    simp only
    rw [hneed x hx (by omega)]
    exact h4 x hx hpos hlt
  · exact h.le_position
  · exact h.received.congr h.position_le hneed
  · intro sess hs
    change t.session = some sess at hs
    obtain ⟨h1, h2, h3, h4, h5⟩ := h.session sess hs
    have hpos : 1 ≤ Applying.position t.appliedNext sess.applying := by
      rw [← position_of_session hs]
      exact h1.trans h.le_position
    refine ⟨h1, ?_, h3.congr hpos he.leo_le hneed, h4.trans he.leo_le, h5⟩
    exact h2.congr (hpos.trans h3.le) he.leo_le he.masked hneed
      (fun k r hr => LogSys.call_step t.sys op hr)

theorem logStep_quiet {op : LogOp} (hask : Asks c t.sys t.appliedNext op)
    (hop : ∀ frame kind mask, op ≠ .append frame kind mask) : Linked c { t with sys := t.sys.step op } :=
  h.logStep hask (h.owes.step_quiet hask hop).evicted

theorem setSession {sess' : Session} (hs : t.session = some sess) (happly : sess'.applying = sess.applying)
    (hok : SessionOk c t.sys t.appliedNext sess') : Linked c { t with session := some sess' } := by
  have hpos : LinkSys.position { t with session := some sess' } = t.position := by
    rw [position_of_session rfl, position_of_session hs, happly]
  constructor
  · exact h.owes
  · exact h.epoch_ne
  · exact h.epoch
  · exact h.stale
  · intro g hg
    have := (h.greeting g hg).1
    rw [hs] at this
    cases this
  · rw [hpos]
    exact h.le_position
  · rw [hpos]
    exact h.received
  · intro _ heq
    cases heq
    exact hok

theorem withSession {f : Session → Session}
    (hf : ∀ sess, t.session = some sess → SessionOk c t.sys t.appliedNext sess →
      (f sess).applying = sess.applying ∧ SessionOk c t.sys t.appliedNext (f sess)) :
    Linked c (t.withSession f) := by
  unfold LinkSys.withSession
  cases hs : t.session with
  | none =>
    rw [Option.map_none, ← hs]
    exact h
  | some sess =>
    obtain ⟨happly, hok⟩ := hf sess hs (h.session sess hs)
    exact h.setSession hs happly hok

theorem drop (hpos : t.position = t.appliedNext) : Linked c t.drop := by
  unfold LinkSys.drop
  split
  · exact h
  · rename_i sess hs
    constructor
    · exact h.owes
    · exact h.epoch_ne
    · exact h.epoch
    · intro off hoff
      rcases mem_append.mp hoff with hoff | hoff
      · exact h.stale off hoff
      · obtain ⟨f, hf, hoff⟩ := mem_flatMap.mp hoff
        exact (h.session sess hs).commits f hf off hoff
    · exact fun g hg => ⟨rfl, (h.greeting g hg).2⟩
    · exact le_rfl
    · have := h.received
      rw [hpos] at this
      exact this
    · intro _ heq
      cases heq

theorem sendFetch : Linked c t.stepSendFetch := by
  apply h.withSession
  intro sess hs hok
  have hcount := hok.waits.count
  simp only
  split
  · exact ⟨rfl, hok⟩
  · rename_i hasked
    rw [if_neg hasked] at hcount
    refine ⟨rfl, hok.one_le, ⟨?_, ?_, hok.waits.fetches, hok.waits.serving, hok.waits.batches⟩,
      hok.chain, hok.next_le, ?_⟩
    · simp only [Session.outstanding] at hcount ⊢
      simp only [countP_append, countP_singleton, SourceFrame.isFetch, if_true]
      omega
    · intro off upTo hf
      rcases mem_append.mp hf with hf | hf
      · exact hok.waits.frames off upTo hf
      · have := mem_singleton.mp hf
        cases this
        rfl
    · intro f hf off hoff
      rcases mem_append.mp hf with hf | hf
      · exact hok.commits f hf off hoff
      · rw [mem_singleton.mp hf] at hoff
        by_cases hnews : t.appliedNext > sess.lastCommit
        · rw [if_pos hnews] at hoff
          simp only [SourceFrame.commits] at hoff
          split at hoff
          · cases hoff
          · rw [mem_singleton.mp hoff]
        · rw [if_neg hnews] at hoff
          cases hoff

theorem sendCommit (off : ℕ) : Linked c (t.stepSendCommit off) := by
  apply h.withSession
  intro sess hs hok
  split
  · rename_i hoff
    refine ⟨rfl, hok.one_le, ⟨?_, ?_, hok.waits.fetches, hok.waits.serving, hok.waits.batches⟩,
      hok.chain, hok.next_le, ?_⟩
    · have hcount := hok.waits.count
      simp only [Session.outstanding] at hcount ⊢
      simpa [countP_append, SourceFrame.isFetch] using hcount
    · intro off' upTo hf
      rcases mem_append.mp hf with hf | hf
      · exact hok.waits.frames off' upTo hf
      · cases mem_singleton.mp hf
    · intro f hf off' hoff'
      rcases mem_append.mp hf with hf | hf
      · exact hok.commits f hf off' hoff'
      · rw [mem_singleton.mp hf] at hoff'
        rw [mem_singleton.mp hoff']
        exact hoff.1
  · exact ⟨rfl, hok⟩

end

variable {off : ℕ}

section

variable (h : Linked c t)
include h

theorem commit_ok (hoff : off ≤ t.appliedNext) : (t.sys.stepOut (.commit c off)).2 = .silent ∧
      Linked c { t with sys := (t.sys.stepOut (.commit c off)).1 } := by
  refine ⟨?_, ?_⟩
  · have h1 := h.owes.c_lt
    have h2 := h.owes.pos_le
    simp only [LogSys.stepOut, LogSys.stepCommit]
    generalize hr : t.sys.log.commit c off = r
    cases r with
    | ok r => rfl
    | error e =>
      unfold Log.commit at hr
      rw [if_neg (by omega), if_neg (by omega)] at hr
      split at hr
      · cases hr
      · cases hr
  · change Linked c { t with sys := t.sys.step (.commit c off) }
    apply h.logStep_quiet
    · constructor
      · intro off' heq
        cases heq
        exact hoff
      · intro off' heq
        cases heq
      · intro start drop heq
        cases heq
      · intro call heq
        cases heq
    · intro frame kind mask heq
      cases heq

theorem sourceCommit (hoff : off ≤ t.appliedNext) :
    Linked c (t.sourceCommit c off).1 ∧ (t.sourceCommit c off).2 = none := by
  obtain ⟨hout, hl⟩ := h.commit_ok hoff
  unfold LinkSys.sourceCommit
  generalize t.sys.stepOut (.commit c off) = r at hout hl
  obtain ⟨s, out⟩ := r
  simp only at hout
  subst hout
  exact ⟨hl, rfl⟩

theorem staleCommit (i : ℕ) : Linked c (t.stepStaleCommit c i).1 ∧ (t.stepStaleCommit c i).2 = none := by
  unfold LinkSys.stepStaleCommit
  split
  · exact ⟨h, rfl⟩
  · rename_i off hi
    obtain ⟨hout, hl⟩ := h.commit_ok (h.stale off (mem_of_getElem? hi))
    generalize t.sys.stepOut (.commit c off) = r at hout hl
    obtain ⟨s, out⟩ := r
    simp only at hout
    subst hout
    refine ⟨⟨hl.1, hl.2, hl.3, ?_, hl.5, hl.6, hl.7, hl.8⟩, rfl⟩
    exact fun off' hoff => h.stale off' (mem_of_mem_eraseIdx hoff)

theorem takeCommit (hs : t.session = some sess)
    {frames : List SourceFrame} (hf : sess.frames = .commit off :: frames) :
    Linked c { t with session := some { sess with frames := frames } } ∧ off ≤ t.appliedNext := by
  have hok := h.session sess hs
  refine ⟨h.setSession hs rfl ⟨hok.1, ⟨?_, ?_, hok.waits.fetches, hok.waits.serving,
    hok.waits.batches⟩, hok.chain, hok.next_le, ?_⟩, ?_⟩
  · have hcount := hok.waits.count
    simpa [Session.outstanding, hf, SourceFrame.isFetch] using hcount
  · exact fun o u hmem => hok.waits.frames o u (by rw [hf]; exact mem_cons_of_mem _ hmem)
  · exact fun f hmem => hok.commits f (by rw [hf]; exact mem_cons_of_mem _ hmem)
  · exact hok.commits (.commit off) (by simp [hf]) off (by simp [SourceFrame.commits])

theorem takeFetch (hs : t.session = some sess) {offset upTo : ℕ}
    {frames : List SourceFrame} (hf : sess.frames = .fetch offset upTo :: frames) :
    Linked c { t with session := some { sess with frames := frames, fetches := sess.fetches ++ [offset] } } ∧
      (upTo ≠ 0 → upTo ≤ t.appliedNext) := by
  have hok := h.session sess hs
  refine ⟨h.setSession hs rfl ⟨hok.1, ⟨?_, ?_, ?_, hok.waits.serving, hok.waits.batches⟩, hok.chain,
    hok.next_le, ?_⟩, ?_⟩
  · have hcount := hok.waits.count
    rw [← hcount]
    simp only [Session.outstanding, hf, SourceFrame.isFetch, countP_cons, if_true,
      length_append, length_singleton]
    omega
  · exact fun o u hmem => hok.waits.frames o u (by rw [hf]; exact mem_cons_of_mem _ hmem)
  · intro off hoff
    rcases mem_append.mp hoff with hoff | hoff
    · exact hok.waits.fetches off hoff
    · rw [mem_singleton.mp hoff]
      exact hok.waits.frames offset upTo (by simp [hf])
  · exact fun f hmem => hok.commits f (by rw [hf]; exact mem_cons_of_mem _ hmem)
  · intro hne
    exact hok.commits (.fetch offset upTo) (by simp [hf]) upTo (by simp [SourceFrame.commits, hne])

theorem handleFrame : Linked c (t.stepHandleFrame c).1 ∧ (t.stepHandleFrame c).2 = none := by
  unfold LinkSys.stepHandleFrame
  split
  · exact ⟨h, rfl⟩
  · rename_i sess hs
    split
    · exact ⟨h, rfl⟩
    · rename_i off frames hf
      obtain ⟨hl, hoff⟩ := h.takeCommit hs hf
      exact hl.sourceCommit hoff
    · rename_i offset upTo frames hf
      obtain ⟨hl, hoff⟩ := h.takeFetch hs hf
      have hask : Asks c t.sys t.appliedNext (.observeConsumer c) := Asks.of_foreign rfl
      have hobs := hl.logStep_quiet hask (by simp)
      simp only
      split
      · rename_i hne
        exact hobs.sourceCommit (hoff hne)
      · exact ⟨hobs, rfl⟩

theorem beginRead (hs : t.session = some sess) {fetches : List ℕ} (hfetch : ∀ off ∈ fetches, off = sess.next)
    (hcount : sess.frames.countP SourceFrame.isFetch + fetches.length + 1 + sess.batches.length =
      if sess.asked then 1 else 0) (maxRecords maxBytes : ℕ) :
    Linked c (LinkSys.beginRead c t { sess with fetches := fetches } sess.next maxRecords maxBytes) := by
  have hok := h.session sess hs
  have hone := h.one_le_next hs
  have hask : Asks c t.sys t.appliedNext
      (.readCall ⟨c, sess.next, maxRecords, maxBytes, sess.interest⟩) := by
    refine ⟨by simp, by simp, by simp, ?_⟩
    intro call heq _
    cases heq
    exact ⟨hone, hok.next_le⟩
  have hlog := h.logStep_quiet hask (by simp)
  have hok' := hlog.session sess hs
  refine hlog.setSession hs rfl ⟨hok'.1, ⟨hcount, hok'.waits.frames, hfetch, ?_, hok'.waits.batches⟩,
    hok'.chain, hok'.next_le, hok'.commits⟩
  intro v hv
  cases hv
  have hc := h.owes.c_lt
  refine ⟨rfl, ⟨⟨⟨c, sess.next, maxRecords, maxBytes, sess.interest && t.sys.log.masked⟩, 0, .waiting⟩,
    ?_, rfl, rfl, ?_⟩, by simp⟩
  · simp only [LogSys.step, LogSys.stepOut, LogSys.stepReadCall]
    rw [if_neg (by omega)]
    simp
  · simp only
    rw [(h.owes.tracked.sound.step _).2.masked]

theorem serve (maxRecords maxBytes : ℕ) :
    Linked c (t.stepServe c maxRecords maxBytes).1 ∧ (t.stepServe c maxRecords maxBytes).2 = none := by
  unfold LinkSys.stepServe
  split
  · rename_i sess hs
    have hok := h.session sess hs
    split
    · rename_i offset fetches hserving hfetches
      have hoff : offset = sess.next := hok.waits.fetches offset (by simp [hfetches])
      subst hoff
      have hcount := hok.waits.count
      simp only [Session.outstanding, hserving, hfetches, Option.toList_none, length_nil,
        length_cons] at hcount
      have hfetch : ∀ off ∈ fetches, off = sess.next := fun off hmem =>
        hok.waits.fetches off (by rw [hfetches]; exact mem_cons_of_mem _ hmem)
      have hread := h.beginRead hs hfetch (by omega) maxRecords maxBytes
      have hone := h.one_le_next hs
      have hle := hok.next_le
      rw [if_neg (by omega)]
      exact ⟨hread, rfl⟩
    · exact ⟨h, rfl⟩
  · exact ⟨h, rfl⟩

theorem readAgain (maxRecords maxBytes : ℕ) : Linked c (t.stepReadAgain c maxRecords maxBytes) := by
  unfold LinkSys.stepReadAgain
  split
  · rename_i sess hs
    have hok := h.session sess hs
    split
    · rename_i offset k r hserving
      have hoff : offset = sess.next := (hok.waits.serving _ hserving).offset
      subst hoff
      have hcount := hok.waits.count
      simp only [Session.outstanding, hserving, Option.toList_some, length_singleton] at hcount
      exact h.beginRead hs hok.waits.fetches hcount maxRecords maxBytes
    · exact h
  · exact h

theorem reply : Linked c t.stepReply := by
  apply h.withSession
  intro sess hs hok
  split
  · rename_i offset k r hserving
    refine ⟨rfl, hok.one_le, ⟨?_, hok.waits.frames, hok.waits.fetches, by simp, ?_⟩, hok.chain,
      hok.next_le, hok.commits⟩
    · have hcount := hok.waits.count
      rw [← hcount]
      simp only [Session.outstanding, hserving, Option.toList_none, Option.toList_some, length_nil,
        length_append, length_singleton]
      omega
    · intro b hb
      rcases mem_append.mp hb with hb | hb
      · exact hok.waits.batches b hb
      · rw [mem_singleton.mp hb]
        exact (hok.waits.serving _ hserving).result r rfl
  · exact ⟨rfl, hok⟩

theorem receive : Linked c t.stepReceive := by
  apply h.withSession
  intro sess hs hok
  split
  · exact ⟨rfl, hok⟩
  · rename_i b batches hb
    have hcover := hok.waits.batches b (by simp [hb])
    have hcount := hok.waits.count
    simp only [Session.outstanding, hb, length_cons] at hcount
    have hzero : sess.frames.countP SourceFrame.isFetch = 0 ∧ sess.fetches.length = 0 ∧
        sess.serving.toList.length = 0 ∧ batches.length = 0 := by
      split at hcount <;> omega
    obtain ⟨hframes, hfetches, hserving, hbatches⟩ := hzero
    rw [length_eq_zero_iff] at hfetches hserving hbatches
    rw [countP_eq_zero] at hframes
    refine ⟨rfl, hok.one_le, ⟨?_, ?_, ?_, ?_, ?_⟩, ?_, hcover.le_leo, hok.commits⟩
    · simp only [Session.outstanding, hfetches, hserving, hbatches, countP_eq_zero.mpr hframes]
      rfl
    · exact fun off upTo hf => absurd rfl (hframes _ hf)
    · simp [hfetches]
    · intro v hv
      simp only at hv
      simp [hv] at hserving
    · simp [hbatches]
    · have := hok.chain.snoc hcover
      simpa only [Session.ahead, append_assoc] using this

theorem takeBatch : Linked c t.stepTakeBatch := by
  unfold LinkSys.stepTakeBatch LinkSys.withSession
  cases hs : t.session with
  | none =>
    rw [Option.map_none, ← hs]
    exact h
  | some sess =>
    have hok := h.session sess hs
    rw [Option.map_some]
    split
    · rename_i b handoff happly hhand
      have hpos := position_of_session hs
      rw [happly] at hpos
      have hchain := hok.chain
      simp only [happly, Session.ahead, hhand, Option.map_none, Option.toList_none, nil_append]
        at hchain
      refine ⟨h.owes, h.epoch_ne, h.epoch, h.stale, ?_, ?_, ?_, ?_⟩
      · intro g hg
        have := (h.greeting g hg).1
        rw [hs] at this
        cases this
      · exact le_rfl
      · have := h.received
        rw [hpos] at this
        exact this
      · intro _ heq
        cases heq
        exact ⟨hok.one_le, ⟨hok.waits.1, hok.waits.2, hok.waits.3, hok.waits.4, hok.waits.5⟩,
          hchain, hok.next_le, hok.commits⟩
    · rw [← hs]
      exact h

theorem applyRecord : Linked c t.stepApplyRecord := by
  unfold LinkSys.stepApplyRecord
  split
  · rename_i sess hs
    have hok := h.session sess hs
    split
    · rename_i off rest next sparse last happly
      have hle := h.le_position
      have hreceived := h.received
      have hchain := hok.chain
      rw [position_of_session hs] at hle hreceived
      simp only [Session.ahead, happly, Option.map_some, Option.toList_some, Applying.batch,
        singleton_append] at hle hreceived hchain
      obtain ⟨hoff, hgap, honly, htail⟩ := hchain.1.tail
      have hone := hok.one_le
      rw [if_neg (by omega)]
      refine ⟨h.owes, h.epoch_ne, h.epoch, h.stale, ?_, ?_, ?_, ?_⟩
      · intro g hg
        have := (h.greeting g hg).1
        rw [hs] at this
        cases this
      · change t.appliedNext ≤ off + 1
        omega
      · exact hreceived.record (by omega) hoff (fun x _ h1 h2 => hgap x h1 h2) honly
      · intro _ heq
        cases heq
        exact ⟨hok.one_le, ⟨hok.waits.1, hok.waits.2, hok.waits.3, hok.waits.4, hok.waits.5⟩,
          ⟨htail, hchain.2⟩, hok.next_le, hok.commits⟩
    · exact h
  · exact h

theorem commitAt (hs : t.session = some sess) {rest : List ℕ}
    {next : ℕ} {sparse : Bool} (happly : sess.applying = some ⟨rest, next, sparse, some off⟩) :
    Linked c { t with appliedNext := max t.appliedNext (off + 1) } ∧
      LinkSys.position { t with appliedNext := max t.appliedNext (off + 1) } =
        max t.appliedNext (off + 1) := by
  have hok := h.session sess hs
  have hpos : t.position = off + 1 := by
    rw [position_of_session hs, happly]
    rfl
  have hle := h.le_position
  rw [hpos] at hle
  rw [max_eq_right hle]
  have hpos' : LinkSys.position { t with appliedNext := off + 1 } = off + 1 := by
    simp only [LinkSys.position, hs, Option.bind_some, happly, Applying.position]
  refine ⟨⟨h.owes.mono hle (hpos ▸ h.position_le), h.epoch_ne, ?_, ?_, ?_, ?_, ?_, ?_⟩, hpos'⟩
  · rcases h.epoch with ⟨-, h0⟩ | ⟨hep, h1⟩
    · have := hok.one_le
      omega
    · exact Or.inr ⟨hep, by simp only; omega⟩
  · exact fun o ho => (h.stale o ho).trans hle
  · intro g hg
    have := (h.greeting g hg).1
    rw [hs] at this
    cases this
  · rw [hpos']
  · rw [hpos', ← hpos]
    exact h.received
  · intro _ heq
    have heq' : some sess = some _ := hs.symm.trans heq
    cases heq'
    have hchain := hok.chain
    rw [happly] at hchain
    exact ⟨by simp only; omega, hok.waits, by rw [happly]; exact hchain, hok.next_le,
      fun f hf o ho => (hok.commits f hf o ho).trans hle⟩

theorem commitFn : Linked c t.stepCommitFn := by
  unfold LinkSys.stepCommitFn
  split
  · rename_i sess hs
    split
    · rename_i off happly
      exact (h.commitAt hs happly).1
    · exact h
  · exact h

theorem cancelBatch : Linked c t.stepCancelBatch := by
  unfold LinkSys.stepCancelBatch
  split
  · rename_i sess hs
    split
    · rename_i off happly
      obtain ⟨hl, hpos⟩ := h.commitAt hs happly
      exact hl.drop hpos
    · exact h
  · exact h

theorem finishBatch : Linked c t.stepFinishBatch := by
  unfold LinkSys.stepFinishBatch
  split
  · rename_i sess hs
    have hok := h.session sess hs
    split
    · rename_i next sparse last happly
      have hle := h.le_position
      have hreceived := h.received
      have hchain := hok.chain
      rw [position_of_session hs] at hle hreceived
      simp only [Session.ahead, happly, Option.map_some, Option.toList_some, Applying.batch,
        singleton_append] at hle hreceived hchain
      have hcover := hchain.1
      have hnext : t.appliedNext ≤ next := hle.trans hcover.le
      rw [max_eq_right hnext]
      have hone := hok.one_le
      refine ⟨h.owes.mono hnext hcover.le_leo, h.epoch_ne, ?_, ?_, ?_, le_rfl, ?_, ?_⟩
      · rcases h.epoch with ⟨-, h0⟩ | ⟨hep, h1⟩
        · omega
        · exact Or.inr ⟨hep, by simp only; omega⟩
      · exact fun o ho => (h.stale o ho).trans hnext
      · intro g hg
        have := (h.greeting g hg).1
        rw [hs] at this
        cases this
      · refine hreceived.move hcover.le ?_
        intro x _ h1 h2 hn
        exact absurd (hcover.all x h1 h2 hn) (by simp)
      · intro _ heq
        cases heq
        exact ⟨by simp only; omega, ⟨hok.waits.1, hok.waits.2, hok.waits.3, hok.waits.4, hok.waits.5⟩,
          hchain.2, hok.next_le, fun f hf o ho => (hok.commits f hf o ho).trans hnext⟩
    · exact h
  · exact h

theorem disconnect : Linked c t.stepDisconnect := by
  unfold LinkSys.stepDisconnect
  split
  · rename_i sess hs
    split
    · rename_i happly
      apply h.drop
      rw [position_of_session hs, happly]
      rfl
    · exact h
  · refine ⟨h.1, h.2, h.3, h.4, ?_, h.6, h.7, h.8⟩
    intro g hg
    cases hg

theorem resume_ok {lastEpoch : ℕ}
    (hask : (lastEpoch, off) = if t.epoch ≠ 0 then (t.epoch, t.appliedNext) else (0, 0)) :
    ∃ r, (t.sys.stepOut (.resume c lastEpoch off)).2 = .resumed c r ∧
      Greets c (t.sys.step (.resume c lastEpoch off)) t.appliedNext r.resumeAt ∧
      Linked c { t with sys := t.sys.step (.resume c lastEpoch off) } := by
  have hle := h.owes.pos_le
  have hc := h.owes.c_lt
  have hcases : (lastEpoch = t.sys.log.epoch ∧ off = t.appliedNext ∧ 1 ≤ t.appliedNext) ∨
      (lastEpoch ≠ t.sys.log.epoch ∧ t.appliedNext = 0) := by
    rcases h.epoch with ⟨h0, h1⟩ | ⟨hep, h1⟩
    · rw [if_neg (by simp [h0])] at hask
      cases hask
      exact Or.inr ⟨h.epoch_ne.symm, h1⟩
    · rw [if_pos (by rw [hep]; exact h.epoch_ne)] at hask
      cases hask
      exact Or.inl ⟨hep, rfl, h1⟩
  have hl : Linked c { t with sys := t.sys.step (.resume c lastEpoch off) } := by
    apply h.logStep_quiet
    · refine ⟨by simp, ?_, by simp, by simp⟩
      intro off' heq
      cases heq
      rcases hcases with ⟨-, rfl, -⟩ | ⟨hne, -⟩
      · exact le_rfl
      · exact absurd rfl hne
    · simp
  generalize hr : t.sys.log.resume c lastEpoch off = r
  cases r with
  | error e =>
    unfold Log.resume at hr
    rw [if_neg (by omega)] at hr
    simp only at hr
    split at hr
    · rename_i hep
      rcases hcases with ⟨-, rfl, h1⟩ | ⟨hne, -⟩
      · rw [if_neg (by split <;> omega)] at hr
        cases hr
      · exact absurd hep hne
    · cases hr
  | ok r =>
    have hlog : (t.sys.step (.resume c lastEpoch off)).log = r.1 := by
      simp only [LogSys.step, LogSys.stepOut, LogSys.stepResume, hr, LogSys.after]
    refine ⟨r.2.1, ?_, ?_, hl⟩
    · simp only [LogSys.stepOut, LogSys.stepResume, hr]
    · obtain ⟨hge, hone, hup⟩ := h.owes.invariant.resume_bounds hc hr
      have hc' := hl.owes.c_lt
      have hcom := (hl.owes.invariant.position c hc').committed_le
      have hlso := hl.owes.tracked.lso_le hc' hl.owes.evicted
      have hpos := hl.owes.pos_le
      simp only [hlog] at hcom hlso hpos
      have hone' := (hl.owes.invariant.position c hc').one_le
      simp only [hlog] at hone'
      have hle' : r.2.1.resumeAt ≤ max t.appliedNext (r.1.con c).committed := by
        rcases hcases with ⟨hep, rfl, h1⟩ | ⟨hne, h0⟩
        · rw [if_pos hep] at hup
          omega
        · rw [if_neg hne] at hup
          omega
      constructor
      · exact hone
      · rcases hcases with ⟨hep, rfl, h1⟩ | ⟨hne, h0⟩
        · have := hge hep
          omega
        · omega
      · rw [hlog]
        omega
      · intro x h1 h2 h3
        apply hl.owes.behind x h1 h2
        simp only [hlog]
        omega

theorem hello (interest : Bool) :
    Linked c (t.stepHello c interest).1 ∧ (t.stepHello c interest).2 = none := by
  unfold LinkSys.stepHello
  split
  · exact ⟨h, rfl⟩
  · rename_i hs
    generalize hask : (if t.epoch ≠ 0 then (t.epoch, t.appliedNext) else (0, 0)) = ask
    obtain ⟨lastEpoch, off⟩ := ask
    obtain ⟨r, hout, hgreet, hl⟩ := h.resume_ok hask.symm
    simp only [LogSys.step] at hgreet hl
    simp only
    generalize t.sys.stepOut (.resume c lastEpoch off) = o at hout hgreet hl
    obtain ⟨s, out⟩ := o
    simp only at hout
    subst hout
    refine ⟨⟨hl.1, hl.2, hl.3, hl.4, ?_, hl.6, hl.7, hl.8⟩, rfl⟩
    intro g hg
    cases hg
    exact ⟨hs, hgreet⟩

theorem helloOK : Linked c t.stepHelloOK := by
  unfold LinkSys.stepHelloOK
  split
  · rename_i resumeAt interest hs hg
    obtain ⟨-, hone, hle, hleo, hgap⟩ := h.greeting _ hg
    have hpos : t.position = t.appliedNext := by
      simp only [LinkSys.position, hs]
      rfl
    have hreceived := h.received
    rw [hpos] at hreceived
    refine ⟨h.owes.mono hle hleo, h.epoch_ne, Or.inr ⟨rfl, hone⟩, ?_, ?_, le_rfl, ?_, ?_⟩
    · exact fun off hoff => (h.stale off hoff).trans hle
    · intro g hg
      cases hg
    · exact hreceived.move hle hgap
    · intro _ heq
      cases heq
      exact ⟨hone, ⟨rfl, by simp [Session.start], by simp [Session.start], by simp [Session.start],
        by simp [Session.start]⟩, rfl, hleo, by simp [Session.start]⟩
  · exact h

/-- A call of `c` never asks for an offset outside of the log. -/
theorem raised_none (op : LogOp) : LinkSys.raised c t.sys op = none := by
  unfold LinkSys.raised
  split
  · rename_i e k hout
    split
    · rename_i hany
      simp only [LogSys.stepOut, LogSys.stepReadSnapshot] at hout
      split at hout
      · rename_i call attempt hk
        have hcc : call.c = c := by simpa [hk] using hany
        obtain ⟨h1, h2, -⟩ := h.owes.delivers _ (mem_of_getElem? hk) hcc
        simp only at h1 h2
        unfold Log.readSnapshot at hout
        rw [if_neg (by omega)] at hout
        cases hout
      · cases hout
    · rfl
  · rfl

/-- What a finished call of `c` returns covers the range from the offset asked for. -/
theorem covers_read {k : ℕ} {call : ReadCall} {r : LogReadResult} (interest : Bool)
    (hout : (t.sys.stepOut (.readComplete k)).2 = .read call r)
    (hcall : ∃ op, t.sys.reads[k]? = some op ∧ op.call.c = c ∧ t.appliedNext ≤ op.call.start ∧
      op.call.sparse = (interest && t.sys.log.masked)) :
    ∃ op, t.sys.reads[k]? = some op ∧ Covers t.sys c op.call.start (Batch.ofResult interest r) := by
  obtain ⟨op, hk, hcc, hpos, hsparse⟩ := hcall
  refine ⟨op, hk, ?_⟩
  simp only [LogSys.stepOut, LogSys.stepReadComplete] at hout
  split at hout
  · rename_i call' attempt scan hk'
    rw [hk] at hk'
    cases hk'
    have hmem := mem_of_getElem? hk
    have hok := (h.owes.tracked.sound.reads _ hmem).scan scan rfl
    have hdel := (h.owes.delivers _ hmem hcc).scan scan rfl
    have hone := hok.one_le_start
    split at hout
    · cases hout
    · split at hout
      · cases hout
      · cases hout
        apply covers_result hok hdel hsparse
        intro x h1 h2
        exact h.owes.below_lso (hone.trans h1) (hpos.trans h1) h2
  · cases hout

theorem log {op : LogOp} (hev : op.foreign c = true → (t.sys.step op).evicted = ∅) :
    Linked c (t.stepLog c op).1 ∧ (t.stepLog c op).2 = none := by
  unfold LinkSys.stepLog
  split
  · rename_i hforeign
    have hask : Asks c t.sys t.appliedNext op := Asks.of_foreign hforeign
    have hl := h.logStep hask (hev hforeign)
    refine ⟨?_, h.raised_none op⟩
    simp only
    split
    · rename_i call r k hout
      apply hl.withSession
      intro sess hs hok
      change t.session = some sess at hs
      have hone := h.one_le_next hs
      refine ⟨rfl, hok.one_le, ⟨?_, hok.waits.frames, hok.waits.fetches, ?_, hok.waits.batches⟩, hok.chain,
        hok.next_le, hok.commits⟩
      · rw [← hok.waits.count]
        simp only [Session.outstanding]
        cases sess.serving <;> rfl
      · intro v hv
        simp only [Option.map_eq_some_iff] at hv
        obtain ⟨v₀, hv₀, rfl⟩ := hv
        have hserves := hok.waits.serving v₀ hv₀
        split
        · rename_i hk
          subst hk
          refine ⟨hserves.offset, hserves.call, ?_⟩
          intro r' hr'
          cases hr'
          obtain ⟨op₀, hop₀, hc₀, hstart₀, hsparse₀⟩ := ((h.session sess hs).waits.serving v₀ hv₀).call
          have hle : t.appliedNext ≤ op₀.call.start := by
            rw [hstart₀]
            have := (h.session sess hs).chain.le
            rw [← position_of_session hs] at this
            exact h.le_position.trans this
          obtain ⟨op₁, hop₁, hcover⟩ := h.covers_read sess.interest hout
            ⟨op₀, hop₀, hc₀, hle, hsparse₀⟩
          rw [hop₀] at hop₁
          cases hop₁
          rw [hstart₀] at hcover
          exact hcover.congr hone (h.owes.tracked.sound.step _).2.leo_le
            (h.owes.needed hask)
        · exact hserves
    · exact hl
  · exact ⟨h, rfl⟩

theorem step {op : LinkOp} (hev : (t.step c op).sys.evicted = ∅) :
    Linked c (t.step c op) ∧ (t.stepOut c op).2 = none := by
  cases op with
  | log op =>
    apply h.log
    intro hforeign
    rw [← LinkSys.stepLog_sys hforeign]
    exact hev
  | hello interest => exact h.hello interest
  | helloOK => exact ⟨h.helloOK, rfl⟩
  | disconnect => exact ⟨h.disconnect, rfl⟩
  | sendFetch => exact ⟨h.sendFetch, rfl⟩
  | sendCommit off => exact ⟨h.sendCommit off, rfl⟩
  | handleFrame => exact h.handleFrame
  | staleCommit i => exact h.staleCommit i
  | serve maxRecords maxBytes => exact h.serve maxRecords maxBytes
  | readAgain maxRecords maxBytes => exact ⟨h.readAgain maxRecords maxBytes, rfl⟩
  | reply => exact ⟨h.reply, rfl⟩
  | receive => exact ⟨h.receive, rfl⟩
  | takeBatch => exact ⟨h.takeBatch, rfl⟩
  | applyRecord => exact ⟨h.applyRecord, rfl⟩
  | commitFn => exact ⟨h.commitFn, rfl⟩
  | finishBatch => exact ⟨h.finishBatch, rfl⟩
  | cancelBatch => exact ⟨h.cancelBatch, rfl⟩

end

end Linked

end MonsterMQ.PeerLink
