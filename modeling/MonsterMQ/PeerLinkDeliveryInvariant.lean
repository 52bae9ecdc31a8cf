import MonsterMQ.PeerLinkDeliverySource

/-!
# The invariant of the link

While nothing is evicted, what is on its way starts at the offset the reader waits for, the batches close the
gap down to the position, and the position of the source passes only records that are not needed.
-/

namespace MonsterMQ.PeerLink

open LittleEndian List

/-- `Resume`: the answer is not before the offset of the consumer, and past it only as
far as the position and the start of the log. -/
theorem Log.LogInvariant.resume_bounds {l : Log} {frames : List Bytes} {marks : List Mask} {c : ℕ}
    (hv : Log.LogInvariant l frames marks) (hc : c < l.consumers.length) {lastEpoch off : ℕ}
    {r : Log × Log.Resume × Option ClearReq} (hr : l.resume c lastEpoch off = .ok r) :
    (lastEpoch = l.epoch → max 1 off ≤ r.2.1.resumeAt) ∧ 1 ≤ r.2.1.resumeAt ∧
      r.2.1.resumeAt ≤ max (if lastEpoch = l.epoch then max 1 off else 1)
        (max (r.1.con c).committed r.1.lso) := by
  have hone := (hv.position c hc).one_le
  have hrep : ∀ l : Log, c < l.consumers.length →
      ((l.markReported c).con c).committed = (l.con c).committed := by
    intro l hl
    rw [Log.markReported, Log.con_updCon_self _ _ hl]
  have hobs : ((l.observeLocked c).con c).committed = (l.con c).committed :=
    LogSys.committed_congr (LogSys.observe_map_committed l c) hc
  unfold Log.resume at hr
  split at hr
  · cases hr
  simp only at hr
  split at hr
  · rename_i hep
    have ho : (if off = 0 then 1 else off) = max 1 off := by split <;> omega
    rw [ho] at hr
    simp only [hep, if_true, true_implies]
    have ho1 : 1 ≤ max 1 off := le_max_left _ _
    generalize max 1 off = o at hr ho1
    split at hr
    · cases hr
    rename_i hoff
    have hlen : c < ((l.resumeCommit c o).1.observeLocked c).consumers.length := by
      have := (hv.resumeCommit hc (not_lt.mp hoff)).2.1.length_eq
      simpa [Log.observeLocked, this] using hc
    cases hr
    unfold Log.resumeSameEpoch
    simp only
    split
    · refine ⟨le_rfl, ho1, le_max_left _ _⟩
    split
    · simp only [hrep _ hlen]
      refine ⟨?_, ?_, ?_⟩
      · omega
      · omega
      · change _ ≤ max o (max _ ((l.resumeCommit c o).1.observeLocked c).lso)
        omega
    · simp only
      omega
  · rename_i hep
    cases hr
    simp only [hep, if_false, false_implies, true_and]
    unfold Log.resumeOtherEpoch
    simp only
    split
    · have hlen : c < (l.observeLocked c).consumers.length := by simpa [Log.observeLocked] using hc
      simp only [hrep _ hlen, hobs]
      change 1 ≤ _ ∧ _ ≤ max 1 (max _ l.lso)
      omega
    · have hlso : (l.observeLocked c).lso = l.lso := rfl
      split
      · simp only [hobs, hlso]
        omega
      · simp only [hobs, hlso]
        omega

/-- What the source owes a puller that stands at `pos`: the position passes no record
that is needed from there on, and the reads hand over the needed ones. -/
structure Owes (c : ℕ) (s : LogSys) (pos : ℕ) : Prop where
  tracked : s.Tracked
  c_lt : c < s.log.consumers.length
  evicted : s.evicted = ∅
  delivers : s.Delivers c
  behind : ∀ x, 1 ≤ x → pos ≤ x → x < (s.log.con c).committed → ¬ s.Needed c x
  pos_le : pos ≤ s.log.leo

structure Asks (c : ℕ) (s : LogSys) (pos : ℕ) (op : LogOp) : Prop where
  commit : ∀ off, op = .commit c off → off ≤ pos
  resume : ∀ off, op = .resume c s.log.epoch off → off ≤ pos
  clear : ∀ start drop, op ≠ .clearConsumerBits c start drop
  read : ∀ call, op = .readCall call → call.c = c → 1 ≤ call.start ∧ call.start ≤ s.log.leo

theorem Asks.of_foreign {c : ℕ} {s : LogSys} {pos : ℕ} {op : LogOp} (h : op.foreign c = true) :
    Asks c s pos op := by
  constructor
  · rintro off rfl
    simp [LogOp.foreign] at h
  · rintro off rfl
    simp [LogOp.foreign] at h
  · rintro start drop rfl
    simp [LogOp.foreign] at h
  · rintro call rfl hc
    simp [LogOp.foreign, hc] at h

namespace Owes

variable {c : ℕ} {s : LogSys} {pos : ℕ}

section

variable (h : Owes c s pos)
include h

theorem ne_nil : s.log.consumers ≠ [] := by
  intro h0
  have := h.c_lt
  simp [h0] at this

theorem invariant : Log.LogInvariant s.log s.frames s.marks :=
  h.tracked.sound.invariant h.ne_nil

theorem needed {op : LogOp} (hask : Asks c s pos op) :
    ∀ x, 1 ≤ x → x < s.log.leo → ((s.step op).Needed c x ↔ s.Needed c x) :=
  fun _ h1 hx => LogSys.needed_step h.tracked.sound h.ne_nil hask.clear h1 hx

theorem mono {pos' : ℕ} (hle : pos ≤ pos') (hleo : pos' ≤ s.log.leo) : Owes c s pos' :=
  ⟨h.tracked, h.c_lt, h.evicted, h.delivers, fun x h1 hx => h.behind x h1 (hle.trans hx), hleo⟩

theorem step {op : LogOp} (hask : Asks c s pos op)
    (hev : (s.step op).evicted = ∅) : Owes c (s.step op) pos := by
  have he := (h.tracked.sound.step op).2
  have hcom := (h.invariant.position c h.c_lt).committed_le
  refine ⟨h.tracked.step h.ne_nil op, ?_, hev, ?_, ?_, h.pos_le.trans he.leo_le⟩
  · rw [he.length_eq]
    exact h.c_lt
  · exact h.delivers.step h.tracked.sound h.ne_nil hask.clear hask.read
  · intro x h1 hpos hx
    by_cases hold : x < (s.log.con c).committed
    · rw [h.needed hask x h1 (by omega)]
      exact h.behind x h1 hpos hold
    · apply h.tracked.not_needed h.c_lt (by simp [h.evicted]) (by omega) hx
      rintro (⟨off, hop, hlt⟩ | ⟨off, hop, hlt⟩)
      · have := hask.commit off hop
        omega
      · have := hask.resume off hop
        omega

theorem step_quiet {op : LogOp} (hask : Asks c s pos op)
    (hop : ∀ frame kind mask, op ≠ .append frame kind mask) : Owes c (s.step op) pos :=
  h.step hask ((LogSys.moveView_step h.tracked.sound h.tracked.trimmed h.ne_nil op hop).evicted.trans
    h.evicted)

/-- No needed record from `pos` on lies below the start of the log. -/
theorem below_lso {x : ℕ} (h1 : 1 ≤ x) (hpos : pos ≤ x) (hx : x < s.log.lso) : ¬ s.Needed c x :=
  h.behind x h1 hpos (hx.trans_le (h.tracked.lso_le h.c_lt h.evicted))

end

end Owes

/-- The offsets processed so far, up to `pos`: in order, all that are needed, and no
other from a sparse batch. -/
structure Received (c : ℕ) (s : LogSys) (processed : List (ℕ × Bool)) (pos : ℕ) : Prop where
  sorted : (processed.map Prod.fst).Pairwise (· < ·)
  mem : ∀ p ∈ processed, 1 ≤ p.1 ∧ p.1 < pos
  all : ∀ x, 1 ≤ x → x < pos → s.Needed c x → x ∈ processed.map Prod.fst
  only : ∀ p ∈ processed, p.2 = true → s.Needed c p.1

namespace Received

variable {c : ℕ} {s s' : LogSys} {processed : List (ℕ × Bool)} {pos : ℕ}

section

variable (h : Received c s processed pos)
include h

theorem congr (hpos : pos ≤ s.log.leo) (hneed : ∀ x, 1 ≤ x → x < s.log.leo → (s'.Needed c x ↔ s.Needed c x)) :
    Received c s' processed pos := by
  constructor
  · exact h.sorted
  · exact h.mem
  · exact fun x h1 hx hn => h.all x h1 hx ((hneed x h1 (by omega)).mp hn)
  · intro p hp hsp
    have := h.mem p hp
    exact (hneed p.1 this.1 (by omega)).mpr (h.only p hp hsp)

theorem move {pos' : ℕ} (hle : pos ≤ pos')
    (hgap : ∀ x, 1 ≤ x → pos ≤ x → x < pos' → ¬ s.Needed c x) : Received c s processed pos' := by
  constructor
  · exact h.sorted
  · intro p hp
    have := h.mem p hp
    omega
  · intro x h1 hx hn
    by_cases hold : x < pos
    · exact h.all x h1 hold hn
    · exact absurd hn (hgap x h1 (by omega) hx)
  · exact h.only

theorem record {off : ℕ} {sparse : Bool} (hone : 1 ≤ off)
    (hle : pos ≤ off) (hgap : ∀ x, 1 ≤ x → pos ≤ x → x < off → ¬ s.Needed c x)
    (honly : sparse = true → s.Needed c off) : Received c s (processed ++ [(off, sparse)]) (off + 1) := by
  constructor
  · rw [map_append, pairwise_append]
    refine ⟨h.sorted, by simp, ?_⟩
    intro a ha b hb
    obtain ⟨p, hp, rfl⟩ := mem_map.mp ha
    have := h.mem p hp
    simp only [map_cons, map_nil, mem_singleton] at hb
    omega
  · intro p hp
    rcases mem_append.mp hp with hp | hp
    · have := h.mem p hp
      omega
    · rw [mem_singleton.mp hp]
      simp only
      omega
  · intro x h1 hx hn
    rw [map_append, mem_append]
    by_cases hlast : x = off
    · right
      simp [hlast]
    · left
      by_cases hold : x < pos
      · exact h.all x h1 hold hn
      · exact absurd hn (hgap x h1 (by omega) (by omega))
  · intro p hp hsp
    rcases mem_append.mp hp with hp | hp
    · exact h.only p hp hsp
    · rw [mem_singleton.mp hp] at hsp ⊢
      exact honly hsp

end

end Received

@[grind =] def Applying.batch (a : Applying) : Batch := ⟨a.rest, a.next, a.sparse⟩

def Applying.position (appliedNext : ℕ) : Option Applying → ℕ
  | some ⟨_, _, _, some off⟩ => off + 1
  | _ => appliedNext

/-- What lies between the injector and the reader. -/
@[grind =] def Session.ahead (s : Session) : List Batch := (s.applying.map Applying.batch).toList ++ s.handoff

@[grind =] def SourceFrame.isFetch : SourceFrame → Bool
  | .fetch _ _ => true
  | .commit _ => false

@[grind =] def Session.outstanding (s : Session) : ℕ :=
  s.frames.countP SourceFrame.isFetch + s.fetches.length + s.serving.toList.length + s.batches.length

structure Serves (c : ℕ) (s : LogSys) (next : ℕ) (interest : Bool) (v : Serving) : Prop where
  offset : v.offset = next
  call : ∃ r, s.reads[v.call]? = some r ∧ r.call.c = c ∧ r.call.start = next ∧
    r.call.sparse = (interest && s.log.masked)
  result : ∀ r, v.result = some r → Covers s c next (Batch.ofResult interest r)

/-- Everything on its way starts at the offset the reader waits for. -/
structure Waits (c : ℕ) (s : LogSys) (sess : Session) : Prop where
  count : sess.outstanding = if sess.asked then 1 else 0
  frames : ∀ off upTo, .fetch off upTo ∈ sess.frames → off = sess.next
  fetches : ∀ off ∈ sess.fetches, off = sess.next
  serving : ∀ v, sess.serving = some v → Serves c s sess.next sess.interest v
  batches : ∀ b ∈ sess.batches, Covers s c sess.next b

theorem Waits.congr {c : ℕ} {s s' : LogSys} {sess : Session} (h : Waits c s sess)
    (hone : 1 ≤ sess.next) (hleo : s.log.leo ≤ s'.log.leo) (hmasked : s'.log.masked = s.log.masked)
    (hneed : ∀ x, 1 ≤ x → x < s.log.leo → (s'.Needed c x ↔ s.Needed c x))
    (hcall : ∀ (k : ℕ) (r : ReadOp), s.reads[k]? = some r → ∃ r', s'.reads[k]? = some r' ∧ r'.call = r.call) :
    Waits c s' sess := by
  refine ⟨h.count, h.frames, h.fetches, ?_, fun b hb => (h.batches b hb).congr hone hleo hneed⟩
  intro v hv
  obtain ⟨hoff, ⟨r, hr, hc, hstart, hsparse⟩, hresult⟩ := h.serving v hv
  obtain ⟨r', hr', heq⟩ := hcall _ r hr
  refine ⟨hoff, ⟨r', hr', ?_⟩, fun r hr => (hresult r hr).congr hone hleo hneed⟩
  rw [heq, hmasked]
  exact ⟨hc, hstart, hsparse⟩

namespace LinkSys

@[grind =] def position (t : LinkSys) : ℕ := Applying.position t.appliedNext (t.session.bind Session.applying)

end LinkSys

structure SessionOk (c : ℕ) (s : LogSys) (appliedNext : ℕ) (sess : Session) : Prop where
  one_le : 1 ≤ appliedNext
  waits : Waits c s sess
  chain : Chain s c (Applying.position appliedNext sess.applying) sess.ahead sess.next
  next_le : sess.next ≤ s.log.leo
  commits : ∀ f ∈ sess.frames, ∀ off ∈ f.commits, off ≤ appliedNext

structure Greets (c : ℕ) (s : LogSys) (appliedNext resumeAt : ℕ) : Prop where
  one_le : 1 ≤ resumeAt
  le : appliedNext ≤ resumeAt
  le_leo : resumeAt ≤ s.log.leo
  gap : ∀ x, 1 ≤ x → appliedNext ≤ x → x < resumeAt → ¬ s.Needed c x

structure Linked (c : ℕ) (t : LinkSys) : Prop where
  owes : Owes c t.sys t.appliedNext
  epoch_ne : t.sys.log.epoch ≠ 0
  epoch : (t.epoch = 0 ∧ t.appliedNext = 0) ∨ (t.epoch = t.sys.log.epoch ∧ 1 ≤ t.appliedNext)
  stale : ∀ off ∈ t.stale, off ≤ t.appliedNext
  greeting : ∀ g, t.greeting = some g → t.session = none ∧ Greets c t.sys t.appliedNext g.1
  le_position : t.appliedNext ≤ t.position
  received : Received c t.sys t.processed t.position
  session : ∀ sess, t.session = some sess → SessionOk c t.sys t.appliedNext sess

end MonsterMQ.PeerLink
