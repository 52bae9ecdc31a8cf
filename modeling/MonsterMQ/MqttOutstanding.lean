import MonsterMQ.MqttQuotaRuns

/-!
# Unanswered messages of a connection

The PUBLISH packets queued on a connection and not yet answered, against the send quota: the two never
exceed the client's Receive Maximum.
-/

namespace MonsterMQ.Mqtt

open LittleEndian FiniteMaps Inflight StateRuns List

private theorem acknowledged_of_qos {pk : Packet} (ht : pk.type = .publish) (hq : pk.qos = 1 ∨ pk.qos = 2) :
    pk.acknowledged = true := by
  rcases hq with hq | hq <;> simp [Packet.acknowledged, ht, hq]

/-- What the client owes for a message of the map. -/
@[grind =] def Packet.phase (pk : Packet) : Phase := if pk.type = .pubrel then .awaitPubcomp else firstPhase pk

namespace Inflight

structure Sound (i : Inflight) : Prop where
  wf : i.WF
  acknowledged : ∀ n pk, i.get n = some pk → pk.type = .publish → pk.qos = 1 ∨ pk.qos = 2

namespace Sound

variable {i : Inflight}

theorem congr (h : Sound i) {i' : Inflight} (hint : i'.internal = i.internal)
    (hcount : i'.deferredCount = i.deferredCount) : Sound i' := by
  refine ⟨h.wf.congr hint hcount, ?_⟩
  intro n pk hg
  rw [Inflight.get, hint] at hg
  exact h.acknowledged n pk hg

theorem put (h : Sound i) {m : Packet} (hd : m.deferred = true → m.type = .publish)
    (hm : m.type = .publish → m.qos = 1 ∨ m.qos = 2) : Sound (i.put m) := by
  refine ⟨h.wf.put hd, ?_⟩
  intro n pk hg htype
  by_cases hn : n = m.packetID
  · rw [hn, get_put_self, Option.some.injEq] at hg
    rw [← hg] at htype ⊢
    exact hm htype
  · rw [get_put_ne _ hn] at hg
    exact h.acknowledged n pk hg htype

theorem delete (h : Sound i) (n : UInt16) : Sound (i.delete n).1 := by
  refine ⟨h.wf.delete n, ?_⟩
  intro k pk hg htype
  by_cases hk : k = n
  · rw [hk, get_delete_self] at hg
    cases hg
  · rw [get_delete_ne _ hk] at hg
    exact h.acknowledged k pk hg htype

theorem increaseSendQuota (h : Sound i) : Sound i.increaseSendQuota.1 := by
  simp only [Inflight.increaseSendQuota]
  split
  · exact h
  · exact h.congr rfl rfl

end Sound

end Inflight

namespace Conn

/-- Every queued PUBLISH is outstanding and not written, under a tag of its own. -/
structure Tagged (queue : List Queued) (os : List Outstanding) (next : ℕ) : Prop where
  outstandingTags : (os.map (·.tag)).Nodup
  queueTags : (queue.map (·.tag)).Nodup
  outstandingFresh : ∀ o ∈ os, o.tag < next
  queueFresh : ∀ q ∈ queue, q.tag < next
  unwritten : ∀ o ∈ os, o.written = false → o.phase ≠ .awaitPubcomp
  queued : ∀ q ∈ queue, q.pk.acknowledged = true →
    ∃ o ∈ os, o.tag = q.tag ∧ o.id = q.pk.packetID ∧ o.written = false

theorem firstPhase_ne (pk : Packet) : firstPhase pk ≠ .awaitPubcomp := by
  simp only [firstPhase]
  split <;> decide

namespace Tagged

variable {queue : List Queued} {os : List Outstanding} {next : ℕ}

theorem perm (h : Tagged queue os next) {queue' : List Queued} (hp : queue.Perm queue') :
    Tagged queue' os next := by
  refine { h with queueTags := ?_, queueFresh := ?_, queued := ?_ }
  · exact (hp.map _).nodup_iff.mp h.queueTags
  · intro q hq
    exact h.queueFresh q (hp.mem_iff.mpr hq)
  · intro q hq
    exact h.queued q (hp.mem_iff.mpr hq)

private theorem mem_due {pk : Packet} {tag : ℕ} {o : Outstanding} (h : o ∈ pk.due tag) :
    pk.acknowledged = true ∧ o = ⟨tag, pk.packetID, firstPhase pk, false⟩ := by
  simp only [Packet.due] at h
  split at h
  · rename_i hack
    exact ⟨hack, mem_singleton.mp h⟩
  · cases h

theorem enqueue (h : Tagged queue os next) (pk : Packet) :
    Tagged (queue ++ [⟨next, pk⟩]) (os ++ pk.due next) (next + 1) := by
  have hdue : ∀ o ∈ pk.due next, o.tag = next ∧ o.written = false ∧ o.phase ≠ .awaitPubcomp := by
    intro o ho
    obtain ⟨-, rfl⟩ := mem_due ho
    exact ⟨rfl, rfl, firstPhase_ne pk⟩
  refine ⟨?_, ?_, ?_, ?_, ?_, ?_⟩
  · rw [map_append, nodup_append]
    refine ⟨h.outstandingTags, ?_, ?_⟩
    · simp only [Packet.due]
      split <;> simp
    · intro t ht t' ht'
      obtain ⟨o, ho, rfl⟩ := mem_map.mp ht
      obtain ⟨o', ho', rfl⟩ := mem_map.mp ht'
      rw [(hdue o' ho').1]
      exact (h.outstandingFresh o ho).ne
  · rw [map_append, nodup_append]
    refine ⟨h.queueTags, nodup_singleton _, ?_⟩
    intro t ht t' ht'
    obtain ⟨q, hq, rfl⟩ := mem_map.mp ht
    have htag : t' = next := by simpa using ht'
    rw [htag]
    exact (h.queueFresh q hq).ne
  · intro o ho
    rcases mem_append.mp ho with ho | ho
    · exact (h.outstandingFresh o ho).trans (Nat.lt_succ_self _)
    · rw [(hdue o ho).1]
      exact Nat.lt_succ_self _
  · intro q hq
    rcases mem_append.mp hq with hq | hq
    · exact (h.queueFresh q hq).trans (Nat.lt_succ_self _)
    · rw [mem_singleton.mp hq]
      exact Nat.lt_succ_self _
  · intro o ho
    rcases mem_append.mp ho with ho | ho
    · exact h.unwritten o ho
    · exact fun _ => (hdue o ho).2.2
  · intro q hq hack
    rcases mem_append.mp hq with hq | hq
    · obtain ⟨o, ho, hrest⟩ := h.queued q hq hack
      exact ⟨o, mem_append_left _ ho, hrest⟩
    · rw [mem_singleton.mp hq] at hack ⊢
      refine ⟨⟨next, pk.packetID, firstPhase pk, false⟩, mem_append_right _ ?_, rfl, rfl, rfl⟩
      simp [Packet.due, hack]

theorem eq_of_tag {α : Type} {f : α → ℕ} {l : List α} (h : (l.map f).Nodup) {a b : α} (ha : a ∈ l)
    (hb : b ∈ l) (hab : f a = f b) : a = b :=
  inj_on_of_nodup_map h ha hb hab

theorem answered (h : Tagged queue os next) (n : UInt16) (p : Phase) :
    Tagged queue (Conn.answered n p os) next := by
  have hsub : (Conn.answered n p os).Sublist os := eraseP_sublist
  refine { h with outstandingTags := ?_, outstandingFresh := ?_, unwritten := ?_, queued := ?_ }
  · exact h.outstandingTags.sublist (hsub.map _)
  · exact fun o ho => h.outstandingFresh o (hsub.subset ho)
  · exact fun o ho => h.unwritten o (hsub.subset ho)
  · intro q hq hack
    obtain ⟨o, ho, htag, hid, hw⟩ := h.queued q hq hack
    refine ⟨o, ?_, htag, hid, hw⟩
    exact (mem_eraseP_of_neg (by simp [Outstanding.answeredBy, hw])).mpr ho

end Tagged

theorem received_tags (n : UInt16) (os : List Outstanding) :
    (received n os).map (·.tag) = os.map (·.tag) ∧ (received n os).length = os.length := by
  induction os with
  | nil => exact ⟨rfl, rfl⟩
  | cons o os ih =>
    simp only [received]
    split
    · exact ⟨rfl, rfl⟩
    · exact ⟨by rw [map_cons, map_cons, ih.1], by rw [length_cons, length_cons, ih.2]⟩

theorem mem_received {n : UInt16} {os : List Outstanding} {o : Outstanding} (h : o ∈ received n os) :
    o ∈ os ∨ ∃ o' ∈ os, o'.answeredBy n .awaitPubrec = true ∧ o = { o' with phase := .awaitPubcomp } := by
  induction os with
  | nil => cases h
  | cons x os ih =>
    simp only [received] at h
    split at h
    · rename_i hx
      rcases mem_cons.mp h with rfl | h
      · exact .inr ⟨x, mem_cons_self .., hx, rfl⟩
      · exact .inl (mem_cons_of_mem _ h)
    · rcases mem_cons.mp h with rfl | h
      · exact .inl (mem_cons_self ..)
      · rcases ih h with h | ⟨o', ho', hrest⟩
        · exact .inl (mem_cons_of_mem _ h)
        · exact .inr ⟨o', mem_cons_of_mem _ ho', hrest⟩

theorem mem_received_of_neg {n : UInt16} {os : List Outstanding} {o : Outstanding} (h : o ∈ os)
    (ho : o.answeredBy n .awaitPubrec = false) : o ∈ received n os := by
  induction os with
  | nil => cases h
  | cons x os ih =>
    simp only [received]
    rcases mem_cons.mp h with rfl | h
    · rw [if_neg (by simp [ho])]
      exact mem_cons_self ..
    · split
      · exact mem_cons_of_mem _ h
      · exact mem_cons_of_mem _ (ih h)

theorem exists_received {n : UInt16} {os : List Outstanding}
    (h : ∃ o ∈ os, o.answeredBy n .awaitPubrec = true) :
    ∃ o ∈ received n os, o.id = n ∧ o.phase = .awaitPubcomp ∧ o.written = true := by
  induction os with
  | nil =>
    obtain ⟨o, ho, -⟩ := h
    cases ho
  | cons x os ih =>
    simp only [received]
    split
    · rename_i hx
      simp only [Outstanding.answeredBy, Bool.and_eq_true, decide_eq_true_eq] at hx
      exact ⟨_, mem_cons_self .., hx.1.1, rfl, hx.2⟩
    · rename_i hx
      obtain ⟨o, ho, hans⟩ := h
      rcases mem_cons.mp ho with rfl | ho
      · exact absurd hans hx
      · obtain ⟨o', ho', hrest⟩ := ih ⟨o, ho, hans⟩
        exact ⟨o', mem_cons_of_mem _ ho', hrest⟩

theorem Tagged.received {queue : List Queued} {os : List Outstanding} {next : ℕ}
    (h : Tagged queue os next) (n : UInt16) : Tagged queue (Conn.received n os) next := by
  refine { h with outstandingTags := ?_, outstandingFresh := ?_, unwritten := ?_, queued := ?_ }
  · rw [(received_tags n os).1]
    exact h.outstandingTags
  · intro o ho
    rcases mem_received ho with ho | ⟨o', ho', -, rfl⟩
    · exact h.outstandingFresh o ho
    · exact h.outstandingFresh o' ho'
  · intro o ho hw
    rcases mem_received ho with ho | ⟨o', ho', hans, rfl⟩
    · exact h.unwritten o ho hw
    · simp only [Outstanding.answeredBy, Bool.and_eq_true] at hans
      rw [hans.2] at hw
      cases hw
  · intro q hq hack
    obtain ⟨o, ho, htag, hid, hw⟩ := h.queued q hq hack
    exact ⟨o, mem_received_of_neg ho (by simp [Outstanding.answeredBy, hw]), htag, hid, hw⟩

theorem mem_eraseIdx_tag {queue : List Queued} (h : (queue.map (·.tag)).Nodup) {k : ℕ} {q q' : Queued}
    (hq : queue[k]? = some q) (hq' : q' ∈ queue.eraseIdx k) : q' ∈ queue ∧ q'.tag ≠ q.tag := by
  obtain ⟨j, hj, hget⟩ := mem_eraseIdx_iff_getElem?.mp hq'
  refine ⟨mem_of_getElem? hget, ?_⟩
  intro htag
  apply hj
  have hlen : j < (queue.map (·.tag)).length := by
    rw [length_map]
    exact (List.getElem?_eq_some_iff.mp hget).1
  refine (List.getElem?_inj hlen h).mp ?_
  rw [List.getElem?_map, List.getElem?_map, hget, hq, Option.map_some, Option.map_some, htag]

namespace Tagged

variable {queue : List Queued} {os : List Outstanding} {next : ℕ}

theorem dequeue (h : Tagged queue os next) (k : ℕ) : Tagged (queue.eraseIdx k) os next := by
  have hsub : (queue.eraseIdx k).Sublist queue := eraseIdx_sublist ..
  refine { h with queueTags := ?_, queueFresh := ?_, queued := ?_ }
  · exact h.queueTags.sublist (hsub.map _)
  · exact fun q hq => h.queueFresh q (hsub.subset hq)
  · exact fun q hq => h.queued q (hsub.subset hq)

theorem written (h : Tagged queue os next) {k : ℕ} {q : Queued} (hq : queue[k]? = some q) :
    Tagged (queue.eraseIdx k) (markWritten q.tag os) next := by
  have htags : (markWritten q.tag os).map (·.tag) = os.map (·.tag) := by
    rw [markWritten, map_map]
    apply map_congr_left
    intro o _
    simp only [Function.comp_apply]
    split <;> rfl
  have hmem : ∀ o ∈ markWritten q.tag os, ∃ o' ∈ os, o.tag = o'.tag ∧ o.phase = o'.phase ∧
      (o.written = false → o'.written = false) := by
    intro o ho
    obtain ⟨o', ho', rfl⟩ := mem_map.mp ho
    refine ⟨o', ho', ?_⟩
    split <;> simp
  refine { h.dequeue k with outstandingTags := ?_, outstandingFresh := ?_, unwritten := ?_, queued := ?_ }
  · rw [htags]
    exact h.outstandingTags
  · intro o ho
    obtain ⟨o', ho', htag, -⟩ := hmem o ho
    rw [htag]
    exact h.outstandingFresh o' ho'
  · intro o ho hw
    obtain ⟨o', ho', -, hphase, hwr⟩ := hmem o ho
    rw [hphase]
    exact h.unwritten o' ho' (hwr hw)
  · intro q' hq' hack
    obtain ⟨hin, hne⟩ := mem_eraseIdx_tag h.queueTags hq hq'
    obtain ⟨o, ho, htag, hrest⟩ := h.queued q' hin hack
    refine ⟨o, mem_map.mpr ⟨o, ho, ?_⟩, htag, hrest⟩
    rw [if_neg (by rw [htag]; exact hne)]

theorem unqueued (h : Tagged queue os next) {k : ℕ} {q : Queued} (hq : queue[k]? = some q) :
    Tagged (queue.eraseIdx k) (unqueue q.tag os) next := by
  have hsub : (unqueue q.tag os).Sublist os := filter_sublist
  refine { h.dequeue k with outstandingTags := ?_, outstandingFresh := ?_, unwritten := ?_, queued := ?_ }
  · exact h.outstandingTags.sublist (hsub.map _)
  · exact fun o ho => h.outstandingFresh o (hsub.subset ho)
  · exact fun o ho => h.unwritten o (hsub.subset ho)
  · intro q' hq' hack
    obtain ⟨hin, hne⟩ := mem_eraseIdx_tag h.queueTags hq hq'
    obtain ⟨o, ho, htag, hrest⟩ := h.queued q' hin hack
    refine ⟨o, mem_filter.mpr ⟨ho, ?_⟩, htag, hrest⟩
    rw [htag]
    simpa using hne

end Tagged

theorem length_unqueue_lt {os : List Outstanding} {o : Outstanding} (ho : o ∈ os) :
    (unqueue o.tag os).length < os.length := by
  refine length_filter_lt_length_iff_exists.mpr ⟨o, ho, ?_⟩
  simp

theorem length_answered_lt {n : UInt16} {p : Phase} {os : List Outstanding}
    (h : ∃ o ∈ os, o.answeredBy n p = true) : (answered n p os).length + 1 = os.length := by
  obtain ⟨o, ho, hans⟩ := h
  rw [answered, length_eraseP_of_mem ho hans]
  have := length_pos_of_mem ho
  omega

/-- The message under an identifier has an unanswered PUBLISH: a written one, or one that is
still queued and is found by its time and topic. -/
def CoveredBy (queue : List Queued) (n : UInt16) (pk : Packet) (o : Outstanding) : Prop :=
  o.id = n ∧ o.phase = pk.phase ∧ (o.written = true ∨ ∃ q ∈ queue, q.pk.acknowledged = true ∧
    q.tag = o.tag ∧ q.pk.created = pk.created ∧ q.pk.topicName = pk.topicName)

/-- Every message that took quota has an unanswered PUBLISH. -/
def Covered (queue : List Queued) (os : List Outstanding) (i : Inflight) : Prop :=
  ∀ n pk, i.get n = some pk → pk.holding = true → ∃ o ∈ os, CoveredBy queue n pk o

/-- Quota and unanswered packets stay within the client's Receive Maximum `s`. -/
structure Budget (s : ℤ) (c : Conn) : Prop where
  sound : c.inflight.Sound
  maximum : c.inflight.maximumSendQuota = s
  nonneg : 0 ≤ c.inflight.sendQuota
  within : c.inflight.sendQuota + c.outstanding.length ≤ s
  tagged : Tagged c.queue c.outstanding c.nextTag
  covered : c.closed = false → Covered c.queue c.outstanding c.inflight

namespace Budget

variable {s : ℤ} {c : Conn}

theorem shrink (h : Budget s c) {i : Inflight} (hsound : i.Sound)
    (hmax : i.maximumSendQuota = c.inflight.maximumSendQuota) (hnonneg : 0 ≤ i.sendQuota)
    (hquota : i.sendQuota ≤ c.inflight.sendQuota)
    (hsub : ∀ n pk, i.get n = some pk → pk.holding = true → c.inflight.get n = some pk) :
    Budget s { c with inflight := i } := by
  have hwithin := h.within
  refine ⟨hsound, hmax.trans h.maximum, hnonneg, ?_, h.tagged, ?_⟩
  · simp only
    omega
  · intro hopen n pk hg hhold
    exact h.covered hopen n pk (hsub n pk hg hhold) hhold

theorem delete (h : Budget s c) (n : UInt16) : Budget s { c with inflight := (c.inflight.delete n).1 } := by
  refine h.shrink (h.sound.delete n) (delete_maximumSendQuota ..) ?_ (delete_sendQuota ..).le ?_
  · rw [delete_sendQuota]
    exact h.nonneg
  · intro k pk hg _
    by_cases hk : k = n
    · rw [hk, get_delete_self] at hg
      cases hg
    · rw [get_delete_ne _ hk] at hg
      exact hg

theorem mono_covered {queue queue' : List Queued} {os os' : List Outstanding} {i : Inflight}
    (h : Covered queue os i) (hq : ∀ q ∈ queue, q ∈ queue') (ho : ∀ o ∈ os, o ∈ os') :
    Covered queue' os' i := by
  intro n pk hg hhold
  obtain ⟨o, hos, hid, hphase, hw⟩ := h n pk hg hhold
  refine ⟨o, ho o hos, hid, hphase, ?_⟩
  rcases hw with hw | ⟨q, hqq, hrest⟩
  · exact .inl hw
  · exact .inr ⟨q, hq q hqq, hrest⟩

theorem enqueue_other (h : Budget s c) {pk : Packet} (hpk : pk.acknowledged = false) :
    Budget s (c.enqueue pk) := by
  have hdue : pk.due c.nextTag = [] := by simp [Packet.due, hpk]
  have htagged := h.tagged.enqueue pk
  rw [hdue] at htagged
  refine ⟨h.sound, h.maximum, h.nonneg, ?_, ?_, ?_⟩
  · simpa [enqueue, hdue] using h.within
  · simpa [enqueue, hdue] using htagged
  · intro hopen
    refine mono_covered (h.covered hopen) (fun q hq => mem_append_left _ hq) (fun o ho => ?_)
    exact mem_append_left _ ho

theorem foldl_enqueue_other (pks : List Packet) (h : Budget s c)
    (hpks : ∀ pk ∈ pks, pk.acknowledged = false) : Budget s (pks.foldl enqueue c) := by
  induction pks generalizing c with
  | nil => exact h
  | cons pk pks ih =>
    exact ih (h.enqueue_other (hpks pk (mem_cons_self ..)))
      (fun q hq => hpks q (mem_cons_of_mem _ hq))

theorem close (h : Budget s c) : Budget s { c with closed := true } :=
  { h with covered := fun hopen => by cases hopen }

theorem perm_queue (h : Budget s c) {queue : List Queued} (hp : c.queue.Perm queue) :
    Budget s { c with queue := queue } := by
  refine { h with tagged := h.tagged.perm hp, covered := ?_ }
  intro hopen
  exact mono_covered (h.covered hopen) (fun q hq => hp.mem_iff.mp hq) (fun o ho => ho)

theorem take (h : Budget s c) {m : Packet} (hqos : m.qos = 1 ∨ m.qos = 2) (hd : m.deferred = false)
    (hq : 0 < c.inflight.sendQuota) (hclosed : c.closed = true) : Budget s { c with
      inflight := { c.inflight.put m with sendQuota := c.inflight.sendQuota - 1 } } := by
  have hwithin := h.within
  refine ⟨(h.sound.put (by simp [hd]) (fun _ => hqos)).congr rfl rfl, ?_, ?_, ?_, h.tagged, ?_⟩
  · simpa using h.maximum
  · simp only
    omega
  · simp only
    omega
  · intro hopen
    rw [hclosed] at hopen
    cases hopen

theorem send (h : Budget s c) {m : Packet} (hm : m.type = .publish) (hqos : m.qos = 1 ∨ m.qos = 2)
    (hd : m.deferred = false) (hq : 0 < c.inflight.sendQuota) : Budget s ({ c with
      inflight := { c.inflight.put m with sendQuota := c.inflight.sendQuota - 1 } }.enqueue m) := by
  have hack := acknowledged_of_qos hm hqos
  have hwithin := h.within
  have hdue : m.due c.nextTag = [⟨c.nextTag, m.packetID, firstPhase m, false⟩] := by simp [Packet.due, hack]
  refine ⟨(h.sound.put (by simp [hd]) (fun _ => hqos)).congr rfl rfl, ?_, ?_, ?_, h.tagged.enqueue m, ?_⟩
  · simpa [enqueue] using h.maximum
  · simp only [enqueue]
    omega
  · simp only [enqueue, hdue, length_append, length_singleton]
    push_cast
    omega
  · intro hopen n pk hg hhold
    have hg' : (c.inflight.put m).get n = some pk := hg
    by_cases hn : n = m.packetID
    · subst hn
      rw [get_put_self, Option.some.injEq] at hg'
      subst hg'
      have hphase : firstPhase m = m.phase := by simp [Packet.phase, hm]
      refine ⟨⟨c.nextTag, m.packetID, firstPhase m, false⟩, ?_, rfl, hphase, .inr ?_⟩
      · simp [enqueue, hdue]
      · exact ⟨⟨c.nextTag, m⟩, by simp [enqueue], hack, rfl, rfl, rfl⟩
    · rw [get_put_ne _ hn] at hg'
      have hcov : Covered (c.queue ++ [⟨c.nextTag, m⟩]) (c.outstanding ++ m.due c.nextTag) c.inflight :=
        mono_covered (h.covered hopen) (fun q hq => mem_append_left _ hq)
          (fun o ho => mem_append_left _ ho)
      exact hcov n pk hg' hhold

end Budget

end Conn

end MonsterMQ.Mqtt
