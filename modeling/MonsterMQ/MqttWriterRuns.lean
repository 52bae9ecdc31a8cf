import MonsterMQ.MqttWriterOrder

/-!
# Runs of a connection's writer

The invariant of the writer and its queues, kept by every step in every interleaving.
-/

namespace MonsterMQ.Mqtt

open StateRuns List

namespace WriterAt

@[grind =] def heldControl : WriterAt → List (ℕ × WriteItem)
  | .start (.control id it) => [(id, it)]
  | .handle (.control id it) _ => [(id, it)]
  | _ => []

@[grind =] def heldLive : WriterAt → List (ℕ × ℕ)
  | .repoll _ id after => [(id, after)]
  | .start (.live id after) => [(id, after)]
  | .handle (.live id after) _ => [(id, after)]
  | _ => []

@[grind =] def chosen : WriterAt → List (ℕ × ℕ)
  | .start (.live id after) => [(id, after)]
  | .handle (.live id after) _ => [(id, after)]
  | _ => []

@[grind =] def Idle : WriterAt → Prop
  | .select | .poll none | .repoll none _ _ | .start _ | .returned => True
  | _ => False

end WriterAt

namespace ConnWriter

@[grind =] def pending (w : ConnWriter) : List (ℕ × WriteItem) := w.place.heldControl ++ w.control

@[grind =] def liveQueue (w : ConnWriter) : List (ℕ × ℕ) := w.place.heldLive ++ w.outbound

@[grind =] def handled (w : ConnWriter) : ℕ := w.accepted.length - w.pending.length

/-- What has been or will be written of the packets encoded so far, unless a write fails. -/
@[grind =] def out (w : ConnWriter) : List Sent := if w.failed then w.wire else w.wire ++ w.buf

@[grind =] def Frozen (w : ConnWriter) : Prop := w.failed = true ∨ (w.stopped = true ∧ w.place.Idle)

structure WellOrdered (w : ConnWriter) : Prop where
  numbered : w.pending <:+ w.accepted.mapIdx Prod.mk
  queue_sorted : w.liveQueue.Pairwise (·.1 < ·.1)
  queue_bound : ∀ x ∈ w.liveQueue, x.1 < w.pushed ∧ x.2 ≤ w.accepted.length
  chosen_le : ∀ x ∈ w.place.chosen, x.2 ≤ w.handled
  greeted : w.place.heldLive ≠ [] → w.connackSent = true
  output : Output w.accepted w.handled w.liveQueue w.pushed w.dropped w.out
  complete : ¬w.Frozen →
    Complete w.accepted w.handled w.liveQueue w.pushed w.dropped w.connackSent w.out
  waiters_nil : w.waiters = []
  closed_nodup : w.closed.Nodup
  closed_iff : ∀ j, j ∈ w.closed ↔ j < w.handled ∧ Waits w.accepted j
  closed_written : w.stopped = false → ∀ j ∈ w.closed, ∀ i ≤ j, ∀ kind,
    packetOf w.accepted i = some kind → .control i kind ∈ w.wire ∨ .control i kind ∈ w.dropped
  failed_stopped : w.failed = true → w.stopped = true
  closing : ∀ j < w.handled, Closes w.accepted j → w.Frozen

theorem new_wellOrdered (outboundMax : ℕ) : (new outboundMax).WellOrdered where
  numbered := nil_suffix
  queue_sorted := List.Pairwise.nil
  queue_bound x hx := by simp [liveQueue, WriterAt.heldLive, new] at hx
  chosen_le x hx := by simp [WriterAt.chosen, new] at hx
  greeted h := absurd rfl h
  output := by
    refine ⟨List.Pairwise.nil, fun i kind h => ?_, fun p after h => ?_, fun pre p after post h => ?_,
      fun pre j kind post h => ?_⟩ <;>
      simp [out, new] at h
  complete _ := ⟨fun i hi => by simp [handled, new] at hi, fun q hq => by simp [new] at hq,
    fun h => by simp [new] at h⟩
  waiters_nil := rfl
  closed_nodup := nodup_nil
  closed_iff j := by simp [handled, new]
  closed_written _ j hj := by simp [new] at hj
  failed_stopped h := by simp [new] at h
  closing j hj := by simp [handled, new] at hj

variable {w w' : ConnWriter}

private theorem handled_le (w : ConnWriter) : w.handled ≤ w.accepted.length := Nat.sub_le _ _

namespace WellOrdered

section

variable (h : w.WellOrdered)
include h

theorem pending_length_le : w.pending.length ≤ w.accepted.length := by
  simpa using h.numbered.length_le

theorem head {id : ℕ} {it : WriteItem} {rest : List (ℕ × WriteItem)}
    (hp : w.pending = (id, it) :: rest) : id = w.handled ∧ w.accepted[w.handled]? = some it := by
  obtain ⟨past, hpast⟩ := h.numbered
  have hlen : past.length + w.pending.length = w.accepted.length := by
    simpa using congrArg List.length hpast
  have hhandled : w.handled = past.length := by unfold handled; omega
  have hget : (w.accepted.mapIdx Prod.mk)[past.length]? = some (id, it) := by
    rw [← hpast, hp]
    simp
  rw [List.getElem?_mapIdx, Option.map_eq_some_iff] at hget
  obtain ⟨it', hit, heq⟩ := hget
  obtain ⟨rfl, rfl⟩ := Prod.mk.inj heq
  exact ⟨hhandled.symm, by rw [hhandled, hit]⟩

theorem move (hpending : w'.pending = w.pending) (hlive : w'.liveQueue = w.liveQueue)
    (hrest : { w' with control := w.control, outbound := w.outbound, place := w.place } = w)
    (hchosen : ∀ x ∈ w'.place.chosen, x.2 ≤ w.handled)
    (hgreeted : w'.place.heldLive ≠ [] → w.connackSent = true)
    (hidle : w.stopped = true → w.place.Idle → w'.place.Idle) : w'.WellOrdered := by
  obtain ⟨hacc, hpushed, hconnack, hfailed, hstopped, hbuf, hwire, hdropped, hwaiters, hclosed⟩ :
      w'.accepted = w.accepted ∧ w'.pushed = w.pushed ∧ w'.connackSent = w.connackSent ∧
      w'.failed = w.failed ∧ w'.stopped = w.stopped ∧ w'.buf = w.buf ∧ w'.wire = w.wire ∧
      w'.dropped = w.dropped ∧ w'.waiters = w.waiters ∧ w'.closed = w.closed := by
    rw [← hrest]
    simp
  have hhandled : w'.handled = w.handled := by simp only [handled, hacc, hpending]
  have hout : w'.out = w.out := by simp only [out, hfailed, hwire, hbuf]
  have hfrozen : w.Frozen → w'.Frozen := by
    rintro (hf | ⟨hs, hi⟩)
    · exact .inl (hfailed.trans hf)
    · exact .inr ⟨hstopped.trans hs, hidle hs hi⟩
  constructor
  · rw [hpending, hacc]; exact h.numbered
  · rw [hlive]; exact h.queue_sorted
  · rw [hlive, hpushed, hacc]; exact h.queue_bound
  · rw [hhandled]; exact hchosen
  · rw [hconnack]; exact hgreeted
  · rw [hacc, hhandled, hlive, hpushed, hdropped, hout]; exact h.output
  · rw [hacc, hhandled, hlive, hpushed, hdropped, hconnack, hout]
    exact fun hn => h.complete fun hf => hn (hfrozen hf)
  · rw [hwaiters]; exact h.waiters_nil
  · rw [hclosed]; exact h.closed_nodup
  · rw [hclosed, hhandled, hacc]; exact h.closed_iff
  · rw [hstopped, hclosed, hacc, hwire, hdropped]; exact h.closed_written
  · rw [hfailed, hstopped]; exact h.failed_stopped
  · rw [hhandled, hacc]
    exact fun j hj hcloses => hfrozen (h.closing j hj hcloses)

theorem enqueueControl (it : WriteItem) : (w.enqueueControl it).WellOrdered := by
  unfold ConnWriter.enqueueControl
  split
  · have hpending : pending { w with
        control := w.control ++ [(w.accepted.length, it)]
        accepted := w.accepted ++ [it] } = w.pending ++ [(w.accepted.length, it)] := by
      simp [pending]
    have hhandled : handled { w with
        control := w.control ++ [(w.accepted.length, it)]
        accepted := w.accepted ++ [it] } = w.handled := by
      simp only [handled, hpending, length_append, length_singleton]
      omega
    have hle := w.handled_le
    constructor
    · rw [hpending]
      obtain ⟨past, hpast⟩ := h.numbered
      exact ⟨past, by simp [← hpast]⟩
    · exact h.queue_sorted
    · intro x hx
      have := h.queue_bound x hx
      exact ⟨this.1, by simp; omega⟩
    · rw [hhandled]; exact h.chosen_le
    · exact h.greeted
    · rw [hhandled]; exact h.output.enqueue hle it
    · rw [hhandled]; exact fun hf => (h.complete hf).enqueue hle it
    · exact h.waiters_nil
    · exact h.closed_nodup
    · intro j
      rw [hhandled, h.closed_iff]
      refine and_congr_right fun hj => (waits_concat_iff it ?_).symm
      omega
    · intro hs j hj i hi kind hpk
      have hlt := ((h.closed_iff j).mp hj).1
      rw [packetOf_concat it (by omega)] at hpk
      exact h.closed_written hs j hj i hi kind hpk
    · exact h.failed_stopped
    · rw [hhandled]
      intro j hj hcloses
      exact h.closing j hj ((closes_concat_iff it (by omega)).mp hcloses)
  · exact h

theorem push : w.push.WellOrdered := by
  unfold ConnWriter.push
  split
  · have hqueue : liveQueue { w with
        outbound := w.outbound ++ [(w.pushed, w.accepted.length)]
        pushed := w.pushed + 1 } = w.liveQueue ++ [(w.pushed, w.accepted.length)] := by
      simp [liveQueue]
    constructor
    · exact h.numbered
    · rw [hqueue, pairwise_append]
      refine ⟨h.queue_sorted, pairwise_singleton _ _, fun x hx y hy => ?_⟩
      obtain rfl := mem_singleton.mp hy
      exact (h.queue_bound x hx).1
    · rw [hqueue]
      intro x hx
      rcases mem_append.mp hx with hx | hx
      · exact ⟨Nat.lt_succ_of_lt (h.queue_bound x hx).1, (h.queue_bound x hx).2⟩
      · obtain rfl := mem_singleton.mp hx
        exact ⟨Nat.lt_succ_self _, le_rfl⟩
    · exact h.chosen_le
    · exact h.greeted
    · rw [hqueue]; exact h.output.push _
    · rw [hqueue]; exact fun hf => (h.complete hf).push _
    · exact h.waiters_nil
    · exact h.closed_nodup
    · exact h.closed_iff
    · exact h.closed_written
    · exact h.failed_stopped
    · exact h.closing
  · exact h

theorem stop : w.stop.WellOrdered where
  numbered := h.numbered
  queue_sorted := h.queue_sorted
  queue_bound := h.queue_bound
  chosen_le := h.chosen_le
  greeted := h.greeted
  output := h.output
  complete hn := h.complete fun hf => hn (hf.imp id fun ⟨_, hi⟩ => ⟨rfl, hi⟩)
  waiters_nil := h.waiters_nil
  closed_nodup := h.closed_nodup
  closed_iff := h.closed_iff
  closed_written hs := by simp [ConnWriter.stop] at hs
  failed_stopped _ := rfl
  closing j hj hcloses := (h.closing j hj hcloses).imp id fun ⟨_, hi⟩ => ⟨rfl, hi⟩

end

end WellOrdered

@[grind =] def taken (w : ConnWriter) : ℕ := w.accepted.length - w.control.length

/-- The invariant while the writer is done with an item and has not yet moved on; those who wait
for the item may still have to be released. -/
structure Settled (w : ConnWriter) : Prop where
  numbered : w.control <:+ w.accepted.mapIdx Prod.mk
  queue_sorted : w.outbound.Pairwise (·.1 < ·.1)
  queue_bound : ∀ x ∈ w.outbound, x.1 < w.pushed ∧ x.2 ≤ w.accepted.length
  output : Output w.accepted w.taken w.outbound w.pushed w.dropped w.out
  closed_nodup : (w.closed ++ w.waiters).Nodup
  closed_iff : ∀ j, j ∈ w.closed ++ w.waiters ↔ j < w.taken ∧ Waits w.accepted j
  closed_written : w.stopped = false → ∀ j ∈ w.closed, ∀ i ≤ j, ∀ kind,
    packetOf w.accepted i = some kind → .control i kind ∈ w.wire ∨ .control i kind ∈ w.dropped
  failed_stopped : w.failed = true → w.stopped = true

/-- Unless the connection failed, nothing the writer took is missing from the output. -/
def Whole (w : ConnWriter) : Prop :=
  w.failed = false →
    Complete w.accepted w.taken w.outbound w.pushed w.dropped w.connackSent w.out

namespace Settled

theorem wellOrdered (h : w.Settled) (p : WriterAt) (hcontrol : p.heldControl = [])
    (hlive : p.heldLive = []) (hchosen : p.chosen = []) (hwaiters : w.waiters = [])
    (hcomplete : w.Whole ∨ Frozen { w with place := p })
    (hclosing : ∀ j < w.taken, Closes w.accepted j → Frozen { w with place := p }) :
    { w with place := p }.WellOrdered := by
  have hpending : pending { w with place := p } = w.control := by simp [pending, hcontrol]
  have hqueue : liveQueue { w with place := p } = w.outbound := by simp [liveQueue, hlive]
  have hhandled : handled { w with place := p } = w.taken := by simp only [handled, hpending, taken]
  have hout : out { w with place := p } = w.out := rfl
  constructor
  · rw [hpending]; exact h.numbered
  · rw [hqueue]; exact h.queue_sorted
  · rw [hqueue]; exact h.queue_bound
  · intro x hx
    simp [hchosen] at hx
  · exact fun hne => absurd hlive hne
  · rw [hhandled, hqueue, hout]; exact h.output
  · rw [hhandled, hqueue, hout]
    intro hn
    exact (hcomplete.resolve_right hn) (Bool.eq_false_iff.mpr fun hf => hn (.inl hf))
  · exact hwaiters
  · simpa [hwaiters] using h.closed_nodup
  · rw [hhandled]; simpa [hwaiters] using h.closed_iff
  · exact h.closed_written
  · exact h.failed_stopped
  · rw [hhandled]; exact hclosing

/-- Those who wait may be released once everything is written, or the client is stopped. -/
theorem releaseWaiters (h : w.Settled)
    (hwritten : w.stopped = false → ∀ i < w.taken, ∀ kind, packetOf w.accepted i = some kind →
      .control i kind ∈ w.wire ∨ .control i kind ∈ w.dropped) : w.releaseWaiters.Settled where
  numbered := h.numbered
  queue_sorted := h.queue_sorted
  queue_bound := h.queue_bound
  output := h.output
  closed_nodup := by simpa [ConnWriter.releaseWaiters] using h.closed_nodup
  closed_iff j := by simpa [ConnWriter.releaseWaiters, taken] using h.closed_iff j
  closed_written := by
    intro hs j hj i hi kind hpk
    have hlt := ((h.closed_iff j).mp hj).1
    exact hwritten hs i (by omega) kind hpk
  failed_stopped := h.failed_stopped

theorem written (h : w.Settled) (hw : w.Whole) : { w with wire := w.out, buf := [] }.Settled := by
  have hout : out { w with wire := w.out, buf := [] } = w.out := by simp [out]
  refine ⟨h.numbered, h.queue_sorted, h.queue_bound, ?_, h.closed_nodup, h.closed_iff, ?_,
    h.failed_stopped⟩
  · rw [hout]; exact h.output
  · intro hs j hj i hi kind hpk
    have hlt := ((h.closed_iff j).mp (mem_append_left _ hj)).1
    have hnf : w.failed = false := by
      by_contra hf
      exact Bool.false_ne_true (hs.symm.trans (h.failed_stopped (by simpa using hf)))
    exact (hw hnf).packets i (by omega) kind hpk

theorem fail (h : w.Settled) {part rest : List Sent} (hpart : part <+: w.out) :
    { w with wire := part, buf := rest, failed := true, stopped := true }.Settled where
  numbered := h.numbered
  queue_sorted := h.queue_sorted
  queue_bound := h.queue_bound
  output := h.output.of_isPrefix (by simpa [out] using hpart)
  closed_nodup := h.closed_nodup
  closed_iff := h.closed_iff
  closed_written hs := by simp at hs
  failed_stopped _ := rfl

end Settled

/-- A flush writes what is encoded, or fails with part of it written; then it releases those who
wait. -/
theorem flush_eq (w : ConnWriter) (fails : Option ℕ) :
    w.flush fails = { w with wire := w.out, buf := [] }.releaseWaiters ∨
      ∃ part, part <+: w.out ∧ w.flush fails = { w with
        wire := part
        buf := []
        failed := true
        stopped := true }.releaseWaiters := by
  unfold flush
  by_cases hc : (!w.buf.isEmpty && !w.failed) = true
  · obtain ⟨hb, hf⟩ : w.buf ≠ [] ∧ w.failed = false := by simpa using hc
    cases fails with
    | none => exact .inl (by simp [out, hf, hb])
    | some k =>
      refine .inr ⟨w.wire ++ w.buf.take k, ?_, by simp [hc]⟩
      simp only [out, hf, Bool.false_eq_true, if_false]
      exact (prefix_append_right_inj _).mpr (List.take_prefix _ _)
  · left
    have hout : w.out = w.wire := by
      rcases Bool.eq_false_or_eq_true w.failed with hf | hf
      · simp [out, hf]
      · have : w.buf = [] := by simpa [hf] using hc
        simp [out, hf, this]
    simp [hc, hout]

theorem Whole.flush (hw : w.Whole) (fails : Option ℕ) : (w.flush fails).Whole := by
  rcases w.flush_eq fails with heq | ⟨part, -, heq⟩
  · rw [heq]
    intro hf
    have hout : out ({ w with wire := w.out, buf := [] }.releaseWaiters) = w.out := by
      simp [out, ConnWriter.releaseWaiters]
    rw [hout]
    exact hw hf
  · rw [heq]
    intro hf
    simp [ConnWriter.releaseWaiters] at hf

theorem Settled.flush (h : w.Settled) (hw : w.Whole) (fails : Option ℕ) : (w.flush fails).Settled := by
  rcases w.flush_eq fails with heq | ⟨part, hpart, heq⟩
  · rw [heq]
    refine (h.written hw).releaseWaiters fun hs i hi kind hpk => ?_
    have hnf : w.failed = false := by
      by_contra hf
      exact Bool.false_ne_true (hs.symm.trans (h.failed_stopped (by simpa using hf)))
    exact (hw hnf).packets i hi kind hpk
  · rw [heq]
    exact (h.fail hpart).releaseWaiters fun hs => by simp at hs

@[simp] theorem flush_waiters (w : ConnWriter) (fails : Option ℕ) : (w.flush fails).waiters = [] := rfl

/-- A flush leaves the queues and the accepted items alone, and a failed connection failed. -/
theorem flush_frame (w : ConnWriter) (fails : Option ℕ) :
    (w.flush fails).accepted = w.accepted ∧ (w.flush fails).control = w.control ∧
      (w.failed = true → (w.flush fails).failed = true) := by
  rcases w.flush_eq fails with heq | ⟨part, -, heq⟩ <;>
    simp [heq, ConnWriter.releaseWaiters]

/-- The packet of a control item is encoded; or it is dropped, with at most a deferred message in
its place or at the cost of the connection. -/
theorem encodeTaken_control (w : ConnWriter) (e : Encoding) (id : ℕ) {it : WriteItem}
    {kind : PacketKind} (hpk : it.pk = some kind) : w.encodeTaken e (.control id it) = { w with
        buf := w.buf ++ [.control id kind]
        connackSent := w.connackSent || kind = .connack } ∨
      ∃ extra fatal, (extra = [] ∨ extra = [.claimed]) ∧
        w.encodeTaken e (.control id it) = { w with
          buf := w.buf ++ extra
          dropped := w.dropped ++ [.control id kind]
          failed := w.failed || fatal
          stopped := w.stopped || fatal } := by
  cases e with
  | encoded => exact .inl (by simp [encodeTaken, hpk, encode])
  | skipped => exact .inr ⟨[], false, .inl rfl, by simp [encodeTaken, hpk, encode]⟩
  | replaced =>
    by_cases hk : kind = .publish
    · exact .inr ⟨[.claimed], false, .inr rfl, by simp [encodeTaken, hpk, encode, hk]⟩
    · exact .inr ⟨[], false, .inl rfl, by simp [encodeTaken, hpk, encode, hk]⟩
  | fatal =>
    by_cases hk : kind = .publish
    · exact .inr ⟨[], false, .inl rfl, by simp [encodeTaken, hpk, encode, hk]⟩
    · exact .inr ⟨[], true, .inl rfl, by simp [encodeTaken, hpk, encode, hk]⟩

/-- A live publish is encoded; or it is dropped, with at most a deferred message in its place. -/
theorem encodeTaken_live (w : ConnWriter) (e : Encoding) (p after : ℕ) :
    { w.encodeTaken e (.live p after) with
        waiters := w.waiters ++ takesFlushed (.live p after) } = { w with buf := w.buf ++ [.live p after] } ∨
      ∃ extra, (extra = [] ∨ extra = [.claimed]) ∧
        { w.encodeTaken e (.live p after) with waiters := w.waiters ++ takesFlushed (.live p after) } = { w with
            buf := w.buf ++ extra
            dropped := w.dropped ++ [.live p after] } := by
  cases e with
  | encoded => exact .inl (by simp [encodeTaken, encode, takesFlushed])
  | skipped | fatal => exact .inr ⟨_, .inl rfl, by simp [encodeTaken, encode, takesFlushed]⟩
  | replaced => exact .inr ⟨_, .inr rfl, by simp [encodeTaken, encode, takesFlushed]⟩

/-- Encoding leaves the queues and the accepted items alone, and a failed connection failed. -/
theorem encodeTaken_frame (w : ConnWriter) (e : Encoding) (t : Taken) :
    (w.encodeTaken e t).accepted = w.accepted ∧ (w.encodeTaken e t).control = w.control ∧
      (w.encodeTaken e t).waiters = w.waiters ∧
      (w.failed = true → (w.encodeTaken e t).failed = true) := by
  cases t with
  | live p after =>
    cases e <;> simp [encodeTaken, encode]
  | control id it =>
    cases hpk : it.pk with
    | none => simp [encodeTaken, hpk]
    | some kind =>
      rcases w.encodeTaken_control e id hpk with heq | ⟨extra, fatal, -, heq⟩
      · simp [heq]
      · simp only [heq, true_and]
        exact fun hf => by simp [hf]

theorem wire_isPrefix_out (w : ConnWriter) : w.wire <+: w.out := by
  unfold out
  split
  · exact prefix_rfl
  · exact prefix_append _ _

namespace WellOrdered

variable {t : Taken} {n : ℕ}

theorem not_frozen (hplace : w.place = .handle t n) (hf : w.failed = false) : ¬w.Frozen := by
  simp [Frozen, hf, hplace, WriterAt.Idle]

theorem none_closes (h : w.WellOrdered) (hplace : w.place = .handle t n)
    (hf : w.failed = false) : ∀ j < w.handled, ¬Closes w.accepted j :=
  fun j hj hcloses => not_frozen hplace hf (h.closing j hj hcloses)

variable {it : WriteItem}

section

variable (h : w.WellOrdered)
include h

theorem settled_control {id : ℕ} (hheld : w.place.heldControl = [(id, it)]) (hlive : w.place.heldLive = [])
    (hframe : { w' with
      connackSent := w.connackSent
      failed := w.failed
      stopped := w.stopped
      buf := w.buf
      dropped := w.dropped
      waiters := w.waiters
      closed := w.closed
      place := w.place } = w)
    (hdropped : w.dropped ⊆ w'.dropped) (hstopped : w'.stopped = false → w.stopped = false)
    (hfs : w'.failed = true → w'.stopped = true)
    (hwaiters : w'.closed ++ w'.waiters = w.closed ++ if it.flushed then [id] else [])
    (hclosed : w'.stopped = false → w'.closed = w.closed)
    (hout : Output w.accepted (w.handled + 1) w.outbound w.pushed w'.dropped w'.out) :
    w'.Settled ∧ ((w'.failed = false →
      Complete w.accepted (w.handled + 1) w.outbound w.pushed w'.dropped w'.connackSent w'.out) → w'.Whole) := by
  obtain ⟨hcontrol, hacc, houtbound, hpushed, hwire⟩ : w'.control = w.control ∧
      w'.accepted = w.accepted ∧ w'.outbound = w.outbound ∧ w'.pushed = w.pushed ∧
      w'.wire = w.wire := by
    rw [← hframe]
    simp
  have hpending : w.pending = (id, it) :: w.control := by simp [pending, hheld]
  have hqueue : w.liveQueue = w.outbound := by simp [liveQueue, hlive]
  have htaken : w'.taken = w.handled + 1 := by
    have := h.pending_length_le
    simp only [taken, handled, hacc, hcontrol, hpending, length_cons] at this ⊢
    omega
  obtain ⟨rfl, hitem⟩ := h.head hpending
  have hnotmem : w.handled ∉ w.closed := fun hmem =>
    absurd ((h.closed_iff _).mp hmem).1 (Nat.lt_irrefl _)
  refine ⟨?_, fun hc hf => by rw [hacc, htaken, houtbound, hpushed]; exact hc hf⟩
  constructor
  · rw [hcontrol, hacc]
    exact (suffix_cons _ _).trans (hpending ▸ h.numbered)
  · rw [houtbound, ← hqueue]; exact h.queue_sorted
  · rw [houtbound, hpushed, hacc, ← hqueue]; exact h.queue_bound
  · rw [hacc, htaken, houtbound, hpushed]; exact hout
  · rw [hwaiters]
    split
    · exact List.Nodup.append h.closed_nodup (nodup_singleton _) (by simpa using hnotmem)
    · simpa using h.closed_nodup
  · intro j
    rw [hwaiters, htaken, hacc, mem_append, h.closed_iff, Nat.lt_succ_iff_lt_or_eq]
    have hwaits : Waits w.accepted w.handled ↔ it.flushed = true := by simp [Waits, hitem]
    constructor
    · rintro (⟨hlt, hw⟩ | hmem)
      · exact ⟨.inl hlt, hw⟩
      · split at hmem
        next hfl =>
          obtain rfl := mem_singleton.mp hmem
          exact ⟨.inr rfl, hwaits.mpr hfl⟩
        next => simp at hmem
    · rintro ⟨hlt | rfl, hw⟩
      · exact .inl ⟨hlt, hw⟩
      · exact .inr (by simp [hwaits.mp hw])
  · intro hs j hj i hi kind hpk
    rw [hclosed hs] at hj
    rw [hacc] at hpk
    rw [hwire]
    exact (h.closed_written (hstopped hs) j hj i hi kind hpk).imp_right (hdropped ·)
  · exact hfs

theorem settled_live {p after : ℕ} (hheld : w.place.heldControl = [])
    (hlive : w.place.heldLive = [(p, after)])
    (hframe : { w' with buf := w.buf, dropped := w.dropped, place := w.place } = w)
    (hdropped : w.dropped ⊆ w'.dropped)
    (hout : Output w.accepted w.handled w.outbound w.pushed w'.dropped w'.out) :
    w'.Settled ∧ ((w.failed = false →
      Complete w.accepted w.handled w.outbound w.pushed w'.dropped w.connackSent w'.out) → w'.Whole) := by
  obtain ⟨hcontrol, hacc, houtbound, hpushed, hwire, hfailed, hstopped, hconnack,
      hwaiters, hclosed⟩ : w'.control = w.control ∧ w'.accepted = w.accepted ∧
      w'.outbound = w.outbound ∧ w'.pushed = w.pushed ∧ w'.wire = w.wire ∧
      w'.failed = w.failed ∧ w'.stopped = w.stopped ∧
      w'.connackSent = w.connackSent ∧ w'.waiters = w.waiters ∧ w'.closed = w.closed := by
    rw [← hframe]
    simp
  have hpending : w.pending = w.control := by simp [pending, hheld]
  have hqueue : w.liveQueue = (p, after) :: w.outbound := by simp [liveQueue, hlive]
  have htaken : w'.taken = w.handled := by simp only [taken, handled, hacc, hcontrol, hpending]
  refine ⟨?_, fun hc hf => ?_⟩
  rotate_left
  · rw [hacc, htaken, houtbound, hpushed, hconnack]
    exact hc (hfailed.symm.trans hf)
  constructor
  · rw [hcontrol, hacc, ← hpending]; exact h.numbered
  · rw [houtbound]; exact (pairwise_cons.mp (hqueue ▸ h.queue_sorted)).2
  · rw [houtbound, hpushed, hacc]
    exact fun x hx => h.queue_bound x (hqueue ▸ mem_cons_of_mem _ hx)
  · rw [hacc, htaken, houtbound, hpushed]; exact hout
  · rw [hclosed, hwaiters, h.waiters_nil]; simpa using h.closed_nodup
  · rw [hclosed, hwaiters, h.waiters_nil, htaken, hacc]; simpa using h.closed_iff
  · rw [hstopped, hclosed, hacc, hwire]
    exact fun hs j hj i hi kind hpk => (h.closed_written hs j hj i hi kind hpk).imp_right (hdropped ·)
  · rw [hfailed, hstopped]; exact h.failed_stopped

theorem encoded_control {id : ℕ} (hplace : w.place = .handle (.control id it) n) (e : Encoding) :
    { w.encodeTaken e (.control id it) with waiters := w.waiters ++ takesFlushed (.control id it) }.Settled ∧
    { w.encodeTaken e (.control id it) with waiters := w.waiters ++ takesFlushed (.control id it) }.Whole := by
  have hheld : w.place.heldControl = [(id, it)] := by simp [hplace, WriterAt.heldControl]
  have hlive : w.place.heldLive = [] := by simp [hplace, WriterAt.heldLive]
  have hqueue : w.liveQueue = w.outbound := by simp [liveQueue, hlive]
  obtain ⟨rfl, hitem⟩ := h.head (show w.pending = (id, it) :: w.control by simp [pending, hheld])
  have hpacket : packetOf w.accepted w.handled = it.pk := by simp [packetOf, hitem]
  have hout := h.output
  rw [hqueue] at hout
  have hskip : ∀ dropped', w.dropped ⊆ dropped' →
      Output w.accepted (w.handled + 1) w.outbound w.pushed dropped' w.out :=
    fun _ hd => hout.skip (Nat.le_succ _) (List.Subset.refl _) hd
  have hcomplete := fun hf => hqueue ▸ h.complete (not_frozen hplace hf)
  have hwaiters : w.closed ++ (w.waiters ++ takesFlushed (.control w.handled it)) =
      w.closed ++ if it.flushed then [w.handled] else [] := by simp [h.waiters_nil, takesFlushed]
  cases hpk : it.pk with
  | none =>
    have heq : w.encodeTaken e (.control w.handled it) = w := by simp [encodeTaken, hpk]
    rw [heq]
    refine And.imp_right (fun hw => hw ?_) (h.settled_control hheld hlive rfl
      (List.Subset.refl _) (fun hs => hs) h.failed_stopped hwaiters (fun _ => rfl)
      (hskip _ (List.Subset.refl _)))
    intro hf
    exact (hcomplete hf).handled (List.Subset.refl _) (List.Subset.refl _)
      (fun kind hk => by simp [hpacket, hpk] at hk) .inl
  | some kind =>
    rcases w.encodeTaken_control e w.handled hpk with heq | ⟨extra, fatal, hextra, heq⟩
    · rw [heq]
      refine And.imp_right (fun hw => hw ?_) (h.settled_control hheld hlive rfl
        (List.Subset.refl _) (fun hs => hs) h.failed_stopped hwaiters (fun _ => rfl) ?_)
      · rcases Bool.eq_false_or_eq_true w.failed with hf | hf
        · simpa [out, hf] using hskip _ (List.Subset.refl _)
        · simpa [out, hf] using hout.control (h.none_closes hplace hf) (hpacket.trans hpk)
      · intro hf
        refine (hcomplete hf).handled ?_ (List.Subset.refl _) ?_ ?_
        · simp [out, show w.failed = false from hf]
        · intro kind' hk
          obtain rfl : kind = kind' := by simpa [hpacket, hpk] using hk
          exact .inl (by simp [out, show w.failed = false from hf])
        · simp only [Bool.or_eq_true, decide_eq_true_eq]
          exact Or.imp_right fun hk => by simp [out, show w.failed = false from hf, hk]
    · rw [heq]
      refine And.imp_right (fun hw => hw ?_) (h.settled_control hheld hlive rfl
        (subset_append_left _ _) ?_ ?_ hwaiters (fun _ => rfl) ?_)
      · simp only [Bool.or_eq_false_iff]
        exact And.left
      · simp only [Bool.or_eq_true]
        exact Or.imp_left h.failed_stopped
      · have hdrop := hskip _ (subset_append_left w.dropped [.control w.handled kind])
        rcases Bool.eq_false_or_eq_true w.failed with hf | hf
        · simpa [out, hf] using hdrop
        rcases Bool.eq_false_or_eq_true fatal with hfatal | hfatal
        · exact hdrop.of_isPrefix (by simp [out, hf, hfatal])
        rcases hextra with rfl | rfl
        · simpa [out, hf, hfatal] using hdrop
        · have hopen : ∀ j kind', .control j kind' ∈ w.out → ¬Closes w.accepted j :=
            fun j kind' hmem => h.none_closes hplace hf j (hout.control_lt j kind' hmem).1
          simpa [out, hf, hfatal] using hdrop.claimed hopen
      · intro hf
        obtain ⟨hf, hfatal⟩ : w.failed = false ∧ fatal = false := by simpa using hf
        refine (hcomplete hf).handled ?_ (subset_append_left _ _) (fun kind' hk => ?_) .inl
        · simp [out, hf, hfatal]
        · obtain rfl : kind = kind' := by simpa [hpacket, hpk] using hk
          exact .inr (by simp)

theorem encoded_live {p after : ℕ} (hplace : w.place = .handle (.live p after) n) (e : Encoding) :
    { w.encodeTaken e (.live p after) with waiters := w.waiters ++ takesFlushed (.live p after) }.Settled ∧
    { w.encodeTaken e (.live p after) with waiters := w.waiters ++ takesFlushed (.live p after) }.Whole := by
  have hheld : w.place.heldControl = [] := by simp [hplace, WriterAt.heldControl]
  have hlive : w.place.heldLive = [(p, after)] := by simp [hplace, WriterAt.heldLive]
  have hqueue : w.liveQueue = (p, after) :: w.outbound := by simp [liveQueue, hlive]
  have hsorted := (pairwise_cons.mp (hqueue ▸ h.queue_sorted)).1
  have hlt := (h.queue_bound (p, after) (by simp [hqueue])).1
  have hafter := h.chosen_le (p, after) (by simp [hplace, WriterAt.chosen])
  have hout := h.output
  rw [hqueue] at hout
  have hskip : ∀ dropped', w.dropped ⊆ dropped' → Output w.accepted w.handled w.outbound w.pushed dropped' w.out :=
    fun _ hd => hout.skip le_rfl (subset_cons_self _ _) hd
  have hcomplete := fun hf => hqueue ▸ h.complete (not_frozen hplace hf)
  rcases w.encodeTaken_live e p after with heq | ⟨extra, hextra, heq⟩
  · rw [heq]
    refine And.imp_right (fun hw => hw ?_) (h.settled_live hheld hlive rfl (List.Subset.refl _) ?_)
    · rcases Bool.eq_false_or_eq_true w.failed with hf | hf
      · simpa [out, hf] using hskip _ (List.Subset.refl _)
      · have hnext := hout.live hsorted hlt hafter (h.none_closes hplace hf) (hcomplete hf)
          (h.greeted (by simp [hlive]))
        simpa [out, hf] using hnext
    · intro hf
      exact (hcomplete hf).live (by simp [out, hf]) (List.Subset.refl _) (.inl (by simp [out, hf]))
  · rw [heq]
    refine And.imp_right (fun hw => hw ?_) (h.settled_live hheld hlive rfl (subset_append_left _ _) ?_)
    · have hdrop := hskip _ (subset_append_left w.dropped [.live p after])
      rcases Bool.eq_false_or_eq_true w.failed with hf | hf
      · simpa [out, hf] using hdrop
      rcases hextra with rfl | rfl
      · simpa [out, hf] using hdrop
      · have hopen : ∀ j kind, .control j kind ∈ w.out → ¬Closes w.accepted j :=
          fun j kind hmem => h.none_closes hplace hf j (hout.control_lt j kind hmem).1
        simpa [out, hf] using hdrop.claimed hopen
    · intro hf
      exact (hcomplete hf).live (by simp [out, hf]) (subset_append_left _ _) (.inr (by simp))

theorem encoded (hplace : w.place = .handle t n) (e : Encoding) :
    { w.encodeTaken e t with waiters := w.waiters ++ takesFlushed t }.Settled ∧
      { w.encodeTaken e t with waiters := w.waiters ++ takesFlushed t }.Whole := by
  cases t with
  | control id it => exact h.encoded_control hplace e
  | live p after => exact h.encoded_live hplace e

theorem none_closes_taken
    (hplace : w.place = .handle t n) (hf : w.failed = false) (ht : takesClose t = false) :
    ∀ j < w.taken, ¬Closes w.accepted j := by
  intro j hj hcloses
  by_cases hlt : j < w.handled
  · exact h.none_closes hplace hf j hlt hcloses
  cases t with
  | live p after =>
    have : w.pending = w.control := by simp [pending, hplace, WriterAt.heldControl]
    simp only [taken, handled, this] at hj hlt
    omega
  | control id it =>
    have hpending : w.pending = (id, it) :: w.control := by
      simp [pending, hplace, WriterAt.heldControl]
    have hlen := h.pending_length_le
    have hjeq : j = w.handled := by
      simp only [taken, handled, hpending, length_cons] at hj hlt hlen ⊢
      omega
    obtain ⟨it', hit', hclose⟩ := hcloses
    obtain rfl : it' = it := by
      rw [hjeq, (h.head hpending).2] at hit'
      exact (Option.some.inj hit').symm
    simp [takesClose, hclose] at ht

theorem handleItem (hplace : w.place = .handle t n) (e : Encoding) (full : Bool) (fails : Option ℕ) :
    (w.handleItem t n e full fails).WellOrdered := by
  obtain ⟨hs, hw⟩ := h.encoded hplace e
  have hframe := w.encodeTaken_frame e t
  unfold ConnWriter.handleItem
  set w₂ : ConnWriter := { w.encodeTaken e t with waiters := w.waiters ++ takesFlushed t } with hw₂
  have hwaiters : (w.encodeTaken e t).waiters = w.waiters := hframe.2.2.1
  simp only [hwaiters, ← hw₂]
  have hflush := hs.flush hw fails
  split
  · exact (hflush.fail (w₂.flush fails).wire_isPrefix_out).wellOrdered .select rfl rfl rfl rfl
      (.inr (.inl rfl)) fun _ _ _ => .inl rfl
  next ht =>
    split
    next hf =>
      exact (hs.releaseWaiters fun hst => by simp [hs.failed_stopped hf] at hst).wellOrdered
        .select rfl rfl rfl rfl (.inr (.inl hf)) fun _ _ _ => .inl hf
    next hf =>
      have hnf : w.failed = false := Bool.eq_false_iff.mpr fun hwf => hf (hframe.2.2.2 hwf)
      have hclosing : ∀ j < w₂.taken, ¬Closes w₂.accepted j := by
        have := h.none_closes_taken hplace hnf (by simpa using ht)
        simpa [hw₂, taken, hframe.1, hframe.2.1] using this
      split
      · have hfl := w₂.flush_frame fails
        refine hflush.wellOrdered _ ?_ ?_ ?_ rfl (.inl (hw.flush fails)) ?_
        · split <;> rfl
        · split <;> rfl
        · split <;> rfl
        · simp only [taken, hfl.1, hfl.2.1]
          exact fun j hj hc => absurd hc (hclosing j hj)
      next hflushed =>
        have hnone : takesFlushed t = [] := by
          by_contra hne
          simp [hne] at hflushed
        refine hs.wellOrdered _ ?_ ?_ ?_ ?_ (.inl hw) fun j hj hc => absurd hc (hclosing j hj)
        · split <;> rfl
        · split <;> rfl
        · split <;> rfl
        · simp [hw₂, hnone, h.waiters_nil]

theorem discard (hplace : w.place = .start t) (hstopped : w.stopped = true) : (w.discard t).WellOrdered := by
  unfold ConnWriter.discard
  have hfrozen : ∀ v : ConnWriter, v.stopped = w.stopped → Frozen { v with place := .select } :=
    fun v hv => .inr ⟨hv.trans hstopped, trivial⟩
  cases t with
  | control id it =>
    have hheld : w.place.heldControl = [(id, it)] := by simp [hplace, WriterAt.heldControl]
    have hlive : w.place.heldLive = [] := by simp [hplace, WriterAt.heldLive]
    have hqueue : w.liveQueue = w.outbound := by simp [liveQueue, hlive]
    have hout := h.output
    rw [hqueue] at hout
    have hs : Settled { w with closed := w.closed ++ takesFlushed (.control id it) } :=
      And.left (h.settled_control hheld hlive rfl (List.Subset.refl _) (fun hs => hs)
        h.failed_stopped (by simp [h.waiters_nil, takesFlushed])
        (fun hs => by simp [hstopped] at hs)
        (hout.skip (Nat.le_succ _) (List.Subset.refl _) (List.Subset.refl _)))
    exact hs.wellOrdered .select rfl rfl rfl h.waiters_nil (.inr (hfrozen _ rfl))
      fun _ _ _ => hfrozen _ rfl
  | live p after =>
    have hheld : w.place.heldControl = [] := by simp [hplace, WriterAt.heldControl]
    have hlive : w.place.heldLive = [(p, after)] := by simp [hplace, WriterAt.heldLive]
    have hqueue : w.liveQueue = (p, after) :: w.outbound := by simp [liveQueue, hlive]
    have hout := h.output
    rw [hqueue] at hout
    have hs : w.Settled := (h.settled_live hheld hlive rfl (List.Subset.refl _)
      (hout.skip le_rfl (subset_cons_self _ _) (List.Subset.refl _))).1
    simpa [takesFlushed] using hs.wellOrdered .select rfl rfl rfl h.waiters_nil
      (.inr (hfrozen _ rfl)) fun _ _ _ => hfrozen _ rfl

theorem settled (hheld : w.place.heldControl = [])
    (hlive : w.place.heldLive = []) : w.taken = w.handled ∧ w.Settled := by
  have hpending : w.pending = w.control := by simp [pending, hheld]
  have hqueue : w.liveQueue = w.outbound := by simp [liveQueue, hlive]
  have htaken : w.taken = w.handled := by simp only [taken, handled, hpending]
  refine ⟨htaken, hpending ▸ h.numbered, hqueue ▸ h.queue_sorted, hqueue ▸ h.queue_bound, ?_,
    ?_, ?_, h.closed_written, h.failed_stopped⟩
  · rw [htaken, ← hqueue]; exact h.output
  · simpa [h.waiters_nil] using h.closed_nodup
  · rw [htaken]; simpa [h.waiters_nil] using h.closed_iff

theorem finish (hplace : w.place = .finish) (fails : Option ℕ) :
    { w.flush fails with place := .select }.WellOrdered := by
  obtain ⟨htaken, hs⟩ := h.settled (by simp [hplace, WriterAt.heldControl])
    (by simp [hplace, WriterAt.heldLive])
  have hfrozen : w.Frozen → w.failed = true := by simp [Frozen, hplace, WriterAt.Idle]
  have hw : w.Whole := by
    intro hf
    rw [htaken, show w.outbound = w.liveQueue by simp [liveQueue, hplace, WriterAt.heldLive]]
    exact h.complete fun hfr => by simp [hfrozen hfr] at hf
  have hframe := w.flush_frame fails
  refine (hs.flush hw fails).wellOrdered .select rfl rfl rfl rfl (.inl (hw.flush fails)) ?_
  simp only [taken, hframe.1, hframe.2.1]
  intro j hj hcloses
  exact .inl (hframe.2.2 (hfrozen (h.closing j (htaken ▸ hj) hcloses)))

theorem got_control {id : ℕ} {rest : List (ℕ × WriteItem)}
    {outbound' : List (ℕ × ℕ)} (hheld : w.place.heldControl = [])
    (hcontrol : w.control = (id, it) :: rest) (hlive : outbound' = w.liveQueue)
    (batch : Option ℕ) (hbatch : batch ≠ none → ¬w.place.Idle) :
    ({ w with control := rest, outbound := outbound' }.got (.control id it) batch).WellOrdered := by
  cases batch with
  | none =>
    refine h.move ?_ ?_ rfl (by simp [got, WriterAt.chosen]) (by simp [got, WriterAt.heldLive]) ?_
    · rw [pending, pending, hheld, hcontrol]; rfl
    · rw [← hlive]; simp [liveQueue, got, WriterAt.heldLive]
    · simp [got, WriterAt.Idle]
  | some n =>
    refine h.move ?_ ?_ rfl (by simp [got, WriterAt.chosen]) (by simp [got, WriterAt.heldLive]) ?_
    · rw [pending, pending, hheld, hcontrol]; rfl
    · rw [← hlive]; simp [liveQueue, got, WriterAt.heldLive]
    · exact fun _ hi => absurd hi (hbatch (by simp))

/-- `next` comes back with nothing. -/
theorem nothing (batch : Option ℕ) (hplace : w.place = .poll batch) : (w.nothing batch).WellOrdered := by
  cases batch with
  | none =>
    refine h.move ?_ ?_ rfl (by simp [ConnWriter.nothing, WriterAt.chosen])
      (by simp [ConnWriter.nothing, WriterAt.heldLive]) ?_
    · simp [pending, ConnWriter.nothing, WriterAt.heldControl, hplace]
    · simp [liveQueue, ConnWriter.nothing, WriterAt.heldLive, hplace]
    · simp [ConnWriter.nothing, WriterAt.Idle]
  | some n =>
    refine h.move ?_ ?_ rfl (by simp [ConnWriter.nothing, WriterAt.chosen])
      (by simp [ConnWriter.nothing, WriterAt.heldLive]) ?_
    · simp [pending, ConnWriter.nothing, WriterAt.heldControl, hplace]
    · simp [liveQueue, ConnWriter.nothing, WriterAt.heldLive, hplace]
    · simp [hplace, WriterAt.Idle]

theorem advance (b : Branch) (e : Encoding) (full : Bool)
    (fails : Option ℕ) : (w.advance b e full fails).WellOrdered := by
  unfold ConnWriter.advance
  split
  next hplace =>
    have hheld : w.place.heldControl = [] := by simp [hplace, WriterAt.heldControl]
    have hlive : w.place.heldLive = [] := by simp [hplace, WriterAt.heldLive]
    split
    · split
      · exact h
      next id it rest hcontrol =>
        exact h.got_control hheld hcontrol (by simp [liveQueue, hlive]) none (by simp)
    · split
      · refine h.move ?_ ?_ rfl (by simp [WriterAt.chosen]) (by simp [WriterAt.heldLive]) ?_
        · simp [pending, hplace, WriterAt.heldControl]
        · simp [liveQueue, hplace, WriterAt.heldLive]
        · simp [WriterAt.Idle]
      · exact h
    · split
      · refine h.move ?_ ?_ ?_ (by simp [WriterAt.chosen]) (by simp [WriterAt.heldLive]) ?_
        · simp [pending, hplace, WriterAt.heldControl, ConnWriter.releaseWaiters]
        · simp [liveQueue, hplace, WriterAt.heldLive, ConnWriter.releaseWaiters]
        · cases w
          have := h.waiters_nil
          simp_all [ConnWriter.releaseWaiters]
        · simp [WriterAt.Idle]
      · exact h
  next batch hplace =>
    have hheld : w.place.heldControl = [] := by simp [hplace, WriterAt.heldControl]
    have hlive : w.place.heldLive = [] := by simp [hplace, WriterAt.heldLive]
    split
    next id it rest hcontrol =>
      refine h.got_control hheld hcontrol (by simp [liveQueue, hlive]) batch ?_
      cases batch <;> simp [hplace, WriterAt.Idle]
    next hcontrol =>
      split
      · exact h.nothing batch hplace
      next hconnack =>
        split
        · exact h.nothing batch hplace
        next id after rest houtbound =>
          refine h.move ?_ ?_ rfl (by simp [WriterAt.chosen])
            (fun _ => by simpa using hconnack) ?_
          · simp [pending, hplace, WriterAt.heldControl]
          · simp [liveQueue, hplace, WriterAt.heldLive, houtbound]
          · cases batch <;> simp [hplace, WriterAt.Idle]
  next batch id after hplace =>
    have hheld : w.place.heldControl = [] := by simp [hplace, WriterAt.heldControl]
    have hlive : w.place.heldLive = [(id, after)] := by simp [hplace, WriterAt.heldLive]
    split
    next cid it rest hcontrol =>
      refine h.got_control hheld hcontrol (by simp [liveQueue, hlive]) batch ?_
      cases batch <;> simp [hplace, WriterAt.Idle]
    next hcontrol =>
      have hhandled : w.handled = w.accepted.length := by simp [handled, pending, hheld, hcontrol]
      have hbound := (h.queue_bound (id, after) (by simp [liveQueue, hlive])).2
      have hgreeted := h.greeted (by simp [hlive])
      cases batch with
      | none =>
        refine h.move ?_ ?_ rfl ?_ (fun _ => hgreeted) (by simp [got, WriterAt.Idle])
        · simp [pending, hplace, WriterAt.heldControl, got]
        · simp [liveQueue, hplace, WriterAt.heldLive, got]
        · simpa [got, WriterAt.chosen, hhandled] using hbound
      | some n =>
        refine h.move ?_ ?_ rfl ?_ (fun _ => hgreeted) (by simp [hplace, WriterAt.Idle])
        · simp [pending, hplace, WriterAt.heldControl, got]
        · simp [liveQueue, hplace, WriterAt.heldLive, got]
        · simpa [got, WriterAt.chosen, hhandled] using hbound
  next t hplace =>
    split
    next hs =>
      refine h.discard hplace ?_
      rcases Bool.or_eq_true_iff.mp hs with hs | hf
      · exact hs
      · exact h.failed_stopped hf
    next hs =>
      have hns : w.stopped = false ∧ w.failed = false := by simpa using hs
      refine h.move ?_ ?_ rfl ?_ ?_ (by simp [hns.1])
      · cases t <;> simp [pending, hplace, WriterAt.heldControl]
      · cases t <;> simp [liveQueue, hplace, WriterAt.heldLive]
      · cases t with
        | control id it => simp [WriterAt.chosen]
        | live id after => simpa [hplace, WriterAt.chosen] using h.chosen_le
      · cases t with
        | control id it => simp [WriterAt.heldLive]
        | live id after => simpa [hplace, WriterAt.heldLive] using h.greeted
  next t n hplace => exact h.handleItem hplace e full fails
  next hplace => exact h.finish hplace fails
  · exact h

theorem step (ev : Event) : (w.step ev).WellOrdered := by
  cases ev with
  | enqueue it => exact h.enqueueControl it
  | push => exact h.push
  | stop => exact h.stop
  | writer b e full fails => exact h.advance b e full fails

end

end WellOrdered

theorem run_wellOrdered (outboundMax : ℕ) (evs : List Event) : (run step (new outboundMax) evs).WellOrdered :=
  run_always (P := WellOrdered) (fun _ ev h => h.step ev) (new_wellOrdered outboundMax) evs

end ConnWriter

end MonsterMQ.Mqtt
