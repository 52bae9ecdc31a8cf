import MonsterMQ.MqttWriterRuns

/-!
# What a connection's writer guarantees

The order of the packets on the wire and the release of those who wait for a flush, in every
interleaving of callers, publishers and the writer.
-/

namespace MonsterMQ.Mqtt

open StateRuns List

namespace Sent

def controlId : Sent → Option ℕ
  | .control id _ => some id
  | _ => none

def liveId : Sent → Option ℕ
  | .live id _ => some id
  | _ => none

end Sent

def Taken.packet : Taken → Option Sent
  | .live id after => some (.live id after)
  | .control id it => it.pk.map (.control id)

namespace ConnWriter

variable {w : ConnWriter}

theorem flush_of_failed (hf : w.failed = true) (fails : Option ℕ) :
    (w.flush fails).failed = true ∧ (w.flush fails).wire = w.wire := by
  simp [flush, hf, releaseWaiters]

theorem encodeTaken_wire (w : ConnWriter) (e : Encoding) (t : Taken) : (w.encodeTaken e t).wire = w.wire := by
  cases t with
  | live p after => cases e <;> simp [encodeTaken, encode]
  | control id it =>
    cases hpk : it.pk with
    | none => simp [encodeTaken, hpk]
    | some kind =>
      rcases w.encodeTaken_control e id hpk with heq | ⟨extra, fatal, -, heq⟩ <;> simp [heq]

private theorem handleItem_of_failed (hf : w.failed = true) (t : Taken) (n : ℕ) (e : Encoding) (full : Bool)
    (fails : Option ℕ) : (w.handleItem t n e full fails).failed = true ∧
      (w.handleItem t n e full fails).wire = w.wire := by
  have hf' := (w.encodeTaken_frame e t).2.2.2 hf
  have hwire := w.encodeTaken_wire e t
  unfold handleItem
  split
  · have hflush := flush_of_failed
      (w := { w.encodeTaken e t with waiters := (w.encodeTaken e t).waiters ++ takesFlushed t }) hf' fails
    exact ⟨rfl, hflush.2.trans hwire⟩
  · simp [hf', releaseWaiters, hwire]

private theorem advance_of_failed (hf : w.failed = true) (b : Branch) (e : Encoding) (full : Bool)
    (fails : Option ℕ) :
    (w.advance b e full fails).failed = true ∧ (w.advance b e full fails).wire = w.wire := by
  unfold advance
  split
  · split <;> split <;> exact ⟨hf, rfl⟩
  next batch _ =>
    split
    · cases batch <;> exact ⟨hf, rfl⟩
    · split
      · cases batch <;> exact ⟨hf, rfl⟩
      · split
        · cases batch <;> exact ⟨hf, rfl⟩
        · exact ⟨hf, rfl⟩
  next batch _ _ _ => split <;> cases batch <;> exact ⟨hf, rfl⟩
  · split <;> exact ⟨hf, rfl⟩
  next t n _ => exact handleItem_of_failed hf t n e full fails
  · exact flush_of_failed hf fails
  · exact ⟨hf, rfl⟩

theorem advance_of_idle (hs : w.stopped = true) (hi : w.place.Idle) (b : Branch) (e : Encoding)
    (full : Bool) (fails : Option ℕ) :
    (w.advance b e full fails).stopped = true ∧ (w.advance b e full fails).place.Idle ∧
      (w.advance b e full fails).wire = w.wire := by
  unfold advance
  split
  · split <;> split <;> exact ⟨hs, by first | exact hi | trivial, rfl⟩
  next batch hplace =>
    rw [hplace] at hi
    cases batch with
    | some n => exact hi.elim
    | none =>
      split
      · exact ⟨hs, trivial, rfl⟩
      · split
        · exact ⟨hs, trivial, rfl⟩
        · split <;> exact ⟨hs, trivial, rfl⟩
  next batch id after hplace =>
    rw [hplace] at hi
    cases batch with
    | some n => exact hi.elim
    | none => split <;> exact ⟨hs, trivial, rfl⟩
  · simp [hs, discard, WriterAt.Idle]
  next t n hplace =>
    rw [hplace] at hi
    exact hi.elim
  next hplace =>
    rw [hplace] at hi
    exact hi.elim
  · exact ⟨hs, hi, rfl⟩

theorem Frozen.step (h : w.Frozen) (ev : Event) : (w.step ev).Frozen ∧ (w.step ev).wire = w.wire := by
  cases ev with
  | enqueue it =>
    simp only [ConnWriter.step, enqueueControl]
    split <;> exact ⟨h, rfl⟩
  | push =>
    simp only [ConnWriter.step, ConnWriter.push]
    split <;> exact ⟨h, rfl⟩
  | stop => exact ⟨h.imp id fun ⟨_, hi⟩ => ⟨rfl, hi⟩, rfl⟩
  | writer b e full fails =>
    rcases h with hf | ⟨hs, hi⟩
    · have := advance_of_failed hf b e full fails
      exact ⟨.inl this.1, this.2⟩
    · have := advance_of_idle hs hi b e full fails
      exact ⟨.inr ⟨this.1, this.2.1⟩, this.2.2⟩

theorem Frozen.run (h : w.Frozen) (evs : List Event) :
    (StateRuns.run ConnWriter.step w evs).wire = w.wire := by
  have hkept := run_always (P := fun v : ConnWriter => v.Frozen ∧ v.wire = w.wire)
    (fun _ ev hv => ⟨(hv.1.step ev).1, (hv.1.step ev).2.trans hv.2⟩) ⟨h, rfl⟩ evs
  exact hkept.2

/-- How much the writer has left to do, with the control queue and the live publishes it can
see. -/
def work (w : ConnWriter) : ℕ :=
  5 * w.control.length + 5 * w.outbound.length +
    match w.place with
    | .select | .returned => 0
    | .finish => 1
    | .poll _ => 2
    | .handle _ _ => 3
    | .start _ => 4
    | .repoll _ _ _ => 6

def Caught (w : ConnWriter) : Prop := w.place = .select ∧ w.control = []

/-- A step of the writer that takes from the control queue when it can. -/
def TakesControl : Event → Prop
  | .writer .control _ _ _ => True
  | _ => False

theorem flush_queues (w : ConnWriter) (fails : Option ℕ) :
    (w.flush fails).control = w.control ∧ (w.flush fails).outbound = w.outbound ∧
      (w.flush fails).accepted = w.accepted := by
  rcases w.flush_eq fails with heq | ⟨part, -, heq⟩ <;> simp [heq, releaseWaiters]

private theorem encodeTaken_outbound (w : ConnWriter) (e : Encoding) (t : Taken) :
    (w.encodeTaken e t).outbound = w.outbound := by
  cases t with
  | live p after => cases e <;> simp [encodeTaken, encode]
  | control id it =>
    cases hpk : it.pk with
    | none => simp [encodeTaken, hpk]
    | some kind =>
      rcases w.encodeTaken_control e id hpk with heq | ⟨extra, fatal, -, heq⟩ <;> simp [heq]

theorem handleItem_queues (w : ConnWriter) (t : Taken) (n : ℕ) (e : Encoding) (full : Bool)
    (fails : Option ℕ) : (w.handleItem t n e full fails).control = w.control ∧
      (w.handleItem t n e full fails).outbound = w.outbound ∧
      (w.handleItem t n e full fails).accepted = w.accepted ∧
      ((w.handleItem t n e full fails).place = .select ∨
        (w.handleItem t n e full fails).place = .finish ∨
        (w.handleItem t n e full fails).place = .poll (some n)) := by
  have hframe := w.encodeTaken_frame e t
  have houtbound := w.encodeTaken_outbound e t
  have hflush := flush_queues
    { w.encodeTaken e t with waiters := (w.encodeTaken e t).waiters ++ takesFlushed t } fails
  unfold handleItem
  dsimp only
  split
  · exact ⟨hflush.1.trans hframe.2.1, hflush.2.1.trans houtbound, hflush.2.2.trans hframe.1, .inl rfl⟩
  · split
    · exact ⟨hframe.2.1, houtbound, hframe.1, .inl rfl⟩
    · have hplace : ∀ v : ConnWriter, (v.afterPacket n).place = .finish ∨
          (v.afterPacket n).place = .poll (some n) := by
        intro v
        unfold afterPacket
        split
        · exact .inl rfl
        · exact .inr rfl
      split
      · exact ⟨hflush.1.trans hframe.2.1, hflush.2.1.trans houtbound, hflush.2.2.trans hframe.1,
          .inr (hplace _)⟩
      · exact ⟨hframe.2.1, houtbound, hframe.1, .inr (hplace _)⟩

theorem advance_work (hplace : w.place ≠ .returned) (hc : ¬w.Caught) (e : Encoding) (full : Bool)
    (fails : Option ℕ) : (w.advance .control e full fails).work < w.work ∧
      (w.advance .control e full fails).place ≠ .returned ∧
      (w.advance .control e full fails).accepted = w.accepted := by
  unfold advance
  split
  next hp =>
    simp only
    split
    next hcontrol => exact absurd ⟨hp, hcontrol⟩ hc
    next id it rest hcontrol =>
      refine ⟨?_, by simp, rfl⟩
      simp [work, hp, hcontrol]
      omega
  next batch hp =>
    split
    next id it rest hcontrol =>
      cases batch <;> refine ⟨?_, by simp [got], rfl⟩ <;> simp [work, got, hp, hcontrol] <;> omega
    next hcontrol =>
      split
      · cases batch <;> refine ⟨?_, by simp [nothing], rfl⟩ <;> simp [work, nothing, hp]
      · split
        · cases batch <;> refine ⟨?_, by simp [nothing], rfl⟩ <;> simp [work, nothing, hp]
        next id after rest houtbound =>
          refine ⟨?_, by simp, rfl⟩
          simp [work, hp, houtbound]
          omega
  next batch id after hp =>
    split
    next cid it rest hcontrol =>
      cases batch <;> refine ⟨?_, by simp [got], rfl⟩ <;> simp [work, got, hp, hcontrol] <;> omega
    next hcontrol =>
      cases batch <;> refine ⟨?_, by simp [got], rfl⟩ <;> simp [work, got, hp]
  next t hp =>
    split
    · refine ⟨?_, by simp [discard], rfl⟩
      simp [work, discard, hp]
    · refine ⟨?_, by simp, rfl⟩
      simp [work, hp]
  next t n hp =>
    obtain ⟨hcontrol, houtbound, hacc, hnext⟩ := w.handleItem_queues t n e full fails
    refine ⟨?_, ?_, hacc⟩
    · rcases hnext with hnext | hnext | hnext <;> simp [work, hnext, hp, hcontrol, houtbound]
    · rcases hnext with hnext | hnext | hnext <;> simp [hnext]
  next hp =>
    obtain ⟨hcontrol, houtbound, hacc⟩ := w.flush_queues fails
    refine ⟨?_, by simp, hacc⟩
    simp [work, hp, hcontrol, houtbound]
  next hp => exact absurd hp hplace

theorem TakesControl.eq {ev : Event} (h : TakesControl ev) :
    ∃ e full fails, ev = .writer .control e full fails := by
  cases ev with
  | writer b e full fails =>
    cases b with
    | control => exact ⟨e, full, fails, rfl⟩
    | outbound | done => exact h.elim
  | enqueue it | push | stop => exact h.elim

theorem Caught.run (hc : w.Caught) {evs : List Event} (htakes : ∀ ev ∈ evs, TakesControl ev) :
    StateRuns.run step w evs = w := by
  induction evs with
  | nil => rfl
  | cons ev evs ih =>
    obtain ⟨e, full, fails, rfl⟩ := (htakes ev mem_cons_self).eq
    have hstay : w.step (.writer .control e full fails) = w := by simp [step, advance, hc.1, hc.2]
    rw [run_cons, hstay]
    exact ih fun ev hev => htakes ev (mem_cons_of_mem _ hev)

theorem run_caught (hplace : w.place ≠ .returned) {evs : List Event}
    (htakes : ∀ ev ∈ evs, TakesControl ev) (hlen : w.work ≤ evs.length) :
    (run step w evs).Caught ∧ (run step w evs).accepted = w.accepted := by
  induction evs generalizing w with
  | nil =>
    obtain ⟨hlen, hrank⟩ := Nat.add_eq_zero_iff.mp (Nat.le_zero.mp hlen)
    have hcontrol : w.control = [] := length_eq_zero_iff.mp (by omega)
    have hselect : w.place = .select := by cases hp : w.place <;> simp_all
    exact ⟨⟨hselect, hcontrol⟩, rfl⟩
  | cons ev evs ih =>
    by_cases hc : w.Caught
    · rw [hc.run htakes]
      exact ⟨hc, rfl⟩
    obtain ⟨e, full, fails, rfl⟩ := (htakes ev mem_cons_self).eq
    obtain ⟨hless, hnext, hacc⟩ := advance_work hplace hc e full fails
    have hlen' : (w.advance .control e full fails).work ≤ evs.length := by
      simp only [length_cons] at hlen
      omega
    obtain ⟨hcaught, hacc'⟩ := ih hnext (fun ev hev => htakes ev (mem_cons_of_mem _ hev)) hlen'
    exact ⟨hcaught, hacc'.trans hacc⟩

theorem handled_of_select (hp : w.place = .select ∨ w.place = .returned) :
    w.handled = w.accepted.length - w.control.length := by
  rcases hp with hp | hp <;> simp [handled, pending, hp, WriterAt.heldControl]

/-- The writer is at the packet, and the encoder leaves it out. -/
def Drops (w : ConnWriter) (x : Sent) : Event → Prop
  | .writer _ e _ _ => e ≠ .encoded ∧ ∃ t n, w.place = .handle t n ∧ t.packet = some x
  | _ => False

private theorem encodeTaken_dropped (w : ConnWriter) (e : Encoding) (t : Taken) :
    (w.encodeTaken e t).dropped = w.dropped ++ if e = .encoded then [] else t.packet.toList := by
  cases t with
  | live p after => cases e <;> simp [encodeTaken, encode, Taken.packet]
  | control id it =>
    cases hpk : it.pk with
    | none => simp [encodeTaken, hpk, Taken.packet]
    | some kind => cases e <;> by_cases hk : kind = .publish <;> simp [encodeTaken, hpk, encode, Taken.packet, hk]

theorem flush_dropped (w : ConnWriter) (fails : Option ℕ) : (w.flush fails).dropped = w.dropped := by
  rcases w.flush_eq fails with heq | ⟨part, -, heq⟩ <;> simp [heq, releaseWaiters]

theorem handleItem_dropped (w : ConnWriter) (t : Taken) (n : ℕ) (e : Encoding) (full : Bool) (fails : Option ℕ) :
    (w.handleItem t n e full fails).dropped = (w.encodeTaken e t).dropped := by
  unfold handleItem
  dsimp only
  split
  · exact flush_dropped _ fails
  · split
    · rfl
    · split
      · exact flush_dropped _ fails
      · rfl

/-- Only the encoder drops a packet. -/
theorem dropped_step (w : ConnWriter) (ev : Event) {x : Sent} (hx : x ∈ (w.step ev).dropped) :
    x ∈ w.dropped ∨ w.Drops x ev := by
  cases ev with
  | enqueue it =>
    simp only [step, enqueueControl] at hx
    split at hx <;> exact .inl hx
  | push =>
    simp only [step, ConnWriter.push] at hx
    split at hx <;> exact .inl hx
  | stop => exact .inl hx
  | writer b e full fails =>
    simp only [step, advance] at hx
    split at hx
    · left
      revert hx
      split <;> split <;> exact id
    next batch _ =>
      left
      revert hx
      split
      · cases batch <;> exact id
      · split
        · cases batch <;> exact id
        · split
          · cases batch <;> exact id
          · exact id
    next batch _ _ _ =>
      left
      revert hx
      split <;> cases batch <;> exact id
    · left
      revert hx
      split <;> exact id
    next t n hplace =>
      rw [handleItem_dropped, encodeTaken_dropped] at hx
      refine (mem_append.mp hx).imp_right fun hx => ?_
      split at hx
      · cases hx
      next he => exact ⟨he, t, n, hplace, Option.mem_toList.mp hx⟩
    · exact .inl (flush_dropped w fails ▸ hx)
    · exact .inl hx

theorem dropped_run (outboundMax : ℕ) (evs : List Event) {x : Sent}
    (hx : x ∈ (run step (new outboundMax) evs).dropped) :
    ∃ before ev after, evs = before ++ ev :: after ∧ (run step (new outboundMax) before).Drops x ev :=
  (run_origin (I := fun _ => True) (P := fun w => x ∈ w.dropped) (C := fun w ev => w.Drops x ev)
    (fun _ _ _ _ => trivial)
    (fun w ev _ => dropped_step w ev) trivial (along_true _ evs) hx).resolve_left not_mem_nil
/-- What holds of the wire and of those who wait, in every state. -/
structure Guarantees (w : ConnWriter) : Prop where
  control_accepted : ∀ i kind, .control i kind ∈ w.wire → packetOf w.accepted i = some kind
  live_after_connack : ∀ before p after rest, w.wire = before ++ .live p after :: rest →
    ∃ i, .control i .connack ∈ before
  control_before_live : ∀ before p after rest, w.wire = before ++ .live p after :: rest →
    ∀ i < after, ∀ kind, packetOf w.accepted i = some kind →
      (.control i kind ∈ before ∨ .control i kind ∈ w.dropped) ∧ .control i kind ∉ rest
  live_before_live : ∀ before p after rest, w.wire = before ++ .live p after :: rest →
    ∀ q < p, ∃ n, .live q n ∈ before ∨ .live q n ∈ w.dropped
  control_in_order : (w.wire.filterMap Sent.controlId).Pairwise (· < ·)
  live_in_order : (w.wire.filterMap Sent.liveId).Pairwise (· < ·)
  nothing_after_close : ∀ before j kind rest, w.wire = before ++ .control j kind :: rest →
    Closes w.accepted j → rest = []
  closed_once : w.closed.Nodup
  closed_waits : ∀ j ∈ w.closed, Waits w.accepted j
  closed_written : ∀ j ∈ w.closed, w.stopped = true ∨ ∀ i ≤ j, ∀ kind,
    packetOf w.accepted i = some kind → .control i kind ∈ w.wire ∨ .control i kind ∈ w.dropped
  closed_taken : w.place = .select ∨ w.place = .returned →
    ∀ j < w.accepted.length - w.control.length, Waits w.accepted j → j ∈ w.closed

theorem WellOrdered.guarantees (h : w.WellOrdered) : w.Guarantees := by
  have hout := h.output.of_isPrefix w.wire_isPrefix_out
  constructor
  · exact fun i kind hmem => (hout.control_lt i kind hmem).2
  · exact fun before p after rest heq => (hout.preceded before p after rest heq).1
  · intro before p after rest heq i hi kind hpk
    refine ⟨(hout.preceded before p after rest heq).2.1 i hi kind hpk, fun hmem => ?_⟩
    have hpair := hout.ordered
    rw [heq, pairwise_append] at hpair
    have hle : after ≤ i := (pairwise_cons.mp hpair.2.1).1 _ hmem
    omega
  · exact fun before p after rest heq => (hout.preceded before p after rest heq).2.2
  · refine List.Pairwise.filterMap _ ?_ hout.ordered
    intro x y hxy i hi j hj
    cases x <;> cases y <;> simp_all [Sent.controlId, Before]
  · refine List.Pairwise.filterMap _ ?_ hout.ordered
    intro x y hxy i hi j hj
    cases x <;> cases y <;> simp_all [Sent.liveId, Before]
  · exact hout.last
  · exact h.closed_nodup
  · exact fun j hj => ((h.closed_iff j).mp hj).2
  · intro j hj
    rcases Bool.eq_false_or_eq_true w.stopped with hs | hs
    · exact .inl hs
    · exact .inr fun i hi kind hpk => h.closed_written hs j hj i hi kind hpk
  · intro hp j hj hw
    exact (h.closed_iff j).mpr ⟨by rw [handled_of_select hp]; exact hj, hw⟩

/-- In every interleaving the wire keeps its order, only the encoder drops a packet, once a closing item
has been dealt with nothing more is written, and a writer that has not returned and goes on with the control
queue releases everyone who waits. -/
theorem run_guarantees (outboundMax : ℕ) (evs : List Event) : (run step (new outboundMax) evs).Guarantees ∧
    (∀ x ∈ (run step (new outboundMax) evs).dropped, ∃ before ev after, evs = before ++ ev :: after ∧
      (run step (new outboundMax) before).Drops x ev) ∧
    (∀ j < (run step (new outboundMax) evs).handled,
      Closes (run step (new outboundMax) evs).accepted j →
      ∀ more, (run step (new outboundMax) (evs ++ more)).wire =
        (run step (new outboundMax) evs).wire) ∧
    ((run step (new outboundMax) evs).place ≠ .returned → ∃ enough, ∀ more,
      (∀ ev ∈ more, TakesControl ev) → enough ≤ more.length →
      ∀ j, Waits (run step (new outboundMax) evs).accepted j →
        j ∈ (run step (new outboundMax) (evs ++ more)).closed) := by
  have h := run_wellOrdered outboundMax evs
  refine ⟨h.guarantees, fun x hx => dropped_run outboundMax evs hx, fun j hj hcloses more => ?_,
    fun hp => ⟨(run step (new outboundMax) evs).work, fun more htakes hlen j hw => ?_⟩⟩
  · rw [run_append]
    exact (h.closing j hj hcloses).run more
  · have h' := run_wellOrdered outboundMax (evs ++ more)
    obtain ⟨hcaught, hacc⟩ := run_caught hp htakes hlen
    rw [← run_append] at hcaught hacc
    have hlt : j < (run step (new outboundMax) (evs ++ more)).handled := by
      rw [handled_of_select (.inl hcaught.1), hcaught.2, hacc]
      obtain ⟨it, hit, -⟩ := hw
      exact (List.getElem?_eq_some_iff.mp hit).1
    exact (h'.closed_iff j).mpr ⟨hlt, hacc ▸ hw⟩

theorem returned_step (hp : w.place = .returned) (ev : Event) :
    (w.step ev).place = .returned ∧ (w.step ev).closed = w.closed := by
  cases ev with
  | enqueue it =>
    simp only [step, enqueueControl]
    split <;> exact ⟨hp, rfl⟩
  | push =>
    simp only [step, ConnWriter.push]
    split <;> exact ⟨hp, rfl⟩
  | stop => exact ⟨hp, rfl⟩
  | writer b e full fails => simp [step, advance, hp]

theorem returned_run (hp : w.place = .returned) (evs : List Event) : (run step w evs).closed = w.closed := by
  have hkept := run_always (P := fun v : ConnWriter => v.place = .returned ∧ v.closed = w.closed)
    (fun _ ev hv => ⟨(returned_step hv.1 ev).1, (returned_step hv.1 ev).2.trans hv.2⟩) ⟨hp, rfl⟩ evs
  exact hkept.2

/-- A flush is queued, the client is stopped and the writer returns. -/
def abandonedEvents : List Event :=
  [.enqueue ⟨none, true, false⟩, .stop, .writer .done .encoded false none]

/-- A deferred PUBLISH is queued before the CONNACK. -/
def earlyEvents : List Event :=
  .enqueue ⟨some .publish, false, false⟩ :: .enqueue ⟨some .connack, false, false⟩ ::
    List.replicate 7 (.writer .control .encoded false none)

/-- The waiter of an item still queued when the writer returns is never released, and a PUBLISH
of the control queue is written in its turn, CONNACK or not. -/
theorem abandoned_never_closed : (run step (new 1) abandonedEvents).accepted = [⟨none, true, false⟩] ∧
    (∀ more, 0 ∉ (run step (new 1) (abandonedEvents ++ more)).closed) ∧
    (run step (new 1) earlyEvents).wire = [.control 0 .publish, .control 1 .connack] := by
  refine ⟨by decide, fun more => ?_, by decide⟩
  rw [run_append, returned_run (by decide)]
  decide

end ConnWriter

end MonsterMQ.Mqtt
