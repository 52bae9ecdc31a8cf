import MonsterMQ.KafkaOrchestrator

/-!
# Stored once and in order

What a stream has, what the flush under way holds for it and what is in the buffer are together the messages
the stream should have, in order, as long as no batch fails after `stop`, nothing arrives after the last
flush and no publish of Produce comes back late.
-/

namespace MonsterMQ.Kafka

open LittleEndian KeyedGroups StateRuns List

@[grind =] def Server.ofStream (s : Server) (st : Stream) (l : List Arrival) : List Arrival :=
  l.filter fun e => s.routeEnqueue e.2.topicName = some st

theorem Server.ofStream_append (s : Server) (st : Stream) (l l' : List Arrival) :
    s.ofStream st (l ++ l') = s.ofStream st l ++ s.ofStream st l' := filter_append ..

theorem Server.mem_ofStream {s : Server} {st : Stream} {l : List Arrival} {e : Arrival} :
    e ∈ s.ofStream st l ↔ e ∈ l ∧ s.routeEnqueue e.2.topicName = some st := by
  rw [ofStream, mem_filter, decide_eq_true_eq]

theorem Server.valuesOf_groupByStream (s : Server) (st : Stream) (batch : List Arrival) :
    valuesOf (s.groupByStream batch) st = s.ofStream st batch := by
  rw [groupByStream, valuesOf_groups]
  induction batch with
  | nil => rfl
  | cons e batch ih =>
    rw [routed, ofStream] at ih
    rw [routed, filterMap_cons, ofStream, filter_cons]
    cases hst : s.routeEnqueue e.2.topicName with
    | none => simpa using ih
    | some st' =>
      by_cases heq : st' = st
      · simpa [heq] using ih
      · simpa [heq] using ih

namespace Orchestrator

variable (s : Server)

def storedIn (o : Orchestrator) (st : Stream) : List Arrival :=
  (o.stored.filter fun p => p.1 = st).map Prod.snd

/-- The messages that a stream should have: not the dropped ones, and no echo of what Produce stored. -/
@[grind =] def wanted (o : Orchestrator) (st : Stream) : List Arrival :=
  o.received.filter fun e => e.1 ∉ o.dropped ∧ e.2.messageUUID ∉ o.produced ∧
    s.routeEnqueue e.2.topicName = some st

@[grind =] def inFlush (o : Orchestrator) (st : Stream) : List Arrival :=
  match o.flush with
  | none => []
  | some f => s.ofStream st f.failed ++ valuesOf f.todo st

def Closing (o : Orchestrator) : Prop := o.returned = true ∨ o.flush.any Flush.final = true
deriving Decidable

def Careful (o : Orchestrator) : BusEvent → Prop
  | .onMessage m => o.isSelf m ∨ s.routeEnqueue m.topicName = none ∨
      (¬ o.Closing ∧ m.messageUUID ∉ o.produced)
  | .produce m _ => ∀ e ∈ o.received, e.2.messageUUID ≠ m.messageUUID
  | .finish => ∀ f ∈ o.flush, o.cancelled = true → f.final = false → f.failed = []
  | _ => True

instance decidableCareful (o : Orchestrator) : ∀ e, Decidable (o.Careful s e)
  | .onMessage m => inferInstanceAs (Decidable (o.isSelf m ∨ s.routeEnqueue m.topicName = none ∨
      (¬ o.Closing ∧ m.messageUUID ∉ o.produced)))
  | .produce m _ => inferInstanceAs (Decidable (∀ e ∈ o.received, e.2.messageUUID ≠ m.messageUUID))
  | .finish => inferInstanceAs
      (Decidable (∀ f ∈ o.flush, o.cancelled = true → f.final = false → f.failed = []))
  | .publishFailed _ => .isTrue trivial
  | .sweepSelfPub _ => .isTrue trivial
  | .take => .isTrue trivial
  | .enqueue _ _ => .isTrue trivial
  | .stop => .isTrue trivial
  | .ctxDone => .isTrue trivial

/-- The message is one of the oldest by which the buffer, with the message that arrives or those that
are put back, is longer than `maxBuffered`. -/
def Overflows (o : Orchestrator) (i : ℕ) : BusEvent → Prop
  | .onMessage _ => i ∈ (o.buf.take (o.buf.length + 1 - maxBuffered)).map Prod.fst
  | .finish => ∃ f ∈ o.flush,
      i ∈ ((f.failed ++ o.buf).take ((f.failed ++ o.buf).length - maxBuffered)).map Prod.fst
  | _ => False

/-- Every message that should be in a stream is in it once and in the order received, and nothing else
is, no record that Produce has stored either. -/
def StoredOnce (o : Orchestrator) : Prop := ∀ st, o.storedIn st = o.wanted s st

structure FlushInvariant (o : Orchestrator) (f : Flush) : Prop where
  keys : (f.todo.map Prod.fst).Nodup
  routes : ∀ g ∈ f.todo, ∀ e ∈ g.2, s.routeEnqueue e.2.topicName = some g.1
  held : ∀ e ∈ f.failed, e ∈ o.received
  todo : ∀ g ∈ f.todo, ∀ e ∈ g.2, e ∈ o.received
  failed : ∀ e ∈ f.failed, ∃ st ∈ o.failing, s.routeEnqueue e.2.topicName = some st ∧
    st ∉ f.todo.map Prod.fst
  last : f.final = true → ∀ e ∈ o.buf, s.routeEnqueue e.2.topicName = none

structure Invariant (o : Orchestrator) : Prop where
  order : ∀ st, o.storedIn st ++ (o.inFlush s st ++ s.ofStream st o.buf) = o.wanted s st
  numbers : ∀ (i : ℕ) (e : Arrival), o.received[i]? = some e → e.1 = i
  dropped : ∀ i ∈ o.dropped, i < o.received.length
  buffered : ∀ e ∈ o.buf, e ∈ o.received
  flushing : ∀ f ∈ o.flush, o.FlushInvariant s f
  registered : ∀ e ∈ o.selfPub, e.1 ∈ o.produced
  ended : o.returned = true → o.flush = none
  left : o.returned = true → ∀ e ∈ o.buf, ∀ st, s.routeEnqueue e.2.topicName = some st →
    st ∈ o.failing

variable {s}

theorem new_invariant : new.Invariant s where
  order := fun st => rfl
  numbers := fun i e h => by cases h
  dropped := fun i h => absurd h not_mem_nil
  buffered := fun e h => absurd h not_mem_nil
  flushing := fun f h => by cases h
  registered := fun e h => absurd h not_mem_nil
  ended := fun h => by cases h
  left := fun h => by cases h

theorem Invariant.storedOnce {o : Orchestrator} (h : o.Invariant s) (hret : o.returned = true)
    (hok : o.failing = []) : o.StoredOnce s := by
  intro st
  have hbuf : s.ofStream st o.buf = [] := by
    rw [eq_nil_iff_forall_not_mem]
    intro e he
    obtain ⟨hmem, hst⟩ := (Server.mem_ofStream).mp he
    have hfail := h.left hret e hmem st hst
    rw [hok] at hfail
    cases hfail
  have hflush : o.inFlush s st = [] := by rw [inFlush, h.ended hret]
  rw [← h.order st, hbuf, hflush, append_nil, append_nil]

theorem Invariant.eq_of_number {o : Orchestrator} (h : o.Invariant s) {e e' : Arrival}
    (he : e ∈ o.received) (he' : e' ∈ o.received) (heq : e.1 = e'.1) : e = e' := by
  obtain ⟨i, hi⟩ := mem_iff_getElem?.mp he
  obtain ⟨j, hj⟩ := mem_iff_getElem?.mp he'
  have hij : i = j := (h.numbers i e hi).symm.trans (heq.trans (h.numbers j e' hj))
  rw [hij, hj] at hi
  exact (Option.some.inj hi).symm

theorem Invariant.nodup_received {o : Orchestrator} (h : o.Invariant s) : o.received.Nodup := by
  rw [nodup_iff_getElem?_ne_getElem?]
  intro i j hij hj heq
  have hsome := List.getElem?_eq_getElem hj
  have hi := h.numbers i _ (heq.trans hsome)
  have hj' := h.numbers j _ hsome
  omega

theorem filter_middle {α : Type} {a b c : List α} (hnodup : (a ++ (b ++ c)).Nodup) {p : α → Bool}
    (hp : ∀ e ∈ a ++ (b ++ c), p e = false ↔ e ∈ b) : (a ++ (b ++ c)).filter p = a ++ c := by
  obtain ⟨-, hbc, hab⟩ := nodup_append.mp hnodup
  obtain ⟨-, -, hbc⟩ := nodup_append.mp hbc
  have ha : a.filter p = a := by
    rw [filter_eq_self]
    intro e he
    by_contra hfalse
    have hb := (hp e (mem_append_left _ he)).mp (by simpa using hfalse)
    exact hab e he e (mem_append_left _ hb) rfl
  have hb : b.filter p = [] := by
    rw [filter_eq_nil_iff]
    intro e he
    have hfalse := (hp e (mem_append_right _ (mem_append_left _ he))).mpr he
    rw [hfalse]
    decide
  have hc : c.filter p = c := by
    rw [filter_eq_self]
    intro e he
    by_contra hfalse
    have hb := (hp e (mem_append_right _ (mem_append_right _ he))).mp (by simpa using hfalse)
    exact hbc e hb e he rfl
  rw [filter_append, filter_append, ha, hb, hc, nil_append]

theorem dropOldest_order {o : Orchestrator} (h : o.Invariant s) (n : ℕ) (st : Stream) :
    o.storedIn st ++ (o.inFlush s st ++ s.ofStream st (o.buf.drop n)) = (o.dropOldest n).wanted s st := by
  have hsplit : s.ofStream st o.buf = s.ofStream st (o.buf.take n) ++ s.ofStream st (o.buf.drop n) := by
    rw [← Server.ofStream_append, take_append_drop]
  have horder : (o.storedIn st ++ o.inFlush s st) ++
      (s.ofStream st (o.buf.take n) ++ s.ofStream st (o.buf.drop n)) = o.wanted s st := by
    rw [← hsplit, append_assoc]
    exact h.order st
  have hwanted : (o.dropOldest n).wanted s st =
      (o.wanted s st).filter fun e => e.1 ∉ (o.buf.take n).map Prod.fst := by
    rw [wanted, wanted, filter_filter]
    apply filter_congr
    intro e he
    simp only [dropOldest, mem_append, not_or, Bool.decide_and]
    rw [Bool.and_assoc, Bool.and_left_comm]
  have hnodup : (o.wanted s st).Nodup := h.nodup_received.filter _
  rw [hwanted, ← horder, ← append_assoc]
  rw [← horder] at hnodup
  refine (filter_middle hnodup ?_).symm
  intro e he
  rw [decide_eq_false_iff_not, not_not]
  rw [horder] at he
  obtain ⟨hrec, hst⟩ := mem_filter.mp he
  simp only [decide_eq_true_eq] at hst
  constructor
  · intro hmem
    obtain ⟨e', he', heq⟩ := mem_map.mp hmem
    have hsame := h.eq_of_number (h.buffered e' (mem_of_mem_take he')) hrec heq
    exact (Server.mem_ofStream).mpr ⟨hsame ▸ he', hst.2.2⟩
  · intro hmem
    exact mem_map_of_mem ((Server.mem_ofStream).mp hmem).1

theorem dropOldest_invariant {o : Orchestrator} (h : o.Invariant s) (n : ℕ) :
    (o.dropOldest n).Invariant s where
  order := dropOldest_order h n
  numbers := h.numbers
  dropped := by
    intro i hi
    rcases mem_append.mp hi with hi | hi
    · exact h.dropped i hi
    · obtain ⟨e, he, rfl⟩ := mem_map.mp hi
      obtain ⟨j, hj⟩ := mem_iff_getElem?.mp (h.buffered e (mem_of_mem_take he))
      rw [h.numbers j e hj]
      exact (List.getElem?_eq_some_iff.mp hj).1
  buffered := fun e he => h.buffered e (mem_of_mem_drop he)
  flushing := by
    intro f hf
    have hinv := h.flushing f hf
    exact ⟨hinv.keys, hinv.routes, hinv.held, hinv.todo, hinv.failed,
      fun hlast e he => hinv.last hlast e (mem_of_mem_drop he)⟩
  registered := h.registered
  ended := h.ended
  left := fun hret e he => h.left hret e (mem_of_mem_drop he)

theorem numbers_concat {received : List Arrival}
    (h : ∀ (i : ℕ) (e : Arrival), received[i]? = some e → e.1 = i) (m : Message) (i : ℕ) (e : Arrival)
    (hi : (received ++ [(received.length, m)])[i]? = some e) : e.1 = i := by
  rw [List.getElem?_append] at hi
  split at hi
  · exact h i e hi
  · rename_i hlen
    have hlast := mem_of_getElem? hi
    rw [mem_singleton] at hlast
    have hlt := (List.getElem?_eq_some_iff.mp hi).1
    rw [length_singleton] at hlt
    rw [hlast]
    dsimp only
    omega

/-- A flush does not see what arrives, if it is not the last or the message belongs to no stream. -/
theorem FlushInvariant.receive {o o' : Orchestrator} {f : Flush} (h : o.FlushInvariant s f)
    (hrec : ∀ e ∈ o.received, e ∈ o'.received) (hfail : o'.failing = o.failing)
    (hbuf : f.final = true → ∀ e ∈ o'.buf, s.routeEnqueue e.2.topicName = none) : o'.FlushInvariant s f where
  keys := h.keys
  routes := h.routes
  held := fun e he => hrec e (h.held e he)
  todo := fun g hg e he => hrec e (h.todo g hg e he)
  failed := by
    intro e he
    rw [hfail]
    exact h.failed e he
  last := hbuf

theorem skip_invariant {o : Orchestrator} (h : o.Invariant s) {m : Message} (hself : o.isSelf m) :
    (o.skip m).Invariant s where
  order := by
    intro st
    have hwanted : (o.skip m).wanted s st = o.wanted s st := by
      obtain ⟨p, hp, heq⟩ := mem_map.mp hself.2
      have hprod : m.messageUUID ∈ o.produced := heq ▸ h.registered p hp
      rw [wanted, skip, filter_append, wanted, append_right_eq_self, filter_eq_nil_iff]
      intro e he
      rw [mem_singleton.mp he]
      simp [hprod]
    rw [hwanted]
    exact h.order st
  numbers := numbers_concat h.numbers m
  dropped := fun i hi => (h.dropped i hi).trans_le (by simp [skip])
  buffered := fun e he => mem_append_left _ (h.buffered e he)
  flushing := by
    intro f hf
    have hinv := h.flushing f hf
    exact hinv.receive (fun e he => mem_append_left _ he) rfl hinv.last
  registered := fun e he => h.registered e (mem_of_mem_filter he)
  ended := h.ended
  left := h.left

private theorem append_order {o : Orchestrator} (h : o.Invariant s) {m : Message} (st : Stream)
    (hm : s.routeEnqueue m.topicName = none ∨ m.messageUUID ∉ o.produced) :
    (o.append m).wanted s st = o.wanted s st ++ s.ofStream st [(o.received.length, m)] := by
  rw [wanted, append, filter_append]
  congr 1
  have hnew : o.received.length ∉ o.dropped := fun hmem => Nat.lt_irrefl _ (h.dropped _ hmem)
  apply filter_congr
  intro e he
  rw [mem_singleton.mp he]
  rcases hm with hnone | hprod
  · simp [hnone]
  · simp [hnew, hprod]

theorem append_invariant {o : Orchestrator} (h : o.Invariant s) {m : Message}
    (hm : s.routeEnqueue m.topicName = none ∨ (¬ o.Closing ∧ m.messageUUID ∉ o.produced)) :
    (o.append m).Invariant s where
  order := by
    intro st
    rw [append_order h st (hm.imp_right And.right), ← h.order st]
    change o.storedIn st ++ (o.inFlush s st ++ s.ofStream st (o.buf ++ [_])) = _
    rw [Server.ofStream_append, append_assoc, append_assoc]
  numbers := numbers_concat h.numbers m
  dropped := fun i hi => (h.dropped i hi).trans_le (by simp [append])
  buffered := by
    intro e he
    rcases mem_append.mp he with he | he
    · exact mem_append_left _ (h.buffered e he)
    · exact mem_append_right _ he
  flushing := by
    intro f hf
    have hinv := h.flushing f hf
    refine hinv.receive (fun e he => mem_append_left _ he) rfl ?_
    intro hlast e he
    rcases mem_append.mp he with he | he
    · exact hinv.last hlast e he
    · rw [mem_singleton.mp he]
      rcases hm with hnone | ⟨hclosing, -⟩
      · exact hnone
      · exact absurd (.inr ((Option.any_eq_true ..).mpr ⟨f, hf, hlast⟩)) hclosing
  registered := h.registered
  ended := h.ended
  left := by
    intro hret e he st hst
    rcases mem_append.mp he with he | he
    · exact h.left hret e he st hst
    · rw [mem_singleton.mp he] at hst
      rcases hm with hnone | ⟨hclosing, -⟩
      · rw [hnone] at hst
        cases hst
      · exact absurd (.inl hret) hclosing

private theorem makeRoom_eq (o : Orchestrator) : ∃ n, o.makeRoom = o.dropOldest n := by
  rw [makeRoom]
  split
  · exact ⟨_, rfl⟩
  · exact ⟨0, by simp [dropOldest]⟩

private theorem onMessage_invariant {o : Orchestrator} (h : o.Invariant s) {m : Message}
    (hq : o.Careful s (.onMessage m)) : (o.onMessage m).Invariant s := by
  rw [onMessage]
  split
  · rename_i hself
    exact skip_invariant h hself
  · rename_i hself
    have hm := Or.resolve_left hq hself
    obtain ⟨n, hn⟩ := makeRoom_eq o
    rw [hn]
    exact append_invariant (dropOldest_invariant h n) hm

theorem produce_invariant {o : Orchestrator} (h : o.Invariant s) {m : Message} {now : ℕ}
    (hq : o.Careful s (.produce m now)) : (o.produce s m now).Invariant s where
  order := by
    intro st
    have hwanted : (o.produce s m now).wanted s st = o.wanted s st := by
      apply filter_congr
      intro e he
      have hne := hq e he
      simp [produce, hne]
    rw [hwanted]
    exact h.order st
  numbers := h.numbers
  dropped := h.dropped
  buffered := h.buffered
  flushing := fun f hf => (h.flushing f hf).receive (fun _ he => he) rfl (h.flushing f hf).last
  registered := by
    intro e he
    change e ∈ (if (s.firstMatching m.topicName).isSome then _ else _) at he
    split at he
    · rcases mem_append.mp he with he | he
      · exact mem_append_left _ (h.registered e (mem_of_mem_filter he))
      · rw [mem_singleton.mp he]
        exact mem_append_right _ (mem_singleton_self _)
    · exact mem_append_left _ (h.registered e he)
  ended := h.ended
  left := h.left

/-- A state that differs in the registered UUIDs, of which there are no more, and in the context. -/
theorem Invariant.unregister {o : Orchestrator} (h : o.Invariant s) {pub : List (Bytes × ℕ)}
    {c : Bool} (hpub : ∀ e ∈ pub, e ∈ o.selfPub) : { o with selfPub := pub, cancelled := c }.Invariant s where
  order := h.order
  numbers := h.numbers
  dropped := h.dropped
  buffered := h.buffered
  flushing := fun f hf => (h.flushing f hf).receive (fun _ he => he) rfl (h.flushing f hf).last
  registered := fun e he => h.registered e (hpub e he)
  ended := h.ended
  left := h.left

theorem startFlush_invariant {o : Orchestrator} (h : o.Invariant s) (hret : o.returned = false)
    (hflush : o.flush = none) (final : Bool) : (o.startFlush s final).Invariant s where
  order := by
    intro st
    have hnone : o.inFlush s st = [] := by rw [inFlush, hflush]
    change o.storedIn st ++ (([] ++ valuesOf (s.groupByStream o.buf) st) ++ []) = o.wanted s st
    rw [Server.valuesOf_groupByStream, append_nil, ← h.order st, hnone]
  numbers := h.numbers
  dropped := h.dropped
  buffered := fun e he => absurd he not_mem_nil
  flushing := by
    rintro f ⟨⟩
    have hkeys : ((s.groupByStream o.buf).map Prod.fst).Nodup := nodup_keys_groups _
    have hgroup : ∀ g ∈ s.groupByStream o.buf, g.2 = s.ofStream g.1 o.buf := by
      intro g hg
      rw [← Server.valuesOf_groupByStream, valuesOf_eq_of_mem hkeys hg]
    constructor
    case keys => exact hkeys
    case routes =>
      intro g hg e he
      rw [hgroup g hg] at he
      exact ((Server.mem_ofStream).mp he).2
    case held => exact fun e he => absurd he not_mem_nil
    case todo =>
      intro g hg e he
      rw [hgroup g hg] at he
      exact h.buffered e ((Server.mem_ofStream).mp he).1
    case failed => exact fun e he => absurd he not_mem_nil
    case last => exact fun _ e he => absurd he not_mem_nil
  registered := h.registered
  ended := fun hret' => absurd (hret'.symm.trans hret) (by decide)
  left := fun _ e he => absurd he not_mem_nil

section Store

variable {o : Orchestrator} {f : Flush} {i : ℕ} {st : Stream} {msgs : List Arrival}

theorem Invariant.not_returned (h : o.Invariant s) (hf : o.flush = some f) : ¬ o.returned = true := by
  intro hret
  have hnone := h.ended hret
  rw [hf] at hnone
  cases hnone

section

variable (h : o.FlushInvariant s f)
include h

theorem FlushInvariant.ofStream_failed (hst : st ∈ f.todo.map Prod.fst) : s.ofStream st f.failed = [] := by
  rw [eq_nil_iff_forall_not_mem]
  intro e he
  obtain ⟨hmem, hroute⟩ := (Server.mem_ofStream).mp he
  obtain ⟨st', -, hroute', hnot⟩ := h.failed e hmem
  rw [hroute] at hroute'
  cases hroute'
  exact hnot hst

theorem FlushInvariant.ofStream_group (hi : f.todo[i]? = some (st, msgs))
    (st' : Stream) : s.ofStream st' msgs = if st' = st then msgs else [] := by
  have hroute := h.routes _ (mem_of_getElem? hi)
  split
  · rename_i heq
    rw [Server.ofStream, filter_eq_self]
    intro e he
    rw [decide_eq_true_eq, heq]
    exact hroute e he
  · rename_i hne
    rw [Server.ofStream, filter_eq_nil_iff]
    intro e he
    rw [decide_eq_true_eq, hroute e he]
    exact fun heq => hne (Option.some.inj heq).symm

theorem FlushInvariant.inFlush_erase (hi : f.todo[i]? = some (st, msgs))
    (st' : Stream) : s.ofStream st' f.failed ++ valuesOf f.todo st' =
      s.ofStream st' msgs ++ (s.ofStream st' f.failed ++ valuesOf (f.todo.eraseIdx i) st') := by
  have hmem := mem_of_getElem? hi
  rw [h.ofStream_group hi, valuesOf_eraseIdx h.keys hi]
  dsimp only
  split
  · rename_i heq
    have hvalues : valuesOf f.todo st = msgs := valuesOf_eq_of_mem h.keys hmem
    rw [heq, h.ofStream_failed (mem_map_of_mem hmem), hvalues, nil_append, append_nil,
      append_nil]
  · rw [nil_append]

private theorem storedIn_append (hi : f.todo[i]? = some (st, msgs)) (st' : Stream) :
    ((o.stored ++ msgs.map (st, ·)).filter fun p => p.1 = st').map Prod.snd =
      o.storedIn st' ++ s.ofStream st' msgs := by
  rw [filter_append, map_append, storedIn, h.ofStream_group hi, filter_map, map_map]
  congr 1
  split
  · rename_i heq
    simp [heq, Function.comp_def]
  · rename_i hne
    simp [Ne.symm hne, Function.comp_def]

end

section

variable (h : o.Invariant s)
include h

/-- A batch that `Enqueue` has stored. -/
theorem store_invariant (hf : o.flush = some f)
    (hi : f.todo[i]? = some (st, msgs)) : (o.storeBatch f i true).Invariant s := by
  have hinv := h.flushing f hf
  rw [storeBatch, hi]
  dsimp only
  rw [if_pos rfl]
  constructor
  case order =>
    intro st'
    have horder := h.order st'
    rw [inFlush, hf] at horder
    dsimp only at horder
    change ((o.stored ++ msgs.map (st, ·)).filter fun p => p.1 = st').map Prod.snd ++
      (s.ofStream st' f.failed ++ valuesOf (f.todo.eraseIdx i) st' ++ s.ofStream st' o.buf) = o.wanted s st'
    rw [storedIn_append hinv hi, ← horder, hinv.inFlush_erase hi]
    simp only [append_assoc]
  case numbers => exact h.numbers
  case dropped => exact h.dropped
  case buffered => exact h.buffered
  case flushing =>
    rintro f' ⟨⟩
    constructor
    case keys => exact nodup_keys_eraseIdx hinv.keys i
    case routes => exact fun g hg => hinv.routes g (mem_of_mem_eraseIdx hg)
    case held => exact hinv.held
    case todo => exact fun g hg => hinv.todo g (mem_of_mem_eraseIdx hg)
    case failed =>
      intro e he
      obtain ⟨st', hfail, hroute, hnot⟩ := hinv.failed e he
      have hne : st' ≠ st := by
        rintro rfl
        exact hnot (mem_map_of_mem (mem_of_getElem? hi))
      exact ⟨st', mem_filter.mpr ⟨hfail, by simpa using hne⟩, hroute,
        fun hmem => hnot (mem_keys_eraseIdx hinv.keys hi hmem).1⟩
    case last => exact hinv.last
  case registered => exact h.registered
  case ended => exact fun hret => absurd hret (h.not_returned hf)
  case left => exact fun hret => absurd hret (h.not_returned hf)

/-- A batch whose `Enqueue` has failed. -/
theorem fail_invariant (hf : o.flush = some f)
    (hi : f.todo[i]? = some (st, msgs)) : (o.storeBatch f i false).Invariant s := by
  have hinv := h.flushing f hf
  have hmem := mem_of_getElem? hi
  rw [storeBatch, hi]
  dsimp only
  rw [if_neg (by decide)]
  constructor
  case order =>
    intro st'
    have horder := h.order st'
    rw [inFlush, hf] at horder
    dsimp only at horder
    change o.storedIn st' ++ (s.ofStream st' (f.failed ++ msgs) ++ valuesOf (f.todo.eraseIdx i) st' ++
      s.ofStream st' o.buf) = o.wanted s st'
    rw [Server.ofStream_append, ← horder, hinv.inFlush_erase hi]
    by_cases heq : st' = st
    · rw [heq, hinv.ofStream_failed (mem_map_of_mem hmem)]
      simp only [nil_append, append_assoc]
    · rw [hinv.ofStream_group hi, if_neg heq, append_nil, nil_append]
  case numbers => exact h.numbers
  case dropped => exact h.dropped
  case buffered => exact h.buffered
  case flushing =>
    rintro f' ⟨⟩
    constructor
    case keys => exact nodup_keys_eraseIdx hinv.keys i
    case routes => exact fun g hg => hinv.routes g (mem_of_mem_eraseIdx hg)
    case held =>
      intro e he
      rcases mem_append.mp he with he | he
      · exact hinv.held e he
      · exact hinv.todo _ hmem e he
    case todo => exact fun g hg => hinv.todo g (mem_of_mem_eraseIdx hg)
    case failed =>
      intro e he
      rcases mem_append.mp he with he | he
      · obtain ⟨st', hfail, hroute, hnot⟩ := hinv.failed e he
        exact ⟨st', mem_append_left _ hfail, hroute,
          fun hmem => hnot (mem_keys_eraseIdx hinv.keys hi hmem).1⟩
      · exact ⟨st, mem_append_right _ (mem_singleton_self st), hinv.routes _ hmem e he,
          fun hmem => (mem_keys_eraseIdx hinv.keys hi hmem).2 rfl⟩
    case last => exact hinv.last
  case registered => exact h.registered
  case ended => exact fun hret => absurd hret (h.not_returned hf)
  case left => exact fun hret => absurd hret (h.not_returned hf)

private theorem storeBatch_invariant (hf : o.flush = some f) (i : ℕ) (ok : Bool) :
    (o.storeBatch f i ok).Invariant s := by
  cases hi : f.todo[i]? with
  | none =>
    rw [storeBatch, hi]
    exact h
  | some g =>
    cases ok with
    | true => exact store_invariant h hf hi
    | false => exact fail_invariant h hf hi

private theorem endFlush_invariant (hf : o.flush = some f) (htodo : f.todo = [])
    (hfailed : f.failed = []) : (o.endFlush f).Invariant s where
  order := by
    intro st
    have horder := h.order st
    rw [inFlush, hf] at horder
    dsimp only at horder
    rw [htodo, hfailed] at horder
    exact horder
  numbers := h.numbers
  dropped := h.dropped
  buffered := h.buffered
  flushing := fun f' hf' => by cases hf'
  registered := h.registered
  ended := fun _ => rfl
  left := by
    intro hret e he st hst
    have hnone := (h.flushing f hf).last hret e he
    rw [hst] at hnone
    cases hnone

theorem putBack_invariant (hf : o.flush = some f) (htodo : f.todo = []) :
    ((o.endFlush f).putBack f.failed).Invariant s where
  order := by
    intro st
    have horder := h.order st
    rw [inFlush, hf] at horder
    dsimp only at horder
    rw [htodo] at horder
    change o.storedIn st ++ ([] ++ s.ofStream st (f.failed ++ o.buf)) = o.wanted s st
    rw [← horder, Server.ofStream_append]
    simp [valuesOf]
  numbers := h.numbers
  dropped := h.dropped
  buffered := by
    intro e he
    rcases mem_append.mp he with he | he
    · exact (h.flushing f hf).held e he
    · exact h.buffered e he
  flushing := fun f' hf' => by cases hf'
  registered := h.registered
  ended := fun _ => rfl
  left := by
    intro hret e he st hst
    rcases mem_append.mp he with he | he
    · obtain ⟨st', hfail, hroute, -⟩ := (h.flushing f hf).failed e he
      rw [hst] at hroute
      cases hroute
      exact hfail
    · have hnone := (h.flushing f hf).last hret e he
      rw [hst] at hnone
      cases hnone

private theorem finish_invariant (hf : o.flush = some f) (htodo : f.todo = [])
    (hq : o.Careful s .finish) : (o.finish f).Invariant s := by
  rw [finish]
  split
  · rename_i hend
    have hfailed : f.failed = [] := by
      rcases hend with hempty | ⟨hcancel, hlast⟩
      · exact isEmpty_iff.mp hempty
      · exact hq f hf hcancel hlast
    exact endFlush_invariant h hf htodo hfailed
  · exact dropOldest_invariant (putBack_invariant h hf htodo) _

end

end Store

theorem step_invariant {o : Orchestrator} (e : BusEvent) (h : o.Invariant s) (hq : o.Careful s e) :
    (o.step s e).Invariant s := by
  cases e with
  | onMessage m => exact onMessage_invariant h hq
  | produce m now => exact produce_invariant h hq
  | publishFailed m | sweepSelfPub now => exact h.unregister fun _ he => mem_of_mem_filter he
  | take =>
    rw [step]
    split
    · exact h
    · rename_i hno
      rw [not_or, Bool.not_eq_true, Bool.not_eq_true, Option.isSome_eq_false_iff,
        Option.isNone_iff_eq_none] at hno
      exact startFlush_invariant h hno.1 hno.2 false
  | enqueue i ok =>
    rw [step]
    split
    · exact h
    · rename_i f hf
      exact storeBatch_invariant h hf i ok
  | finish =>
    rw [step]
    split
    · exact h
    · rename_i f hf
      split
      · rename_i htodo
        exact finish_invariant h hf (isEmpty_iff.mp htodo) hq
      · exact h
  | stop => exact h.unregister fun _ he => he
  | ctxDone =>
    rw [step]
    split
    · exact h
    · rename_i hno
      rw [not_or, not_or, Bool.not_eq_true, Bool.not_eq_true, Option.isSome_eq_false_iff,
        Option.isNone_iff_eq_none] at hno
      exact startFlush_invariant h hno.1 hno.2.1 true

private theorem onMessage_dropped {o : Orchestrator} {m : Message} {i : ℕ} (h : i ∈ (o.onMessage m).dropped) :
    i ∈ o.dropped ∨ o.Overflows i (.onMessage m) := by
  rw [onMessage] at h
  split at h
  · exact .inl h
  · rw [makeRoom] at h
    split at h
    · rename_i hfull
      have hcount : o.buf.length - maxBuffered + 1 = o.buf.length + 1 - maxBuffered := by omega
      rw [hcount] at h
      exact mem_append.mp h
    · exact .inl h

private theorem finish_dropped {o : Orchestrator} {f : Flush} {i : ℕ} (hf : o.flush = some f)
    (h : i ∈ (o.finish f).dropped) : i ∈ o.dropped ∨ o.Overflows i .finish := by
  rw [finish] at h
  split at h
  · exact .inl h
  · exact (mem_append.mp h).imp_right fun hmem => ⟨f, hf, hmem⟩

theorem step_overflows {o : Orchestrator} {i : ℕ} (e : BusEvent) (h : i ∈ (o.step s e).dropped) :
    i ∈ o.dropped ∨ o.Overflows i e := by
  cases e with
  | onMessage m => exact onMessage_dropped h
  | finish =>
    rw [step] at h
    split at h
    · exact .inl h
    · rename_i f hf
      split at h
      · exact finish_dropped hf h
      · exact .inl h
  | enqueue j ok =>
    left
    rw [step] at h
    split at h
    · exact h
    · rw [storeBatch] at h
      split at h
      · exact h
      · split at h
        · exact h
        · exact h
  | take | ctxDone =>
    left
    rw [step] at h
    split at h
    · exact h
    · exact h
  | produce m now | publishFailed m | sweepSelfPub now | stop => exact .inl h

/-- When `stop` has returned and the last `Enqueue` of every stream has succeeded, everything is stored
once and in order, but for what was dropped when the buffer was full. -/
theorem storedOnce_of_careful {s : Server} {es : List BusEvent} (hrun : Along (step s) (Careful s) new es)
    (hret : (run (step s) new es).returned = true) (hok : (run (step s) new es).failing = []) :
    (run (step s) new es).StoredOnce s ∧ ∀ i ∈ (run (step s) new es).dropped,
      ∃ before e after, es = before ++ e :: after ∧ (run (step s) new before).Overflows i e := by
  refine ⟨(run_invariant (fun _ e h hq => step_invariant e h hq) new_invariant hrun).storedOnce hret hok, ?_⟩
  intro i hi
  have horigin := run_origin (P := fun o : Orchestrator => i ∈ o.dropped)
    (C := fun o e => o.Overflows i e) (fun _ e h hq => step_invariant e h hq)
    (fun _ e _ h => step_overflows e h) new_invariant hrun hi
  exact horigin.resolve_left not_mem_nil

def everything : List Stream := [⟨[0x61], [0x23], true⟩]

private theorem everything_names : (everything.map Stream.streamName).Nodup := by decide

def oneStream : Server := ⟨everything, everything_names⟩

def arriving (uuid : Bytes) : Message := ⟨uuid, [0x74], [0x31], 1, [], 0⟩

/-- A store that fails once, an echo of what was produced, and a last flush. -/
def retriedRun : List BusEvent :=
  [.onMessage (arriving [1]), .produce (arriving [9]) 5, .take, .onMessage (arriving [2]),
    .enqueue 0 false, .finish, .onMessage (arriving [9]), .sweepSelfPub 6, .stop, .ctxDone, .enqueue 0 true,
    .finish]

theorem retriedRun_stored : (run (step oneStream) new retriedRun).StoredOnce oneStream ∧
    (run (step oneStream) new retriedRun).stored.map (fun p => p.2.2.messageUUID) = [[1], [2]] :=
  ⟨(storedOnce_of_careful (by decide) (by decide) (by decide)).1, by decide⟩

/-- The context is cancelled while the first message is being stored, and the store fails. -/
def cancelledRun : List BusEvent :=
  [.onMessage (arriving [1]), .take, .onMessage (arriving [2]), .stop, .enqueue 0 false, .finish, .ctxDone,
    .enqueue 0 true, .finish]

/-- The first message is lost, though the last `Enqueue` of the stream succeeds. -/
theorem cancelledRun_loses : (run (step oneStream) new cancelledRun).returned = true ∧
    (run (step oneStream) new cancelledRun).failing = [] ∧
    (run (step oneStream) new cancelledRun).dropped = [] ∧
    (run (step oneStream) new cancelledRun).stored.map (fun p => p.2.2.messageUUID) = [[2]] ∧
    ¬ (run (step oneStream) new cancelledRun).StoredOnce oneStream := by
  refine ⟨by decide, by decide, by decide, by decide, ?_⟩
  intro h
  have hlost : (run (step oneStream) new cancelledRun).storedIn ⟨[0x61], [0x23], true⟩ ≠
      (run (step oneStream) new cancelledRun).wanted oneStream ⟨[0x61], [0x23], true⟩ := by decide
  exact hlost (h _)

end Orchestrator

end MonsterMQ.Kafka
