import MonsterMQ.PubsubBus
import Mathlib.Data.List.Nodup

/-!
# Runs of the bus

As long as no `Unsubscribe` closes the channel of a subscriber that a call under way has still to
come to, no goroutine sends on a closed channel, every channel is closed at most once, and a
publish reaches each subscriber with a matching filter exactly once, or finds its channel full.
-/

namespace MonsterMQ.Pubsub

open LittleEndian PeerLink Auth Topics StateRuns List

@[grind =] def Sub.tally (s : Sub) (call : ℕ) : ℕ :=
  (s.received.map Prod.fst).count call + s.dropped.count call

/-- A channel is closed once its subscriber is unsubscribed and the overflow channel once a
message has been dropped; what was put into the channel is what its reader takes, in order. -/
structure SubSound (b : Bus) (id : ℕ) (s : Sub) : Prop where
  closes : s.closes = if s.capacity.isSome ∧ (id ∉ b.subs ∨ b.closing = some id) then 1 else 0
  once : s.once = true ↔ s.dropped ≠ []
  overflow : s.overflowCloses = if s.dropped = [] then 0 else 1
  func : s.capacity = none → s.dropped = []
  room : ∀ capacity, s.capacity = some capacity → s.buffer.length ≤ capacity
  queue : s.capacity.isSome = true → s.taken ++ s.buffer = s.received.map Prod.snd
  calls : ∀ e ∈ s.received, ∃ f, b.flights[e.1]? = some f ∧ f.msg = e.2
  late : ∀ call, b.flights.length ≤ call → s.tally call = 0

/-- The subscribers that a call has still to come to are open, and it has come to the others of
its targets once. -/
structure FlightSound (heap : ℕ → Option Sub) (call : ℕ) (f : Flight) : Prop where
  known : ∀ id ∈ f.targets, (heap id).isSome = true
  pending : ∀ id ∈ f.todo, ∃ s, heap id = some s ∧ s.closes = 0
  tally : ∀ id s, heap id = some s → s.tally call + f.todo.count id = f.targets.count id

structure BusSound (b : Bus) : Prop where
  calm : b.panicked = false
  snap : b.snap = rebuildSnapshot b.heap b.subs
  nodup : b.subs.Nodup
  known : ∀ id ∈ b.subs, ∃ s, b.heap id = some s
  fresh : ∀ id, b.next < id → b.heap id = none
  closing : ∀ id, b.closing = some id → id ∈ b.subs
  sub : ∀ id s, b.heap id = some s → SubSound b id s
  flight : ∀ call f, b.flights[call]? = some f → FlightSound b.heap call f

theorem newBus_sound : BusSound newBus where
  calm := rfl
  snap := rfl
  nodup := nodup_nil
  known := fun _ h => absurd h not_mem_nil
  fresh := fun _ _ => rfl
  closing := fun _ h => by cases h
  sub := fun _ _ h => by cases h
  flight := fun _ _ h => by cases h

/-- The step closes no channel that a call has still to send on, and a publish does not take a
snapshot with a channel that is just being closed. -/
def Bus.Meets (b : Bus) : BusEvent → Prop
  | .unsubscribe id => b.closing = none → id ∈ b.subs →
      ∀ s, b.heap id = some s → s.capacity.isSome = true → ∀ f ∈ b.flights, id ∉ f.todo
  | .publish msg => ∀ id, b.closing = some id → ∀ s, b.heap id = some s → s.capacity.isSome = true →
      id ∉ b.targets msg.topicName
  | _ => True

variable {b : Bus}

variable {heap : ℕ → Option Sub} {id call : ℕ} {s s' : Sub}

private theorem filtersOf_update (hs : heap id = some s)
    (hf : s'.filters = s.filters) : filtersOf (Function.update heap id (some s')) = filtersOf heap := by
  funext i
  rw [filtersOf, filtersOf]
  by_cases hi : i = id
  · subst hi
    rw [Function.update_self, hs, Option.map_some, Option.map_some, hf]
  · rw [Function.update_of_ne hi]

private theorem rebuildSnapshot_congr {heap' : ℕ → Option Sub} {subs : List ℕ}
    (h : filtersOf heap' = filtersOf heap) : rebuildSnapshot heap' subs = rebuildSnapshot heap subs := by
  rw [rebuildSnapshot, rebuildSnapshot, h]

variable {f : Flight}

/-- A flight keeps sound when a subscriber changes to one that the call has come to as often and
that is open if it was. -/
theorem FlightSound.update
    (h : FlightSound heap call f) (hs : heap id = some s) (htally : s'.tally call = s.tally call)
    (hclosed : id ∈ f.todo → s.closes = 0 → s'.closes = 0) :
    FlightSound (Function.update heap id (some s')) call f where
  known := by
    intro i hi
    by_cases hid : i = id
    · rw [hid, Function.update_self]
      rfl
    · rw [Function.update_of_ne hid]
      exact h.known i hi
  pending := by
    intro i hi
    obtain ⟨si, hsi, hclose⟩ := h.pending i hi
    by_cases hid : i = id
    · subst hid
      obtain rfl := Option.some.inj (hs.symm.trans hsi)
      exact ⟨s', Function.update_self .., hclosed hi hclose⟩
    · exact ⟨si, (Function.update_of_ne hid ..).trans hsi, hclose⟩
  tally := by
    intro i si hsi
    by_cases hid : i = id
    · subst hid
      rw [Function.update_self] at hsi
      rw [← Option.some.inj hsi, htally]
      exact h.tally i s hs
    · rw [Function.update_of_ne hid] at hsi
      exact h.tally i si hsi

theorem SubSound.congr {b' : Bus} (h : SubSound b id s)
    (hin : id ∉ b'.subs ∨ b'.closing = some id ↔ id ∉ b.subs ∨ b.closing = some id)
    (hf : b'.flights = b.flights) : SubSound b' id s where
  closes := by
    rw [h.closes]
    simp only [hin]
  once := h.once
  overflow := h.overflow
  func := h.func
  room := h.room
  queue := h.queue
  calls := by
    rw [hf]
    exact h.calls
  late := by
    rw [hf]
    exact h.late

theorem BusSound.update (h : BusSound b) {closing : Option ℕ}
    {flights : List Flight} (hs : b.heap id = some s) (hfilters : s'.filters = s.filters)
    (hclosing : ∀ i, closing = some i → i ∈ b.subs)
    (hsub : ∀ i t, Function.update b.heap id (some s') i = some t → SubSound
      { b with heap := Function.update b.heap id (some s'), closing := closing, flights := flights } i t)
    (hflight : ∀ call f, flights[call]? = some f →
      FlightSound (Function.update b.heap id (some s')) call f) :
    BusSound { b with
      heap := Function.update b.heap id (some s')
      closing := closing
      flights := flights } where
  calm := h.calm
  snap := h.snap.trans (rebuildSnapshot_congr (filtersOf_update hs hfilters)).symm
  nodup := h.nodup
  known := by
    intro i hi
    dsimp only
    by_cases heq : i = id
    · rw [heq, Function.update_self]
      exact ⟨_, rfl⟩
    · rw [Function.update_of_ne heq]
      exact h.known i hi
  fresh := by
    intro i hi
    have hne : i ≠ id := by
      rintro rfl
      rw [h.fresh i hi] at hs
      cases hs
    dsimp only
    rw [Function.update_of_ne hne]
    exact h.fresh i hi
  closing := hclosing
  sub := hsub
  flight := hflight

private theorem next_not_mem (h : BusSound b) : b.next + 1 ∉ b.subs := by
  intro hm
  obtain ⟨s, hs⟩ := h.known _ hm
  rw [h.fresh _ (Nat.lt_succ_self _)] at hs
  cases hs

theorem ne_next (h : BusSound b) (hid : (b.heap id).isSome = true) : id ≠ b.next + 1 := by
  rintro rfl
  rw [h.fresh _ (Nat.lt_succ_self _)] at hid
  cases hid

theorem add_flight_sound (h : BusSound b) (filters : List Bytes) (capacity : Option ℕ)
    (hf : FlightSound b.heap call f) :
    FlightSound (Function.update b.heap (b.next + 1) (some (newSub filters capacity))) call f := by
  refine ⟨?_, ?_, ?_⟩
  · intro id hid
    rw [Function.update_of_ne (ne_next h (hf.known id hid))]
    exact hf.known id hid
  · intro id hid
    obtain ⟨s, hs, hclose⟩ := hf.pending id hid
    exact ⟨s, (Function.update_of_ne (ne_next h (by rw [hs]; rfl)) ..).trans hs, hclose⟩
  · intro id s hs
    by_cases heq : id = b.next + 1
    · have htodo : f.todo.count id = 0 := by
        apply count_eq_zero.mpr
        intro hm
        obtain ⟨s', hs', -⟩ := hf.pending id hm
        exact ne_next h (by rw [hs']; rfl) heq
      have htargets : f.targets.count id = 0 := by
        apply count_eq_zero.mpr
        intro hm
        exact ne_next h (hf.known id hm) heq
      rw [heq, Function.update_self] at hs
      rw [htodo, htargets, ← Option.some.inj hs]
      rfl
    · rw [Function.update_of_ne heq] at hs
      exact hf.tally id s hs

private theorem newSub_sound {filters : List Bytes} {capacity : Option ℕ} (hin : id ∈ b.subs)
    (hopen : b.closing ≠ some id) : SubSound b id (newSub filters capacity) where
  closes := by
    rw [if_neg]
    · rfl
    · rintro ⟨-, hout | hclosing⟩
      · exact hout hin
      · exact hopen hclosing
  once := by simp [newSub]
  overflow := rfl
  func := fun _ => rfl
  room := fun _ _ => Nat.zero_le _
  queue := fun _ => rfl
  calls := fun _ he => absurd he not_mem_nil
  late := fun _ _ => rfl

theorem add_sound (h : BusSound b) (filters : List Bytes) (capacity : Option ℕ) :
    BusSound (b.add filters capacity) := by
  rw [Bus.add]
  split
  · exact h
  · rename_i hclosing
    have hfree : b.closing = none := by simpa using hclosing
    refine ⟨h.calm, rfl, ?_, ?_, ?_, ?_, ?_, ?_⟩
    · dsimp only
      rw [← concat_eq_append]
      exact List.Nodup.concat (next_not_mem h) h.nodup
    · intro id hid
      dsimp only
      by_cases heq : id = b.next + 1
      · rw [heq, Function.update_self]
        exact ⟨_, rfl⟩
      · rw [Function.update_of_ne heq]
        rcases mem_append.mp hid with hid | hid
        · exact h.known id hid
        · exact absurd (mem_singleton.mp hid) heq
    · intro id hid
      dsimp only at hid ⊢
      rw [Function.update_of_ne (by omega)]
      exact h.fresh id (by omega)
    · intro id hid
      exact absurd (hfree.symm.trans hid) (by simp)
    · intro id s hs
      dsimp only at hs
      by_cases heq : id = b.next + 1
      · rw [heq, Function.update_self] at hs
        rw [← Option.some.inj hs]
        apply newSub_sound
        · exact heq ▸ mem_append_right _ (mem_singleton_self _)
        · dsimp only
          rw [hfree]
          simp
      · rw [Function.update_of_ne heq] at hs
        refine (h.sub id s hs).congr ?_ rfl
        simp [heq]
    · intro call f hf
      exact add_flight_sound h filters capacity (h.flight call f hf)

theorem Sub.close_tally (s : Sub) (call : ℕ) : s.close.tally call = s.tally call := by
  rw [Sub.close]
  split
  · rfl
  · rfl

theorem Sub.close_filters (s : Sub) : s.close.filters = s.filters := by
  rw [Sub.close]
  split
  · rfl
  · rfl

theorem SubSound.close_sound {b' : Bus} (h : SubSound b id s) (hopen : s.closes = 0)
    (hclosing : b'.closing = some id) (hf : b'.flights = b.flights) : SubSound b' id s.close := by
  have hcalls : ∀ e ∈ s.received, ∃ f, b'.flights[e.1]? = some f ∧ f.msg = e.2 := by
    rw [hf]
    exact h.calls
  have hlate : ∀ call, b'.flights.length ≤ call → s.tally call = 0 := by
    rw [hf]
    exact h.late
  rw [Sub.close]
  split
  · rename_i hcap
    refine ⟨?_, h.once, h.overflow, h.func, h.room, h.queue, hcalls, hlate⟩
    rw [if_pos ⟨hcap, .inr hclosing⟩, hopen]
  · rename_i hcap
    refine ⟨?_, h.once, h.overflow, h.func, h.room, h.queue, hcalls, hlate⟩
    rw [if_neg (fun hc => hcap hc.1), hopen]

theorem unsubscribe_sound (h : BusSound b) (hm : b.Meets (.unsubscribe id)) :
    BusSound (b.unsubscribe id) := by
  rw [Bus.unsubscribe]
  split
  · exact h
  · rename_i hcond
    rw [Bool.or_eq_true, decide_eq_true_eq, not_or, not_not] at hcond
    obtain ⟨hclosing, hid⟩ := hcond
    have hfree : b.closing = none := by simpa using hclosing
    obtain ⟨s, hs⟩ := h.known id hid
    have hsub := h.sub id s hs
    have hopen : s.closes = 0 := by
      rw [hsub.closes, if_neg]
      rintro ⟨-, hout | hin⟩
      · exact hout hid
      · exact absurd (hfree.symm.trans hin) (by simp)
    rw [hs, Option.map_some]
    apply h.update hs s.close_filters
    · intro i hi
      rw [← Option.some.inj hi]
      exact hid
    · intro i si hsi
      by_cases heq : i = id
      · subst heq
        rw [Function.update_self] at hsi
        rw [← Option.some.inj hsi]
        exact hsub.close_sound hopen rfl rfl
      · rw [Function.update_of_ne heq] at hsi
        refine (h.sub i si hsi).congr ?_ rfl
        dsimp only
        rw [hfree]
        simp [Ne.symm heq]
    · intro call f hf
      apply (h.flight call f hf).update hs (s.close_tally call)
      intro htodo _
      rw [Sub.close]
      split
      · rename_i hcap
        exact absurd htodo (hm hfree hid s hs hcap f (mem_of_getElem? hf))
      · exact hopen

private theorem unsubscribed_sound (h : BusSound b) : BusSound b.unsubscribed := by
  rw [Bus.unsubscribed]
  split
  · exact h
  · rename_i id hclosing
    refine ⟨h.calm, rfl, h.nodup.filter _, ?_, h.fresh, ?_, ?_, h.flight⟩
    · intro i hi
      exact h.known i (mem_filter.mp hi).1
    · intro i hi
      cases hi
    · intro i s hs
      refine (h.sub i s hs).congr ?_ rfl
      dsimp only
      rw [hclosing, mem_filter, decide_eq_true_eq, Option.some.injEq, not_and_or, not_not,
        or_iff_left (by simp), eq_comm (a := i)]

theorem SubSound.append_flight (h : SubSound b id s) (f : Flight) :
    SubSound { b with flights := b.flights ++ [f] } id s where
  closes := h.closes
  once := h.once
  overflow := h.overflow
  func := h.func
  room := h.room
  queue := h.queue
  calls := by
    intro e he
    obtain ⟨g, hg, hmsg⟩ := h.calls e he
    have hlt := (List.getElem?_eq_some_iff.mp hg).1
    exact ⟨g, (List.getElem?_append_left hlt).trans hg, hmsg⟩
  late := by
    intro call hcall
    rw [length_append] at hcall
    exact h.late call (by omega)

section

variable (h : BusSound b)
include h

theorem append_flight_sound (htodo : f.todo = f.targets)
    (hopen : ∀ id ∈ f.targets, ∃ s, b.heap id = some s ∧ s.closes = 0) :
    BusSound { b with flights := b.flights ++ [f] } where
  calm := h.calm
  snap := h.snap
  nodup := h.nodup
  known := h.known
  fresh := h.fresh
  closing := h.closing
  sub := fun id s hs => (h.sub id s hs).append_flight f
  flight := by
    intro call g hg
    rcases Nat.lt_or_ge call b.flights.length with hlt | hge
    · exact h.flight call g ((List.getElem?_append_left hlt).symm.trans hg)
    · dsimp only at hg
      rw [List.getElem?_append_right hge, List.getElem?_singleton] at hg
      split at hg
      · obtain rfl := Option.some.inj hg
        refine ⟨?_, ?_, ?_⟩
        · intro id hid
          obtain ⟨s, hs, -⟩ := hopen id hid
          show (b.heap id).isSome = true
          rw [hs]
          rfl
        · intro id hid
          exact hopen id (htodo ▸ hid)
        · intro id s hs
          rw [(h.sub id s hs).late call hge, htodo, Nat.zero_add]
      · cases hg

theorem closes_of_mem (hid : id ∈ b.subs)
    (hc : ∀ s, b.heap id = some s → s.capacity.isSome = true → b.closing ≠ some id) :
    ∃ s, b.heap id = some s ∧ s.closes = 0 := by
  obtain ⟨s, hs⟩ := h.known id hid
  refine ⟨s, hs, ?_⟩
  rw [(h.sub id s hs).closes, if_neg]
  rintro ⟨hcap, hout | hin⟩
  · exact hout hid
  · exact hc s hs hcap hin

private theorem mem_subs_of_mem_targets {topic : Bytes} (hid : id ∈ b.targets topic) : id ∈ b.subs := by
  have hcount := count_pos_iff.mpr hid
  rw [count_targets h.snap] at hcount
  split at hcount
  · exact count_pos_iff.mp hcount
  · exact absurd hcount (Nat.lt_irrefl 0)

theorem publish_sound {msg : Message} (hm : b.Meets (.publish msg)) : BusSound (b.step (.publish msg)) := by
  apply append_flight_sound h rfl
  intro id hid
  apply closes_of_mem h (mem_subs_of_mem_targets h hid)
  intro s hs hcap hclosing
  exact hm id hclosing s hs hcap hid

theorem deliver_sound (id : ℕ) (msg : Message) : BusSound (b.step (.deliver id msg)) := by
  rw [Bus.step]
  split
  · exact h
  · rename_i hcond
    rw [Bool.or_eq_true, decide_eq_true_eq, not_or, not_not] at hcond
    apply append_flight_sound h rfl
    intro i hi
    rw [mem_singleton.mp hi]
    apply closes_of_mem h hcond.2
    intro s _ _ hclosing
    rw [hclosing] at hcond
    exact hcond.1 rfl

end

structure Delivered (s s' : Sub) (call : ℕ) (msg : Message) : Prop where
  filters : s'.filters = s.filters
  capacity : s'.capacity = s.capacity
  closes : s'.closes = s.closes
  tally : ∀ k, s'.tally k = s.tally k + if call = k then 1 else 0
  received : ∀ e ∈ s'.received, e ∈ s.received ∨ e = (call, msg)

theorem Sub.deliver_cases (hopen : s.closes = 0) (call : ℕ) (msg : Message) :
    ∃ s', s.deliver call msg = some s' ∧ Delivered s s' call msg := by
  have hcount : ∀ (l : List ℕ) k, (l ++ [call]).count k = l.count k + if call = k then 1 else 0 := by
    intro l k
    rw [count_append, count_singleton]
    simp only [beq_iff_eq]
  rw [Sub.deliver]
  cases hcap : s.capacity with
  | none =>
    refine ⟨_, rfl, rfl, hcap.symm, rfl, ?_, ?_⟩
    · intro k
      simp only [Sub.tally, map_append, map_cons, map_nil, hcount]
      omega
    · intro e he
      exact (mem_append.mp he).imp_right mem_singleton.mp
  | some capacity =>
    dsimp only
    rw [if_neg (not_not.mpr hopen)]
    split
    · refine ⟨_, rfl, rfl, hcap.symm, rfl, ?_, ?_⟩
      · intro k
        simp only [Sub.tally, map_append, map_cons, map_nil, hcount]
        omega
      · intro e he
        exact (mem_append.mp he).imp_right mem_singleton.mp
    · refine ⟨_, rfl, rfl, hcap.symm, rfl, ?_, fun e he => .inl he⟩
      intro k
      simp only [Sub.tally, count_cons, beq_iff_eq]
      omega

theorem SubSound.deliver_sound {b' : Bus} {msg : Message} (h : SubSound b id s)
    (hd : s.deliver call msg = some s') (hsubs : b'.subs = b.subs) (hclosing : b'.closing = b.closing)
    (hcalls : ∀ e ∈ s'.received, ∃ f, b'.flights[e.1]? = some f ∧ f.msg = e.2)
    (hlate : ∀ call, b'.flights.length ≤ call → s'.tally call = 0) : SubSound b' id s' := by
  obtain ⟨filters, capacity, buffer, taken, closes, once, overflowCloses, received, dropped⟩ := s
  have hcloses := h.closes
  rw [← hsubs, ← hclosing] at hcloses
  cases capacity with
  | none =>
    obtain rfl := Option.some.inj hd
    exact ⟨hcloses, h.once, h.overflow, h.func, h.room, (fun hsome => by cases hsome), hcalls,
      hlate⟩
  | some capacity =>
    rw [Sub.deliver] at hd
    dsimp only at hd
    split at hd
    · cases hd
    · split at hd
      · rename_i hroom
        obtain rfl := Option.some.inj hd
        refine ⟨hcloses, h.once, h.overflow, h.func, ?_, ?_, hcalls, hlate⟩
        · intro c hc
          rw [← Option.some.inj hc, length_append]
          exact hroom
        intro hsome
        have hqueue := h.queue rfl
        dsimp only at hqueue ⊢
        rw [← append_assoc, hqueue, map_append]
        rfl
      · obtain rfl := Option.some.inj hd
        refine ⟨hcloses, by simp, ?_, (fun hnone => by cases hnone), h.room, h.queue, hcalls, hlate⟩
        have hoverflow := h.overflow
        have honce := h.once
        dsimp only at hoverflow honce ⊢
        rw [if_neg (cons_ne_nil _ _), hoverflow]
        cases once with
        | true => rw [if_neg (honce.mp rfl), if_pos rfl]
        | false =>
          have hdropped : dropped = [] := by
            by_contra hne
            cases honce.mpr hne
          rw [if_pos hdropped, if_neg (by decide)]

theorem FlightSound.send
    (h : FlightSound heap call f) (hs : heap id = some s) (hd : Delivered s s' call f.msg)
    (htodo : id ∈ f.todo) :
    FlightSound (Function.update heap id (some s')) call { f with todo := f.todo.erase id } where
  known := by
    intro i hi
    by_cases heq : i = id
    · rw [heq, Function.update_self]
      rfl
    · rw [Function.update_of_ne heq]
      exact h.known i hi
  pending := by
    intro i hi
    obtain ⟨t, ht, hclose⟩ := h.pending i (mem_of_mem_erase hi)
    by_cases heq : i = id
    · subst heq
      obtain rfl := Option.some.inj (hs.symm.trans ht)
      exact ⟨s', Function.update_self .., hd.closes.trans hclose⟩
    · exact ⟨t, (Function.update_of_ne heq ..).trans ht, hclose⟩
  tally := by
    intro i t ht
    dsimp only
    by_cases heq : i = id
    · subst heq
      rw [Function.update_self] at ht
      have hold := h.tally i s hs
      have hpos := count_pos_iff.mpr htodo
      rw [← Option.some.inj ht, hd.tally, if_pos rfl, count_erase_self]
      omega
    · rw [Function.update_of_ne heq] at ht
      rw [count_erase_of_ne heq]
      exact h.tally i t ht

theorem send_sound (h : BusSound b) (call id : ℕ) : BusSound (b.send call id) := by
  rw [Bus.send]
  split
  · rename_i f s hf hs
    split
    · rename_i htodo
      have hflight := h.flight call f hf
      obtain ⟨s', hs', hclose⟩ := hflight.pending id htodo
      obtain rfl := Option.some.inj (hs.symm.trans hs')
      obtain ⟨s', hd, hdel⟩ := Sub.deliver_cases hclose call f.msg
      have hlt := (List.getElem?_eq_some_iff.mp hf).1
      have hmsg : ∀ (k : ℕ) (g : Flight), b.flights[k]? = some g → ∃ g',
          (b.flights.set call { f with todo := f.todo.erase id })[k]? = some g' ∧ g'.msg = g.msg := by
        intro k g hg
        by_cases hk : call = k
        · subst hk
          obtain rfl := Option.some.inj (hf.symm.trans hg)
          exact ⟨_, List.getElem?_set_self hlt, rfl⟩
        · exact ⟨g, (List.getElem?_set_ne hk).trans hg, rfl⟩
      rw [hd]
      apply h.update hs hdel.filters h.closing
      · intro i t ht
        by_cases heq : i = id
        · subst heq
          rw [Function.update_self] at ht
          rw [← Option.some.inj ht]
          refine (h.sub i s hs).deliver_sound hd rfl rfl ?_ ?_
          · intro e he
            rcases hdel.received e he with he | rfl
            · obtain ⟨g, hg, hmsg'⟩ := (h.sub i s hs).calls e he
              obtain ⟨g', hg', hsame⟩ := hmsg e.1 g hg
              exact ⟨g', hg', hsame.trans hmsg'⟩
            · exact hmsg call f hf
          · intro k hk
            dsimp only at hk
            rw [length_set] at hk
            rw [hdel.tally, (h.sub i s hs).late k hk, if_neg (by omega)]
        · rw [Function.update_of_ne heq] at ht
          have hsub := h.sub i t ht
          refine ⟨hsub.closes, hsub.once, hsub.overflow, hsub.func, hsub.room, hsub.queue, ?_, ?_⟩
          · intro e he
            obtain ⟨g, hg, hmsg'⟩ := hsub.calls e he
            obtain ⟨g', hg', hsame⟩ := hmsg e.1 g hg
            exact ⟨g', hg', hsame.trans hmsg'⟩
          · intro k hk
            dsimp only at hk
            rw [length_set] at hk
            exact hsub.late k hk
      · intro k g hg
        by_cases hk : call = k
        · subst hk
          rw [List.getElem?_set_self hlt] at hg
          rw [← Option.some.inj hg]
          exact hflight.send hs hdel htodo
        · rw [List.getElem?_set_ne hk] at hg
          apply (h.flight k g hg).update hs
          · rw [hdel.tally, if_neg hk, Nat.add_zero]
          · intro _ hopen
            rw [hdel.closes, hopen]
    · exact h
  · exact h

theorem Sub.receive_same (s : Sub) : s.receive.filters = s.filters ∧ s.receive.closes = s.closes ∧
    ∀ call, s.receive.tally call = s.tally call := by
  rw [Sub.receive]
  split
  · exact ⟨rfl, rfl, fun _ => rfl⟩
  · exact ⟨rfl, rfl, fun _ => rfl⟩

theorem SubSound.receive_sound (h : SubSound b id s) : SubSound b id s.receive := by
  rw [Sub.receive]
  split
  · exact h
  · rename_i msg buffer hbuffer
    refine ⟨h.closes, h.once, h.overflow, h.func, ?_, ?_, h.calls, h.late⟩
    · intro capacity hcap
      have hroom := h.room capacity hcap
      rw [hbuffer, length_cons] at hroom
      exact Nat.le_of_succ_le hroom
    intro hsome
    dsimp only
    rw [← h.queue hsome, hbuffer, append_assoc]
    rfl

theorem receive_sound (h : BusSound b) (id : ℕ) : BusSound (b.step (.receive id)) := by
  rw [Bus.step]
  cases hs : b.heap id with
  | none =>
    have hsame : Function.update b.heap id none = b.heap := by
      rw [← hs, Function.update_eq_self]
    rw [Option.map_none, hsame]
    exact h
  | some s =>
    obtain ⟨hfilters, hcloses, htally⟩ := s.receive_same
    rw [Option.map_some]
    apply h.update hs hfilters h.closing
    · intro i t ht
      by_cases heq : i = id
      · subst heq
        rw [Function.update_self] at ht
        rw [← Option.some.inj ht]
        exact (h.sub i s hs).receive_sound.congr Iff.rfl rfl
      · rw [Function.update_of_ne heq] at ht
        exact (h.sub i t ht).congr Iff.rfl rfl
    · intro call f hf
      apply (h.flight call f hf).update hs (htally call)
      intro _ hopen
      rw [hcloses, hopen]

theorem bus_step_sound (e : BusEvent) (h : BusSound b) (hm : b.Meets e) : BusSound (b.step e) := by
  cases e with
  | subscribe filters buffer | subscribeFunc filters => exact add_sound h _ _
  | unsubscribe id => exact unsubscribe_sound h hm
  | unsubscribed => exact unsubscribed_sound h
  | publish msg => exact publish_sound h hm
  | deliver id msg => exact deliver_sound h id msg
  | send call id => exact send_sound h call id
  | receive id => exact receive_sound h id

theorem bus_run_sound {es : List BusEvent} (h : Along Bus.step Bus.Meets newBus es) :
    BusSound (run Bus.step newBus es) :=
  run_invariant (fun _ e hs hm => bus_step_sound e hs hm) newBus_sound h

theorem step_flight (e : BusEvent) (hf : b.flights[call]? = some f) :
    ∃ f', (b.step e).flights[call]? = some f' ∧ f'.msg = f.msg ∧ f'.targets = f.targets := by
  have happend : ∀ g, ∃ f', (b.flights ++ [g])[call]? = some f' ∧ f'.msg = f.msg ∧
      f'.targets = f.targets := by
    intro g
    exact ⟨f, (List.getElem?_append_left (List.getElem?_eq_some_iff.mp hf).1).trans hf, rfl, rfl⟩
  have hadd : ∀ filters capacity, (b.add filters capacity).flights = b.flights := by
    intro filters capacity
    rw [Bus.add]
    split
    · rfl
    · rfl
  cases e with
  | subscribe filters buffer | subscribeFunc filters =>
    exact ⟨f, (congrArg (·[call]?) (hadd _ _)).trans hf, rfl, rfl⟩
  | unsubscribe id =>
    rw [Bus.step, Bus.unsubscribe]
    split
    · exact ⟨f, hf, rfl, rfl⟩
    · exact ⟨f, hf, rfl, rfl⟩
  | unsubscribed =>
    rw [Bus.step, Bus.unsubscribed]
    split
    · exact ⟨f, hf, rfl, rfl⟩
    · exact ⟨f, hf, rfl, rfl⟩
  | publish msg => exact happend _
  | deliver id msg =>
    rw [Bus.step]
    split
    · exact ⟨f, hf, rfl, rfl⟩
    · exact happend _
  | send k id =>
    rw [Bus.step, Bus.send]
    split
    · rename_i g s hg hs
      split
      · split
        · exact ⟨f, hf, rfl, rfl⟩
        · by_cases hk : k = call
          · subst hk
            obtain rfl := Option.some.inj (hf.symm.trans hg)
            exact ⟨_, List.getElem?_set_self (List.getElem?_eq_some_iff.mp hf).1, rfl, rfl⟩
          · exact ⟨f, (List.getElem?_set_ne hk).trans hf, rfl, rfl⟩
      · exact ⟨f, hf, rfl, rfl⟩
    · exact ⟨f, hf, rfl, rfl⟩
  | receive id => exact ⟨f, hf, rfl, rfl⟩

theorem update_filters {i : ℕ} {t' : Option Sub}
    (hs : heap i = some s) (ht : id = i → ∃ u, t' = some u ∧ u.filters = s.filters) :
    ∃ s', Function.update heap id t' i = some s' ∧ s'.filters = s.filters := by
  by_cases heq : id = i
  · obtain ⟨u, rfl, hu⟩ := ht heq
    exact ⟨u, by rw [heq, Function.update_self], hu⟩
  · exact ⟨s, (Function.update_of_ne (Ne.symm heq) ..).trans hs, rfl⟩

theorem step_filters (h : BusSound b) (e : BusEvent) (hs : b.heap id = some s) :
    ∃ s', (b.step e).heap id = some s' ∧ s'.filters = s.filters := by
  have hadd : ∀ filters capacity, ∃ s', (b.add filters capacity).heap id = some s' ∧
      s'.filters = s.filters := by
    intro filters capacity
    rw [Bus.add]
    split
    · exact ⟨s, hs, rfl⟩
    · exact ⟨s, (Function.update_of_ne (ne_next h (by rw [hs]; rfl)) ..).trans hs, rfl⟩
  cases e with
  | subscribe filters buffer | subscribeFunc filters => exact hadd _ _
  | unsubscribe i =>
    rw [Bus.step, Bus.unsubscribe]
    split
    · exact ⟨s, hs, rfl⟩
    · apply update_filters hs
      rintro rfl
      rw [hs]
      exact ⟨_, rfl, s.close_filters⟩
  | unsubscribed =>
    rw [Bus.step, Bus.unsubscribed]
    split
    · exact ⟨s, hs, rfl⟩
    · exact ⟨s, hs, rfl⟩
  | publish msg => exact ⟨s, hs, rfl⟩
  | deliver i msg =>
    rw [Bus.step]
    split
    · exact ⟨s, hs, rfl⟩
    · exact ⟨s, hs, rfl⟩
  | send call i =>
    rw [Bus.step, Bus.send]
    split
    · rename_i f t hf ht
      split
      · rename_i htodo
        obtain ⟨t', ht', hclose⟩ := (h.flight call f hf).pending i htodo
        obtain rfl := Option.some.inj (ht.symm.trans ht')
        obtain ⟨t', hd, hdel⟩ := Sub.deliver_cases hclose call f.msg
        rw [hd]
        apply update_filters hs
        rintro rfl
        obtain rfl := Option.some.inj (hs.symm.trans ht)
        exact ⟨t', rfl, hdel.filters⟩
      · exact ⟨s, hs, rfl⟩
    · exact ⟨s, hs, rfl⟩
  | receive i =>
    apply update_filters hs
    rintro rfl
    rw [hs]
    exact ⟨_, rfl, s.receive_same.1⟩

/-- What is known of a call of `Publish` from its start on. -/
structure Published (call : ℕ) (msg : Message) (targets : List ℕ) (id : ℕ) (filters : List Bytes)
    (b : Bus) : Prop where
  sound : BusSound b
  flight : ∃ f, b.flights[call]? = some f ∧ f.msg = msg ∧ f.targets = targets
  sub : ∃ s, b.heap id = some s ∧ s.filters = filters

private theorem published_step {msg : Message} {targets : List ℕ} {filters : List Bytes}
    (e : BusEvent) (h : Published call msg targets id filters b) (hm : b.Meets e) :
    Published call msg targets id filters (b.step e) := by
  obtain ⟨f, hf, hmsg, htargets⟩ := h.flight
  obtain ⟨s, hs, hfilters⟩ := h.sub
  obtain ⟨f', hf', hmsg', htargets'⟩ := step_flight e hf
  obtain ⟨s', hs', hfilters'⟩ := step_filters h.sound e hs
  exact ⟨bus_step_sound e h.sound hm, ⟨f', hf', hmsg'.trans hmsg, htargets'.trans htargets⟩,
    ⟨s', hs', hfilters'.trans hfilters⟩⟩

/-- The channel of the subscriber holds as many messages as it can. -/
def Bus.Full (b : Bus) (id : ℕ) : Prop :=
  ∃ s, b.heap id = some s ∧ s.capacity = some s.buffer.length

theorem Sub.deliver_dropped {k : ℕ} {msg : Message} (h : s.deliver call msg = some s')
    (hk : k ∈ s'.dropped) : k ∈ s.dropped ∨
      (k = call ∧ ∃ capacity, s.capacity = some capacity ∧ capacity ≤ s.buffer.length) := by
  rw [Sub.deliver] at h
  cases hcap : s.capacity with
  | none =>
    rw [hcap] at h
    rw [← Option.some.inj h] at hk
    exact .inl hk
  | some capacity =>
    rw [hcap] at h
    dsimp only at h
    split at h
    · cases h
    · split at h
      · rw [← Option.some.inj h] at hk
        exact .inl hk
      · rename_i hfull
        rw [← Option.some.inj h] at hk
        rcases mem_cons.mp hk with rfl | hk
        · exact .inr ⟨rfl, capacity, rfl, Nat.le_of_not_lt hfull⟩
        · exact .inl hk

/-- A message is dropped only by a send on a full channel. -/
theorem step_dropped (h : BusSound b) (e : BusEvent) (hs : (b.step e).heap id = some s)
    (hcall : call ∈ s.dropped) :
    (∃ t, b.heap id = some t ∧ call ∈ t.dropped) ∨ (e = .send call id ∧ b.Full id) := by
  have hupdate : ∀ {i : ℕ} {g : Sub → Sub}, (∀ t, (g t).dropped = t.dropped) →
      Function.update b.heap i ((b.heap i).map g) id = some s →
        ∃ t, b.heap id = some t ∧ call ∈ t.dropped := by
    intro i g hg hs
    by_cases hi : id = i
    · subst hi
      rw [Function.update_self] at hs
      obtain ⟨t, ht, rfl⟩ := Option.map_eq_some_iff.mp hs
      exact ⟨t, ht, hg t ▸ hcall⟩
    · rw [Function.update_of_ne hi] at hs
      exact ⟨s, hs, hcall⟩
  have hadd : ∀ filters capacity, (b.add filters capacity).heap id = some s →
      ∃ t, b.heap id = some t ∧ call ∈ t.dropped := by
    intro filters capacity hs
    rw [Bus.add] at hs
    split at hs
    · exact ⟨s, hs, hcall⟩
    · dsimp only at hs
      by_cases hi : id = b.next + 1
      · rw [hi, Function.update_self] at hs
        rw [← Option.some.inj hs] at hcall
        cases hcall
      · rw [Function.update_of_ne hi] at hs
        exact ⟨s, hs, hcall⟩
  cases e with
  | subscribe filters buffer | subscribeFunc filters => exact .inl (hadd _ _ hs)
  | unsubscribe i =>
    left
    rw [Bus.step, Bus.unsubscribe] at hs
    split at hs
    · exact ⟨s, hs, hcall⟩
    · refine hupdate ?_ hs
      intro t
      rw [Sub.close]
      split
      · rfl
      · rfl
  | unsubscribed =>
    left
    rw [Bus.step, Bus.unsubscribed] at hs
    split at hs
    · exact ⟨s, hs, hcall⟩
    · exact ⟨s, hs, hcall⟩
  | publish msg => exact .inl ⟨s, hs, hcall⟩
  | deliver i msg =>
    left
    rw [Bus.step] at hs
    split at hs
    · exact ⟨s, hs, hcall⟩
    · exact ⟨s, hs, hcall⟩
  | send k i =>
    rw [Bus.step, Bus.send] at hs
    split at hs
    · rename_i f t hf ht
      split at hs
      · split at hs
        · exact .inl ⟨s, hs, hcall⟩
        · rename_i t' hdel
          by_cases hi : id = i
          · subst hi
            dsimp only at hs
            rw [Function.update_self] at hs
            rw [← Option.some.inj hs] at hcall
            rcases Sub.deliver_dropped hdel hcall with hold | ⟨rfl, capacity, hcap, hle⟩
            · exact .inl ⟨t, ht, hold⟩
            · have hroom := (h.sub id t ht).room capacity hcap
              exact .inr ⟨rfl, t, ht, by rw [hcap, Nat.le_antisymm hle hroom]⟩
          · dsimp only at hs
            rw [Function.update_of_ne hi] at hs
            exact .inl ⟨s, hs, hcall⟩
      · exact .inl ⟨s, hs, hcall⟩
    · exact .inl ⟨s, hs, hcall⟩
  | receive i =>
    left
    refine hupdate ?_ hs
    intro t
    rw [Sub.receive]
    split
    · rfl
    · rfl

/-- The run has a send of the call to the subscriber at which its channel is full. -/
def FullAt (es : List BusEvent) (call id : ℕ) : Prop :=
  ∃ before after, es = before ++ .send call id :: after ∧ (run Bus.step newBus before).Full id

theorem run_dropped {es : List BusEvent} (h : Along Bus.step Bus.Meets newBus es)
    (hs : (run Bus.step newBus es).heap id = some s) (hcall : call ∈ s.dropped) : FullAt es call id := by
  have horigin := run_origin (P := fun b : Bus => ∃ t, b.heap id = some t ∧ call ∈ t.dropped)
    (C := fun b e => e = .send call id ∧ b.Full id) (fun _ e hb hm => bus_step_sound e hb hm)
    (fun b e hb ⟨t, ht, hmem⟩ => step_dropped hb e ht hmem) newBus_sound h ⟨s, hs, hcall⟩
  rcases horigin with ⟨t, ht, -⟩ | ⟨before, e, after, rfl, rfl, hfull⟩
  · cases ht
  · exact ⟨before, after, rfl, hfull⟩

def Sub.ReceivedOnce (s : Sub) (call : ℕ) (msg : Message) : Prop :=
  (call, msg) ∈ s.received ∧ (s.received.map Prod.fst).count call = 1 ∧ call ∉ s.dropped

/-- The channel of the subscriber was full at the send of the call, and its overflow channel is
closed. -/
def Sub.DroppedOnce (s : Sub) (es : List BusEvent) (call id : ℕ) : Prop :=
  s.capacity.isSome = true ∧ call ∉ s.received.map Prod.fst ∧ s.dropped.count call = 1 ∧
    FullAt es call id ∧ s.overflowCloses = 1

theorem received_or_dropped {es : List BusEvent} (h : SubSound b id s)
    (hfull : ∀ call ∈ s.dropped, FullAt es call id)
    (hf : b.flights[call]? = some f) (hone : s.tally call = 1) :
    s.ReceivedOnce call f.msg ∨ s.DroppedOnce es call id := by
  rw [Sub.tally] at hone
  rcases Nat.eq_zero_or_pos (s.dropped.count call) with hzero | hpos
  · left
    have hcount : (s.received.map Prod.fst).count call = 1 := by omega
    obtain ⟨e, he, rfl⟩ := mem_map.mp (count_pos_iff.mp (hcount ▸ Nat.zero_lt_one))
    obtain ⟨g, hg, hmsg⟩ := h.calls e he
    obtain rfl := Option.some.inj (hg.symm.trans hf)
    refine ⟨?_, hcount, count_eq_zero.mp hzero⟩
    rw [hmsg]
    exact he
  · right
    have hmem := count_pos_iff.mp hpos
    have hne : s.dropped ≠ [] := ne_nil_of_mem hmem
    refine ⟨?_, count_eq_zero.mp (by omega), by omega, hfull call hmem, ?_⟩
    · cases hcap : s.capacity with
      | none => exact absurd (h.func hcap) hne
      | some capacity => rfl
    · rw [h.overflow, if_neg hne]

/-- A subscriber with two filters that match the messages and room for one of them, and one whose
filter does not match. -/
def plainRun : List BusEvent :=
  [.subscribe [ascii "a/+", ascii "#"] 1, .subscribeFunc [ascii "b"],
    .publish ⟨ascii "a/b", ascii "1"⟩, .send 0 1, .publish ⟨ascii "a/c", ascii "2"⟩, .send 1 1,
    .unsubscribe 1, .unsubscribed]

/-- A channel is closed after a publish has taken its snapshot and before it sends. -/
def closedUnderSend : List BusEvent :=
  [.subscribe [ascii "a"] 1, .publish ⟨ascii "a", ascii "1"⟩, .unsubscribe 1, .unsubscribed,
    .send 0 1]

end MonsterMQ.Pubsub
