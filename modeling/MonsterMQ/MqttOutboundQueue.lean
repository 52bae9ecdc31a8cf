import MonsterMQ.RingSlots

/-!
# The outbound queue

The ring of `internal/mqtt/outbound_queue.go` against the queue it stands for: a list with a
limit, in which a packet that was taken can be put back in front.
-/

namespace MonsterMQ.Mqtt

open StateRuns RingSlots List

def outboundQueueMinCap : ℕ := 16
def outboundQueueIdleCap : ℕ := 256

/-- An empty slot is `none`, and `notify` says whether its channel holds a token. -/
structure OutboundQueue (α : Type) where
  ring : List (Option α)
  head : ℕ
  n : ℕ
  max : ℕ
  notify : Bool

namespace OutboundQueue

variable {α : Type}

def newOutboundQueue (max : ℕ) : OutboundQueue α := ⟨[], 0, 0, max, false⟩

def grow (q : OutboundQueue α) : OutboundQueue α :=
  let size := Max.max outboundQueueMinCap (2 * q.ring.length)
  let size := min size (Max.max q.max (q.n + 1))
  { q with
    ring := (range size).map fun i => if i < q.n then q.ring.getD ((q.head + i) % q.ring.length) none else none
    head := 0 }

def withRoom (q : OutboundQueue α) : OutboundQueue α := if q.n = q.ring.length then q.grow else q

def signal (q : OutboundQueue α) : OutboundQueue α := { q with notify := true }

/-- `push` up to its unlock: the signal comes after it. -/
def pushLocked (q : OutboundQueue α) (pk : α) : OutboundQueue α × Bool :=
  if q.n ≥ q.max then (q, false)
  else
    let q := q.withRoom
    ({ q with ring := q.ring.set ((q.head + q.n) % q.ring.length) (some pk), n := q.n + 1 }, true)

def push (q : OutboundQueue α) (pk : α) : OutboundQueue α × Bool :=
  let (q, room) := q.pushLocked pk
  if room then (q.signal, true) else (q, false)

def pushFrontLocked (q : OutboundQueue α) (pk : α) : OutboundQueue α :=
  let q := q.withRoom
  let head := (q.head + q.ring.length - 1) % q.ring.length
  { q with ring := q.ring.set head (some pk), head := head, n := q.n + 1 }

def pushFront (q : OutboundQueue α) (pk : α) : OutboundQueue α := (q.pushFrontLocked pk).signal

def pop (q : OutboundQueue α) : OutboundQueue α × Option (Option α) :=
  if q.n = 0 then (q, none)
  else
    let pk := q.ring.getD q.head none
    let ring := q.ring.set q.head none
    if q.n - 1 = 0 then
      ({ q with
        ring := if ring.length > outboundQueueIdleCap then [] else ring
        head := 0
        n := 0 }, some pk)
    else
      ({ q with ring := ring, head := (q.head + 1) % ring.length, n := q.n - 1 }, some pk)

inductive Op (α : Type) where
  | push (pk : α)
  | pushFront (pk : α)
  | pop

inductive Answer (α : Type) where
  | pushed (room : Bool)
  | putBack
  | popped (slot : Option (Option α))

def step (q : OutboundQueue α) : Op α → OutboundQueue α × Answer α
  | .push pk => ((q.push pk).1, .pushed (q.push pk).2)
  | .pushFront pk => (q.pushFront pk, .putBack)
  | .pop => (q.pop.1, .popped q.pop.2)

/-- The same operations on a list of at most `max` packets, not counting those put back. -/
def listStep (max : ℕ) (l : List α) : Op α → List α × Answer α
  | .push pk => if l.length ≥ max then (l, .pushed false) else (l ++ [pk], .pushed true)
  | .pushFront pk => (pk :: l, .putBack)
  | .pop => (l.tail, .popped (l.head?.map some))

/-- Read from `head` on, the ring is the list and then empty slots; a drained queue keeps a small one. -/
structure Holds (q : OutboundQueue α) (max : ℕ) (l : List α) : Prop where
  max : q.max = max
  n : q.n = l.length
  slots : ∃ k, q.ring.rotate q.head = l.map some ++ replicate k none
  head : q.head < q.ring.length ∨ q.head = 0
  idle : l = [] → q.ring.length ≤ outboundQueueIdleCap

variable {q : OutboundQueue α} {max : ℕ} {l : List α}

theorem grow_ring (h : q.n = q.ring.length) :
    ∃ k, q.grow.ring = q.ring.rotate q.head ++ replicate (k + 1) none := by
  have hsize : q.ring.length < min (Max.max outboundQueueMinCap (2 * q.ring.length)) (Max.max q.max (q.n + 1)) := by
    rw [outboundQueueMinCap]
    omega
  obtain ⟨k, hk⟩ := Nat.exists_eq_add_of_lt hsize
  refine ⟨k, ext_getElem? fun i => ?_⟩
  rw [grow, hk, getElem?_map, getElem?_append, length_rotate]
  by_cases hi : i < q.ring.length
  · rw [getElem?_range (by omega), Option.map_some, if_pos (by omega), if_pos hi, getElem?_rotate hi, Nat.add_comm i,
      getD_eq_getElem?_getD, getElem?_eq_getElem (Nat.mod_lt _ (by omega)), Option.getD_some]
  · rw [if_neg hi]
    by_cases hi' : i < q.ring.length + k + 1
    · rw [getElem?_range hi', Option.map_some, if_neg (by omega), getElem?_replicate_of_lt (by omega)]
    · rw [getElem?_eq_none (by simpa using hi'), getElem?_eq_none (by simp; omega), Option.map_none]

section

variable (h : q.Holds max l)
include h

/-- With room, the first of the empty slots is free. -/
theorem Holds.room : q.withRoom.max = max ∧ q.withRoom.n = l.length ∧
    q.withRoom.head < q.withRoom.ring.length ∧
    ∃ k, q.withRoom.ring.rotate q.withRoom.head = l.map some ++ replicate (k + 1) none := by
  obtain ⟨k, hk⟩ := h.slots
  have hlen := congrArg length hk
  rw [length_rotate, length_append, length_map, length_replicate] at hlen
  rw [withRoom]
  by_cases hfull : q.n = q.ring.length
  · rw [if_pos hfull]
    obtain ⟨j, hj⟩ := grow_ring hfull
    have hk0 : k = 0 := by have := h.n; omega
    rw [hk, hk0, replicate_zero, append_nil] at hj
    refine ⟨h.max, h.n, ?_, j, ?_⟩
    · rw [hj, length_append, length_replicate]
      exact Nat.lt_add_left _ (Nat.succ_pos j)
    · rw [hj]
      exact rotate_zero _
  · rw [if_neg hfull]
    have hn := h.n
    obtain ⟨j, rfl⟩ : ∃ j, k = j + 1 := ⟨k - 1, by omega⟩
    exact ⟨h.max, h.n, h.head.elim id fun h0 => by omega, j, hk⟩

theorem Holds.signal : q.signal.Holds max l := ⟨h.max, h.n, h.slots, h.head, h.idle⟩

theorem Holds.push (pk : α) : (q.step (.push pk)).1.Holds max (listStep max l (.push pk)).1 ∧
      (q.step (.push pk)).2 = (listStep max l (.push pk)).2 := by
  rw [step, listStep, OutboundQueue.push, pushLocked, h.max, h.n]
  by_cases hlimit : l.length ≥ max
  · rw [if_pos hlimit, if_pos hlimit]
    exact ⟨h, rfl⟩
  · rw [if_neg hlimit, if_neg hlimit]
    obtain ⟨hmax, hn, hhead, k, hk⟩ := h.room
    have hlen := congrArg length hk
    rw [length_rotate, length_append, length_map, length_replicate] at hlen
    refine ⟨Holds.signal ⟨hmax, ?_, ⟨k, ?_⟩, .inl ?_, ?_⟩, rfl⟩
    · rw [length_append, length_singleton, ← hn]
    · change (q.withRoom.ring.set _ _).rotate q.withRoom.head = _
      rw [hn, set_rotate (by omega), hk, set_append_right _ _ (by rw [length_map]), length_map, Nat.sub_self,
        replicate_succ, set_cons_zero, map_append, append_assoc]
      rfl
    · rw [length_set]
      exact hhead
    · intro hnil
      simp at hnil

theorem Holds.pushFront (pk : α) : (q.pushFront pk).Holds max (pk :: l) := by
  obtain ⟨hmax, hn, hhead, k, hk⟩ := h.room
  have hslot := Nat.mod_lt (q.withRoom.head + q.withRoom.ring.length - 1) (Nat.zero_lt_of_lt hhead)
  rw [replicate_succ', ← append_assoc] at hk
  refine Holds.signal ⟨hmax, congrArg (· + 1) hn, ⟨k, ?_⟩, .inl ?_, nofun⟩
  · exact (set_rotate_start hslot _).trans (by rw [rotate_back hk]; rfl)
  · change _ < (set _ _ _).length
    rwa [length_set]

theorem Holds.pop : q.pop.1.Holds max l.tail ∧ q.pop.2 = l.head?.map some := by
  rw [OutboundQueue.pop, h.n]
  cases l with
  | nil => exact ⟨h, rfl⟩
  | cons x l =>
    rw [if_neg (by simp)]
    obtain ⟨k, hk⟩ := h.slots
    have hlen := congrArg length hk
    rw [length_rotate, length_append, length_map, length_cons] at hlen
    have hhead : q.head < q.ring.length := h.head.elim id fun h0 => by omega
    have hfirst : q.ring.getD q.head none = some x := by
      rw [getD_eq_getElem?_getD, ← head?_rotate hhead, hk]
      rfl
    have hset := set_rotate_start hhead none
    rw [hk, map_cons, cons_append, set_cons_zero] at hset
    have hnext : (q.ring.set q.head none).rotate (q.head + 1) = l.map some ++ replicate (k + 1) none := by
      rw [← rotate_rotate, hset, rotate_cons_succ, rotate_zero, append_assoc, replicate_succ']
    dsimp only
    rw [hfirst]
    by_cases hlast : (x :: l).length - 1 = 0
    · rw [if_pos hlast]
      have hl : l = [] := length_eq_zero_iff.mp hlast
      have hnone : q.ring.set q.head none = replicate (k + 1) none := by
        apply rotate_injective (q.head + 1)
        change rotate _ _ = rotate _ _
        rw [hnext, hl, rotate_replicate]
        rfl
      refine ⟨⟨h.max, by rw [hl]; rfl, ?_, .inr rfl, fun _ => ?_⟩, rfl⟩
      · dsimp only
        rw [rotate_zero, hnone, hl]
        split
        · exact ⟨0, rfl⟩
        · exact ⟨k + 1, rfl⟩
      · dsimp only
        split <;> simp_all
    · rw [if_neg hlast]
      refine ⟨⟨h.max, rfl, ⟨k + 1, ?_⟩, .inl ?_, fun hnil => ?_⟩, rfl⟩
      · dsimp only
        rw [rotate_mod, hnext]
        rfl
      · exact Nat.mod_lt _ (by rw [length_set]; omega)
      · exact absurd (by rw [show l = [] from hnil]; rfl) hlast

end

/-- Whatever is pushed, put back and taken, in whatever order, the ring answers as the list does
and holds it. -/
theorem run_refines_list (max : ℕ) (ops : List (Op α)) :
    answers step (newOutboundQueue max) ops = answers (listStep max) [] ops ∧
      (run (fun q op => (step q op).1) (newOutboundQueue max) ops).Holds max
        (run (fun l op => (listStep max l op).1) [] ops) := by
  refine answers_eq (R := fun (q : OutboundQueue α) l => q.Holds max l) ?_ ?_ ops
  · intro q l op h
    cases op with
    | push pk => exact h.push pk
    | pushFront pk => exact ⟨h.pushFront pk, rfl⟩
    | pop => exact ⟨h.pop.1, congrArg Answer.popped h.pop.2⟩
  · exact ⟨rfl, rfl, ⟨0, rfl⟩, .inr rfl, fun _ => Nat.zero_le _⟩

end OutboundQueue

/-- Where `WriteLoop` stands: at its select, in a turn, or before it looks whether anything is left. -/
inductive LoopPhase where
  | select
  | turn
  | recheck
deriving DecidableEq

structure WriteLoop (α : Type) where
  queue : OutboundQueue α
  signalling : ℕ
  connackSent : Bool
  phase : LoopPhase

namespace WriteLoop

variable {α : Type}

inductive Turn (α : Type) where
  | push (pk : α)
  | signal
  | wake
  | control
  | connack
  | pop
  | putBack (pk : α)
  | endTurn
  | recheck

def new (max : ℕ) : WriteLoop α := ⟨.newOutboundQueue max, 0, false, .select⟩

/-- A turn that cannot be taken changes nothing. -/
def step (s : WriteLoop α) : Turn α → WriteLoop α
  | .push pk =>
    let (q, room) := s.queue.pushLocked pk
    { s with queue := q, signalling := if room then s.signalling + 1 else s.signalling }
  | .signal =>
    if s.signalling = 0 then s
    else { s with queue := s.queue.signal, signalling := s.signalling - 1 }
  | .wake =>
    if s.phase = .select && s.connackSent && s.queue.notify then
      { s with
        queue := { s.queue with notify := false }
        phase := .turn }
    else s
  | .control => if s.phase = .select then { s with phase := .turn } else s
  | .connack => if s.phase = .turn then { s with connackSent := true } else s
  | .pop => if s.phase = .turn && s.connackSent then { s with queue := s.queue.pop.1 } else s
  | .putBack pk =>
    if s.phase = .turn then
      { s with queue := s.queue.pushFrontLocked pk, signalling := s.signalling + 1 }
    else s
  | .endTurn => if s.phase = .turn then { s with phase := .recheck } else s
  | .recheck =>
    if s.phase = .recheck then
      { s with
        queue := if s.connackSent && s.queue.n > 0 then s.queue.signal else s.queue
        phase := .select }
    else s

/-- At the select, a packet in the queue has a token, or one on its way. -/
def Woken (s : WriteLoop α) : Prop :=
  s.phase = .select → s.connackSent = true → 0 < s.queue.n → s.queue.notify = true ∨ 0 < s.signalling

variable {s : WriteLoop α}

theorem Woken.step (h : s.Woken) (turn : Turn α) : (s.step turn).Woken := by
  cases turn with
  | push pk =>
    intro hphase hsent hn
    by_cases hfull : s.queue.n ≥ s.queue.max
    · simp only [WriteLoop.step, OutboundQueue.pushLocked, if_pos hfull] at hn ⊢
      exact h hphase hsent hn
    · simp [WriteLoop.step, OutboundQueue.pushLocked, if_neg hfull]
  | signal =>
    rw [WriteLoop.step]
    split
    · exact h
    · exact fun _ _ _ => .inl rfl
  | recheck =>
    rw [WriteLoop.step]
    split
    · intro _ hsent hn
      left
      dsimp only at hsent hn ⊢
      split
      · rfl
      · next hno =>
        rw [if_neg hno] at hn
        exact absurd (by simp [hsent, hn]) hno
    · exact h
  | wake | control | endTurn =>
    rw [WriteLoop.step]
    split
    · exact nofun
    · exact h
  | connack | pop | putBack =>
    rw [WriteLoop.step]
    split
    · next hturn =>
      intro hphase
      simp_all
    · exact h

/-- The writer ends its turn and its look, the signals under way are made, and it wakes and takes a packet. -/
def serve (s : WriteLoop α) : List (Turn α) :=
  [.endTurn, .recheck] ++ replicate s.signalling .signal ++ [.wake, .pop]

private theorem run_signal (s : WriteLoop α) : run step s (replicate s.signalling .signal) = { s with
      queue := if s.signalling = 0 then s.queue else s.queue.signal
      signalling := 0 } := by
  obtain ⟨q, k, sent, phase⟩ := s
  induction k generalizing q with
  | zero => rfl
  | succ k ih =>
    rw [replicate_succ, run_cons]
    refine (ih q.signal).trans ?_
    simp [OutboundQueue.signal]

private theorem pop_n (q : OutboundQueue α) : q.pop.1.n = q.n - 1 := by
  rw [OutboundQueue.pop]
  split
  · next hn => exact hn.trans (by rw [hn])
  · dsimp only
    split <;> simp <;> omega

private theorem recheck_endTurn (s : WriteLoop α) : ∃ q : OutboundQueue α, q.n = s.queue.n ∧
    (s.step .endTurn).step .recheck = ⟨q, s.signalling, s.connackSent, .select⟩ := by
  obtain ⟨q, k, sent, phase⟩ := s
  cases phase with
  | select => exact ⟨q, rfl, rfl⟩
  | turn | recheck => exact ⟨if sent && q.n > 0 then q.signal else q, by split <;> rfl, rfl⟩

theorem serve_takes (h : s.Woken) (hsent : s.connackSent = true) :
    (run step s s.serve).queue.n = s.queue.n - 1 := by
  obtain ⟨q₁, hn, heq⟩ := recheck_endTurn s
  have hselect := (h.step .endTurn).step .recheck
  rw [serve, run_append, run_append, ← hn]
  change (run step (run step ((s.step .endTurn).step .recheck) _) _).queue.n = _
  rw [heq, hsent] at hselect ⊢
  have htoken := run_always (P := Woken) (fun _ turn h => h.step turn) hselect (replicate s.signalling .signal)
  rw [run_signal ⟨q₁, s.signalling, true, .select⟩] at htoken ⊢
  dsimp only at htoken ⊢
  have hcount : (if s.signalling = 0 then q₁ else q₁.signal).n = q₁.n := by split <;> rfl
  rw [← hcount]
  generalize (if s.signalling = 0 then q₁ else q₁.signal) = q at htoken ⊢
  rw [run_cons, run_cons, run_nil, step]
  by_cases hnotify : q.notify = true
  · rw [if_pos (by simp [hnotify]), step, if_pos (by simp)]
    exact pop_n _
  · have hnone : ¬ 0 < q.n := fun hpos => hnotify ((htoken rfl rfl hpos).resolve_right (lt_irrefl 0))
    rw [if_neg (by simp [hnotify]), step, if_neg (by simp)]
    dsimp only
    omega

/-- In every interleaving of pushes, signals and the writer's turns, no packet is left at the select
without a token, and with the signals under way made the writer alone takes one packet more. -/
theorem run_wakes (max : ℕ) (turns : List (Turn α)) : (run step (new max) turns).Woken ∧
    ((run step (new max) turns).connackSent = true →
      (run step (run step (new max) turns) (run step (new max) turns).serve).queue.n =
        (run step (new max) turns).queue.n - 1) := by
  have hwoken : (run step (new max) turns).Woken :=
    run_always (P := Woken) (fun _ turn h => h.step turn) (fun _ hsent => absurd hsent Bool.false_ne_true) turns
  exact ⟨hwoken, serve_takes hwoken⟩

end WriteLoop

end MonsterMQ.Mqtt
