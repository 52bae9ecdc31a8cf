import MonsterMQ.IndexedLists
import MonsterMQ.PeerLinkLog
import MonsterMQ.StateRuns

/-!
# Long polls on a PeerLink log

The waiters of `internal/peerlink/log.go`: registration (`Wait`, `Unwait`), the wake loop that `AppendMask`
runs when the log end reaches the least offset waited for, and `Close`.
-/

namespace MonsterMQ.PeerLink

open LittleEndian IndexedLists

/-- A log and its waiters. The fields of a `LogWaiter` are kept by waiter: the offset waited for, the
position in `waiters` and whether the channel holds a token. -/
structure WaitLog (ω : Type) where
  log : Log
  closed : Bool
  waiters : List ω
  minWakeAt : ℕ
  wakeAt : ω → ℕ
  idx : ω → Option ℕ
  notify : ω → Bool

def maxUint64 : ℕ := 2 ^ 64 - 1

namespace WaitLog

variable {ω : Type} [DecidableEq ω]

/-- A log without registrations; every waiter is as `NewLogWaiter` returns it. -/
def new (l : Log) : WaitLog ω :=
  ⟨l, false, [], maxUint64, fun _ => 0, fun _ => none, fun _ => false⟩

def removeWaiterLocked (s : WaitLog ω) (i : ℕ) : WaitLog ω :=
  match s.waiters[i]?, s.waiters[s.waiters.length - 1]? with
  | some w, some last =>
    { s with waiters := swapRemove s.waiters i last, idx := swapRemoveIdx s.waiters s.idx w i last }
  | _, _ => s

/-- Put a token into a waiter's channel; a full channel stays as it is. -/
def signal (s : WaitLog ω) (w : ω) : WaitLog ω := { s with notify := Function.update s.notify w true }

/-- The loop of `wakeDueLocked` at position `i`, with `n` positions left: every turn advances or
removes one waiter. -/
def wakeLoop : ℕ → ℕ → ℕ → WaitLog ω → WaitLog ω × ℕ
  | 0, _, minWake, s => (s, minWake)
  | n + 1, i, minWake, s =>
    match s.waiters[i]? with
    | none => (s, minWake)
    | some w =>
      if s.wakeAt w > s.log.leo then wakeLoop n (i + 1) (min minWake (s.wakeAt w)) s
      else wakeLoop n i minWake ((s.signal w).removeWaiterLocked i)

@[grind =] def wakeDueLocked (s : WaitLog ω) : WaitLog ω :=
  let (s, minWake) := wakeLoop s.waiters.length 0 maxUint64 s
  { s with minWakeAt := minWake }

/-- `AppendMask` with its wake-up; without consumers it returns before that. -/
def appendMask (s : WaitLog ω) (frame : Bytes) (kind : LogKind) (mask : Mask) : WaitLog ω :=
  let (l, off, _) := s.log.appendMask frame kind mask
  let s' := { s with log := l }
  if off.isSome && !s.log.consumers.isEmpty && decide (s'.minWakeAt ≤ l.leo) then s'.wakeDueLocked else s'

@[grind =] def wait (s : WaitLog ω) (w : ω) (wakeAt : ℕ) : WaitLog ω × Bool :=
  if s.closed || decide (wakeAt ≤ s.log.leo) then (s, false)
  else
    let s := { s with wakeAt := Function.update s.wakeAt w wakeAt }
    let s :=
      if s.idx w = none then
        { s with idx := Function.update s.idx w (some s.waiters.length), waiters := s.waiters ++ [w] }
      else s
    ({ s with minWakeAt := min s.minWakeAt wakeAt }, true)

def unwait (s : WaitLog ω) (w : ω) : WaitLog ω :=
  let s :=
    match s.idx w with
    | none => s
    | some i =>
      let s := s.removeWaiterLocked i
      { s with minWakeAt := s.waiters.foldl (fun m o => min m (s.wakeAt o)) maxUint64 }
  { s with notify := Function.update s.notify w false }

def close (s : WaitLog ω) : WaitLog ω :=
  if s.closed then s
  else
    { s with
      closed := true
      idx := fun w => if w ∈ s.waiters then none else s.idx w
      notify := fun w => if w ∈ s.waiters then true else s.notify w
      waiters := []
      minWakeAt := maxUint64 }

def receive (s : WaitLog ω) (w : ω) : WaitLog ω := { s with notify := Function.update s.notify w false }

end WaitLog

inductive WaitOp (ω : Type) where
  | wait (w : ω) (wakeAt : ℕ)
  | unwait (w : ω)
  | append (frame : Bytes) (kind : LogKind) (mask : Mask)
  | close
  | receive (w : ω)

namespace WaitLog

variable {ω : Type} [DecidableEq ω]

@[grind =] def step (s : WaitLog ω) : WaitOp ω → WaitLog ω
  | .wait w wakeAt => (s.wait w wakeAt).1
  | .unwait w => s.unwait w
  | .append frame kind mask => s.appendMask frame kind mask
  | .close => s.close
  | .receive w => s.receive w

section Ends

structure Ends (l l' : Log) : Prop where
  leo : l'.leo = l.leo
  consumers : l'.consumers.length = l.consumers.length

theorem Ends.rfl {l : Log} : Ends l l := ⟨Eq.refl _, Eq.refl _⟩

theorem Ends.trans {l l' l'' : Log} (h : Ends l l') (h' : Ends l' l'') : Ends l l'' :=
  ⟨h'.leo.trans h.leo, h'.consumers.trans h.consumers⟩

private theorem ends_updateLWM (l : Log) : Ends l l.updateLWMLocked.1 := by
  rw [Log.updateLWMLocked]
  simp only
  repeat' split
  all_goals exact ⟨Eq.refl _, Eq.refl _⟩

private theorem ends_evictOne (l : Log) (byCount : Bool) : Ends l (l.evictOne byCount) := by
  have hlen : (if l.masked = true then l.consumers.mapIdx (Log.accountEvict l.lso (l.maskAtLocked l.lso))
      else l.consumers).length = l.consumers.length := by
    split <;> simp
  rw [Log.evictOne]
  simp only
  split
  · exact ⟨Eq.refl _, hlen⟩
  · exact ⟨Eq.refl _, hlen⟩

theorem ends_evictLoop (n : ℕ) (l : Log) : Ends l (Log.evictLoop n l) := by
  induction n generalizing l with
  | zero => exact .rfl
  | succ n ih =>
    rw [Log.evictLoop]
    split
    · exact .rfl
    · exact (ends_evictOne l _).trans (ih _)

private theorem ends_settleAppend (l : Log) (off : ℕ) (mask : Mask) : Ends l (l.settleAppend off mask).1 := by
  have hskip : Ends l (l.skipCaughtUpLocked off mask).1 := by
    rw [Log.skipCaughtUpLocked]
    split
    · have hmoved : Ends l { l with consumers := l.consumers.mapIdx (Log.skipCaughtUp off mask) } :=
        ⟨Eq.refl _, by simp⟩
      exact hmoved.trans (ends_updateLWM _)
    · exact .rfl
  rw [Log.settleAppend]
  simp only
  repeat' split
  all_goals first
    | exact hskip.trans (ends_evictLoop _ _)
    | exact ends_evictLoop _ _
    | exact hskip
    | exact .rfl

private theorem ends_openChunk (l : Log) : Ends l l.openChunk := by
  rw [Log.openChunk]
  repeat' split
  all_goals exact ⟨Eq.refl _, Eq.refl _⟩

theorem appendMask_end (l : Log) (frame : Bytes) (kind : LogKind) (mask : Mask) :
    (l.appendMask frame kind mask).1.consumers.length = l.consumers.length ∧
      (l.appendMask frame kind mask).1.leo =
        if (l.appendMask frame kind mask).2.1.isSome then l.leo + 1 else l.leo := by
  unfold Log.appendMask
  split
  · exact ⟨Eq.refl _, by simp⟩
  split
  · exact ⟨Eq.refl _, by simp⟩
  split
  · exact ⟨Eq.refl _, by simp⟩
  simp only
  split
  · exact ⟨Eq.refl _, by simp⟩
  · have hopen := ends_openChunk { l with appended := Function.update l.appended kind (l.appended kind + 1) }
    have hsettle := fun l' : Log => ends_settleAppend (l'.openChunk.writeRecord frame mask) l.leo mask
    refine ⟨(hsettle _).consumers.trans hopen.consumers, ?_⟩
    rw [(hsettle _).leo]
    exact congrArg (· + 1) hopen.leo

end Ends

/-- A registered waiter waits at its position for an offset beyond the end, and the cached bound is at
most every offset waited for. -/
structure Sound (s : WaitLog ω) : Prop where
  indexed : Indexed s.waiters s.idx
  later : ∀ w ∈ s.waiters, s.log.leo < s.wakeAt w
  least : ∀ w ∈ s.waiters, s.minWakeAt ≤ s.wakeAt w
  closed : s.closed = true → s.waiters = []
  consumers : s.log.consumers ≠ []

omit [DecidableEq ω] in
theorem sound_new {l : Log} (h : l.consumers ≠ []) : Sound (new l : WaitLog ω) :=
  ⟨indexed_nil, by simp [new], by simp [new], by simp [new], h⟩

theorem removeWaiterLocked_spec {s : WaitLog ω} (h : Indexed s.waiters s.idx) {i : ℕ} {w : ω}
    (hi : s.waiters[i]? = some w) : ∃ last,
      s.removeWaiterLocked i = { s with
        waiters := swapRemove s.waiters i last
        idx := swapRemoveIdx s.waiters s.idx w i last } ∧
      Indexed (swapRemove s.waiters i last) (swapRemoveIdx s.waiters s.idx w i last) ∧
      ∀ v, v ∈ swapRemove s.waiters i last ↔ v ∈ s.waiters ∧ v ≠ w := by
  have hlt := (List.getElem?_eq_some_iff.mp hi).1
  obtain ⟨last, hlast⟩ : ∃ last, s.waiters[s.waiters.length - 1]? = some last :=
    ⟨_, List.getElem?_eq_getElem (by omega)⟩
  refine ⟨last, ?_, h.swapRemove hi hlast, fun v => h.mem_swapRemove hi hlast⟩
  rw [removeWaiterLocked, hi, hlast]

/-- What the wake loop leaves: the waiters for later offsets, and a token for every other. -/
structure Woken (s : WaitLog ω) (r : WaitLog ω × ℕ) : Prop where
  rest : r.1 = { s with waiters := r.1.waiters, idx := r.1.idx, notify := r.1.notify }
  indexed : Indexed r.1.waiters r.1.idx
  members : ∀ w, w ∈ r.1.waiters ↔ w ∈ s.waiters ∧ s.log.leo < s.wakeAt w
  least : ∀ w ∈ r.1.waiters, r.2 ≤ s.wakeAt w
  notify : ∀ w, r.1.notify w = true ↔
    s.notify w = true ∨ (w ∈ s.waiters ∧ s.wakeAt w ≤ s.log.leo)

theorem wakeLoop_spec (n : ℕ) : ∀ (i minWake : ℕ) (s : WaitLog ω), Indexed s.waiters s.idx →
    n + i = s.waiters.length →
    (∀ j w, j < i → s.waiters[j]? = some w → s.log.leo < s.wakeAt w ∧ minWake ≤ s.wakeAt w) →
    Woken s (wakeLoop n i minWake s) := by
  induction n with
  | zero =>
    intro i minWake s hidx hlen hseen
    have hall : ∀ w ∈ s.waiters, s.log.leo < s.wakeAt w ∧ minWake ≤ s.wakeAt w := by
      intro w hw
      obtain ⟨j, hj⟩ := List.mem_iff_getElem?.mp hw
      have hlt := (List.getElem?_eq_some_iff.mp hj).1
      exact hseen j w (by omega) hj
    refine ⟨rfl, hidx, fun w => ⟨fun hw => ⟨hw, (hall w hw).1⟩, fun hw => hw.1⟩,
      fun w hw => (hall w hw).2, fun w => ⟨.inl, ?_⟩⟩
    rintro (hw | ⟨hw, hdue⟩)
    · exact hw
    · exact absurd (hall w hw).1 (by omega)
  | succ n ih =>
    intro i minWake s hidx hlen hseen
    have hi : i < s.waiters.length := by omega
    have hw : s.waiters[i]? = some s.waiters[i] := List.getElem?_eq_getElem hi
    rw [wakeLoop, hw]
    simp only
    split
    · rename_i hlater
      apply ih _ _ s hidx (by omega)
      intro j v hj hv
      rcases Nat.lt_succ_iff_lt_or_eq.mp hj with hlt | rfl
      · have hold := hseen j v hlt hv
        exact ⟨hold.1, le_trans (min_le_left _ _) hold.2⟩
      · obtain rfl := Option.some.inj (hw.symm.trans hv)
        exact ⟨hlater, min_le_right _ _⟩
    · rename_i hdue
      obtain ⟨last, hrem, hidx', hmem⟩ := removeWaiterLocked_spec (s := s.signal s.waiters[i]) hidx hw
      have hlen' : n + i = ((s.signal s.waiters[i]).removeWaiterLocked i).waiters.length := by
        rw [hrem, length_swapRemove]
        change n + i = s.waiters.length - 1
        omega
      have hseen' : ∀ j v, j < i → ((s.signal s.waiters[i]).removeWaiterLocked i).waiters[j]? = some v →
          s.log.leo < s.wakeAt v ∧ minWake ≤ s.wakeAt v := by
        intro j v hj hv
        rw [hrem, getElem?_swapRemove] at hv
        split at hv
        · rw [if_neg (by omega)] at hv
          exact hseen j v hj hv
        · cases hv
      have hwoken := ih i minWake ((s.signal s.waiters[i]).removeWaiterLocked i) (by rw [hrem]; exact hidx')
        hlen' (by rw [hrem] at hseen' ⊢; exact hseen')
      refine ⟨hwoken.rest.trans (by rw [hrem]; rfl), hwoken.indexed, fun v => ?_, ?_, fun v => ?_⟩
      · rw [hwoken.members v, hrem, hmem v]
        constructor
        · exact fun ⟨hv, hlater⟩ => ⟨hv.1, hlater⟩
        · rintro ⟨hv, hlater⟩
          refine ⟨⟨hv, ?_⟩, hlater⟩
          rintro rfl
          exact hdue hlater
      · have hleast := hwoken.least
        rw [hrem] at hleast ⊢
        exact hleast
      · rw [hwoken.notify v, hrem, hmem v]
        by_cases hvw : v = s.waiters[i]
        · subst hvw
          refine iff_of_true (.inl ?_) (.inr ⟨List.getElem_mem hi, by omega⟩)
          simp [signal]
        · have hsame : (s.signal s.waiters[i]).notify v = s.notify v := Function.update_of_ne hvw _ _
          rw [hsame]
          constructor
          · exact Or.imp_right fun ⟨hv, hdue⟩ => ⟨hv.1, hdue⟩
          · exact Or.imp_right fun ⟨hv, hdue⟩ => ⟨⟨hv, hvw⟩, hdue⟩

theorem wakeDueLocked_spec {s : WaitLog ω} (h : Indexed s.waiters s.idx) :
    Woken s (wakeLoop s.waiters.length 0 maxUint64 s) :=
  wakeLoop_spec _ 0 maxUint64 s h rfl fun j _ hj => absurd hj (Nat.not_lt_zero j)

theorem appendMask_cases {s : WaitLog ω} (h : Sound s) (frame : Bytes) (kind : LogKind) (mask : Mask) :
    ∃ l : Log, (l.consumers ≠ [] ∧ s.log.leo ≤ l.leo) ∧
      ((s.appendMask frame kind mask = { s with log := l } ∧ ∀ w ∈ s.waiters, l.leo < s.wakeAt w) ∨
        s.appendMask frame kind mask = wakeDueLocked { s with log := l }) := by
  obtain ⟨hcons, hleo⟩ := appendMask_end s.log frame kind mask
  refine ⟨(s.log.appendMask frame kind mask).1, ⟨?_, ?_⟩, ?_⟩
  · intro hnil
    rw [hnil] at hcons
    exact h.consumers (List.length_eq_zero_iff.mp hcons.symm)
  · rw [hleo]
    split <;> omega
  · have hpeers : s.log.consumers.isEmpty = false := by simpa using h.consumers
    rw [appendMask]
    simp only [hpeers]
    split
    · exact .inr rfl
    · rename_i hnot
      refine .inl ⟨rfl, fun w hw => ?_⟩
      simp only [Bool.not_false, Bool.and_true, Bool.and_eq_true, decide_eq_true_eq, not_and, not_le] at hnot
      by_cases hsome : (s.log.appendMask frame kind mask).2.1.isSome = true
      · exact lt_of_lt_of_le (hnot hsome) (h.least w hw)
      · rw [hleo, if_neg hsome]
        exact h.later w hw

theorem sound_append {s : WaitLog ω} (h : Sound s) (frame : Bytes) (kind : LogKind) (mask : Mask) :
    Sound (s.appendMask frame kind mask) := by
  obtain ⟨l, ⟨hl, -⟩, ⟨heq, hlater⟩ | heq⟩ := appendMask_cases h frame kind mask
  · rw [heq]
    exact ⟨h.indexed, hlater, h.least, h.closed, hl⟩
  · have hwoken := wakeDueLocked_spec (s := { s with log := l }) h.indexed
    rw [heq, wakeDueLocked]
    simp only
    rw [hwoken.rest]
    refine ⟨hwoken.indexed, fun w hw => ((hwoken.members w).mp hw).2, hwoken.least, fun hc => ?_, hl⟩
    have hnone := h.closed hc
    apply List.eq_nil_iff_forall_not_mem.mpr
    intro w hw
    have hmem := ((hwoken.members w).mp hw).1
    rw [hnone] at hmem
    cases hmem

theorem sound_wait {s : WaitLog ω} (h : Sound s) (w : ω) (a : ℕ) : Sound (s.wait w a).1 := by
  rw [wait]
  split
  · exact h
  rename_i hopen
  simp only [Bool.or_eq_true, decide_eq_true_eq, not_or, not_le, Bool.not_eq_true] at hopen
  have hlater : ∀ v, v ∈ s.waiters ∨ v = w → s.log.leo < Function.update s.wakeAt w a v := by
    intro v hv
    by_cases hvw : v = w
    · rw [hvw, Function.update_self]
      exact hopen.2
    · rw [Function.update_of_ne hvw]
      exact h.later v (hv.resolve_right hvw)
  have hleast : ∀ v, v ∈ s.waiters ∨ v = w → min s.minWakeAt a ≤ Function.update s.wakeAt w a v := by
    intro v hv
    by_cases hvw : v = w
    · rw [hvw, Function.update_self]
      exact min_le_right _ _
    · rw [Function.update_of_ne hvw]
      exact le_trans (min_le_left _ _) (h.least v (hv.resolve_right hvw))
  have hclosed : ¬ s.closed = true := by simp [hopen.1]
  simp only
  split
  · rename_i hnone
    refine ⟨h.indexed.append hnone, fun v hv => hlater v ?_, fun v hv => hleast v ?_,
      fun hc => absurd hc hclosed, h.consumers⟩
    · simpa using hv
    · simpa using hv
  · exact ⟨h.indexed, fun v hv => hlater v (.inl hv), fun v hv => hleast v (.inl hv),
      fun hc => absurd hc hclosed, h.consumers⟩

omit [DecidableEq ω] in
private theorem foldl_min_le (f : ω → ℕ) (ws : List ω) (m : ℕ) :
    ws.foldl (fun m o => min m (f o)) m ≤ m ∧ ∀ w ∈ ws, ws.foldl (fun m o => min m (f o)) m ≤ f w := by
  induction ws generalizing m with
  | nil => exact ⟨le_rfl, by simp⟩
  | cons w ws ih =>
    obtain ⟨hm, hws⟩ := ih (min m (f w))
    refine ⟨hm.trans (min_le_left _ _), fun v hv => ?_⟩
    rcases List.mem_cons.mp hv with rfl | hv
    · exact hm.trans (min_le_right _ _)
    · exact hws v hv

/-- `Unwait` takes the waiter out, drops its token and leaves the others. -/
theorem unwait_spec {s : WaitLog ω} (h : Sound s) (w : ω) :
    Sound (s.unwait w) ∧ (∀ v, v ∈ (s.unwait w).waiters ↔ v ∈ s.waiters ∧ v ≠ w) ∧
      (s.unwait w).wakeAt = s.wakeAt ∧ (s.unwait w).notify = Function.update s.notify w false ∧
      (s.unwait w).log = s.log ∧ (s.unwait w).closed = s.closed := by
  rw [unwait]
  cases hidx : s.idx w with
  | none =>
    have hnot : w ∉ s.waiters := h.indexed.idx_eq_none.mp hidx
    refine ⟨⟨h.indexed, h.later, h.least, h.closed, h.consumers⟩, fun v => ?_, rfl, rfl, rfl, rfl⟩
    constructor
    · intro hv
      refine ⟨hv, ?_⟩
      rintro rfl
      exact hnot hv
    · exact fun hv => hv.1
  | some i =>
    obtain ⟨last, hrem, hidx', hmem⟩ := removeWaiterLocked_spec h.indexed ((h.indexed w i).mp hidx)
    simp only [hrem]
    refine ⟨⟨hidx', fun v hv => h.later v ((hmem v).mp hv).1, fun v hv => (foldl_min_le _ _ _).2 v hv,
      fun hc => ?_, h.consumers⟩, hmem, trivial, trivial, trivial, trivial⟩
    have hpos := h.indexed.lt_length hidx
    rw [h.closed hc] at hpos
    cases hpos

theorem close_spec {s : WaitLog ω} (h : Sound s) :
    Sound s.close ∧ s.close.waiters = [] ∧ s.close.closed = true ∧
      (∀ v, s.close.notify v = true ↔ s.notify v = true ∨ v ∈ s.waiters) := by
  rw [close]
  split
  · rename_i hc
    have hnone := h.closed hc
    refine ⟨h, hnone, hc, fun v => ?_⟩
    rw [hnone]
    simp
  · refine ⟨⟨fun v i => ?_, by simp, by simp, by simp, h.consumers⟩, rfl, rfl, fun v => ?_⟩
    · have hidx : (if v ∈ s.waiters then none else s.idx v) = none := by
        split
        · rfl
        · rename_i hv
          exact h.indexed.idx_eq_none.mpr hv
      simp [hidx]
    · by_cases hv : v ∈ s.waiters
      · simp [hv]
      · simp [hv]

theorem sound_step {s : WaitLog ω} (h : Sound s) (op : WaitOp ω) : Sound (s.step op) := by
  cases op with
  | wait w a => exact sound_wait h w a
  | unwait w => exact (unwait_spec h w).1
  | append frame kind mask => exact sound_append h frame kind mask
  | close => exact (close_spec h).1
  | receive w => exact ⟨h.indexed, h.later, h.least, h.closed, h.consumers⟩

/-- What a waiter for offset `a` waits for has come. -/
def Due (a : ℕ) (s : WaitLog ω) : Prop := a ≤ s.log.leo ∨ s.closed = true

/-- The operation leaves the registration of `w` alone. -/
def KeepsWaiting (w : ω) (s : WaitLog ω) : WaitOp ω → Prop
  | .unwait v => v ≠ w
  | .wait v a => v = w → (s.wait v a).2 = false
  | _ => True

def NotRegistered (w : ω) (s : WaitLog ω) : WaitOp ω → Prop
  | .wait v a => v = w → (s.wait v a).2 = false
  | _ => True

def Registered (w : ω) (a : ℕ) (s : WaitLog ω) : Prop := w ∈ s.waiters ∧ s.wakeAt w = a

private theorem wait_registers {s : WaitLog ω} (h : Sound s) {w : ω} {a : ℕ} (hok : (s.wait w a).2 = true) :
    Registered w a (s.wait w a).1 := by
  rw [wait] at hok ⊢
  split at hok
  · cases hok
  rename_i hopen
  rw [if_neg hopen]
  simp only
  split
  · exact ⟨by simp, Function.update_self _ _ _⟩
  · rename_i hsome
    have hmem : w ∈ s.waiters := not_not.mp fun hnot => hsome (h.indexed.idx_eq_none.mpr hnot)
    exact ⟨hmem, Function.update_self _ _ _⟩

/-- Another waiter's `Wait`, or one that fails, keeps who waits for what. -/
theorem wait_other {s : WaitLog ω} {v w : ω} {a : ℕ} (h : v = w → (s.wait v a).2 = false) :
    (w ∈ (s.wait v a).1.waiters ↔ w ∈ s.waiters) ∧ (s.wait v a).1.wakeAt w = s.wakeAt w ∧
      (s.wait v a).1.notify = s.notify := by
  by_cases hvw : v = w
  · have hfail := h hvw
    rw [wait] at hfail ⊢
    split at hfail
    · rename_i hdue
      rw [if_pos hdue]
      exact ⟨Iff.rfl, rfl, rfl⟩
    · cases hfail
  · rw [wait]
    split
    · exact ⟨Iff.rfl, rfl, rfl⟩
    · simp only
      split
      · refine ⟨?_, Function.update_of_ne (Ne.symm hvw) _ _, rfl⟩
        simp [Ne.symm hvw]
      · exact ⟨Iff.rfl, Function.update_of_ne (Ne.symm hvw) _ _, rfl⟩

/-- One step: a registered waiter stays registered until it is due, and then has a token. -/
theorem step_registered {s : WaitLog ω} (h : Sound s) {w : ω} {a : ℕ} (hw : Registered w a s)
    {op : WaitOp ω} (hop : KeepsWaiting w s op) :
    Registered w a (s.step op) ∨ (Due a (s.step op) ∧ (s.step op).notify w = true) := by
  obtain ⟨hmem, rfl⟩ := hw
  cases op with
  | wait v b =>
    obtain ⟨hin, hat, -⟩ := wait_other hop
    exact .inl ⟨hin.mpr hmem, hat⟩
  | unwait v =>
    obtain ⟨-, hin, hat, -⟩ := unwait_spec h v
    exact .inl ⟨(hin w).mpr ⟨hmem, Ne.symm hop⟩, congrFun hat w⟩
  | append frame kind mask =>
    rw [step]
    obtain ⟨l, -, ⟨heq, -⟩ | heq⟩ := appendMask_cases h frame kind mask
    · rw [heq]
      exact .inl ⟨hmem, rfl⟩
    · have hwoken := wakeDueLocked_spec (s := { s with log := l }) h.indexed
      rw [heq, wakeDueLocked]
      simp only
      by_cases hlater : l.leo < s.wakeAt w
      · left
        refine ⟨(hwoken.members w).mpr ⟨hmem, hlater⟩, ?_⟩
        have hrest := congrArg WaitLog.wakeAt hwoken.rest
        exact congrFun hrest w
      · have hrest := congrArg WaitLog.log hwoken.rest
        refine .inr ⟨.inl ?_, (hwoken.notify w).mpr (.inr ⟨hmem, not_lt.mp hlater⟩)⟩
        rw [hrest]
        exact not_lt.mp hlater
  | close =>
    obtain ⟨-, -, hclosed, hnotify⟩ := close_spec h
    exact .inr ⟨.inr hclosed, (hnotify w).mpr (.inr hmem)⟩
  | receive v => exact .inl ⟨hmem, rfl⟩

omit [DecidableEq ω] in
private theorem not_due_of_registered {s : WaitLog ω} (h : Sound s) {w : ω} {a : ℕ} (hw : Registered w a s) :
    ¬ Due a s := by
  obtain ⟨hmem, rfl⟩ := hw
  rintro (hle | hc)
  · exact absurd (h.later w hmem) (by omega)
  · rw [h.closed hc] at hmem
    cases hmem

theorem due_step {s : WaitLog ω} (h : Sound s) {a : ℕ} (hdue : Due a s) (op : WaitOp ω) :
    Due a (s.step op) := by
  cases op with
  | wait v b =>
    rw [step, wait]
    split
    · exact hdue
    · simp only
      split <;> exact hdue
  | unwait v =>
    obtain ⟨-, -, -, -, hlog, hclosed⟩ := unwait_spec h v
    rw [step, Due, hlog, hclosed]
    exact hdue
  | append frame kind mask =>
    obtain ⟨l, ⟨-, hle⟩, ⟨heq, -⟩ | heq⟩ := appendMask_cases h frame kind mask
    · rw [step, heq]
      exact hdue.imp_left fun hd => hd.trans hle
    · have hrest := (wakeDueLocked_spec (s := { s with log := l }) h.indexed).rest
      have hlog := congrArg WaitLog.log hrest
      have hclosed := congrArg WaitLog.closed hrest
      rw [step, heq, wakeDueLocked, Due]
      simp only
      rw [hlog, hclosed]
      exact hdue.imp_left fun hd => hd.trans hle
  | close => exact .inr (close_spec h).2.2.1
  | receive v => exact hdue

theorem run_sound {s : WaitLog ω} (h : Sound s) (ops : List (WaitOp ω)) : Sound (StateRuns.run step s ops) :=
  StateRuns.run_always (P := Sound) (fun _ op hs => sound_step hs op) h ops

private theorem run_due {s : WaitLog ω} (h : Sound s) {a : ℕ} (hdue : Due a s) (ops : List (WaitOp ω)) :
    Due a (StateRuns.run step s ops) := by
  induction ops generalizing s with
  | nil => exact hdue
  | cons op ops ih => exact ih (sound_step h op) (due_step h hdue op)

private theorem run_registered {s : WaitLog ω} (h : Sound s) {w : ω} {a : ℕ} (hw : Registered w a s)
    {ops : List (WaitOp ω)} (hops : StateRuns.Along step (KeepsWaiting w) s ops)
    (hnot : ¬ Due a (StateRuns.run step s ops)) : Registered w a (StateRuns.run step s ops) := by
  induction ops generalizing s with
  | nil => exact hw
  | cons op ops ih =>
    rcases step_registered h hw hops.1 with hstay | ⟨hdue, -⟩
    · exact ih (sound_step h op) hstay hops.2 hnot
    · exact absurd (run_due (sound_step h op) hdue ops) hnot

theorem step_idle {s : WaitLog ω} (h : Sound s) {w : ω} (hw : w ∉ s.waiters ∧ s.notify w = false)
    {op : WaitOp ω} (hop : NotRegistered w s op) :
    w ∉ (s.step op).waiters ∧ (s.step op).notify w = false := by
  obtain ⟨hmem, hempty⟩ := hw
  cases op with
  | wait v b =>
    obtain ⟨hin, -, hnotify⟩ := wait_other hop
    rw [step, hnotify, hin]
    exact ⟨hmem, hempty⟩
  | unwait v =>
    obtain ⟨-, hin, -, hnotify, -⟩ := unwait_spec h v
    rw [step, hin, hnotify]
    refine ⟨fun hv => hmem hv.1, ?_⟩
    by_cases hwv : w = v
    · rw [hwv, Function.update_self]
    · rw [Function.update_of_ne hwv, hempty]
  | append frame kind mask =>
    obtain ⟨l, -, ⟨heq, -⟩ | heq⟩ := appendMask_cases h frame kind mask
    · rw [step, heq]
      exact ⟨hmem, hempty⟩
    · have hwoken := wakeDueLocked_spec (s := { s with log := l }) h.indexed
      rw [step, heq, wakeDueLocked]
      refine ⟨fun hv => hmem ((hwoken.members w).mp hv).1, ?_⟩
      rw [← Bool.not_eq_true]
      intro htoken
      rcases (hwoken.notify w).mp htoken with hold | ⟨hv, -⟩
      · exact absurd hold (by simp [hempty])
      · exact hmem hv
  | close =>
    obtain ⟨-, hnone, -, hnotify⟩ := close_spec h
    rw [step, hnone, ← Bool.not_eq_true]
    refine ⟨by simp, fun htoken => ?_⟩
    rcases (hnotify w).mp htoken with hold | hv
    · exact absurd hold (by simp [hempty])
    · exact hmem hv
  | receive v =>
    refine ⟨hmem, ?_⟩
    simp only [step, receive]
    by_cases hwv : w = v
    · rw [hwv, Function.update_self]
    · rw [Function.update_of_ne hwv, hempty]

private theorem run_idle {s : WaitLog ω} (h : Sound s) {w : ω} (hw : w ∉ s.waiters ∧ s.notify w = false)
    {ops : List (WaitOp ω)} (hops : StateRuns.Along step (NotRegistered w) s ops) :
    (StateRuns.run step s ops).notify w = false := by
  induction ops generalizing s with
  | nil => exact hw.2
  | cons op ops ih => exact ih (sound_step h op) (step_idle h hw hops.1) hops.2

def polledLog : Log := (newLog 7 ⟨0, 0, 0, ["b"], false, 0, LogConfig.unlimited_lt⟩).toOption.get rfl

/-- Two waiters; the second is gone when the record comes that the first waits for. -/
def pollOps : List (WaitOp Bool) := [.wait true 3, .wait false 2, .unwait true]

end WaitLog

end MonsterMQ.PeerLink
