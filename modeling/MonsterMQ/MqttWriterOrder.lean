import Mathlib.Data.List.Infix
import Mathlib.Data.List.Nodup
import MonsterMQ.MqttWriter

/-!
# The order of what a connection's writer writes

Control packets and live publishes each keep their order, a control packet queued before a live publish was
pushed does not follow it, and nothing follows the packet of a closing item.
-/

namespace MonsterMQ.Mqtt

open List

@[grind =] def packetOf (acc : List WriteItem) (i : ℕ) : Option PacketKind := acc[i]?.bind (·.pk)

@[grind =] def Waits (acc : List WriteItem) (j : ℕ) : Prop := ∃ it, acc[j]? = some it ∧ it.flushed = true

def Closes (acc : List WriteItem) (j : ℕ) : Prop := ∃ it, acc[j]? = some it ∧ it.closeAfter = true

def Before : Sent → Sent → Prop
  | .control i _, .control j _ => i < j
  | .live p _, .live q _ => p < q
  | .live _ after, .control j _ => after ≤ j
  | _, _ => True

/-- What every live publish of the output has before it. -/
def EachLive (Q : List Sent → ℕ → ℕ → Prop) (out : List Sent) : Prop :=
  ∀ before p after rest, out = before ++ .live p after :: rest → Q before p after

/-- A live publish may follow `out`: the CONNACK is in it, and of the control packets queued and the
publishes pushed before it all that the encoder did not drop. -/
def Precedes (acc : List WriteItem) (dropped out : List Sent) (p after : ℕ) : Prop :=
  (∃ i, .control i .connack ∈ out) ∧
    (∀ i < after, ∀ kind, packetOf acc i = some kind → .control i kind ∈ out ∨ .control i kind ∈ dropped) ∧
    ∀ q < p, ∃ n, .live q n ∈ out ∨ .live q n ∈ dropped

/-- The output, when `d` control items have been handled and the live publishes in `queue` are
still to come. -/
structure Output (acc : List WriteItem) (d : ℕ) (queue : List (ℕ × ℕ)) (pushed : ℕ)
    (dropped out : List Sent) : Prop where
  ordered : out.Pairwise Before
  control_lt : ∀ i kind, .control i kind ∈ out → i < d ∧ packetOf acc i = some kind
  live_le : ∀ p after, .live p after ∈ out →
    after ≤ d ∧ p < pushed ∧ ∀ x ∈ queue, p < x.1
  preceded : EachLive (Precedes acc dropped) out
  last : ∀ before j kind rest, out = before ++ .control j kind :: rest → Closes acc j → rest = []

/-- Nothing handled so far is missing from the output. -/
structure Complete (acc : List WriteItem) (d : ℕ) (queue : List (ℕ × ℕ)) (pushed : ℕ) (dropped : List Sent)
    (connackSent : Bool) (out : List Sent) : Prop where
  packets : ∀ i < d, ∀ kind, packetOf acc i = some kind → .control i kind ∈ out ∨ .control i kind ∈ dropped
  publishes : ∀ q < pushed, (∀ x ∈ queue, x.1 ≠ q) → ∃ n, .live q n ∈ out ∨ .live q n ∈ dropped
  connack : connackSent = true → ∃ i, .control i .connack ∈ out

variable {acc : List WriteItem} {d pushed : ℕ} {queue queue' : List (ℕ × ℕ)}
  {dropped dropped' out out' : List Sent} {connackSent : Bool}

theorem concat_eq_append_cons {α : Type*} {l pre post : List α} {x y : α} (h : l ++ [x] = pre ++ y :: post) :
    (l = pre ∧ x = y ∧ post = []) ∨ ∃ post', post = post' ++ [x] ∧ l = pre ++ y :: post' := by
  rcases post.eq_nil_or_concat with rfl | ⟨post', z, rfl⟩
  · have := append_inj' h rfl
    exact .inl ⟨this.1, by simpa using this.2, rfl⟩
  · rw [concat_eq_append, ← cons_append, ← append_assoc] at h
    have := append_inj' h rfl
    obtain rfl : x = z := by simpa using this.2
    exact .inr ⟨post', concat_eq_append, this.1⟩

theorem EachLive.concat {Q : List Sent → ℕ → ℕ → Prop} {x : Sent} (h : EachLive Q out)
    (hx : ∀ p after, x = .live p after → Q out p after) : EachLive Q (out ++ [x]) := by
  intro pre p after post heq
  rcases concat_eq_append_cons heq with ⟨rfl, hlive, -⟩ | ⟨post', -, hout⟩
  · exact hx p after hlive
  · exact h pre p after post' hout

theorem EachLive.of_isPrefix {Q : List Sent → ℕ → ℕ → Prop} (h : EachLive Q out)
    (hp : out' <+: out) : EachLive Q out' := by
  obtain ⟨more, rfl⟩ := hp
  intro pre p after post heq
  exact h pre p after (post ++ more) (by simp [heq])

theorem packetOf_lt {i : ℕ} {kind : PacketKind} (h : packetOf acc i = some kind) : i < acc.length := by
  by_contra hge
  simp [packetOf, List.getElem?_eq_none (Nat.not_lt.mp hge)] at h

theorem getElem?_concat_of_lt {i : ℕ} (it : WriteItem) (h : i < acc.length) :
    (acc ++ [it])[i]? = acc[i]? := List.getElem?_append_left h

theorem packetOf_concat {i : ℕ} (it : WriteItem) (h : i < acc.length) :
    packetOf (acc ++ [it]) i = packetOf acc i := by
  simp only [packetOf, getElem?_concat_of_lt it h]

theorem waits_concat_iff {j : ℕ} (it : WriteItem) (h : j < acc.length) :
    Waits (acc ++ [it]) j ↔ Waits acc j := by
  simp only [Waits, getElem?_concat_of_lt it h]

theorem closes_concat_iff {j : ℕ} (it : WriteItem) (h : j < acc.length) :
    Closes (acc ++ [it]) j ↔ Closes acc j := by
  simp only [Closes, getElem?_concat_of_lt it h]

namespace Output

section

variable (h : Output acc d queue pushed dropped out)
include h

theorem of_isPrefix (hp : out' <+: out) : Output acc d queue pushed dropped out' where
  ordered := h.ordered.sublist hp.sublist
  control_lt i kind hmem := h.control_lt i kind (hp.subset hmem)
  live_le p after hmem := h.live_le p after (hp.subset hmem)
  preceded := h.preceded.of_isPrefix hp
  last := by
    intro pre j kind post heq hcloses
    obtain ⟨more, rfl⟩ := hp
    have := h.last pre j kind (post ++ more) (by simp [heq]) hcloses
    exact (append_eq_nil_iff.mp this).1

theorem enqueue (hd : d ≤ acc.length) (it : WriteItem) : Output (acc ++ [it]) d queue pushed dropped out where
  ordered := h.ordered
  control_lt i kind hmem := by
    obtain ⟨hlt, hpk⟩ := h.control_lt i kind hmem
    exact ⟨hlt, (packetOf_concat it (packetOf_lt hpk)).trans hpk⟩
  live_le := h.live_le
  preceded := by
    intro pre p after post heq
    obtain ⟨hconnack, hall, hlive⟩ := h.preceded pre p after post heq
    have hle : after ≤ d := (h.live_le p after (by simp [heq])).1
    refine ⟨hconnack, fun i hi kind hpk => hall i hi kind ?_, hlive⟩
    rwa [packetOf_concat it (by omega)] at hpk
  last := by
    intro pre j kind post heq hcloses
    have hlt := (h.control_lt j kind (by simp [heq])).1
    exact h.last pre j kind post heq ((closes_concat_iff it (by omega)).mp hcloses)

theorem push (after : ℕ) : Output acc d (queue ++ [(pushed, after)]) (pushed + 1) dropped out where
  ordered := h.ordered
  control_lt := h.control_lt
  live_le := by
    intro p after' hmem
    obtain ⟨hle, hlt, hqueue⟩ := h.live_le p after' hmem
    refine ⟨hle, by omega, fun x hx => ?_⟩
    rcases mem_append.mp hx with hx | hx
    · exact hqueue x hx
    · obtain rfl := mem_singleton.mp hx
      exact hlt
  preceded := h.preceded
  last := h.last

theorem skip {d' : ℕ} (hd : d ≤ d') (hqueue : queue' ⊆ queue) (hdropped : dropped ⊆ dropped') :
    Output acc d' queue' pushed dropped' out where
  ordered := h.ordered
  control_lt i kind hmem :=
    ⟨lt_of_lt_of_le (h.control_lt i kind hmem).1 hd, (h.control_lt i kind hmem).2⟩
  live_le := by
    intro p after hmem
    obtain ⟨hle, hlt, hq⟩ := h.live_le p after hmem
    exact ⟨hle.trans hd, hlt, fun x hx => hq x (hqueue hx)⟩
  preceded := by
    intro pre p after post heq
    obtain ⟨hconnack, hall, hlive⟩ := h.preceded pre p after post heq
    exact ⟨hconnack, fun i hi kind hpk => (hall i hi kind hpk).imp_right (hdropped ·),
      fun q hq => (hlive q hq).imp fun _ => Or.imp_right (hdropped ·)⟩
  last := h.last

theorem concat (x : Sent) (hopen : ∀ j kind, .control j kind ∈ out → ¬Closes acc j)
    (hbefore : ∀ y ∈ out, Before y x)
    (hcontrol : ∀ i kind, x = .control i kind → i < d ∧ packetOf acc i = some kind)
    (hlive : ∀ p after, x = .live p after →
      (after ≤ d ∧ p < pushed ∧ ∀ y ∈ queue, p < y.1) ∧ Precedes acc dropped out p after) :
    Output acc d queue pushed dropped (out ++ [x]) where
  ordered := by
    rw [pairwise_append]
    refine ⟨h.ordered, pairwise_singleton _ _, fun y hy z hz => ?_⟩
    obtain rfl := mem_singleton.mp hz
    exact hbefore y hy
  control_lt i kind hmem := by
    rcases mem_append.mp hmem with hmem | hmem
    · exact h.control_lt i kind hmem
    · exact hcontrol i kind (mem_singleton.mp hmem).symm
  live_le p after hmem := by
    rcases mem_append.mp hmem with hmem | hmem
    · exact h.live_le p after hmem
    · exact (hlive p after (mem_singleton.mp hmem).symm).1
  preceded := h.preceded.concat fun p after hx => (hlive p after hx).2
  last := by
    intro pre j kind post heq hcloses
    rcases concat_eq_append_cons heq with ⟨-, -, hpost⟩ | ⟨post', -, hout⟩
    · exact hpost
    · exact absurd hcloses (hopen j kind (by simp [hout]))

theorem control {kind : PacketKind} (hopen : ∀ j < d, ¬Closes acc j) (hpk : packetOf acc d = some kind) :
    Output acc (d + 1) queue pushed dropped (out ++ [.control d kind]) := by
  refine (h.skip (Nat.le_succ d) (List.Subset.refl _) (List.Subset.refl _)).concat _ ?_ ?_ ?_ ?_
  · intro j kind' hmem
    exact hopen j (h.control_lt j kind' hmem).1
  · intro y hy
    cases y with
    | control i kind' => exact (h.control_lt i kind' hy).1
    | live p after => exact (h.live_le p after hy).1
    | claimed => trivial
  · intro i kind' heq
    obtain ⟨rfl, rfl⟩ := Sent.control.inj heq
    exact ⟨Nat.lt_succ_self _, hpk⟩
  · intro p after heq
    cases heq

end

theorem live {p after : ℕ} (h : Output acc d ((p, after) :: queue) pushed dropped out)
    (hsorted : ∀ x ∈ queue, p < x.1) (hp : p < pushed) (hafter : after ≤ d) (hopen : ∀ j < d, ¬Closes acc j)
    (hcomplete : Complete acc d ((p, after) :: queue) pushed dropped connackSent out) (hconnack : connackSent = true) :
    Output acc d queue pushed dropped (out ++ [.live p after]) := by
  have hskip : Output acc d queue pushed dropped out :=
    h.skip le_rfl (subset_cons_self _ _) (List.Subset.refl _)
  refine hskip.concat _ ?_ ?_ ?_ ?_
  · intro j kind hmem
    exact hopen j (h.control_lt j kind hmem).1
  · intro y hy
    cases y with
    | control i kind => trivial
    | live q after' => exact (h.live_le q after' hy).2.2 _ mem_cons_self
    | claimed => trivial
  · intro i kind heq
    cases heq
  · intro q after' heq
    obtain ⟨rfl, rfl⟩ := Sent.live.inj heq
    refine ⟨⟨hafter, hp, hsorted⟩, hcomplete.connack hconnack,
      fun i hi kind hpk => hcomplete.packets i (by omega) kind hpk, fun q hq => ?_⟩
    refine hcomplete.publishes q (by omega) fun x hx => ?_
    rcases mem_cons.mp hx with rfl | hx
    · exact Nat.ne_of_gt hq
    · exact Nat.ne_of_gt (hq.trans (hsorted x hx))

theorem claimed (h : Output acc d queue pushed dropped out)
    (hopen : ∀ j kind, .control j kind ∈ out → ¬Closes acc j) :
    Output acc d queue pushed dropped (out ++ [.claimed]) := by
  refine h.concat _ hopen ?_ ?_ ?_
  · intro y _
    cases y <;> trivial
  · intro i kind heq
    cases heq
  · intro p after heq
    cases heq

end Output

namespace Complete

theorem enqueue (h : Complete acc d queue pushed dropped connackSent out) (hd : d ≤ acc.length)
    (it : WriteItem) : Complete (acc ++ [it]) d queue pushed dropped connackSent out where
  packets i hi kind hpk := by
    rw [packetOf_concat it (by omega)] at hpk
    exact h.packets i hi kind hpk
  publishes := h.publishes
  connack := h.connack

theorem push (h : Complete acc d queue pushed dropped connackSent out) (after : ℕ) :
    Complete acc d (queue ++ [(pushed, after)]) (pushed + 1) dropped connackSent out where
  packets := h.packets
  publishes q hq hout := by
    have hne : pushed ≠ q := hout _ (mem_append_right _ mem_cons_self)
    exact h.publishes q (by omega) fun x hx => hout x (mem_append_left _ hx)
  connack := h.connack

/-- A live publish is written or dropped. -/
theorem live {p after : ℕ} (h : Complete acc d ((p, after) :: queue) pushed dropped connackSent out)
    (hsub : out ⊆ out') (hdropped : dropped ⊆ dropped') (hp : .live p after ∈ out' ∨ .live p after ∈ dropped') :
    Complete acc d queue pushed dropped' connackSent out' where
  packets i hi kind hpk := (h.packets i hi kind hpk).imp (hsub ·) (hdropped ·)
  publishes q hq hout := by
    by_cases hpq : p = q
    · exact ⟨after, hpq ▸ hp⟩
    · exact (h.publishes q hq (forall_mem_cons.mpr ⟨hpq, hout⟩)).imp fun _ => Or.imp (hsub ·) (hdropped ·)
  connack hc := (h.connack hc).imp fun _ hi => hsub hi

theorem handled {connackSent' : Bool} (h : Complete acc d queue pushed dropped connackSent out)
    (hsub : out ⊆ out') (hdropped : dropped ⊆ dropped')
    (hlast : ∀ kind, packetOf acc d = some kind → .control d kind ∈ out' ∨ .control d kind ∈ dropped')
    (hconnack : connackSent' = true → connackSent = true ∨ .control d .connack ∈ out') :
    Complete acc (d + 1) queue pushed dropped' connackSent' out' where
  packets i hi kind hpk := by
    rcases Nat.lt_succ_iff_lt_or_eq.mp hi with hlt | rfl
    · exact (h.packets i hlt kind hpk).imp (hsub ·) (hdropped ·)
    · exact hlast kind hpk
  publishes q hq hout := (h.publishes q hq hout).imp fun _ => Or.imp (hsub ·) (hdropped ·)
  connack hc := by
    rcases hconnack hc with hc | hc
    · exact (h.connack hc).imp fun _ hi => hsub hi
    · exact ⟨d, hc⟩

end Complete

end MonsterMQ.Mqtt
