import MonsterMQ.NatsConnClose

/-!
# Runs of a NATS connection that is closed

The turns of all goroutines keep what holds of the tables. A careful run leaves nothing on the bus; a
`SUB` that meets a close is a panic, and a consumer that is there when the connection is closed stays on
the bus.
-/

namespace MonsterMQ.Nats.Conn

open LittleEndian StateRuns FiniteMaps List

/-- What `subWriterLoop` has to do: a batch, or what comes after it. -/
def Writing (p : List Op) : Prop :=
  (∃ k, p = .batch :: List.replicate k .writeOne ++ [.endBatch]) ∨
    (∃ k, p = List.replicate k .writeOne ++ [.endBatch]) ∨ ∀ o ∈ p, o ≠ .batch ∧ o ≠ .writeOne

def Free (o : Op) : Prop := ∀ id, ¬ o.Holds id ∧ ¬ o.Stops id

structure Invariant (c : Conn) : Prop extends Holding c where
  awaits : ∀ o ∈ c.readerOps, c.Awaits o
  single : (c.readerOps.filter Op.enters).length ≤ 1
  readerOnly : ∀ o ∈ c.restOps, o.enters = false
  writing : Writing c.subWriterOps
  finished : c.netOpen = false → c.closed = true ∧ c.jsClosed = true ∧ ∀ o ∈ c.restOps, Free o

theorem SameTables.awaits {c c' : Conn} (h : SameTables c c') {o : Op} (ho : c.Awaits o) : c'.Awaits o := by
  cases o with
  | subscribe sid topicFilter => exact (h.sidAt sid).trans ho
  | register st => exact (h.sidAt st.sid).trans ho
  | replaceConsumer x r =>
    refine ⟨ho.1, fun y hy => ho.2 y ?_⟩
    rw [← h.consumers]
    exact hy
  | registerConsumer r =>
    change c'.consumers.lookup r.name = none
    rw [h.consumers]
    exact ho
  | _ => trivial

theorem awaits_of_not_enters {c : Conn} {o : Op} (h : o.enters = false) : c.Awaits o := by
  cases o with
  | subscribe | register | replaceConsumer | registerConsumer => cases h
  | removeSid | stopSid | unsubscribe | onUnsubscribe | removeConsumer | stop | onSubscribe | startDelivery | scanned
  | deliver | send | write | batch | writeOne | endBatch | close | closeJs | closeNet => trivial

theorem sidAt_exec_of_none {c : Conn} {op : Op} (hop : op.enters = false) {sid : Bytes} (h : c.sidAt sid = none) :
    (c.exec op).1.sidAt sid = none := by
  cases op with
  | removeSid k =>
    rw [exec]
    split
    · exact h
    · rw [sidAt] at h
      change (c.sids.map fun m => m.erase k).bind (fun m => m.lookup sid) = none
      cases hs : c.sids with
      | none => rfl
      | some m =>
        rw [hs] at h
        change (m.erase k).lookup sid = none
        by_cases hk : sid = k
        · subst hk
          exact AList.lookup_erase _ _
        · rw [AList.lookup_erase_ne hk]
          exact h
  | close =>
    rw [exec]
    split
    · exact h
    · rfl
  | subscribe | register | replaceConsumer | registerConsumer => cases hop
  | unsubscribe | removeConsumer | stop | closeJs | closeNet => exact h
  | stopSid | onUnsubscribe | onSubscribe | deliver | send | write | batch | endBatch | startDelivery | scanned
  | writeOne =>
    rw [(sameTables_exec trivial).sidAt]
    exact h

theorem awaits_exec {c : Conn} {op : Op} (hop : op.enters = false) {o : Op} (h : c.Awaits o) :
    (c.exec op).1.Awaits o := by
  have hconsumers : ∀ {name : Bytes} {x : Consumer}, (c.exec op).1.consumers.lookup name = some x →
      c.consumers.lookup name = some x := by
    intro name x hx
    rcases exec_consumers_of hx with hx | ⟨-, r, rfl, -⟩
    · exact hx
    · cases hop
  cases o with
  | subscribe sid topicFilter | register st => exact sidAt_exec_of_none hop h
  | replaceConsumer x r => exact ⟨h.1, fun y hy => h.2 y (hconsumers hy)⟩
  | registerConsumer r =>
    change (c.exec op).1.consumers.lookup r.name = none
    cases hlook : (c.exec op).1.consumers.lookup r.name with
    | none => rfl
    | some x =>
      have hx := hconsumers hlook
      change c.consumers.lookup r.name = none at h
      rw [h] at hx
      cases hx
  | removeSid | stopSid | unsubscribe | onUnsubscribe | removeConsumer | stop | onSubscribe | startDelivery | scanned
  | deliver | send | write | batch | writeOne | endBatch | close | closeJs | closeNet => trivial

theorem exec_enters (c : Conn) (op : Op) :
    ((c.exec op).2.filter Op.enters).length ≤ if op.enters then 1 else 0 := by
  have hnone : ∀ l : List Op, (∀ o ∈ l, o.enters = false) → (l.filter Op.enters).length ≤ 0 := by
    intro l hl
    rw [filter_eq_nil_iff.mpr fun o ho => by rw [hl o ho]; exact Bool.false_ne_true]
    exact Nat.le_refl 0
  cases op with
  | subscribe | register | replaceConsumer | registerConsumer =>
    first
    | exact Nat.le_refl 1
    | exact Nat.zero_le 1
    | (rw [exec]; split <;> exact Nat.zero_le 1)
  | removeSid k | startDelivery x | send | close =>
    apply hnone
    rw [exec]
    split <;> simp [Op.enters]
  | scanned x r =>
    apply hnone
    rw [exec]
    split
    · split <;> simp [Op.enters]
    · simp
  | onUnsubscribe | onSubscribe | deliver | endBatch =>
    apply hnone
    intro o ho
    obtain ⟨x, -, rfl⟩ := mem_map.mp ho
    rfl
  | closeJs sids =>
    apply hnone
    intro o ho
    simp only [exec, append_assoc, mem_append, mem_map, mem_flatMap, mem_cons,
      not_mem_nil, or_false] at ho
    rcases ho with ⟨x, -, rfl⟩ | ⟨st, -, rfl | rfl⟩ | rfl <;> rfl
  | stopSid | unsubscribe | removeConsumer | stop | write | batch | writeOne | closeNet => exact Nat.le_refl 0

theorem awaits_pushed {c : Conn} {op : Op} (h : c.Awaits op) : ∀ o ∈ (c.exec op).2, (c.exec op).1.Awaits o := by
  intro o ho
  cases hop : op.enters with
  | false =>
    apply awaits_of_not_enters
    have hlen := exec_enters c op
    rw [hop, if_neg Bool.false_ne_true, Nat.le_zero, length_eq_zero_iff, filter_eq_nil_iff] at hlen
    exact Bool.eq_false_iff.mpr (hlen o ho)
  | true =>
    cases op with
    | subscribe sid topicFilter =>
      rcases mem_cons.mp ho with rfl | ho
      · exact h
      · rw [mem_singleton.mp ho]
        trivial
    | replaceConsumer x r =>
      rcases mem_cons.mp ho with rfl | ho
      · trivial
      · rcases mem_cons.mp ho with rfl | ho
        · trivial
        · rw [mem_singleton.mp ho]
          change (c.forget x).consumers.lookup r.name = none
          cases hlook : c.consumers.lookup r.name with
          | none =>
            rw [forget]
            dsimp only
            split
            · next hx =>
              rw [h.1, hlook] at hx
              cases hx
            · exact hlook
          | some y =>
            have hy := h.2 y hlook
            subst hy
            rw [forget]
            dsimp only
            rw [h.1, if_pos hlook, AList.lookup_erase]
    | register st =>
      rw [exec] at ho
      split at ho <;> cases ho
    | registerConsumer r => cases ho
    | _ => cases hop

theorem pushed_not_writing {c : Conn} {op : Op} : ∀ o ∈ (c.exec op).2, o ≠ .batch ∧ o ≠ .writeOne := by
  intro o ho
  cases op with
  | removeSid k =>
    rw [exec] at ho
    split at ho
    · cases ho
    · simp only [mem_cons, not_mem_nil, or_false] at ho
      rcases ho with rfl | rfl | rfl <;> simp
  | startDelivery x =>
    rw [exec] at ho
    split at ho
    · rw [eq_of_mem_replicate ho]
      simp
    · cases ho
  | scanned x r =>
    rw [exec] at ho
    split at ho
    · split at ho
      · simp only [mem_cons, not_mem_nil, or_false] at ho
        rcases ho with rfl | rfl <;> simp
      · simp only [mem_cons, not_mem_nil, or_false] at ho
        rcases ho with rfl | rfl <;> simp
    · cases ho
  | register st =>
    rw [exec] at ho
    split at ho <;> cases ho
  | send | close =>
    rw [exec] at ho
    split at ho
    · cases ho
    · rw [mem_singleton.mp ho]
      simp
  | onUnsubscribe | onSubscribe | deliver | endBatch =>
    obtain ⟨x, -, rfl⟩ := mem_map.mp ho
    simp
  | closeJs sids =>
    simp only [exec, append_assoc, mem_append, mem_map, mem_flatMap, mem_cons,
      not_mem_nil, or_false] at ho
    rcases ho with ⟨x, -, rfl⟩ | ⟨st, -, rfl | rfl⟩ | rfl <;> simp
  | removeConsumer | replaceConsumer | subscribe =>
    simp only [exec, mem_cons, not_mem_nil, or_false] at ho
    rcases ho with rfl | rfl | rfl <;> simp
  | stopSid | unsubscribe | stop | registerConsumer | write | batch | writeOne | closeNet => cases ho

/-- After `close` there is nothing to take in hand. -/
theorem pushed_free {c : Conn} (h : c.Holding) (hclosed : c.closed = true) (hjs : c.jsClosed = true) {op : Op}
    (hop : op.enters = false) (hfree : Free op) : ∀ o ∈ (c.exec op).2, Free o := by
  have hsids := h.sids.mpr hclosed
  have hnone : valuesOf c.consumers = [] := by
    rw [eq_nil_iff_forall_not_mem]
    intro x hx
    obtain ⟨name, hname⟩ := (mem_valuesOf).mp hx
    rw [h.jsClosed hjs name] at hname
    cases hname
  intro o ho
  cases op with
  | removeSid k =>
    rw [exec, sidAt, hsids] at ho
    cases ho
  | onUnsubscribe =>
    rw [exec, hnone] at ho
    cases ho
  | startDelivery x =>
    rw [exec] at ho
    split at ho
    · rw [eq_of_mem_replicate ho]
      exact fun id => ⟨nofun, nofun⟩
    · cases ho
  | scanned x r =>
    rw [exec, h.jsClosed hjs] at ho
    cases ho
  | send | close =>
    rw [exec, if_pos hclosed] at ho
    cases ho
  | onSubscribe | deliver | endBatch =>
    obtain ⟨x, -, rfl⟩ := mem_map.mp ho
    exact fun id => ⟨nofun, nofun⟩
  | closeJs sids =>
    have hempty : sids = [] := by
      rw [eq_nil_iff_forall_not_mem]
      intro st hst
      exact (hfree st.subID).1 ⟨st, hst, rfl⟩
    rw [exec, hnone, hempty] at ho
    rw [mem_singleton.mp ho]
    exact fun id => ⟨nofun, nofun⟩
  | removeConsumer x => exact absurd rfl (hfree x.busSubID).1
  | subscribe | register | replaceConsumer | registerConsumer => cases hop
  | stopSid | unsubscribe | stop | write | batch | writeOne | closeNet => cases ho

theorem exec_netOpen {c : Conn} {op : Op} (h : (c.exec op).1.netOpen = false) : c.netOpen = false ∨ op = .closeNet := by
  cases op with
  | closeNet => exact .inr rfl
  | removeSid | register | close =>
    rw [(exec_sids trivial).2.2.2.2] at h
    exact .inl h
  | unsubscribe | removeConsumer | replaceConsumer | stop | subscribe | registerConsumer | closeJs => exact .inl h
  | stopSid | onUnsubscribe | onSubscribe | deliver | send | write | batch | endBatch | startDelivery | scanned
  | writeOne =>
    rw [(sameTables_exec trivial).netOpen] at h
    exact .inl h

/-- An operation of the reader adds nothing to the other programs but the goroutine of a new consumer. -/
theorem restOps_exec (c : Conn) (op : Op) : (∀ o ∈ c.restOps, o ∈ (c.exec op).1.restOps) ∧
      ∀ o ∈ (c.exec op).1.restOps, o ∈ c.restOps ∨ ∃ x r, o = .scanned x r := by
  obtain ⟨-, hsub, hothers⟩ := exec_programs c op
  rw [restOps, restOps, hsub]
  rcases hothers with hothers | ⟨-, x, r, hothers⟩
  · rw [hothers]
    exact ⟨fun o ho => ho, fun o ho => .inl ho⟩
  · rw [hothers, flatten_append, flatten_singleton, ← append_assoc]
    refine ⟨fun o ho => mem_append_left _ ho, fun o ho => ?_⟩
    rcases mem_append.mp ho with ho | ho
    · exact .inl ho
    · exact .inr ⟨x, r, mem_singleton.mp ho⟩

section
variable {c : Conn}

section

variable (h : c.Invariant)
include h

theorem Invariant.reader {op : Op} {ops : List Op} (hc : c.readerOps = op :: ops)
    (hq : c.CarefulOp op) : Invariant { (c.exec op).1 with readerOps := (c.exec op).2 ++ ops } := by
  have hsub := (exec_programs c op).2.1
  have hawaits : c.Awaits op := h.awaits op (by rw [hc]; exact mem_cons_self)
  have hrest := restOps_exec c op
  have htables : SameTables (c.exec op).1 { (c.exec op).1 with
      readerOps := (c.exec op).2 ++ ops } := ⟨rfl, rfl, rfl, rfl, rfl, rfl, rfl, rfl⟩
  have hex : Executed c { (c.exec op).1 with readerOps := (c.exec op).2 ++ ops } op := by
    refine ⟨htables, ?_, ?_, ?_⟩
    · intro o ho
      rcases mem_append.mp ho with ho | ho
      · rw [hc] at ho
        rcases mem_cons.mp ho with rfl | ho
        · exact .inl rfl
        · exact .inr (mem_append_left _ (mem_append_right _ ho))
      · exact .inr (mem_append_right _ (hrest.1 o ho))
    · exact fun o ho => mem_append_left _ (mem_append_left _ ho)
    · intro o ho
      rcases mem_append.mp ho with ho | ho
      · rcases mem_append.mp ho with ho | ho
        · exact .inr (.inl ho)
        · exact .inl (mem_append_left _ (by rw [hc]; exact mem_cons_of_mem _ ho))
      · rcases hrest.2 o ho with ho | ⟨x, r, rfl⟩
        · exact .inl (mem_append_right _ ho)
        · exact .inr (.inr ⟨x, r, rfl⟩)
  have hop : op ∈ c.ops := mem_append_left _ (by rw [hc]; exact mem_cons_self)
  obtain ⟨-, -, hclosed, hjs⟩ := exec_flags h.toHolding hq
  have hsingle := h.single
  rw [hc, filter_cons] at hsingle
  refine ⟨h.toHolding.exec hop hex hawaits hq, ?_, ?_, ?_, ?_, ?_⟩
  · intro o ho
    rcases mem_append.mp ho with ho | ho
    · exact awaits_pushed hawaits o ho
    · cases henters : op.enters with
      | false => exact awaits_exec henters (h.awaits o (by rw [hc]; exact mem_cons_of_mem _ ho))
      | true =>
        rw [henters, if_pos rfl, length_cons] at hsingle
        have hnil : ops.filter Op.enters = [] := length_eq_zero_iff.mp (by omega)
        exact awaits_of_not_enters (Bool.eq_false_iff.mpr (filter_eq_nil_iff.mp hnil o ho))
  · have hpush := exec_enters c op
    rw [filter_append, length_append]
    cases henters : op.enters with
    | false =>
      rw [henters, if_neg Bool.false_ne_true] at hsingle hpush
      omega
    | true =>
      rw [henters, if_pos rfl, length_cons] at hsingle
      rw [henters, if_pos rfl] at hpush
      omega
  · intro o ho
    rcases hrest.2 o ho with ho | ⟨x, r, rfl⟩
    · exact h.readerOnly o ho
    · rfl
  · change Writing (c.exec op).1.subWriterOps
    rw [hsub]
    exact h.writing
  · intro hnet
    have hfree : c.closed = true ∧ c.jsClosed = true ∧ ∀ o ∈ c.restOps, Free o := by
      rcases exec_netOpen hnet with hnet | rfl
      · exact h.finished hnet
      · exact ⟨(h.closeNet hop).1, (h.closeNet hop).2, hq⟩
    refine ⟨hclosed hfree.1, hjs hfree.2.1, fun o ho => ?_⟩
    rcases hrest.2 o ho with ho | ⟨x, r, rfl⟩
    · exact hfree.2.2 o ho
    · exact fun id => ⟨nofun, nofun⟩

theorem Invariant.rest {c' : Conn} {op : Op} (hop : op ∈ c.restOps) (hq : c.CarefulOp op)
    (htables : SameTables (c.exec op).1 c') (hreader : c'.readerOps = c.readerOps)
    (hkept : ∀ o ∈ c.restOps, o = op ∨ o ∈ c'.restOps) (hpushed : ∀ o ∈ (c.exec op).2, o ∈ c'.restOps)
    (hadded : ∀ o ∈ c'.restOps, o ∈ c.restOps ∨ o ∈ (c.exec op).2) (hwriting : Writing c'.subWriterOps) :
    c'.Invariant := by
  have henters := h.readerOnly op hop
  have hex : Executed c c' op := by
    refine ⟨htables, ?_, ?_, ?_⟩
    · intro o ho
      rcases mem_append.mp ho with ho | ho
      · exact .inr (mem_append_left _ (by rw [hreader]; exact ho))
      · rcases hkept o ho with rfl | ho
        · exact .inl rfl
        · exact .inr (mem_append_right _ ho)
    · exact fun o ho => mem_append_right _ (hpushed o ho)
    · intro o ho
      rcases mem_append.mp ho with ho | ho
      · exact .inl (mem_append_left _ (by rw [← hreader]; exact ho))
      · rcases hadded o ho with ho | ho
        · exact .inl (mem_append_right _ ho)
        · exact .inr (.inl ho)
  have hmem : op ∈ c.ops := mem_append_right _ hop
  obtain ⟨-, -, hclosed, hjs⟩ := exec_flags h.toHolding hq
  have hnoEnters : ∀ o ∈ (c.exec op).2, o.enters = false := by
    intro o ho
    have hlen := exec_enters c op
    rw [henters, if_neg Bool.false_ne_true, Nat.le_zero, length_eq_zero_iff, filter_eq_nil_iff] at hlen
    exact Bool.eq_false_iff.mpr (hlen o ho)
  refine ⟨h.toHolding.exec hmem hex (awaits_of_not_enters henters) hq, ?_, ?_, ?_, hwriting, ?_⟩
  · intro o ho
    rw [hreader] at ho
    exact htables.awaits (awaits_exec henters (h.awaits o ho))
  · rw [hreader]
    exact h.single
  · intro o ho
    rcases hadded o ho with ho | ho
    · exact h.readerOnly o ho
    · exact hnoEnters o ho
  · intro hnet
    rw [htables.netOpen] at hnet
    rw [htables.closed, htables.jsClosed]
    rcases exec_netOpen hnet with hnet | rfl
    · obtain ⟨hc, hj, hfree⟩ := h.finished hnet
      refine ⟨hclosed hc, hjs hj, fun o ho => ?_⟩
      rcases hadded o ho with ho | ho
      · exact hfree o ho
      · exact pushed_free h.toHolding hc hj henters (hfree op hop) o ho
    · refine ⟨(h.closeNet hmem).1, (h.closeNet hmem).2, fun o ho => ?_⟩
      rcases hadded o ho with ho | ho
      · exact hq o ho
      · cases ho

/-- A turn that performs no operation: it drops and adds operations that have nothing in hand. -/
theorem Invariant.frame {c' : Conn} (hsame : SameTables c c')
    (hreader : c'.readerOps = c.readerOps) (hkept : ∀ o ∈ c.restOps, Free o ∨ o ∈ c'.restOps)
    (hadded : ∀ o ∈ c'.restOps, o ∈ c.restOps ∨
      Free o ∧ o.enters = false ∧ o ≠ .closeNet ∧ ∀ sids, o ≠ .closeJs sids)
    (hwriting : Writing c'.subWriterOps) : c'.Invariant := by
  have hlive : ∀ {P : Op → Prop}, (∀ o, Free o → ¬ P o) → (∃ o ∈ c.ops, P o) → ∃ o ∈ c'.ops, P o := by
    rintro P hP ⟨o, ho, hPo⟩
    rcases mem_append.mp ho with ho | ho
    · exact ⟨o, mem_append_left _ (by rw [hreader]; exact ho), hPo⟩
    · rcases hkept o ho with hfree | ho
      · exact absurd hPo (hP o hfree)
      · exact ⟨o, mem_append_right _ ho, hPo⟩
  have hops : ∀ o ∈ c'.ops, o ∈ c.ops ∨ o ≠ .closeNet ∧ ∀ sids, o ≠ .closeJs sids := by
    intro o ho
    rcases mem_append.mp ho with ho | ho
    · exact .inl (mem_append_left _ (by rw [← hreader]; exact ho))
    · rcases hadded o ho with ho | ho
      · exact .inl (mem_append_right _ ho)
      · exact .inr ho.2.2
  refine ⟨⟨?_, ?_, ?_, ?_, ?_, ?_, ?_, ?_⟩, ?_, ?_, ?_, hwriting, ?_⟩
  · rw [hsame.panicked]
    exact h.panicked
  · rw [hsame.sids, hsame.closed]
    exact h.sids
  · intro s hs
    rw [hsame.bus] at hs
    rw [hsame.consumers]
    rcases h.tracked s hs with ⟨sid, st, hst, hid⟩ | hx | hop
    · exact .inl ⟨sid, st, (hsame.sidAt sid).trans hst, hid⟩
    · exact .inr (.inl hx)
    · exact .inr (.inr (hlive (fun o hfree => (hfree s.id).1) hop))
  · intro x hx
    rw [hsame.running] at hx
    rw [hsame.consumers]
    rcases h.running x hx with hname | hop
    · exact .inl hname
    · exact .inr (hlive (fun o hfree => (hfree x.busSubID).2) hop)
  · rw [hsame.consumers]
    exact h.names
  · rw [hsame.consumers, hsame.jsClosed]
    exact h.jsClosed
  · intro sids hmem
    rw [hsame.closed]
    rcases hops _ hmem with hmem | hne
    · exact h.closeJs sids hmem
    · exact absurd rfl (hne.2 sids)
  · intro hmem
    rw [hsame.closed, hsame.jsClosed]
    rcases hops _ hmem with hmem | hne
    · exact h.closeNet hmem
    · exact absurd rfl hne.1
  · intro o ho
    rw [hreader] at ho
    exact hsame.awaits (h.awaits o ho)
  · rw [hreader]
    exact h.single
  · intro o ho
    rcases hadded o ho with ho | ho
    · exact h.readerOnly o ho
    · exact ho.2.1
  · intro hnet
    rw [hsame.netOpen] at hnet
    rw [hsame.closed, hsame.jsClosed]
    obtain ⟨hc, hj, hfree⟩ := h.finished hnet
    refine ⟨hc, hj, fun o ho => ?_⟩
    rcases hadded o ho with ho | ho
    · exact hfree o ho
    · exact ho.1

theorem Invariant.append {o : Op} (hawaits : c.Awaits o)
    (hsingle : c.readerOps.filter Op.enters = [] ∨ o.enters = false) (hnet : o ≠ .closeNet)
    (hjs : ∀ sids, o ≠ .closeJs sids) : Invariant { c with readerOps := c.readerOps ++ [o] } := by
  have hmem : ∀ o' ∈ c.ops, o' ∈ (c.readerOps ++ [o]) ++ c.restOps := by
    intro o' ho'
    rcases mem_append.mp ho' with ho' | ho'
    · exact mem_append_left _ (mem_append_left _ ho')
    · exact mem_append_right _ ho'
  have hops : ∀ o' ∈ (c.readerOps ++ [o]) ++ c.restOps, o' ∈ c.ops ∨ o' = o := by
    intro o' ho'
    rcases mem_append.mp ho' with ho' | ho'
    · rcases mem_append.mp ho' with ho' | ho'
      · exact .inl (mem_append_left _ ho')
      · exact .inr (mem_singleton.mp ho')
    · exact .inl (mem_append_right _ ho')
  refine ⟨⟨h.panicked, h.sids, ?_, ?_, h.names, h.jsClosed, ?_, ?_⟩, ?_, ?_, h.readerOnly, h.writing, h.finished⟩
  · intro s hs
    rcases h.tracked s hs with hst | hx | ⟨o', ho', hid⟩
    · exact .inl hst
    · exact .inr (.inl hx)
    · exact .inr (.inr ⟨o', hmem o' ho', hid⟩)
  · intro x hx
    rcases h.running x hx with hname | ⟨o', ho', hid⟩
    · exact .inl hname
    · exact .inr ⟨o', hmem o' ho', hid⟩
  · intro sids hclose
    rcases hops _ hclose with hclose | heq
    · exact h.closeJs sids hclose
    · exact absurd heq.symm (hjs sids)
  · intro hclose
    rcases hops _ hclose with hclose | heq
    · exact h.closeNet hclose
    · exact absurd heq.symm hnet
  · intro o' ho'
    rcases mem_append.mp ho' with ho' | ho'
    · exact h.awaits o' ho'
    · rw [mem_singleton.mp ho']
      exact hawaits
  · change ((c.readerOps ++ [o]).filter Op.enters).length ≤ 1
    rw [filter_append, length_append]
    have hlast : ([o].filter Op.enters).length ≤ 1 := length_filter_le _ _
    rcases hsingle with hnil | hfalse
    · rw [hnil, length_nil]
      omega
    · have hzero : [o].filter Op.enters = [] := by
        rw [filter_eq_nil_iff]
        intro o' ho'
        rw [mem_singleton.mp ho', hfalse]
        exact Bool.false_ne_true
      rw [hzero]
      exact h.single

theorem Invariant.starts (hidle : c.readerOps = []) {o : Op} (hawaits : c.Awaits o)
    (hnet : o ≠ .closeNet) (hjs : ∀ sids, o ≠ .closeJs sids) : Invariant { c with readerOps := [o] } := by
  have happend := h.append hawaits (.inl (by rw [hidle]; rfl)) hnet hjs
  rw [hidle] at happend
  exact happend

theorem Invariant.performs (hidle : c.readerOps = []) {o : Op} (hawaits : c.Awaits o)
    (hnet : o ≠ .closeNet) (hjs : ∀ sids, o ≠ .closeJs sids)
    (hexec : ({ c with readerOps := [o] } : Conn).exec o = ({ (c.exec o).1 with
        readerOps := [o] }, (c.exec o).2)) (hcareful : CarefulOp { c with
      readerOps := [o] } o) : Invariant { (c.exec o).1 with readerOps := (c.exec o).2 } := by
  have hreader := (h.starts hidle hawaits hnet hjs).reader rfl hcareful
  rw [hexec, append_nil] at hreader
  exact hreader

theorem Invariant.command (hidle : c.readerOps = []) {cmd : Command}
    (hq : ∀ r, cmd = .consumerCreate r → c.jsClosed = false) : Invariant { (c.begin cmd).1 with
      readerOps := (c.begin cmd).2 } := by
  have hremove : ∀ sid, Invariant { (c.exec (.removeSid sid)).1 with
      readerOps := (c.exec (.removeSid sid)).2 } := by
    intro sid
    refine h.performs hidle trivial nofun nofun ?_ trivial
    have hsid : ({ c with readerOps := [.removeSid sid] } : Conn).sidAt sid = c.sidAt sid := rfl
    cases hst : c.sidAt sid with
    | none | some st => simp only [exec, hsid, hst]
  have hsame : Invariant { c with readerOps := [] } := by
    rw [← hidle]
    exact h
  cases cmd with
  | sub sid topicFilter accepted =>
    cases accepted with
    | false =>
      change Invariant { (c.exec (.removeSid sid)).1 with readerOps := (c.exec (.removeSid sid)).2 ++ [] }
      rw [append_nil]
      exact hremove sid
    | true =>
      refine (hremove sid).append ?_ (.inl ?_) nofun nofun
      · change (c.exec (.removeSid sid)).1.sidAt sid = none
        rw [exec]
        split
        · next hnone => exact hnone
        · change (c.sids.map fun m => m.erase sid).bind (fun m => m.lookup sid) = none
          cases c.sids with
          | none => rfl
          | some m => exact AList.lookup_erase _ _
      · have hlen := exec_enters c (.removeSid sid)
        exact length_eq_zero_iff.mp (Nat.le_zero.mp hlen)
  | unsub sid => exact hremove sid
  | unsubMax sid max =>
    rw [begin]
    split
    · exact hsame
    · split
      · exact h.starts hidle trivial nofun nofun
      · exact hsame.frame ⟨rfl, rfl, rfl, rfl, rfl, rfl, rfl, rfl⟩ rfl (fun o ho => .inr ho) (fun o ho => .inl ho)
          h.writing
  | consumerCreate r =>
    rw [begin]
    split
    · next x hx =>
      refine h.starts hidle ⟨h.names r.name x hx, fun y hy => ?_⟩ nofun nofun
      rw [hx] at hy
      exact (Option.some.inj hy).symm
    · next hnone => exact h.performs (o := .registerConsumer r) hidle hnone nofun nofun rfl (hq r rfl)
  | consumerDelete name =>
    rw [begin]
    split
    · exact h.starts hidle trivial nofun nofun
    · exact hsame
  | rejected => exact h.starts hidle trivial nofun nofun
  | eof =>
    exact (h.starts hidle (o := .close) trivial nofun nofun).frame ⟨rfl, rfl, rfl, rfl, rfl, rfl, rfl, rfl⟩ rfl
      (fun o ho => .inr ho) (fun o ho => .inl ho) h.writing

end

theorem writing_of_pushed {push ops : List Op} (hpush : ∀ o ∈ push, o ≠ .batch ∧ o ≠ .writeOne) {op : Op}
    (hop : op ≠ .batch) (hempty : op = .writeOne → push = []) (h : Writing (op :: ops)) : Writing (push ++ ops) := by
  rcases h with ⟨k, heq⟩ | ⟨k, heq⟩ | hnone
  · exact absurd (List.cons.inj heq).1 hop
  · cases k with
    | zero =>
      have hops : ops = [] := (List.cons.inj heq).2
      rw [hops, append_nil]
      exact .inr (.inr hpush)
    | succ k =>
      obtain ⟨hhead, htail⟩ := List.cons.inj heq
      rw [hempty hhead, nil_append]
      exact .inr (.inl ⟨k, htail⟩)
  · refine .inr (.inr fun o ho => ?_)
    rcases mem_append.mp ho with ho | ho
    · exact hpush o ho
    · exact hnone o (mem_cons_of_mem _ ho)

theorem free_of_writing {ops : List Op} {k : ℕ} (h : ops = List.replicate k .writeOne ++ [.endBatch]) :
    ∀ o ∈ ops, Free o := by
  intro o ho
  rw [h] at ho
  rcases mem_append.mp ho with ho | ho
  · rw [eq_of_mem_replicate ho]
    exact fun id => ⟨nofun, nofun⟩
  · rw [mem_singleton.mp ho]
    exact fun id => ⟨nofun, nofun⟩

theorem mem_restOps {c : Conn} {o : Op} : o ∈ c.restOps ↔ o ∈ c.subWriterOps ∨ ∃ p ∈ c.others, o ∈ p := by
  rw [restOps, mem_append, mem_flatten]

theorem Invariant.subWriter (h : c.Invariant) {takes : ℕ}
    (hq : ∀ op, c.subWriterOps.head? = some op → c.CarefulOp op) : (c.subWriterStep takes).Invariant := by
  rw [subWriterStep.eq_def]
  split
  · next hidle =>
    split
    · split
      · refine h.frame ⟨rfl, rfl, rfl, rfl, rfl, rfl, rfl, rfl⟩ rfl ?_ ?_ (.inl ⟨_, rfl⟩)
        · intro o ho
          rcases (mem_restOps).mp ho with ho | ho
          · rw [hidle] at ho
            cases ho
          · exact .inr ((mem_restOps).mpr (.inr ho))
        · intro o ho
          rcases (mem_restOps).mp ho with ho | ho
          · right
            rcases mem_cons.mp ho with rfl | ho
            · exact ⟨fun id => ⟨nofun, nofun⟩, rfl, nofun, nofun⟩
            · rcases mem_append.mp ho with ho | ho
              · rw [eq_of_mem_replicate ho]
                exact ⟨fun id => ⟨nofun, nofun⟩, rfl, nofun, nofun⟩
              · rw [mem_singleton.mp ho]
                exact ⟨fun id => ⟨nofun, nofun⟩, rfl, nofun, nofun⟩
          · exact .inl ((mem_restOps).mpr (.inr ho))
      · exact h.frame ⟨rfl, rfl, rfl, rfl, rfl, rfl, rfl, rfl⟩ rfl (fun o ho => .inr ho) (fun o ho => .inl ho) h.writing
    · exact h
  · next ops hbatch =>
    obtain ⟨k, hk⟩ : ∃ k, ops = List.replicate k .writeOne ++ [.endBatch] := by
      rcases h.writing with ⟨k, heq⟩ | ⟨k, heq⟩ | hnone
      · rw [hbatch] at heq
        exact ⟨k, (List.cons.inj heq).2⟩
      · rw [hbatch] at heq
        cases k with
        | zero | succ k => cases heq
      · exact absurd rfl (hnone .batch (by rw [hbatch]; exact mem_cons_self)).1
    have hkept : ∀ o ∈ c.subWriterOps, Free o := by
      intro o ho
      rw [hbatch] at ho
      rcases mem_cons.mp ho with rfl | ho
      · exact fun id => ⟨nofun, nofun⟩
      · exact free_of_writing hk o ho
    split
    · refine h.frame ⟨rfl, rfl, rfl, rfl, rfl, rfl, rfl, rfl⟩ rfl ?_ ?_ (.inr (.inr ?_))
      · intro o ho
        rcases (mem_restOps).mp ho with ho | ho
        · exact .inl (hkept o ho)
        · exact .inr ((mem_restOps).mpr (.inr ho))
      · intro o ho
        rcases (mem_restOps).mp ho with ho | ho
        · rw [mem_singleton.mp ho]
          exact .inr ⟨fun id => ⟨nofun, nofun⟩, rfl, nofun, nofun⟩
        · exact .inl ((mem_restOps).mpr (.inr ho))
      · intro o ho
        rw [mem_singleton.mp ho]
        exact ⟨nofun, nofun⟩
    · refine h.frame ⟨rfl, rfl, rfl, rfl, rfl, rfl, rfl, rfl⟩ rfl ?_ ?_ (.inr (.inl ⟨k, hk⟩))
      · intro o ho
        rcases (mem_restOps).mp ho with ho | ho
        · exact .inl (hkept o ho)
        · exact .inr ((mem_restOps).mpr (.inr ho))
      · intro o ho
        rcases (mem_restOps).mp ho with ho | ho
        · exact .inl ((mem_restOps).mpr (.inl (by rw [hbatch]; exact mem_cons_of_mem _ ho)))
        · exact .inl ((mem_restOps).mpr (.inr ho))
  · next op ops hne hops =>
    have hop : op ∈ c.restOps := (mem_restOps).mpr (.inl (by rw [hops]; exact mem_cons_self))
    have hothers : (c.exec op).1.others = c.others := by
      rcases (exec_programs c op).2.2 with heq | ⟨henters, -⟩
      · exact heq
      · rw [h.readerOnly op hop] at henters
        cases henters
    refine h.rest hop (hq op (by rw [hops]; rfl)) ⟨rfl, rfl, rfl, rfl, rfl, rfl, rfl, rfl⟩
      (exec_programs c op).1 ?_ ?_ ?_ ?_
    · intro o ho
      rcases (mem_restOps).mp ho with ho | ho
      · rw [hops] at ho
        rcases mem_cons.mp ho with rfl | ho
        · exact .inl rfl
        · exact .inr ((mem_restOps).mpr (.inl (mem_append_right _ ho)))
      · exact .inr ((mem_restOps).mpr (.inr (by rw [hothers]; exact ho)))
    · exact fun o ho => (mem_restOps).mpr (.inl (mem_append_left _ ho))
    · intro o ho
      rcases (mem_restOps).mp ho with ho | ho
      · rcases mem_append.mp ho with ho | ho
        · exact .inr ho
        · exact .inl ((mem_restOps).mpr (.inl (by rw [hops]; exact mem_cons_of_mem _ ho)))
      · exact .inl ((mem_restOps).mpr (.inr (by rw [← hothers]; exact ho)))
    · refine writing_of_pushed pushed_not_writing hne ?_
        (by rw [← hops]; exact h.writing)
      rintro rfl
      rfl

theorem Invariant.subWriterFails (h : c.Invariant) (hhead : c.subWriterOps.head? = some .writeOne) :
    Invariant { c with
      subWriterOps := c.toRemove.map .removeSid ++ [.close]
      subWriterUp := false
      toRemove := [] } := by
  have hkept : ∀ o ∈ c.subWriterOps, Free o := by
    rcases h.writing with ⟨k, heq⟩ | ⟨k, heq⟩ | hnone
    · rw [heq] at hhead
      cases hhead
    · exact free_of_writing heq
    · exact absurd rfl (hnone .writeOne (mem_of_mem_head? hhead)).2
  refine h.frame ⟨rfl, rfl, rfl, rfl, rfl, rfl, rfl, rfl⟩ rfl ?_ ?_ (.inr (.inr ?_))
  · intro o ho
    rcases (mem_restOps).mp ho with ho | ho
    · exact .inl (hkept o ho)
    · exact .inr ((mem_restOps).mpr (.inr ho))
  · intro o ho
    rcases (mem_restOps).mp ho with ho | ho
    · right
      rcases mem_append.mp ho with ho | ho
      · obtain ⟨sid, -, rfl⟩ := mem_map.mp ho
        exact ⟨fun id => ⟨nofun, nofun⟩, rfl, nofun, nofun⟩
      · rw [mem_singleton.mp ho]
        exact ⟨fun id => ⟨nofun, nofun⟩, rfl, nofun, nofun⟩
    · exact .inl ((mem_restOps).mpr (.inr ho))
  · intro o ho
    rcases mem_append.mp ho with ho | ho
    · obtain ⟨sid, -, rfl⟩ := mem_map.mp ho
      exact ⟨nofun, nofun⟩
    · rw [mem_singleton.mp ho]
      exact ⟨nofun, nofun⟩

private theorem mem_set_cases {α : Type} {l : List (List α)} {i : ℕ} {q : List α} {a : α}
    (h : ∃ x ∈ l.set i q, a ∈ x) : (∃ x ∈ l, a ∈ x) ∨ a ∈ q := by
  obtain ⟨x, hx, ha⟩ := h
  rcases mem_or_eq_of_mem_set hx with hx | rfl
  · exact .inl ⟨x, hx, ha⟩
  · exact .inr ha

theorem mem_set_of_mem {α : Type} {l : List (List α)} {i : ℕ} {p q : List α} {a : α} (hp : l[i]? = some p)
    (h : ∃ x ∈ l, a ∈ x) : a ∈ p ∨ ∃ x ∈ l.set i q, a ∈ x := by
  obtain ⟨x, hx, ha⟩ := h
  obtain ⟨j, hj⟩ := mem_iff_getElem?.mp hx
  by_cases hij : i = j
  · subst hij
    rw [hp] at hj
    cases hj
    exact .inl ha
  · refine .inr ⟨x, mem_iff_getElem?.mpr ⟨j, ?_⟩, ha⟩
    rw [List.getElem?_set_ne hij]
    exact hj

theorem Invariant.other (h : c.Invariant) {i : ℕ} {op : Op} {ops : List Op} (hi : c.others[i]? = some (op :: ops))
    (hq : c.CarefulOp op) : Invariant { (c.exec op).1 with
      others := (c.exec op).1.others.set i ((c.exec op).2 ++ ops) } := by
  have hop : op ∈ c.restOps :=
    (mem_restOps).mpr (.inr ⟨op :: ops, mem_of_getElem? hi, mem_cons_self⟩)
  obtain ⟨hreader, hsub, hothers⟩ := exec_programs c op
  have hothers : (c.exec op).1.others = c.others := by
    rcases hothers with heq | ⟨henters, -⟩
    · exact heq
    · rw [h.readerOnly op hop] at henters
      cases henters
  have hlen : i < c.others.length := (List.getElem?_eq_some_iff.mp hi).1
  refine h.rest hop hq ⟨rfl, rfl, rfl, rfl, rfl, rfl, rfl, rfl⟩ hreader ?_ ?_ ?_ ?_
  · intro o ho
    rcases (mem_restOps).mp ho with ho | ho
    · exact .inr ((mem_restOps).mpr (.inl (by change o ∈ (c.exec op).1.subWriterOps; rw [hsub]; exact ho)))
    · rcases mem_set_of_mem (q := (c.exec op).2 ++ ops) hi ho with ho | ho
      · rcases mem_cons.mp ho with rfl | ho
        · exact .inl rfl
        · right
          refine (mem_restOps).mpr (.inr ⟨(c.exec op).2 ++ ops, ?_, mem_append_right _ ho⟩)
          change _ ∈ (c.exec op).1.others.set i _
          rw [hothers]
          exact mem_set hlen _
      · right
        refine (mem_restOps).mpr (.inr ?_)
        change ∃ p ∈ (c.exec op).1.others.set i _, o ∈ p
        rw [hothers]
        exact ho
  · intro o ho
    refine (mem_restOps).mpr (.inr ⟨(c.exec op).2 ++ ops, ?_, mem_append_left _ ho⟩)
    change _ ∈ (c.exec op).1.others.set i _
    rw [hothers]
    exact mem_set hlen _
  · intro o ho
    rcases (mem_restOps).mp ho with ho | ho
    · exact .inl ((mem_restOps).mpr (.inl (by rw [← hsub]; exact ho)))
    · change ∃ p ∈ (c.exec op).1.others.set i _, o ∈ p at ho
      rw [hothers] at ho
      rcases mem_set_cases ho with ho | ho
      · exact .inl ((mem_restOps).mpr (.inr ho))
      · rcases mem_append.mp ho with ho | ho
        · exact .inr ho
        · exact .inl ((mem_restOps).mpr (.inr ⟨op :: ops, mem_of_getElem? hi, mem_cons_of_mem _ ho⟩))
  · change Writing (c.exec op).1.subWriterOps
    rw [hsub]
    exact h.writing

/-- A publisher leaves the tables alone, and does not panic as long as the channels are open. -/
theorem sameTables_serve {c : Conn} {subs : List BusSub} (h : ∀ s ∈ subs, s.callback = none → s ∈ c.bus) :
    SameTables c (c.serve subs) ∧ (c.serve subs).readerOps = c.readerOps ∧
      (c.serve subs).subWriterOps = c.subWriterOps ∧ (c.serve subs).others = c.others := by
  induction subs generalizing c with
  | nil => exact ⟨sameTables_refl c, rfl, rfl, rfl⟩
  | cons s subs ih =>
    have hrest : ∀ s ∈ subs, s.callback = none → s ∈ c.bus := fun s hs => h s (mem_cons_of_mem _ hs)
    rw [serve]
    split
    · split
      · exact ih hrest
      · obtain ⟨hsame, hprograms⟩ := ih (c := { c with subCh := c.subCh ++ [_] }) hrest
        exact ⟨⟨hsame.closed, hsame.sids, hsame.consumers, hsame.jsClosed, hsame.bus, hsame.running, hsame.netOpen,
          hsame.panicked⟩, hprograms⟩
    · next hnone =>
      rw [if_pos (h s mem_cons_self hnone)]
      exact ih hrest

theorem Invariant.step (h : c.Invariant) {turn : Turn} (hq : c.Careful turn) : (c.step turn).Invariant := by
  have hframe : ∀ {c' : Conn}, SameTables c c' → c'.readerOps = c.readerOps → c'.subWriterOps = c.subWriterOps →
      c'.others = c.others → c'.Invariant := by
    intro c' hsame hreader hsub hothers
    have hrest : c'.restOps = c.restOps := by
      rw [restOps, restOps, hsub, hothers]
    refine h.frame hsame hreader ?_ ?_ ?_
    · rw [hrest]
      exact fun o ho => .inr ho
    · rw [hrest]
      exact fun o ho => .inl ho
    · rw [hsub]
      exact h.writing
  have hspawn : ∀ o : Op, Free o → o.enters = false → o ≠ .closeNet → (∀ sids, o ≠ .closeJs sids) →
      Invariant { c with others := c.others ++ [[o]] } := by
    intro o hfree henters hnet hjs
    refine h.frame ⟨rfl, rfl, rfl, rfl, rfl, rfl, rfl, rfl⟩ rfl ?_ ?_ h.writing
    · intro o' ho'
      rcases (mem_restOps).mp ho' with ho' | ⟨p, hp, ho'⟩
      · exact .inr ((mem_restOps).mpr (.inl ho'))
      · exact .inr ((mem_restOps).mpr (.inr ⟨p, mem_append_left _ hp, ho'⟩))
    · intro o' ho'
      rcases (mem_restOps).mp ho' with ho' | ⟨p, hp, ho'⟩
      · exact .inl ((mem_restOps).mpr (.inl ho'))
      · rcases mem_append.mp hp with hp | hp
        · exact .inl ((mem_restOps).mpr (.inr ⟨p, hp, ho'⟩))
        · rw [mem_singleton.mp hp] at ho'
          rw [mem_singleton.mp ho']
          exact .inr ⟨hfree, henters, hnet, hjs⟩
  rw [Conn.step.eq_def, if_neg (by rw [h.panicked]; exact Bool.false_ne_true)]
  cases turn with
  | command cmd =>
    dsimp only
    split
    · next hidle =>
      refine h.command hidle.1 ?_
      rintro r rfl
      exact hq.2
    · exact h
  | reader =>
    dsimp only
    split
    · exact h
    · next op ops hc => exact h.reader hc (hq.1 op (by rw [nextOp, hc]; rfl))
  | subWriter takes => exact h.subWriter fun op hop => hq.1 op hop
  | subWriterFails =>
    dsimp only
    split
    · next hhead => exact h.subWriterFails hhead
    · exact h
  | other i =>
    dsimp only
    split
    · next op ops hi => exact h.other hi (hq.1 op (by rw [nextOp, hi]; rfl))
    · exact h
  | disconnect => exact hspawn .close (fun id => ⟨nofun, nofun⟩) rfl nofun nofun
  | publish ids => exact hframe ⟨rfl, rfl, rfl, rfl, rfl, rfl, rfl, rfl⟩ rfl rfl rfl
  | serve i =>
    dsimp only
    split
    · next subs hsubs =>
      obtain ⟨hsame, hreader, hsub, hothers⟩ := sameTables_serve (hq.2 subs hsubs)
      exact hframe ⟨hsame.closed, hsame.sids, hsame.consumers, hsame.jsClosed, hsame.bus, hsame.running,
        hsame.netOpen, hsame.panicked⟩ hreader hsub hothers
    · exact h
  | receive x =>
    dsimp only
    split
    · split
      · exact hspawn (.deliver x.deliverSubj) (fun id => ⟨nofun, nofun⟩) rfl nofun nofun
      · exact hframe ⟨rfl, rfl, rfl, rfl, rfl, rfl, rfl, rfl⟩ rfl rfl rfl
    · exact h

theorem invariant_new : Invariant new where
  panicked := rfl
  sids := ⟨(fun h => by cases h), fun h => by cases h⟩
  tracked := fun s hs => by cases hs
  running := fun x hx => by cases hx
  names := fun name x hx => by cases hx
  jsClosed := fun h => by cases h
  closeJs := fun sids h => by cases h
  closeNet := fun h => by cases h
  awaits := fun o ho => by cases ho
  single := Nat.zero_le 1
  readerOnly := fun o ho => by cases ho
  writing := .inr (.inr fun o ho => by cases ho)
  finished := fun h => by cases h

theorem exec_wire {c : Conn} (h : c.netOpen = false) (op : Op) :
    (c.exec op).1.netOpen = false ∧ (c.exec op).1.wire = c.wire := by
  cases op with
  | writeOne =>
    have hsame := (sameTables_writeOne c).netOpen
    refine ⟨hsame.trans h, ?_⟩
    change c.writeOne.wire = c.wire
    rw [writeOne.eq_def]
    split
    · rfl
    · dsimp only
      rw [h]
      split
      · rfl
      · split
        · rfl
        · split
          · rfl
          · rfl
  | write =>
    rw [exec, h]
    exact ⟨rfl, rfl⟩
  | removeSid k | register st | startDelivery x | close =>
    rw [exec]
    split <;> exact ⟨h, rfl⟩
  | scanned x r =>
    rw [exec]
    split
    · split <;> exact ⟨h, rfl⟩
    · exact ⟨h, rfl⟩
  | closeNet => exact ⟨rfl, rfl⟩
  | stopSid | unsubscribe | onUnsubscribe | removeConsumer | replaceConsumer | stop | subscribe | onSubscribe
  | registerConsumer | deliver | send | batch | endBatch | closeJs => exact ⟨h, rfl⟩

private theorem serve_wire (c : Conn) (subs : List BusSub) :
    (c.serve subs).netOpen = c.netOpen ∧ (c.serve subs).wire = c.wire := by
  induction subs generalizing c with
  | nil => exact ⟨rfl, rfl⟩
  | cons s subs ih =>
    rw [serve]
    split
    · obtain ⟨hnet, hwire⟩ := ih (if _ ∈ c.stopped then c else { c with subCh := c.subCh ++ [_] })
      rw [hnet, hwire]
      split <;> exact ⟨rfl, rfl⟩
    · obtain ⟨hnet, hwire⟩ := ih (if s ∈ c.bus then c else { c with panicked := true })
      rw [hnet, hwire]
      split <;> exact ⟨rfl, rfl⟩

/-- Nothing reaches the client after `close` has finished. -/
theorem step_wire {c : Conn} (h : c.netOpen = false) (turn : Turn) :
    (c.step turn).netOpen = false ∧ (c.step turn).wire = c.wire := by
  rw [Conn.step.eq_def]
  split
  · exact ⟨h, rfl⟩
  · cases turn with
    | command cmd =>
      dsimp only
      split
      · cases cmd with
        | sub sid topicFilter accepted | unsub sid => exact exec_wire h _
        | unsubMax sid max =>
          rw [begin]
          split
          · exact ⟨h, rfl⟩
          · split <;> exact ⟨h, rfl⟩
        | consumerCreate r | consumerDelete name =>
          rw [begin]
          split <;> exact ⟨h, rfl⟩
        | rejected | eof => exact ⟨h, rfl⟩
      · exact ⟨h, rfl⟩
    | reader =>
      dsimp only
      split
      · exact ⟨h, rfl⟩
      · exact exec_wire h _
    | subWriter takes =>
      dsimp only
      rw [subWriterStep.eq_def]
      split
      · split
        · split <;> exact ⟨h, rfl⟩
        · exact ⟨h, rfl⟩
      · split <;> exact ⟨h, rfl⟩
      · exact exec_wire h _
    | subWriterFails =>
      dsimp only
      split <;> exact ⟨h, rfl⟩
    | other i =>
      dsimp only
      split
      · exact exec_wire h _
      · exact ⟨h, rfl⟩
    | disconnect | publish ids => exact ⟨h, rfl⟩
    | serve i =>
      dsimp only
      split
      · next subs _ =>
        obtain ⟨hnet, hwire⟩ := serve_wire c subs
        exact ⟨hnet.trans h, hwire⟩
      · exact ⟨h, rfl⟩
    | receive x =>
      dsimp only
      split
      · split <;> exact ⟨h, rfl⟩
      · exact ⟨h, rfl⟩

/-- What closing the connection is to bring: no panic, and once the reader has returned and `close` has
finished, the bus holds nothing for the connection, no consumer runs and nothing more reaches the
client. -/
structure ClosesSafely (c : Conn) : Prop where
  noPanic : c.panicked = false
  complete : c.Returned → c.netOpen = false → c.bus = [] ∧ c.running = [] ∧ ∀ turns, (run step c turns).wire = c.wire

theorem Invariant.closesSafely (h : c.Invariant) : c.ClosesSafely where
  noPanic := h.panicked
  complete := by
    intro hreturned hnet
    obtain ⟨hclosed, hjs, hfree⟩ := h.finished hnet
    have hsids := h.sids.mpr hclosed
    have hops : ∀ o ∈ c.ops, Free o := by
      intro o ho
      rcases mem_append.mp ho with ho | ho
      · rw [hreturned.2] at ho
        cases ho
      · exact hfree o ho
    refine ⟨?_, ?_, fun turns => ?_⟩
    · rw [eq_nil_iff_forall_not_mem]
      intro s hs
      rcases h.tracked s hs with ⟨sid, st, hst, -⟩ | ⟨name, x, hx, -⟩ | ⟨o, ho, hid⟩
      · rw [sidAt, hsids] at hst
        cases hst
      · rw [h.jsClosed hjs name] at hx
        cases hx
      · exact (hops o ho s.id).1 hid
    · rw [eq_nil_iff_forall_not_mem]
      intro x hx
      rcases h.running x hx with ⟨name, hname⟩ | ⟨o, ho, hid⟩
      · rw [h.jsClosed hjs name] at hname
        cases hname
      · exact (hops o ho x.busSubID).2 hid
    · have hquiet : (run Conn.step c turns).netOpen = false ∧ (run Conn.step c turns).wire = c.wire := by
        refine run_always (P := fun c' : Conn => c'.netOpen = false ∧ c'.wire = c.wire) ?_ ⟨hnet, rfl⟩ turns
        exact fun c' turn hc' => ⟨(step_wire hc'.1 turn).1, (step_wire hc'.1 turn).2.trans hc'.2⟩
      exact hquiet.2

end

end MonsterMQ.Nats.Conn
