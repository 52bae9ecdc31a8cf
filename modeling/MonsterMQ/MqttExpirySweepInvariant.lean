import MonsterMQ.MqttExpirySweep
import MonsterMQ.NestedMaps

/-!
# What the sweep and an attachment keep

Until the new connection is added, the client the sweep works on under its id is the registered one, and a
client that the sweep does not find taken over has nothing left to inherit.
-/

namespace MonsterMQ.Sweep

open FiniteMaps List

namespace AttachAt

@[grind =] def held : AttachAt → Option ℕ
  | .decide e | .abandon e _ | .abandoned e | .inherit e | .copy e | .resubscribe e _
  | .release e _ | .released e => some e
  | _ => none

/-- The client whose session the attachment takes over, once it has marked it. -/
@[grind =] def taking : AttachAt → Option ℕ
  | .copy e | .resubscribe e _ | .release e _ | .released e => some e
  | _ => none

/-- The subscriptions still to be made for the new connection. -/
def captured : AttachAt → List String
  | .resubscribe _ todo => todo
  | .restore todo => todo
  | _ => []

@[grind =] def Added : AttachAt → Prop
  | .hookStorage | .hookQueue | .established => True
  | _ => False

@[grind =] def Absent : AttachAt → Prop
  | .stored | .restore _ => True
  | _ => False

@[grind =] def Fresh : AttachAt → Prop
  | .lookup | .decide _ | .abandon _ _ | .abandoned _ | .inherit _ | .copy _ | .stored => True
  | _ => False

end AttachAt

/-- What is left of the subscriptions of a client that is being unsubscribed. -/
def UnsubscribeAt.Cleared (subs : List String) : UnsubscribeAt → Prop
  | .start => True
  | .clear _ todo => subs ⊆ todo
  | _ => subs = []

namespace Server

@[grind =] def cid (s : Server) : String := (s.objects s.cl).id

@[grind =] def worklist (s : Server) : List (String × ℕ) :=
  match s.sweep with
  | .idle => []
  | .loop _ rest => rest
  | .working _ rest id c _ => (id, c) :: rest

/-- What the new connection has inherited or is about to. -/
@[grind =] def carried (s : Server) : List String := (s.objects s.cl).subscriptions ++ s.attach.captured

/-- The invariant until the new connection is added. -/
structure Before (s : Server) : Prop where
  fresh : ∀ i, s.clients.lookup i ≠ some s.cl
  registered : ∀ c, (s.cid, c) ∈ s.worklist → s.clients.lookup s.cid = some c
  found : ∀ e, s.attach.held = some e →
    s.clients.lookup s.cid = some e ∨ s.clients.lookup s.cid = none
  covered : ∀ f ∈ (s.objects s.cl).subscriptions, (s.cid, f) ∈ s.topics
  carried_taken : s.carried ≠ [] → ∀ c, s.clients.lookup s.cid = some c →
    (s.objects c).isTakenOver = true
  taking : ∀ e, s.attach.taking = some e → (s.objects e).isTakenOver = true
  no_remove : ∀ e todo, s.attach ≠ .release e (.remove todo)
  clearing : ∀ now rest c u, s.sweep = .working now rest s.cid c (.unsubscribe u) →
    u.Cleared (s.objects c).subscriptions
  removing : ∀ now rest c todo,
    s.sweep = .working now rest s.cid c (.unsubscribe (.remove todo)) → s.carried = []
  empty : s.attach.Fresh → (s.objects s.cl).subscriptions = []
  absent : s.attach.Absent → s.clients.lookup s.cid = none

structure Inv (s : Server) : Prop where
  keyed : ∀ i c, s.clients.lookup i = some c → (s.objects c).id = i
  listed : ∀ x ∈ s.worklist, (s.objects x.2).id = x.1
  nodup : (s.worklist.map Prod.fst).Nodup
  live : (s.objects s.cl).disconnected = 0
  owner : (s.objects s.cl).isTakenOver = false
  working_ne : ∀ now rest i c st, s.sweep = .working now rest i c st → c ≠ s.cl
  held_ne : ∀ e, s.attach.held = some e → e ≠ s.cl ∧ (s.objects e).id = s.cid
  before : ¬s.attach.Added → s.Before

variable {s : Server}

variable {c e : ℕ}

theorem Inv.setOld (h : s.Inv) {v : Client} (hc : c ≠ s.cl) (hid : v.id = (s.objects c).id)
    (hsubs : v.subscriptions ⊆ (s.objects c).subscriptions)
    (htaken : (s.objects c).isTakenOver = true → v.isTakenOver = true) : (s.setObject c v).Inv := by
  have hcl : (s.setObject c v).objects s.cl = s.objects s.cl := by
    simp [setObject, Function.update_of_ne (Ne.symm hc)]
  have hids : ∀ d, ((s.setObject c v).objects d).id = (s.objects d).id := by
    intro d
    by_cases hd : d = c
    · subst hd; simp [setObject, hid]
    · simp [setObject, Function.update_of_ne hd]
  have hall : ∀ d, ((s.setObject c v).objects d).subscriptions ⊆ (s.objects d).subscriptions := by
    intro d
    by_cases hd : d = c
    · subst hd; simpa [setObject] using hsubs
    · simp [setObject, Function.update_of_ne hd]
  have htk : ∀ d, (s.objects d).isTakenOver = true →
      ((s.setObject c v).objects d).isTakenOver = true := by
    intro d hd'
    by_cases hd : d = c
    · subst hd; simpa [setObject] using htaken hd'
    · simpa [setObject, Function.update_of_ne hd] using hd'
  have hcid : (s.setObject c v).cid = s.cid := hids s.cl
  have hcarried : (s.setObject c v).carried = s.carried := by
    show ((s.setObject c v).objects s.cl).subscriptions ++ _ = _
    rw [hcl]; rfl
  refine ⟨fun i d hd => (hids d).trans (h.keyed i d hd),
    fun x hx => (hids x.2).trans (h.listed x hx), h.nodup, ?_, ?_, h.working_ne, ?_, fun hn => ?_⟩
  · exact (congrArg Client.disconnected hcl).trans h.live
  · exact (congrArg Client.isTakenOver hcl).trans h.owner
  · intro e he
    exact ⟨(h.held_ne e he).1, by rw [hcid]; exact (hids e).trans (h.held_ne e he).2⟩
  · have b := h.before hn
    refine ⟨b.fresh, ?_, ?_, ?_, ?_, fun e he => htk e (b.taking e he), b.no_remove, ?_, ?_, ?_, ?_⟩
    · rw [hcid]; exact b.registered
    · rw [hcid]; exact b.found
    · rw [hcid]
      intro f hf
      exact b.covered f (by rw [← hcl]; exact hf)
    · rw [hcid, hcarried]
      exact fun hne d hd => htk d (b.carried_taken hne d hd)
    · rw [hcid]
      intro now rest d u hsw
      have hcleared := b.clearing now rest d u hsw
      cases u with
      | start => trivial
      | clear all todo => exact List.Subset.trans (hall d) hcleared
      | check all | remove todo | finished => exact subset_nil.mp (hcleared ▸ hall d)
    · rw [hcid, hcarried]; exact b.removing
    · intro hfresh
      exact (congrArg Client.subscriptions hcl).trans (b.empty hfresh)
    · rw [hcid]; exact b.absent

theorem Inv.hooks (h : s.Inv) (sessions : FMap String SessionInfo) (persistent : Finset String) :
    Inv { s with sessions := sessions, persistent := persistent } :=
  ⟨h.keyed, h.listed, h.nodup, h.live, h.owner, h.working_ne, h.held_ne, fun hn =>
    ⟨(h.before hn).fresh, (h.before hn).registered, (h.before hn).found, (h.before hn).covered,
      (h.before hn).carried_taken, (h.before hn).taking, (h.before hn).no_remove,
      (h.before hn).clearing, (h.before hn).removing, (h.before hn).empty,
      (h.before hn).absent⟩⟩

theorem Inv.sweepTo (h : s.Inv) {p : SweepAt} (hsub : { s with sweep := p }.worklist.Subperm s.worklist)
    (hworking : ∀ now rest i c st, p = .working now rest i c st → c ≠ s.cl)
    (hclearing : ¬s.attach.Added → ∀ now rest c u, p = .working now rest s.cid c (.unsubscribe u) →
      u.Cleared (s.objects c).subscriptions)
    (hremoving : ¬s.attach.Added → ∀ now rest c todo,
      p = .working now rest s.cid c (.unsubscribe (.remove todo)) → s.carried = []) :
    Inv { s with sweep := p } := by
  refine ⟨h.keyed, fun x hx => h.listed x (hsub.subset hx), ?_, h.live,
    h.owner, hworking, h.held_ne, fun hn => ?_⟩
  · obtain ⟨l, hperm, hl⟩ := hsub
    exact (hperm.map _).nodup_iff.mp (h.nodup.sublist (hl.map _))
  have b := h.before hn
  exact ⟨b.fresh, fun c hc => b.registered c (hsub.subset hc), b.found, b.covered, b.carried_taken,
    b.taking, b.no_remove, hclearing hn, hremoving hn, b.empty, b.absent⟩

variable {a : AttachAt}

theorem Inv.attachTo (h : s.Inv) (hn : ¬s.attach.Added)
    (hheld : ∀ e, a.held = some e → e ≠ s.cl ∧ (s.objects e).id = s.cid ∧
      (s.clients.lookup s.cid = some e ∨ s.clients.lookup s.cid = none))
    (htaking : ∀ e, a.taking = some e → (s.objects e).isTakenOver = true)
    (hremove : ∀ e todo, a ≠ .release e (.remove todo))
    (hcaptured : a.captured = [] ∨
      ((∀ c, s.clients.lookup s.cid = some c → (s.objects c).isTakenOver = true) ∧
      ∀ now rest c todo, s.sweep = .working now rest s.cid c (.unsubscribe (.remove todo)) →
        a.captured = []))
    (hfresh : a.Fresh → (s.objects s.cl).subscriptions = [])
    (habsent : a.Absent → s.clients.lookup s.cid = none) : Inv { s with attach := a } := by
  have b := h.before hn
  refine ⟨h.keyed, h.listed, h.nodup, h.live, h.owner, h.working_ne,
    fun e he => ⟨(hheld e he).1, (hheld e he).2.1⟩, fun _ => ?_⟩
  refine ⟨b.fresh, b.registered, fun e he => (hheld e he).2.2, b.covered, ?_, htaking, hremove,
    b.clearing, ?_, hfresh, habsent⟩
  · intro hne c hc
    rcases hcaptured with hnil | ⟨htaken, -⟩
    · refine b.carried_taken (fun hcarried => hne ?_) c hc
      have hsubs := (append_eq_nil_iff.mp hcarried).1
      exact append_eq_nil_iff.mpr ⟨hsubs, hnil⟩
    · exact htaken c hc
  · intro now rest c todo hsw
    have hsubs := (append_eq_nil_iff.mp (b.removing now rest c todo hsw)).1
    rcases hcaptured with hnil | ⟨-, hnil⟩
    · exact append_eq_nil_iff.mpr ⟨hsubs, hnil⟩
    · exact append_eq_nil_iff.mpr ⟨hsubs, hnil now rest c todo hsw⟩

theorem Inv.attachAdded (h : s.Inv) (ha : a.Added) (hheld : a.held = none) : Inv { s with attach := a } :=
  ⟨h.keyed, h.listed, h.nodup, h.live, h.owner, h.working_ne,
    fun e he => absurd (hheld.symm.trans he) (by simp), fun hn => absurd ha hn⟩

theorem Inv.sweepStart (h : s.Inv) (now : ℤ) : (s.sweepStart now).Inv := by
  unfold Server.sweepStart
  split
  next hidle =>
    have hmem : ∀ i c, (i, c) ∈ s.clients.entries.map (fun e => (e.1, e.2)) →
        s.clients.lookup i = some c := by
      intro i c hm
      obtain ⟨⟨i', c'⟩, he, heq⟩ := mem_map.mp hm
      obtain ⟨rfl, rfl⟩ := Prod.mk.inj heq
      exact AList.mem_lookup_iff.mpr he
    refine ⟨h.keyed, fun x hx => h.keyed x.1 x.2 (hmem x.1 x.2 hx), ?_, h.live, h.owner,
      fun _ _ _ _ _ heq => (by cases heq), h.held_ne, fun hn => ?_⟩
    · have hkeys := s.clients.nodupKeys
      simpa [worklist, List.NodupKeys, List.keys, Function.comp_def] using hkeys
    · have b := h.before hn
      exact ⟨b.fresh, fun c hc => hmem _ c hc, b.found, b.covered, b.carried_taken, b.taking,
        b.no_remove, fun _ _ _ _ heq => (by cases heq), fun _ _ _ _ heq => (by cases heq),
        b.empty, b.absent⟩
  · exact h

variable {now : ℤ}

theorem expires_ne (h : s.Inv) (he : s.expires now c = true) : c ≠ s.cl := by
  rintro rfl
  simp [expires, h.live] at he

theorem Inv.sweepNext (h : s.Inv) (i : ℕ) : (s.sweepNext i).Inv := by
  unfold Server.sweepNext
  split
  next now hsw =>
    refine h.sweepTo ?_ ?_ ?_ ?_
    · exact nil_subperm
    all_goals intros; contradiction
  next now rest hne hsw =>
    split
    · exact h
    next id c hget =>
      have hwork : s.worklist = rest := by simp [worklist, hsw]
      split
      next hexp =>
        refine h.sweepTo ?_ ?_ ?_ ?_
        · rw [hwork]
          obtain ⟨hi, hget⟩ := List.getElem?_eq_some_iff.mp hget
          have hperm := getElem_cons_eraseIdx_perm hi
          rw [hget] at hperm
          exact hperm.subperm
        · intro _ _ _ _ _ heq
          cases heq
          exact expires_ne h hexp
        · intro _ _ _ _ _ heq
          cases heq
        · intro _ _ _ _ _ heq
          cases heq
      · refine h.sweepTo ?_ ?_ ?_ ?_
        · rw [hwork]
          exact (eraseIdx_sublist _ _).subperm
        all_goals intros; contradiction
  · exact h

theorem Inv.setTopics (h : s.Inv) {t : Finset (String × String)}
    (hcovered : ¬s.attach.Added → ∀ f ∈ (s.objects s.cl).subscriptions, (s.cid, f) ∈ t) :
    Inv { s with topics := t } :=
  ⟨h.keyed, h.listed, h.nodup, h.live, h.owner, h.working_ne, h.held_ne, fun hn =>
    ⟨(h.before hn).fresh, (h.before hn).registered, (h.before hn).found, hcovered hn,
      (h.before hn).carried_taken, (h.before hn).taking, (h.before hn).no_remove,
      (h.before hn).clearing, (h.before hn).removing, (h.before hn).empty,
      (h.before hn).absent⟩⟩

/-- `UnsubscribeClient` only touches the client, and the topic index under its id. -/
theorem unsubscribeClient_frame (s : Server) (c : ℕ) (u : UnsubscribeAt) :
    (s.unsubscribeClient c u).1.sweep = s.sweep ∧ (s.unsubscribeClient c u).1.attach = s.attach ∧
      (s.unsubscribeClient c u).1.clients = s.clients ∧ (s.unsubscribeClient c u).1.cl = s.cl ∧
      (∀ d, d ≠ c → (s.unsubscribeClient c u).1.objects d = s.objects d) ∧
      ((s.unsubscribeClient c u).1.objects c).isTakenOver = (s.objects c).isTakenOver ∧
      ((s.unsubscribeClient c u).1.objects c).id = (s.objects c).id := by
  cases u with
  | start | finished => simp [unsubscribeClient]
  | clear all todo =>
    cases todo with
    | nil => simp [unsubscribeClient]
    | cons f fs =>
      simp only [unsubscribeClient, setObject, Function.update_self, true_and, and_true]
      exact fun d hd => Function.update_of_ne hd _ _
  | check all =>
    simp only [unsubscribeClient]
    split <;> simp
  | remove todo => cases todo <;> simp [unsubscribeClient]

variable {u : UnsubscribeAt}

theorem Inv.unsubscribeClient (h : s.Inv) (hc : c ≠ s.cl)
    (hsafe : ¬s.attach.Added → (s.objects c).id = s.cid → ∀ todo, u = .remove todo →
      (s.objects s.cl).subscriptions = []) : (s.unsubscribeClient c u).1.Inv := by
  cases u with
  | start => exact h
  | clear all todo =>
    cases todo with
    | nil => exact h
    | cons f fs => exact h.setOld hc rfl (filter_subset_self _) id
  | check all =>
    simp only [Server.unsubscribeClient]
    split <;> exact h
  | remove todo =>
    cases todo with
    | nil => exact h
    | cons f fs =>
      refine h.setTopics fun hn g hg => Finset.mem_erase.mpr ⟨?_, (h.before hn).covered g hg⟩
      intro heq
      have hnil := hsafe hn (Prod.mk.inj heq).1.symm _ rfl
      simp [hnil] at hg
  | finished => exact h

private theorem unsubscribeClient_cleared (h : u.Cleared (s.objects c).subscriptions) :
    (s.unsubscribeClient c u).2.Cleared ((s.unsubscribeClient c u).1.objects c).subscriptions := by
  cases u with
  | start => exact List.Subset.refl _
  | clear all todo =>
    cases todo with
    | nil => exact subset_nil.mp h
    | cons f fs =>
      simp only [unsubscribeClient, setObject, Function.update_self]
      intro g hg
      obtain ⟨hg, hne⟩ := mem_filter.mp hg
      exact (mem_cons.mp (h hg)).resolve_left (by simpa using hne)
  | check all =>
    simp only [unsubscribeClient]
    split <;> exact h
  | remove todo => cases todo <;> exact h
  | finished => exact h

/-- The call comes to delete from the topic index only when it found the client not taken over. -/
theorem unsubscribeClient_remove {todo : List String} (h : (s.unsubscribeClient c u).2 = .remove todo) :
    (∃ all, u = .check all ∧ (s.objects c).isTakenOver = false) ∨ ∃ more, u = .remove more := by
  cases u with
  | start => cases h
  | clear all todo => cases todo <;> cases h
  | check all =>
    simp only [unsubscribeClient] at h
    split at h
    · cases h
    next ht => exact .inl ⟨all, rfl, by simpa using ht⟩
  | remove more => exact .inr ⟨more, rfl⟩
  | finished => cases h

theorem unsubscribeClient_carried (hc : c ≠ s.cl) (u : UnsubscribeAt) :
    (s.unsubscribeClient c u).1.carried = s.carried ∧ (s.unsubscribeClient c u).1.cid = s.cid := by
  obtain ⟨-, hattach, -, hcl, hne, -⟩ := s.unsubscribeClient_frame c u
  have hobj := hne s.cl (Ne.symm hc)
  simp only [carried, cid, hcl, hattach, hobj, and_self]

variable {rest : List (String × ℕ)}

/-- While the sweep deletes under the id of the new connection, there is nothing to inherit. -/
theorem Inv.removing_carried (h : s.Inv) (hn : ¬s.attach.Added) {todo : List String}
    (hsw : s.sweep = .working now rest s.cid c (.unsubscribe u))
    (hu : (s.unsubscribeClient c u).2 = .remove todo) : s.carried = [] := by
  have b := h.before hn
  rcases unsubscribeClient_remove hu with ⟨all, rfl, htaken⟩ | ⟨more, rfl⟩
  · by_contra hne
    have hreg := b.registered c (by simp [worklist, hsw])
    simp [b.carried_taken hne c hreg] at htaken
  · exact b.removing now rest c more hsw

theorem Inv.toStage (h : s.Inv) {i : String} {st st' : Stage} (hsw : s.sweep = .working now rest i c st)
    (hunsub : ∀ u, st' = .unsubscribe u → ¬s.attach.Added → i = s.cid →
      u.Cleared (s.objects c).subscriptions ∧ ∀ todo, u = .remove todo → s.carried = []) :
    Inv { s with sweep := .working now rest i c st' } := by
  have hc := h.working_ne now rest i c st hsw
  refine h.sweepTo ?_ ?_ ?_ ?_
  · rw [show s.worklist = (i, c) :: rest by simp [worklist, hsw]]
    exact List.Subperm.refl _
  · intro _ _ _ _ _ heq
    cases heq
    exact hc
  · intro hn _ _ _ u heq
    cases heq
    exact (hunsub u rfl hn rfl).1
  · intro hn _ _ _ todo heq
    cases heq
    exact (hunsub _ rfl hn rfl).2 todo rfl

theorem Inv.delete (h : s.Inv) {i : String} {st : Stage} (hsw : s.sweep = .working now rest i c st) :
    Inv { s with clients := s.clients.erase i, sweep := .loop now rest } := by
  have hwork : s.worklist = (i, c) :: rest := by simp [worklist, hsw]
  have hnodup := h.nodup
  rw [hwork, map_cons, nodup_cons] at hnodup
  have hlookup : ∀ j d, (s.clients.erase i).lookup j = some d → s.clients.lookup j = some d := by
    intro j d hd
    rw [lookup_erase_if] at hd
    split at hd
    · cases hd
    · exact hd
  refine ⟨fun j d hd => h.keyed j d (hlookup j d hd), fun x hx => h.listed x (by
    rw [hwork]; exact mem_cons_of_mem _ hx), hnodup.2, h.live, h.owner, ?_, h.held_ne,
    fun hn => ?_⟩
  · intro _ _ _ _ _ heq
    cases heq
  have b := h.before hn
  refine ⟨fun j hj => b.fresh j (hlookup j _ hj), ?_, ?_, b.covered,
    fun hne d hd => b.carried_taken hne d (hlookup _ d hd), b.taking, b.no_remove, ?_, ?_, b.empty,
    fun ha => ?_⟩
  · intro d hd
    have hne : s.cid ≠ i := by
      rintro heq
      exact hnodup.1 (mem_map.mpr ⟨(s.cid, d), hd, heq⟩)
    show (s.clients.erase i).lookup s.cid = some d
    rw [lookup_erase_if, if_neg hne]
    exact b.registered d (by rw [hwork]; exact mem_cons_of_mem _ hd)
  · intro e he
    show (s.clients.erase i).lookup s.cid = some e ∨ (s.clients.erase i).lookup s.cid = none
    rw [lookup_erase_if]
    split
    · exact .inr rfl
    · exact b.found e he
  · intro _ _ _ _ heq
    cases heq
  · intro _ _ _ _ heq
    cases heq
  · show (s.clients.erase i).lookup s.cid = none
    rw [lookup_erase_if]
    split
    · rfl
    · exact b.absent ha

theorem Inv.sweepWork (h : s.Inv) : s.sweepWork.Inv := by
  unfold Server.sweepWork
  split
  next now rest i c stage hsw =>
    have hc := h.working_ne now rest i c stage hsw
    have hid : (s.objects c).id = i := h.listed (i, c) (by simp [worklist, hsw])
    split
    · have hnext : Inv { s with sweep := .working now rest i c .hookQueue } :=
        h.toStage hsw (by rintro _ ⟨⟩)
      exact hnext.hooks (s.sessions.erase (s.objects c).id) s.persistent
    · have hnext : Inv { s with sweep := .working now rest i c .clearInflights } :=
        h.toStage hsw (by rintro _ ⟨⟩)
      exact hnext.hooks s.sessions (s.persistent.erase (s.objects c).id)
    · have hcleared := h.setOld (v := { s.objects c with inflight := [] }) hc rfl
        (List.Subset.refl _) id
      refine hcleared.toStage hsw ?_
      rintro _ ⟨⟩ _ _
      exact ⟨trivial, by rintro _ ⟨⟩⟩
    · exact h.toStage hsw (by rintro _ ⟨⟩)
    next u _ =>
      obtain ⟨hfsw, hfattach, -⟩ := s.unsubscribeClient_frame c u
      obtain ⟨hcarried, hcid⟩ := unsubscribeClient_carried hc u
      have hinv : (s.unsubscribeClient c u).1.Inv := by
        refine h.unsubscribeClient hc fun hn heq todo hu => ?_
        subst hu
        have hnil := (h.before hn).removing now rest c todo (by rw [hsw, ← heq, hid])
        exact (append_eq_nil_iff.mp hnil).1
      refine hinv.toStage (hfsw.trans hsw) ?_
      rintro u' ⟨⟩ hn heq
      rw [hfattach] at hn
      rw [hcid] at heq
      subst heq
      refine ⟨unsubscribeClient_cleared ((h.before hn).clearing now rest c u hsw), ?_⟩
      intro todo hu
      rw [hcarried]
      exact h.removing_carried hn hsw hu
    · exact h.delete hsw
  · exact h

theorem AttachAt.held_of_taking (h : a.taking = some e) : a.held = some e := by
  cases a <;> simp_all [AttachAt.taking, AttachAt.held]

section

variable (h : s.Inv)
include h

/-- The new connection changes, with no subscription it has not inherited and that is not in the
topic index. -/
theorem Inv.setNew {v : Client} {t : Finset (String × String)} (hid : v.id = s.cid)
    (hlive : v.disconnected = 0) (howner : v.isTakenOver = false)
    (hcovered : ¬s.attach.Added → ∀ f ∈ v.subscriptions, (s.cid, f) ∈ t)
    (hcarried : ¬s.attach.Added → v.subscriptions ⊆ s.carried)
    (hfresh : ¬s.attach.Added → s.attach.Fresh → v.subscriptions = []) :
    ({ s with topics := t }.setObject s.cl v).Inv := by
  set s' : Server := { s with topics := t }.setObject s.cl v with hs'
  have hself : s'.objects s.cl = v := by simp [hs', setObject]
  have hother : ∀ d, d ≠ s.cl → s'.objects d = s.objects d := by
    intro d hd
    simp [hs', setObject, Function.update_of_ne hd]
  have hids : ∀ d, (s'.objects d).id = (s.objects d).id := by
    intro d
    by_cases hd : d = s.cl
    · rw [hd, hself, hid]; rfl
    · rw [hother d hd]
  have hcid : s'.cid = s.cid := hids s.cl
  refine ⟨fun i d hd => (hids d).trans (h.keyed i d hd), fun x hx => (hids x.2).trans (h.listed x hx),
    h.nodup, ?_, ?_, h.working_ne, fun e he => ?_, fun hn => ?_⟩
  · exact (congrArg Client.disconnected hself).trans hlive
  · exact (congrArg Client.isTakenOver hself).trans howner
  · rw [hcid, hids e]
    exact h.held_ne e he
  · have b := h.before hn
    have hsub : s'.carried ⊆ s.carried := by
      show (s'.objects s.cl).subscriptions ++ s.attach.captured ⊆ s.carried
      rw [hself]
      exact append_subset.mpr ⟨hcarried hn, subset_append_right _ _⟩
    refine ⟨b.fresh, ?_, ?_, ?_, ?_, fun e he => ?_, b.no_remove, ?_, ?_, ?_, ?_⟩
    · rw [hcid]; exact b.registered
    · rw [hcid]; exact b.found
    · rw [hcid]
      intro f hf
      exact hcovered hn f (hself ▸ hf)
    · rw [hcid]
      intro hne d hd
      rw [hother d (fun heq => b.fresh s.cid (heq ▸ hd))]
      exact b.carried_taken (fun hnil => hne (subset_nil.mp (hnil ▸ hsub))) d hd
    · rw [hother e (h.held_ne e (AttachAt.held_of_taking he)).1]
      exact b.taking e he
    · rw [hcid]
      intro now rest d u hsw
      rw [hother d (h.working_ne _ _ _ _ _ hsw)]
      exact b.clearing now rest d u hsw
    · rw [hcid]
      intro now rest d todo hsw
      exact subset_nil.mp (b.removing now rest d todo hsw ▸ hsub)
    · intro hf
      exact (congrArg Client.subscriptions hself).trans (hfresh hn hf)
    · rw [hcid]; exact b.absent

theorem Inv.setInflight (c : ℕ) (l : List ℕ) : (s.setObject c { s.objects c with inflight := l }).Inv := by
  by_cases hc : c = s.cl
  · subst hc
    exact h.setNew (v := { s.objects s.cl with inflight := l }) (t := s.topics) rfl h.live h.owner
      (fun hn => (h.before hn).covered) (fun _ => subset_append_left _ _)
      (fun hn => (h.before hn).empty)
  · exact h.setOld hc rfl (List.Subset.refl _) id

/-- The connection gets a subscription it is about to inherit, or makes one when it is added. -/
theorem Inv.subscribe {f : String}
    (hf : ¬s.attach.Added → f ∈ s.attach.captured ∧ ¬s.attach.Fresh) : (s.subscribe f).Inv := by
  refine h.setNew rfl h.live h.owner (fun hn g hg => ?_) (fun hn g hg => ?_)
    (fun hn hfr => absurd hfr (hf hn).2)
  · rcases mem_cons.mp hg with rfl | hg
    · exact Finset.mem_insert_self _ _
    · exact Finset.mem_insert_of_mem ((h.before hn).covered g hg)
  · rcases mem_cons.mp hg with rfl | hg
    · exact mem_append_right _ (hf hn).1
    · exact mem_append_left _ hg

theorem Inv.unsubscribe (ha : s.attach.Added) (f : String) : (s.unsubscribe f).Inv :=
  h.setNew rfl h.live h.owner (fun hn => absurd ha hn) (fun hn => absurd ha hn)
    (fun hn => absurd ha hn)

theorem Inv.add : Inv { s with clients := s.clients.insert s.cid s.cl, attach := .hookStorage } := by
  refine ⟨fun i c hc => ?_, h.listed, h.nodup, h.live, h.owner, h.working_ne, ?_, ?_⟩
  · have hc : (s.clients.insert s.cid s.cl).lookup i = some c := hc
    rw [lookup_insert_if] at hc
    split at hc
    next hi =>
      cases hc
      exact hi.symm
    · exact h.keyed i c hc
  · rintro e ⟨⟩
  · exact fun hn => absurd trivial hn

theorem Inv.held (hn : ¬s.attach.Added) (he : s.attach.held = some e) : e ≠ s.cl ∧ (s.objects e).id = s.cid ∧
      (s.clients.lookup s.cid = some e ∨ s.clients.lookup s.cid = none) :=
  ⟨(h.held_ne e he).1, (h.held_ne e he).2, (h.before hn).found e he⟩

theorem Inv.attachHeld (hn : ¬s.attach.Added)
    (he : s.attach.held = some e) (ha : a.held = some e) (hcaptured : a.captured = [])
    (htaking : a.taking = none ∨ s.attach.taking = some e) (hremove : ∀ e todo, a ≠ .release e (.remove todo))
    (hfresh : a.Fresh → s.attach.Fresh) (habsent : ¬a.Absent) : Inv { s with attach := a } := by
  refine h.attachTo hn (fun e' he' => ?_) (fun e' he' => ?_) hremove (.inl hcaptured)
    (fun hf => (h.before hn).empty (hfresh hf)) (fun hab => absurd hab habsent)
  · obtain rfl : e = e' := Option.some.inj (ha.symm.trans he')
    exact h.held hn he
  · obtain rfl : e = e' := Option.some.inj (ha.symm.trans (AttachAt.held_of_taking he'))
    rcases htaking with hnone | htk
    · rw [hnone] at he'
      cases he'
    · exact (h.before hn).taking e htk

theorem Inv.toAdd (hn : ¬s.attach.Added) : Inv { s with attach := .add } :=
  h.attachTo hn (by rintro _ ⟨⟩) (by rintro _ ⟨⟩) (by rintro _ _ ⟨⟩) (.inl rfl)
    (fun hf => hf.elim) (fun hab => hab.elim)

theorem Inv.copy (hat : s.attach = .copy e) :
    Inv { s with attach := .resubscribe e (s.objects e).subscriptions } := by
  have hn : ¬s.attach.Added := by simp [hat, AttachAt.Added]
  have b := h.before hn
  have he : s.attach.held = some e := by simp [hat, AttachAt.held]
  have htk : s.attach.taking = some e := by simp [hat, AttachAt.taking]
  have heq : ∀ c, s.clients.lookup s.cid = some c → c = e := by
    intro c hc
    rcases b.found e he with hfound | hfound
    · exact Option.some.inj (hc.symm.trans hfound)
    · rw [hfound] at hc
      cases hc
  refine h.attachTo hn ?_ ?_ (by rintro _ _ ⟨⟩) (.inr ⟨?_, ?_⟩) (fun hf => hf.elim)
    (fun hab => hab.elim)
  · rintro e' ⟨⟩
    exact h.held hn he
  · rintro e' ⟨⟩
    exact b.taking e htk
  · intro c hc
    rw [heq c hc]
    exact b.taking e htk
  · intro now rest c todo hsw
    have hreg := b.registered c (by simp [worklist, hsw])
    show (s.objects e).subscriptions = []
    rw [← heq c hreg]
    exact b.clearing now rest c _ hsw

theorem Inv.lookup (hat : s.attach = .lookup) (hlookup : s.clients.lookup s.cid = some e) (now : ℤ) :
    Inv { s.setObject e ((s.objects e).stop now) with attach := .decide e } := by
  have hn : ¬s.attach.Added := by simp [hat, AttachAt.Added]
  have hne : e ≠ s.cl := fun heq => (h.before hn).fresh _ (heq ▸ hlookup)
  have hid : ((s.objects e).stop now).id = (s.objects e).id := by
    unfold Client.stop
    split <;> rfl
  have hsubs : ((s.objects e).stop now).subscriptions = (s.objects e).subscriptions := by
    unfold Client.stop
    split <;> rfl
  have htaken : ((s.objects e).stop now).isTakenOver = (s.objects e).isTakenOver := by
    unfold Client.stop
    split <;> rfl
  have hset := h.setOld hne hid (by rw [hsubs]; exact List.Subset.refl _)
    (fun ht => htaken.trans ht)
  have hcid : (s.setObject e ((s.objects e).stop now)).cid = s.cid := by
    simp [cid, setObject, Function.update_of_ne (Ne.symm hne)]
  refine hset.attachTo hn ?_ (by rintro _ ⟨⟩) (by rintro _ _ ⟨⟩) (.inl rfl)
    (fun _ => (hset.before hn).empty (by
      show s.attach.Fresh
      simp [hat, AttachAt.Fresh])) (fun hab => hab.elim)
  rintro e' ⟨⟩
  refine ⟨hne, ?_, .inl (by rw [hcid]; exact hlookup)⟩
  rw [hcid]
  show (Function.update s.objects e _ e).id = s.cid
  rw [Function.update_self, hid]
  exact h.keyed _ e hlookup

theorem Inv.subscribeNext {f : String} {fs : List String}
    (hn : ¬s.attach.Added) (hcaptured : s.attach.captured = f :: fs) (hfresh : ¬s.attach.Fresh)
    (ha : a.held = s.attach.held) (htaking : a.taking = s.attach.taking)
    (hremove : ∀ e todo, a ≠ .release e (.remove todo)) (hafresh : ¬a.Fresh)
    (habsent : a.Absent → s.attach.Absent) : Inv { s.subscribe f with attach := a } := by
  have hsub := h.subscribe fun _ => ⟨by rw [hcaptured]; exact mem_cons_self, hfresh⟩
  have b := hsub.before hn
  have hne : (s.subscribe f).carried ≠ [] := by
    intro hnil
    have := (append_eq_nil_iff.mp hnil).2
    rw [show (s.subscribe f).attach = s.attach from rfl, hcaptured] at this
    cases this
  refine hsub.attachTo hn (fun e he => hsub.held hn (ha ▸ he)) (fun e he => b.taking e (htaking ▸ he))
    hremove (.inr ⟨b.carried_taken hne, ?_⟩) (fun hf => absurd hf hafresh)
    (fun hab => b.absent (habsent hab))
  intro now rest c todo hsw
  exact absurd (b.removing now rest c todo hsw) hne

theorem Inv.attachStep (now : ℤ) (rows : Option (List String)) : (s.attachStep now rows).Inv := by
  unfold Server.attachStep
  split
  next hat =>
    have hn : ¬s.attach.Added := by simp [hat, AttachAt.Added]
    split
    next e hlookup => exact h.lookup hat hlookup now
    next hlookup =>
      split
      · exact h.toAdd hn
      · exact h.attachTo hn (by rintro _ ⟨⟩) (by rintro _ ⟨⟩) (by rintro _ _ ⟨⟩) (.inl rfl)
          (fun _ => (h.before hn).empty (by simp [hat, AttachAt.Fresh])) (fun _ => hlookup)
  next e hat =>
    have hn : ¬s.attach.Added := by simp [hat, AttachAt.Added]
    split
    · exact h.attachHeld hn (by rw [hat]; rfl) rfl rfl (.inl rfl) (by rintro _ _ ⟨⟩)
        (fun _ => by simp [hat, AttachAt.Fresh]) id
    · exact h.attachHeld hn (by rw [hat]; rfl) rfl rfl (.inl rfl) (by rintro _ _ ⟨⟩)
        (fun _ => by simp [hat, AttachAt.Fresh]) id
  next e hat =>
    have hn : ¬s.attach.Added := by simp [hat, AttachAt.Added]
    exact h.attachHeld hn (by rw [hat]; rfl) rfl rfl (.inl rfl) (by rintro _ _ ⟨⟩)
      (fun _ => by simp [hat, AttachAt.Fresh]) id
  next e u _ hat =>
    have hn : ¬s.attach.Added := by simp [hat, AttachAt.Added]
    have he : s.attach.held = some e := by rw [hat]; rfl
    obtain ⟨-, hfattach, -⟩ := s.unsubscribeClient_frame e u
    have hinv := h.unsubscribeClient (u := u) (h.held_ne e he).1 fun _ _ _ _ =>
      (h.before hn).empty (by simp [hat, AttachAt.Fresh])
    refine hinv.attachHeld (e := e) (by rwa [hfattach]) (by rwa [hfattach]) rfl rfl (.inl rfl)
      (by rintro _ _ ⟨⟩) (fun _ => by simp [hfattach, hat, AttachAt.Fresh]) id
  next e hat =>
    have hn : ¬s.attach.Added := by simp [hat, AttachAt.Added]
    have he : s.attach.held = some e := by rw [hat]; rfl
    exact (h.setOld (v := { s.objects e with
      inflight := []
      isTakenOver := true }) (h.held_ne e he).1 rfl (List.Subset.refl _) (fun _ => rfl)).toAdd hn
  next e hat =>
    have hn : ¬s.attach.Added := by simp [hat, AttachAt.Added]
    have he : s.attach.held = some e := by rw [hat]; rfl
    have hset := h.setOld (v := { s.objects e with isTakenOver := true }) (h.held_ne e he).1 rfl
      (List.Subset.refl _) (fun _ => rfl)
    refine hset.attachTo hn ?_ ?_ (by rintro _ _ ⟨⟩) (.inl rfl) (fun _ => (hset.before hn).empty
      (show s.attach.Fresh by simp [hat, AttachAt.Fresh])) (fun hab => hab.elim)
    · rintro e' ⟨⟩
      exact hset.held hn he
    · rintro e' ⟨⟩
      simp [setObject]
  next e hat => exact (h.copy hat).setInflight s.cl (s.objects e).inflight
  next e hat =>
    have hn : ¬s.attach.Added := by simp [hat, AttachAt.Added]
    exact h.attachHeld hn (by rw [hat]; rfl) rfl rfl (.inr (by rw [hat]; rfl)) (by rintro _ _ ⟨⟩)
      (fun hf => hf.elim) id
  next e f fs hat =>
    have hn : ¬s.attach.Added := by simp [hat, AttachAt.Added]
    exact h.subscribeNext hn (by rw [hat]; rfl) (by simp [hat, AttachAt.Fresh]) (by rw [hat]; rfl)
      (by rw [hat]; rfl) (by rintro _ _ ⟨⟩) id (fun hab => hab.elim)
  next e hat =>
    have hn : ¬s.attach.Added := by simp [hat, AttachAt.Added]
    exact h.attachHeld hn (by rw [hat]; rfl) rfl rfl (.inr (by rw [hat]; rfl)) (by rintro _ _ ⟨⟩)
      (fun hf => hf.elim) id
  next e u _ hat =>
    have hn : ¬s.attach.Added := by simp [hat, AttachAt.Added]
    have he : s.attach.held = some e := by rw [hat]; rfl
    have htk : s.attach.taking = some e := by rw [hat]; rfl
    have hnever : ∀ todo, u ≠ .remove todo := fun todo hu =>
      (h.before hn).no_remove e todo (by rw [hat, hu])
    obtain ⟨-, hfattach, -⟩ := s.unsubscribeClient_frame e u
    have hinv := h.unsubscribeClient (u := u) (h.held_ne e he).1 fun _ _ todo hu =>
      absurd hu (hnever todo)
    refine hinv.attachHeld (e := e) (by rwa [hfattach]) (by rwa [hfattach]) rfl rfl
      (.inr (by rwa [hfattach])) ?_ (fun hf => hf.elim) id
    intro e' todo heq
    obtain ⟨rfl, hu⟩ := AttachAt.release.inj heq
    rcases unsubscribeClient_remove hu with ⟨all, rfl, hfalse⟩ | ⟨more, rfl⟩
    · simp [(h.before hn).taking e htk] at hfalse
    · exact hnever more rfl
  next e hat =>
    have hn : ¬s.attach.Added := by simp [hat, AttachAt.Added]
    exact (h.setInflight e []).toAdd hn
  next hat =>
    have hn : ¬s.attach.Added := by simp [hat, AttachAt.Added]
    have hnone := (h.before hn).absent (by simp [hat, AttachAt.Absent])
    split
    · split
      · exact h.toAdd hn
      · split
        · refine h.attachTo hn (by rintro _ ⟨⟩) (by rintro _ ⟨⟩) (by rintro _ _ ⟨⟩) (.inr ⟨?_, ?_⟩)
            (fun hf => hf.elim) (fun _ => hnone)
          · intro c hc
            rw [hnone] at hc
            cases hc
          · intro now rest c todo hsw
            have hreg := (h.before hn).registered c (by simp [worklist, hsw])
            rw [hnone] at hreg
            cases hreg
        · exact (h.toAdd hn).hooks (s.sessions.erase (s.objects s.cl).id) s.persistent
    · exact h.toAdd hn
  next hat => exact h.toAdd (by simp [hat, AttachAt.Added])
  next f fs hat =>
    have hn : ¬s.attach.Added := by simp [hat, AttachAt.Added]
    exact h.subscribeNext hn (by rw [hat]; rfl) (by simp [hat, AttachAt.Fresh]) (by rw [hat]; rfl)
      (by rw [hat]; rfl) (by rintro _ _ ⟨⟩) id (fun _ => by simp [hat, AttachAt.Absent])
  · exact h.add
  · split
    · exact (h.attachAdded (a := .hookQueue) trivial rfl).hooks _ s.persistent
    · exact h.attachAdded trivial rfl
  · split
    · exact (h.attachAdded (a := .established) trivial rfl).hooks s.sessions _
    · exact h.attachAdded trivial rfl
  · exact h

theorem Inv.step (ev : Event) : (s.step ev).Inv := by
  cases ev with
  | sweepStart now => exact h.sweepStart now
  | sweepNext i => exact h.sweepNext i
  | sweepWork => exact h.sweepWork
  | attach now rows => exact h.attachStep now rows
  | subscribe f =>
    simp only [Server.step]
    split
    next hat => exact h.subscribe fun hn => absurd (by simp [hat, AttachAt.Added]) hn
    · exact h
  | unsubscribe f =>
    simp only [Server.step]
    split
    next hat => exact h.unsubscribe (by simp [hat, AttachAt.Added]) f
    · exact h

end

end Server

end MonsterMQ.Sweep
