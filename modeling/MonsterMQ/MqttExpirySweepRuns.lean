import MonsterMQ.MqttExpirySweepInvariant

/-!
# When the expiry sweep leaves a reconnect unharmed

In every interleaving of sweeps with the attachment of a new connection, the connection keeps its
place, its subscriptions and its session if and only if it is not added to the clients between a
sweep's snapshot and that sweep's `Clients.Delete` of the same id.
-/

namespace MonsterMQ.Sweep

open FiniteMaps StateRuns

namespace Server

/-- The sweep has found the client listed under `id` expired and has not deleted it yet. -/
@[grind =] def SweepingOn (s : Server) (id : String) : Prop :=
  match s.sweep with
  | .working _ _ i _ _ => i = id
  | _ => False

/-- The step does not bring the connection into a sweep: it is not added while the sweep removes
its id, and a client of that id the sweep removes is still the registered one. -/
@[grind =] def Meets (s : Server) : Event → Prop
  | .attach _ _ => s.attach = .add → ¬s.SweepingOn s.cid
  | .sweepNext i =>
    match s.sweep with
    | .loop now rest => ∀ c, rest[i]? = some (s.cid, c) → s.expires now c = true →
        s.clients.lookup s.cid = some c
    | _ => True
  | _ => True

/-- The new connection is registered, its subscriptions are in the topic index, and the hooks have
its session. -/
structure Unharmed (s : Server) : Prop where
  registered : s.clients.lookup s.cid = some s.cl
  subscribed : ∀ f ∈ (s.objects s.cl).subscriptions, (s.cid, f) ∈ s.topics
  session : s.sessions.lookup s.cid = some (s.objects s.cl).sessionInfo
  persistent : s.cid ∈ s.persistent ↔ (s.objects s.cl).persists = true

structure Start (s : Server) : Prop where
  sweep : s.sweep = .idle
  attach : s.attach = .lookup
  keyed : ∀ i c, s.clients.lookup i = some c → (s.objects c).id = i
  fresh : ∀ i, s.clients.lookup i ≠ some s.cl
  live : (s.objects s.cl).disconnected = 0
  owner : (s.objects s.cl).isTakenOver = false
  empty : (s.objects s.cl).subscriptions = []

variable {s : Server}

theorem Start.inv (h : s.Start) : s.Inv := by
  have hwork : s.worklist = [] := by simp [worklist, h.sweep]
  have hidle : ∀ now rest i c st, s.sweep ≠ .working now rest i c st := by simp [h.sweep]
  refine ⟨h.keyed, by simp [hwork], by simp [hwork], h.live, h.owner,
    fun now rest i c st heq => absurd heq (hidle now rest i c st), by simp [h.attach, AttachAt.held],
    fun _ => ?_⟩
  refine ⟨h.fresh, by simp [hwork], by simp [h.attach, AttachAt.held], by simp [h.empty], ?_,
    by simp [h.attach, AttachAt.taking], by simp [h.attach],
    fun now rest c u heq => absurd heq (hidle now rest _ c _),
    fun now rest c todo heq => absurd heq (hidle now rest _ c _), fun _ => h.empty,
    by simp [h.attach, AttachAt.Absent]⟩
  intro hne
  simp [carried, h.empty, h.attach, AttachAt.captured] at hne

structure Kept (s : Server) : Prop where
  registered : s.clients.lookup s.cid = some s.cl
  unswept : ¬s.SweepingOn s.cid
  subscribed : ∀ f ∈ (s.objects s.cl).subscriptions, (s.cid, f) ∈ s.topics
  session : s.attach ≠ .hookStorage → s.sessions.lookup s.cid = some (s.objects s.cl).sessionInfo
  persistent : s.attach = .established →
    (s.cid ∈ s.persistent ↔ (s.objects s.cl).persists = true)

theorem Kept.sweepTo (h : s.Kept) {p : SweepAt}
    (hp : ¬SweepingOn { s with sweep := p } s.cid) : Kept { s with sweep := p } :=
  ⟨h.registered, hp, h.subscribed, h.session, h.persistent⟩

theorem Kept.frame {s' : Server} (h : s.Kept) (hcl : s'.cl = s.cl)
    (hobj : s'.objects s.cl = s.objects s.cl) (hclients : s'.clients = s.clients)
    (hsessions : s'.sessions = s.sessions) (hpersistent : s'.persistent = s.persistent)
    (hattach : s'.attach = s.attach) (htopics : ∀ f, (s.cid, f) ∈ s.topics → (s.cid, f) ∈ s'.topics)
    (hsw : ¬s'.SweepingOn s.cid) : s'.Kept := by
  have hcid : s'.cid = s.cid := by simp only [cid, hcl, hobj]
  constructor
  · rw [hcid, hclients, hcl]; exact h.registered
  · rw [hcid]; exact hsw
  · rw [hcid, hcl, hobj]; exact fun f hf => htopics f (h.subscribed f hf)
  · rw [hcid, hcl, hobj, hsessions, hattach]; exact h.session
  · rw [hcid, hcl, hobj, hpersistent, hattach]; exact h.persistent

theorem Kept.sweepStart (h : s.Kept) (now : ℤ) : (s.sweepStart now).Kept := by
  unfold Server.sweepStart
  split
  · exact h.sweepTo id
  · exact h

theorem Kept.sweepNext (h : s.Kept) (hi : s.Inv) {i : ℕ} (hm : s.Meets (.sweepNext i)) :
    (s.sweepNext i).Kept := by
  unfold Server.sweepNext
  split
  · exact h.sweepTo id
  next now rest _ hsw =>
    split
    · exact h
    next j c hget =>
      split
      next hexp =>
        refine h.sweepTo ?_
        intro (hid : j = s.cid)
        subst hid
        simp only [Meets, hsw] at hm
        have heq : c = s.cl := Option.some.inj ((hm c hget hexp).symm.trans h.registered)
        exact expires_ne hi hexp heq
      · exact h.sweepTo id
  · exact h

theorem unsubscribeClient_outside (s : Server) (c : ℕ) (u : UnsubscribeAt) {id : String}
    (hid : id ≠ (s.objects c).id) : (s.unsubscribeClient c u).1.sessions = s.sessions ∧
      (s.unsubscribeClient c u).1.persistent = s.persistent ∧
      ∀ f, (id, f) ∈ s.topics → (id, f) ∈ (s.unsubscribeClient c u).1.topics := by
  cases u with
  | start | finished => exact ⟨rfl, rfl, fun _ hf => hf⟩
  | clear all todo => cases todo <;> exact ⟨rfl, rfl, fun _ hf => hf⟩
  | check all =>
    simp only [unsubscribeClient]
    split <;> exact ⟨rfl, rfl, fun _ hf => hf⟩
  | remove todo =>
    cases todo with
    | nil => exact ⟨rfl, rfl, fun _ hf => hf⟩
    | cons g gs =>
      refine ⟨rfl, rfl, fun f hf => Finset.mem_erase.mpr ⟨?_, hf⟩⟩
      intro heq
      exact hid (Prod.mk.inj heq).1

theorem Kept.sweepWork (h : s.Kept) (hi : s.Inv) : s.sweepWork.Kept := by
  unfold Server.sweepWork
  split
  next now rest i c stage hsw =>
    have hne : i ≠ s.cid := by
      intro heq
      exact h.unswept (by simp [SweepingOn, hsw, heq])
    have hc := hi.working_ne now rest i c stage hsw
    have hid : (s.objects c).id = i := hi.listed (i, c) (by simp [worklist, hsw])
    have hids : s.cid ≠ (s.objects c).id := fun heq => hne (hid.symm.trans heq.symm)
    split
    · refine ⟨h.registered, hne, h.subscribed, fun ha => ?_, h.persistent⟩
      show (s.sessions.erase (s.objects c).id).lookup s.cid = _
      rw [lookup_erase_if, if_neg hids]
      exact h.session ha
    · refine ⟨h.registered, hne, h.subscribed, h.session, fun ha => ?_⟩
      show s.cid ∈ s.persistent.erase (s.objects c).id ↔ _
      rw [Finset.mem_erase, and_iff_right hids]
      exact h.persistent ha
    · refine h.frame rfl ?_ rfl rfl rfl rfl (fun _ hf => hf) hne
      exact Function.update_of_ne (Ne.symm hc) _ _
    · exact h.sweepTo hne
    next u _ =>
      obtain ⟨-, hattach, hclients, hcl, hobj, -⟩ := s.unsubscribeClient_frame c u
      obtain ⟨hsessions, hpersistent, htopics⟩ := s.unsubscribeClient_outside c u hids
      exact h.frame hcl (hobj s.cl (Ne.symm hc)) hclients hsessions hpersistent hattach htopics hne
    · refine ⟨?_, id, h.subscribed, h.session, h.persistent⟩
      show (s.clients.erase i).lookup s.cid = some s.cl
      rw [lookup_erase_if, if_neg (Ne.symm hne)]
      exact h.registered
  · exact h

theorem Kept.current (h : s.Kept) (hi : s.Inv) : s.isCurrentClient s.cl = true := by
  have hreg : s.clients.lookup (s.objects s.cl).id = some s.cl := h.registered
  simp [isCurrentClient, hi.owner, hreg]

private theorem kept_of_add (hi : s.Inv) (hat : s.attach = .add) (hunswept : ¬s.SweepingOn s.cid) :
    Kept { s with clients := s.clients.insert s.cid s.cl, attach := .hookStorage } := by
  have b := hi.before (by simp [hat, AttachAt.Added])
  refine ⟨?_, hunswept, b.covered, fun ha => absurd rfl ha, by rintro ⟨⟩⟩
  show (s.clients.insert s.cid s.cl).lookup s.cid = some s.cl
  rw [lookup_insert_if, if_pos rfl]

theorem Kept.hookStorage (h : s.Kept) (hi : s.Inv) (hat : s.attach = .hookStorage) (now : ℤ)
    (rows : Option (List String)) : (s.attachStep now rows).Kept := by
  simp only [Server.attachStep, hat, h.current hi, if_true]
  refine ⟨h.registered, h.unswept, h.subscribed, fun _ => ?_, by rintro ⟨⟩⟩
  show (s.sessions.insert s.cid (s.objects s.cl).sessionInfo).lookup s.cid = _
  rw [lookup_insert_if, if_pos rfl]

theorem Kept.hookQueue (h : s.Kept) (hi : s.Inv) (hat : s.attach = .hookQueue) (now : ℤ)
    (rows : Option (List String)) : (s.attachStep now rows).Kept := by
  simp only [Server.attachStep, hat, h.current hi, if_true]
  refine ⟨h.registered, h.unswept, h.subscribed, fun _ => h.session (by simp [hat]), fun _ => ?_⟩
  show s.cid ∈ (if (s.objects s.cl).persists then insert s.cid s.persistent
    else s.persistent.erase s.cid) ↔ (s.objects s.cl).persists = true
  split
  next hp => simp [hp]
  next hp => simp [hp]

theorem Kept.setSubscriptions (h : s.Kept) {subs : List String} {t : Finset (String × String)}
    (hsubs : ∀ f ∈ subs, (s.cid, f) ∈ t) :
    Kept ({ s with topics := t }.setObject s.cl { s.objects s.cl with subscriptions := subs }) := by
  set v : Client := { s.objects s.cl with subscriptions := subs } with hv
  set s' : Server := { s with topics := t }.setObject s.cl v with hs'
  have hself : s'.objects s.cl = v := by simp [hs', setObject]
  have hcid : s'.cid = s.cid := by
    show (s'.objects s.cl).id = s.cid
    rw [hself]
    rfl
  constructor
  · rw [hcid]; exact h.registered
  · rw [hcid]; exact h.unswept
  · rw [hcid]
    intro f hf
    exact hsubs f (by rw [show s'.cl = s.cl from rfl, hself] at hf; exact hf)
  · rw [hcid, show s'.cl = s.cl from rfl, hself]; exact h.session
  · rw [hcid, show s'.cl = s.cl from rfl, hself]; exact h.persistent

theorem Kept.subscribe (h : s.Kept) (f : String) : (s.subscribe f).Kept := by
  refine h.setSubscriptions fun g hg => ?_
  rcases List.mem_cons.mp hg with rfl | hg
  · exact Finset.mem_insert_self _ _
  · exact Finset.mem_insert_of_mem (h.subscribed g hg)

theorem Kept.unsubscribe (h : s.Kept) (f : String) : (s.unsubscribe f).Kept := by
  refine h.setSubscriptions fun g hg => ?_
  obtain ⟨hg, hne⟩ := List.mem_filter.mp hg
  refine Finset.mem_erase.mpr ⟨?_, h.subscribed g hg⟩
  intro heq
  exact absurd (Prod.mk.inj heq).2 (by simpa using hne)

theorem sweepStart_attach (s : Server) (now : ℤ) : (s.sweepStart now).attach = s.attach := by
  unfold sweepStart
  split <;> rfl

theorem sweepNext_attach (s : Server) (i : ℕ) : (s.sweepNext i).attach = s.attach := by
  unfold sweepNext
  split
  · rfl
  · split
    · rfl
    · split <;> rfl
  · rfl

theorem sweepWork_attach (s : Server) : s.sweepWork.attach = s.attach := by
  unfold sweepWork
  split
  · split
    all_goals first | rfl | exact (s.unsubscribeClient_frame _ _).2.1
  · rfl

private theorem attachStep_not_added (hn : ¬s.attach.Added) (hat : s.attach ≠ .add) (now : ℤ)
    (rows : Option (List String)) : ¬(s.attachStep now rows).attach.Added := by
  unfold attachStep
  split
  · split
    · exact id
    · show ¬AttachAt.Added (if _ then _ else _)
      split <;> exact id
  · split <;> exact id
  all_goals first
    | exact id
    | (split <;> first | exact id | (split <;> first | exact id | (split <;> exact id)))
    | simp_all [AttachAt.Added]

theorem step_kept (hi : s.Inv) (h : s.attach.Added → s.Kept) {ev : Event} (hm : s.Meets ev) :
    (s.step ev).attach.Added → (s.step ev).Kept := by
  cases ev with
  | sweepStart now =>
    intro ha
    rw [step, sweepStart_attach] at ha
    exact (h ha).sweepStart now
  | sweepNext i =>
    intro ha
    rw [step, sweepNext_attach] at ha
    exact (h ha).sweepNext hi hm
  | sweepWork =>
    intro ha
    rw [step, sweepWork_attach] at ha
    exact (h ha).sweepWork hi
  | attach now rows =>
    intro ha
    by_cases hadd : s.attach = .add
    · simp only [step, attachStep, hadd]
      exact kept_of_add hi hadd (hm hadd)
    have hadded : s.attach.Added := by
      by_contra hn
      exact attachStep_not_added hn hadd now rows ha
    have hk := h hadded
    cases hat : s.attach with
    | hookStorage => exact hk.hookStorage hi hat now rows
    | hookQueue => exact hk.hookQueue hi hat now rows
    | established =>
      simp only [step, attachStep, hat]
      exact hk
    | _ => simp [hat, AttachAt.Added] at hadded
  | subscribe f =>
    simp only [step]
    split
    next hat => exact fun _ => (h (by simp [hat, AttachAt.Added])).subscribe f
    · exact h
  | unsubscribe f =>
    simp only [step]
    split
    next hat => exact fun _ => (h (by simp [hat, AttachAt.Added])).unsubscribe f
    · exact h

def Lost (s : Server) : Prop := s.SweepingOn s.cid ∨ s.clients.lookup s.cid = none

def Doomed (s : Server) : Prop := s.attach.Added ∧ s.Lost

theorem Lost.sweepWork (h : s.Lost) (hi : s.Inv) : s.sweepWork.Lost := by
  unfold Server.sweepWork
  split
  next now rest i c stage hsw =>
    have hc := hi.working_ne now rest i c stage hsw
    have hon : s.SweepingOn s.cid ↔ i = s.cid := by simp [SweepingOn, hsw]
    have hn : i = s.cid ∨ s.clients.lookup s.cid = none := h.imp_left hon.mp
    split
    · exact hn
    · exact hn
    · have hcid : (s.setObject c { s.objects c with inflight := [] }).cid = s.cid := by
        simp [cid, setObject, Function.update_of_ne (Ne.symm hc)]
      show i = (s.setObject c _).cid ∨ s.clients.lookup (s.setObject c _).cid = none
      rw [hcid]
      exact hn
    · exact hn
    next u _ =>
      obtain ⟨-, -, hclients, -⟩ := s.unsubscribeClient_frame c u
      obtain ⟨-, hcid⟩ := unsubscribeClient_carried hc u
      show i = (s.unsubscribeClient c u).1.cid ∨
        (s.unsubscribeClient c u).1.clients.lookup (s.unsubscribeClient c u).1.cid = none
      rw [hcid, hclients]
      exact hn
    · right
      show (s.clients.erase i).lookup s.cid = none
      rw [lookup_erase_if]
      split
      · rfl
      next hne => exact hn.resolve_left (Ne.symm hne)
  · exact h

theorem Doomed.step (h : s.Doomed) (hi : s.Inv) (ev : Event) : (s.step ev).Doomed := by
  cases ev with
  | sweepStart now =>
    refine ⟨by rw [Server.step, sweepStart_attach]; exact h.1, ?_⟩
    simp only [Server.step, Server.sweepStart]
    split
    next hidle => exact .inr (h.2.resolve_left (by simp [SweepingOn, hidle]))
    · exact h.2
  | sweepNext i =>
    refine ⟨by rw [Server.step, sweepNext_attach]; exact h.1, ?_⟩
    simp only [Server.step, Server.sweepNext]
    split
    next now hsw => exact .inr (h.2.resolve_left (by simp [SweepingOn, hsw]))
    next now rest _ hsw =>
      have hnone := h.2.resolve_left (by simp [SweepingOn, hsw])
      split
      · exact .inr hnone
      · split <;> exact .inr hnone
    · exact h.2
  | sweepWork => exact ⟨by rw [Server.step, sweepWork_attach]; exact h.1, h.2.sweepWork hi⟩
  | attach now rows =>
    have hadded := h.1
    cases hat : s.attach with
    | hookStorage | hookQueue =>
      simp only [Server.step, attachStep, hat]
      split <;> exact ⟨trivial, h.2⟩
    | established =>
      simp only [Server.step, attachStep, hat]
      exact h
    | _ => simp [hat, AttachAt.Added] at hadded
  | subscribe f =>
    simp only [Server.step]
    split
    · refine ⟨h.1, ?_⟩
      have hcid : (s.subscribe f).cid = s.cid := by simp [cid, Server.subscribe, setObject]
      rw [Lost, hcid]
      exact h.2
    · exact h
  | unsubscribe f =>
    simp only [Server.step]
    split
    · refine ⟨h.1, ?_⟩
      have hcid : (s.unsubscribe f).cid = s.cid := by simp [cid, Server.unsubscribe, setObject]
      rw [Lost, hcid]
      exact h.2
    · exact h

theorem doomed_of_not_meets (hi : s.Inv) {ev : Event} (hm : ¬s.Meets ev) : (s.step ev).Doomed := by
  cases ev with
  | attach now rows =>
    obtain ⟨hat, hon⟩ : s.attach = .add ∧ s.SweepingOn s.cid := by simpa [Meets] using hm
    simp only [step, attachStep, hat]
    exact ⟨trivial, .inl hon⟩
  | sweepNext i =>
    cases hsw : s.sweep with
    | loop now rest =>
      simp only [Meets, hsw, not_forall] at hm
      obtain ⟨c, hget, hexp, hne⟩ := hm
      have hadded : s.attach.Added := by
        by_contra hn
        refine hne ((hi.before hn).registered c ?_)
        simp only [worklist, hsw]
        exact List.mem_of_getElem? hget
      cases rest with
      | nil => simp at hget
      | cons x rest =>
        simp only [step, sweepNext, hsw, hget, hexp, if_true]
        exact ⟨hadded, .inl rfl⟩
    | _ => simp [Meets, hsw] at hm
  | _ => exact absurd trivial hm

private theorem run_doomed (hi : s.Inv) {evs : List Event} (h : s.Doomed) : (run step s evs).Doomed := by
  induction evs generalizing s with
  | nil => exact h
  | cons ev evs ih => exact ih (hi.step ev) (h.step hi ev)

private theorem run_doomed_of_not_along (hi : s.Inv) {evs : List Event}
    (hm : ¬Along step Meets s evs) : (run step s evs).Doomed := by
  induction evs generalizing s with
  | nil => exact absurd trivial hm
  | cons ev evs ih =>
    by_cases hev : s.Meets ev
    · exact ih (hi.step ev) fun hrest => hm ⟨hev, hrest⟩
    · exact run_doomed (hi.step ev) (doomed_of_not_meets hi hev)

/-- Sweeps and an attachment, in any interleaving in which both have finished: the connection is
unharmed if and only if no step brought it into a sweep. -/
theorem reconnect_unharmed_iff (hstart : s.Start) {evs : List Event} (hswept : (run step s evs).sweep = .idle)
    (hattached : (run step s evs).attach = .established) :
    (run step s evs).Unharmed ↔ Along step Meets s evs := by
  constructor
  · intro hu
    by_contra hm
    obtain ⟨-, hon | hnone⟩ := run_doomed_of_not_along hstart.inv hm
    · simp [SweepingOn, hswept] at hon
    · rw [hu.registered] at hnone
      cases hnone
  · intro hm
    have hkept := run_invariant (P := fun s : Server => s.Inv ∧ (s.attach.Added → s.Kept))
      (fun s ev hs hev => ⟨hs.1.step ev, step_kept hs.1 hs.2 hev⟩)
      ⟨hstart.inv, fun ha => by simp [hstart.attach, AttachAt.Added] at ha⟩ hm
    have hk := hkept.2 (by simp [hattached, AttachAt.Added])
    exact ⟨hk.registered, hk.subscribed, hk.session (by simp [hattached]), hk.persistent hattached⟩

/-- A device whose session of a minute ended long ago comes back. -/
def device (remote : String) (stopped : ℕ) (subs : List String) : Client :=
  ⟨"dev", remote, 5, false, 60, true, decide (0 < stopped), stopped, stopped * 1000000000, false, subs, []⟩

def returning : Server :=
  { objects := fun c => if c = 0 then device "old" 1 ["a"] else device "new" 0 []
    clients := AList.insert "dev" 0 ∅
    topics := {("dev", "a")}
    persistent := {"dev"}
    sessions := AList.insert "dev" (device "old" 1 ["a"]).sessionInfo ∅
    maxExpiry := 4294967295
    cl := 1
    sweep := .idle
    attach := .lookup }

theorem returning_start : returning.Start := by
  refine ⟨rfl, rfl, fun i c hc => ?_, fun i hc => ?_, rfl, rfl, rfl⟩
  · simp only [returning, lookup_insert_if, AList.lookup_empty] at hc
    split at hc
    next hi =>
      cases hc
      exact hi.symm
    · cases hc
  · simp only [returning, lookup_insert_if, AList.lookup_empty] at hc
    split at hc <;> cases hc

/-- The device is attached after the sweep has found its old session expired. -/
def crossingEvents : List Event :=
  .sweepStart 100000000000 :: .sweepNext 0 ::
    (List.replicate 13 (.attach 100000000000 none) ++ List.replicate 11 .sweepWork ++ [.sweepNext 0])

/-- The new connection reads packets, and is not registered any more. -/
theorem crossing_deletes_connection : returning.Start ∧ (run step returning crossingEvents).sweep = .idle ∧
    (run step returning crossingEvents).attach = .established ∧
    (run step returning crossingEvents).clients.lookup "dev" = none ∧
    ¬(run step returning crossingEvents).Unharmed := by
  have hnone : (run step returning crossingEvents).clients.lookup "dev" = none := by decide
  have hcid : (run step returning crossingEvents).cid = "dev" := by decide
  refine ⟨returning_start, by decide, by decide, hnone, fun hu => ?_⟩
  have hreg := hu.registered
  rw [hcid, hnone] at hreg
  cases hreg

/-- The device is attached before the sweep takes its snapshot. -/
def quietEvents : List Event :=
  List.replicate 13 (.attach 100000000000 none) ++
    [.subscribe "b", .sweepStart 100000000000, .sweepNext 0, .sweepNext 0]

theorem quiet_unharmed :
    (run step returning quietEvents).Unharmed ∧ Along step Meets returning quietEvents := by
  have hcl : (run step returning quietEvents).cl = 1 := by decide +kernel
  have hcid : (run step returning quietEvents).cid = "dev" := by decide +kernel
  have hu : (run step returning quietEvents).Unharmed := by
    constructor
    · rw [hcid, hcl]; decide +kernel
    · rw [hcid, hcl]; decide +kernel
    · rw [hcid, hcl]; decide +kernel
    · rw [hcid, hcl]; decide +kernel
  exact ⟨hu, (reconnect_unharmed_iff returning_start (by decide +kernel)
    (by decide +kernel)).mp hu⟩

end Server

end MonsterMQ.Sweep
