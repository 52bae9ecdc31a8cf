import MonsterMQ.NatsConnCloseRuns
import MonsterMQ.RedisFramingSafety

/-!
# Closing a connection

A Redis connection enters a subscription under the lock under which `Close` takes them, so only a
`SUBSCRIBE` that comes after `Close` leaves one on the bus.
-/

namespace MonsterMQ.Redis.Conn

open LittleEndian Auth LockPrograms StateRuns List

/-- The condition on a turn: `SUBSCRIBE` enters nothing after `Close`. -/
@[grind =] def EntersOpen (c : Conn) : Turn → Prop
  | .serve _ =>
    match c.serve.ops with
    | .act (.subscribe _) :: _ => c.closed = false
    | _ => True
  | _ => True

variable {c : Conn}

theorem EntersOpen.subscribe {fails : Bool} (h : c.EntersOpen (.serve fails)) {k : SubKey} {ops : Program}
    (hc : c.serve.ops = .act (.subscribe k) :: ops) : c.closed = false := by
  rw [EntersOpen, hc] at h
  exact h

/-- What closing the connection is to bring: nothing panics, and once `serve` has returned, the connection is
closed, the bus holds nothing for it and no message is written any more. -/
def ClosesSafely (E : Env) (c : Conn) : Prop :=
  c.panicked = false ∧
    (c.serve = .returned → c.closed = true ∧ c.subs = [] ∧ ∀ turns, (run (Conn.step E) c turns).out = c.out)

/-- What holds in every state of a run that enters nothing after `Close`. -/
structure Released (c : Conn) : Prop where
  subs : c.closed = true → c.subs = []
  stopped : c.panicked = false ∧ (c.subStopped = true → c.closed = true)
  returned : c.serve = .returned → c.closed = true
  subWriterOps : ∀ op ∈ c.subWriter.ops, SubWriterOp op

theorem close_closed (c : Conn) : c.close.closed = true := by
  rw [close]
  split
  · next h => exact h
  · rfl

/-- `closeOnce` keeps `subStopCh` from being closed twice. -/
theorem close_stopped (h : c.panicked = false ∧ (c.subStopped = true → c.closed = true)) :
    c.close.panicked = false ∧ (c.close.subStopped = true → c.close.closed = true) := by
  refine ⟨?_, fun _ => close_closed c⟩
  rw [close]
  split
  · exact h.1
  · next hopen =>
    have hstop : c.subStopped = false := Bool.eq_false_iff.mpr fun hstop => hopen (h.2 hstop)
    exact Bool.or_eq_false_iff.mpr ⟨h.1, hstop⟩

theorem subs_eq_nil : c.subs = [] ↔ c.holders = [] := map_eq_nil_iff

theorem close_subs (h : c.closed = true → c.subs = []) : c.close.subs = [] := by
  rw [close]
  split
  · next hclosed => exact h hclosed
  · rfl

variable {E : Env} {op : Op Action}

def closing (c : Conn) : Bool × Bool × Bool := (c.closed, c.subStopped, c.panicked)

/-- Only `Close` closes. -/
theorem closing_perform {c' : Conn} {g : Goroutine} (hperform : c.perform E g op = some c') :
    c'.closing = c.closing ∨ op = .act .close := by
  have hfoldl : ∀ {β : Type} {f : Conn → β → Conn}, (∀ c b, (f c b).closing = c.closing) → ∀ (l : List β) c,
      (l.foldl f c).closing = c.closing := by
    intro β f hf l
    induction l with
    | nil => exact fun c => rfl
    | cons b l ih => exact fun c => (ih (f c b)).trans (hf c b)
  cases op with
  | lock =>
    rw [perform] at hperform
    split at hperform
    · cases hperform
    · cases hperform
      exact .inl rfl
  | unlock =>
    cases hperform
    exact .inl rfl
  | act a =>
    cases hperform
    cases a with
    | close => exact .inr rfl
    | write | unsubscribe | flush => exact .inl rfl
    | subscribe k =>
      left
      change (c.subscribe E k).closing = c.closing
      rw [subscribe]
      split
      · rfl
      · rfl
    | unsubscribeAll isPattern =>
      left
      change (c.unsubscribeAll isPattern).closing = c.closing
      rw [unsubscribeAll]
      split
      · rfl
      · exact hfoldl (f := unsubscribe) (fun _ _ => rfl) _ c
    | batch more =>
      left
      have hwrites := hfoldl (f := fun c d => c.write .subWriterLoop (writePubSubFrame d)) (fun _ _ => rfl)
        ((c.subCh.take (min more 256 + 1)).filter fun d => c.active d ∧ E.canRead d.topicName)
        { c with subCh := c.subCh.drop (min more 256 + 1) }
      change (c.batch E more).closing = c.closing
      rw [batch]
      split
      · exact hwrites
      · exact hwrites

theorem perform_subs {c' : Conn} {g : Goroutine} (h : c.closed = true → c.subs = [])
    (hq : ∀ k, op = .act (.subscribe k) → c.closed = false) (hperform : c.perform E g op = some c') :
    c'.closed = true → c'.subs = [] := by
  intro hclosed
  rcases closing_perform hperform with hsame | rfl
  · have hclosed : c.closed = true := (congrArg Prod.fst hsame).symm.trans hclosed
    rw [subs_eq_nil, eq_nil_iff_forall_not_mem]
    intro x hx
    rcases holders_perform hperform x hx with hold | rfl
    · rw [subs_eq_nil.mp (h hclosed)] at hold
      cases hold
    · rw [hq _ rfl] at hclosed
      cases hclosed
  · cases hperform
    exact close_subs h

theorem perform_stopped {c' : Conn} {g : Goroutine}
    (h : c.panicked = false ∧ (c.subStopped = true → c.closed = true)) (hperform : c.perform E g op = some c') :
    c'.panicked = false ∧ (c'.subStopped = true → c'.closed = true) := by
  rcases closing_perform hperform with hsame | rfl
  · obtain ⟨hclosed, hrest⟩ := Prod.mk.inj hsame
    obtain ⟨hstop, hpanic⟩ := Prod.mk.inj hrest
    rw [hclosed, hstop, hpanic]
    exact h
  · cases hperform
    exact close_stopped h

private theorem batch_of_nil (E : Env) (h : c.subs = []) (more : ℕ) : (c.batch E more).out = c.out := by
  have hnone : ((c.subCh.take (min more 256 + 1)).filter fun d => c.active d ∧ E.canRead d.topicName) = [] := by
    rw [filter_eq_nil_iff]
    intro d _ hd
    have hmem := of_decide_eq_true (of_decide_eq_true hd).1
    rw [subs_eq_nil.mp h] at hmem
    cases hmem
  rw [batch, hnone]
  rfl

theorem subWriterOps_tail (h : ∀ op ∈ c.subWriter.ops, SubWriterOp op) {ops : Program}
    (hc : c.subWriter.ops = op :: ops) : SubWriterOp op ∧ ∀ op' ∈ ops, SubWriterOp op' := by
  rw [hc] at h
  exact ⟨h op mem_cons_self, fun op' hop' => h op' (mem_cons_of_mem _ hop')⟩

theorem Released.serveStep (h : c.Released) (fails : Bool) (hq : c.EntersOpen (.serve fails)) :
    (c.serveStep E fails).Released := by
  rw [serveStep.eq_def]
  split
  · exact h
  · rw [next.eq_def]
    split
    · exact ⟨h.subs, h.stopped, fun hret => (by cases hret), h.subWriterOps⟩
    · split
      · exact ⟨h.subs, h.stopped, fun hret => (by cases hret), h.subWriterOps⟩
      · exact ⟨h.subs, h.stopped, fun hret => (by cases hret), h.subWriterOps⟩
      · refine ⟨h.subs, h.stopped, fun hret => ?_, h.subWriterOps⟩
        dsimp only at hret
        split at hret <;> cases hret
  · next op ops hserve =>
    split
    · exact ⟨h.subs, h.stopped, fun hret => (by cases hret), h.subWriterOps⟩
    · split
      · exact h
      · next c' hperform =>
        have hsubs := perform_subs h.subs (fun k hk => hq.subscribe (by rw [hserve, hk]; rfl)) hperform
        have hstopped := perform_stopped h.stopped hperform
        refine ⟨hsubs, hstopped, fun hret => (by cases hret), ?_⟩
        change ∀ op ∈ c'.subWriter.ops, SubWriterOp op
        rw [(perform_phases hperform).2]
        exact h.subWriterOps
  · refine ⟨fun _ => close_subs h.subs, close_stopped h.stopped, fun _ => close_closed c, ?_⟩
    change ∀ op ∈ c.close.subWriter.ops, SubWriterOp op
    rw [(sameLocks_close c).subWriter]
    exact h.subWriterOps
  · next op ops hserve =>
    split
    · exact h
    · next c' hperform =>
      have hsubs := perform_subs h.subs (fun k hk => hq.subscribe (by rw [hserve, hk]; rfl)) hperform
      have hstopped := perform_stopped h.stopped hperform
      refine ⟨hsubs, hstopped, fun hret => (by cases hret), ?_⟩
      change ∀ op ∈ c'.subWriter.ops, SubWriterOp op
      rw [(perform_phases hperform).2]
      exact h.subWriterOps
  · exact h

theorem perform_closed {c' : Conn} {g : Goroutine} (hperform : c.perform E g op = some c') (h : c.closed = true) :
    c'.closed = true := by
  rcases closing_perform hperform with hsame | rfl
  · exact (congrArg Prod.fst hsame).trans h
  · cases hperform
    exact close_closed c

theorem not_subscribe_of_subWriterOp (h : SubWriterOp op) (k : SubKey) : op ≠ .act (.subscribe k) := by
  rintro rfl
  exact h

section

variable (h : c.Released)
include h

theorem Released.subWriterStep (fails : Bool) (more : ℕ) : (c.subWriterStep E fails more).Released := by
  have hperformed : ∀ {op : Op Action} {ops : Program} {c' : Conn} {p : Phase}, c.subWriter.ops = op :: ops →
      c.perform E .subWriterLoop op = some c' → p.ops = ops → Released { c' with subWriter := p } := by
    intro op ops c' p hc hperform hp
    obtain ⟨hop, hops⟩ := subWriterOps_tail h.subWriterOps hc
    have hsubs := perform_subs h.subs (fun k hk => absurd hk (not_subscribe_of_subWriterOp hop k)) hperform
    have hstopped := perform_stopped h.stopped hperform
    refine ⟨hsubs, hstopped, ?_, ?_⟩
    · intro hret
      change c'.serve = .returned at hret
      rw [(perform_phases hperform).1] at hret
      have hclosed := perform_closed hperform (h.returned hret)
      exact hclosed
    · change ∀ op ∈ p.ops, SubWriterOp op
      rw [hp]
      exact hops
  rw [Conn.subWriterStep.eq_def]
  split
  · exact h
  · split
    · exact ⟨h.subs, h.stopped, h.returned, fun op hop => by cases hop⟩
    · split
      · exact h
      · exact ⟨h.subs, h.stopped, h.returned, subWriterOp_batch more⟩
  · next op ops hphase =>
    split
    · refine ⟨h.subs, h.stopped, h.returned, ?_⟩
      intro op hop
      rcases mem_append.mp hop with hop | hop
      · rw [release] at hop
        split at hop
        · rw [mem_singleton.mp hop]
          trivial
        · cases hop
      · rw [mem_singleton.mp hop]
        trivial
    · split
      · exact h
      · next c' hperform => exact hperformed (by rw [hphase]; rfl) hperform rfl
  · exact ⟨h.subs, h.stopped, h.returned, fun op hop => by cases hop⟩
  · next op ops hphase =>
    split
    · exact h
    · next c' hperform => exact hperformed (by rw [hphase]; rfl) hperform rfl
  · exact h

theorem Released.step (turn : Turn) (hq : c.EntersOpen turn) : (c.step E turn).Released := by
  cases turn with
  | serve fails => exact h.serveStep fails hq
  | subWriter fails more => exact h.subWriterStep fails more
  | deliver d =>
    rw [Conn.step]
    split
    · exact ⟨h.subs, h.stopped, h.returned, h.subWriterOps⟩
    · exact h
  | close =>
    refine ⟨fun _ => close_subs h.subs, close_stopped h.stopped, fun _ => close_closed c, ?_⟩
    change ∀ op ∈ c.close.subWriter.ops, SubWriterOp op
    rw [(sameLocks_close c).subWriter]
    exact h.subWriterOps

/-- Without a subscription `subWriterLoop` writes nothing. -/
theorem out_subWriterStep (hsubs : c.subs = []) (fails : Bool) (more : ℕ) :
    (c.subWriterStep E fails more).out = c.out ∧ (c.subWriterStep E fails more).serve = c.serve := by
  have hperformed : ∀ {op : Op Action} {c' : Conn}, SubWriterOp op → c.perform E .subWriterLoop op = some c' →
      c'.out = c.out ∧ c'.serve = c.serve := by
    intro op c' hop hperform
    refine ⟨?_, (perform_phases hperform).1⟩
    cases op with
    | lock =>
      rw [perform] at hperform
      split at hperform
      · cases hperform
      · cases hperform
        rfl
    | unlock =>
      cases hperform
      rfl
    | act a =>
      cases hperform
      cases a with
      | batch more => exact batch_of_nil E hsubs more
      | close =>
        have hadds := (adds_close .serve c).out
        rw [map_nil, append_nil] at hadds
        exact hadds
      | write | subscribe | unsubscribe | unsubscribeAll | flush => exact absurd hop id
  rw [Conn.subWriterStep.eq_def]
  split
  · exact ⟨rfl, rfl⟩
  · split
    · exact ⟨rfl, rfl⟩
    · split
      · exact ⟨rfl, rfl⟩
      · exact ⟨rfl, rfl⟩
  · next op ops hphase =>
    split
    · exact ⟨rfl, rfl⟩
    · split
      · exact ⟨rfl, rfl⟩
      · next c' hperform =>
        have hdone := hperformed (subWriterOps_tail h.subWriterOps (by rw [hphase]; rfl)).1 hperform
        exact hdone
  · exact ⟨rfl, rfl⟩
  · next op ops hphase =>
    split
    · exact ⟨rfl, rfl⟩
    · next c' hperform =>
      have hdone := hperformed (subWriterOps_tail h.subWriterOps (by rw [hphase]; rfl)).1 hperform
      exact hdone
  · exact ⟨rfl, rfl⟩

/-- A connection whose `serve` has returned stays as it is. -/
theorem Released.stays (hret : c.serve = .returned) (turn : Turn) :
    (c.step E turn).Released ∧ (c.step E turn).serve = .returned ∧ (c.step E turn).out = c.out := by
  have hq : c.EntersOpen turn := by
    cases turn with
    | serve fails =>
      rw [EntersOpen, hret]
      trivial
    | subWriter | deliver | close => trivial
  refine ⟨h.step turn hq, ?_⟩
  cases turn with
  | serve fails =>
    change (c.serveStep E fails).serve = .returned ∧ (c.serveStep E fails).out = c.out
    rw [Conn.serveStep, hret]
    exact ⟨hret, rfl⟩
  | subWriter fails more =>
    have hdone := out_subWriterStep (E := E) h (h.subs (h.returned hret)) fails more
    exact ⟨hdone.2.trans hret, hdone.1⟩
  | deliver d =>
    rw [Conn.step]
    split
    · exact ⟨hret, rfl⟩
    · exact ⟨hret, rfl⟩
  | close =>
    have hadds := (adds_close .serve c).out
    rw [map_nil, append_nil] at hadds
    exact ⟨(sameLocks_close c).serve.trans hret, hadds⟩

theorem Released.closesSafely : c.ClosesSafely E := by
  refine ⟨h.stopped.1, fun hret => ?_⟩
  refine ⟨h.returned hret, h.subs (h.returned hret), fun turns => ?_⟩
  have hstays : (run (Conn.step E) c turns).Released ∧ (run (Conn.step E) c turns).serve = .returned ∧
      (run (Conn.step E) c turns).out = c.out := by
    refine run_always (P := fun c' : Conn => c'.Released ∧ c'.serve = .returned ∧ c'.out = c.out) ?_
      ⟨h, hret, rfl⟩ turns
    rintro c' turn ⟨hc', hret', hout⟩
    obtain ⟨hreleased, hserve, hsame⟩ := hc'.stays (E := E) hret' turn
    exact ⟨hreleased, hserve, hsame.trans hout⟩
  exact hstays.2.2

end

private theorem released_new (input : Bytes) (authenticated : Bool) : (new input authenticated).Released :=
  ⟨nofun, ⟨rfl, nofun⟩, nofun, fun op hop => by cases hop⟩

end MonsterMQ.Redis.Conn

namespace MonsterMQ

open LittleEndian Auth StateRuns

/-- Connections of both protocols are closed safely in every careful run. -/
theorem connections_close_safely (E : Redis.Env) (input : Bytes) (authenticated : Bool) (turns : List Redis.Turn)
    (natsTurns : List Nats.Turn) :
    (Along (Redis.Conn.step E) Redis.Conn.EntersOpen (.new input authenticated) turns →
      (run (Redis.Conn.step E) (.new input authenticated) turns).ClosesSafely E) ∧
    (Along Nats.Conn.step Nats.Conn.Careful .new natsTurns →
      (run Nats.Conn.step .new natsTurns).ClosesSafely) := by
  constructor
  · intro hrun
    have hreleased := run_invariant (P := Redis.Conn.Released) (fun c turn hc hq => hc.step (E := E) turn hq)
      (Redis.Conn.released_new input authenticated) hrun
    exact hreleased.closesSafely
  · intro hrun
    have hinvariant := run_invariant (P := Nats.Conn.Invariant) (fun c turn hc hq => hc.step hq)
      Nats.Conn.invariant_new hrun
    exact hinvariant.closesSafely

namespace Redis.Conn

instance decidableEntersOpen (c : Conn) : ∀ turn, Decidable (c.EntersOpen turn)
  | .serve _ =>
    match h : c.serve.ops with
    | .act (.subscribe _) :: _ => decidable_of_iff (c.closed = false) (by rw [EntersOpen, h])
    | .act (.write _) :: _ | .act (.unsubscribe _) :: _ | .act (.unsubscribeAll _) :: _ | .act (.batch _) :: _
    | .act .flush :: _ | .act .close :: _ | .lock :: _ | .unlock :: _ | [] => isTrue (by rw [EntersOpen, h]; trivial)
  | .subWriter _ _ | .deliver _ | .close => isTrue trivial

end Redis.Conn

def bareEnv : Redis.Env :=
  ⟨1048576, true, fun _ => true, fun _ _ => true, fun _ => [], fun _ => false, fun _ => none, fun _ => false⟩

def subscribeCommand : Bytes := ascii "*2\r\n$9\r\nSUBSCRIBE\r\n$1\r\nc\r\n"

def subscribedThenClosed : List Redis.Turn :=
  List.replicate 6 (.serve false) ++ [.close] ++ List.replicate 2 (.serve false)

def closedThenSubscribed : List Redis.Turn := [.serve false, .close] ++ List.replicate 7 (.serve false)

def subscribesAndLeaves : List Nats.Turn :=
  [.command (.sub (ascii "1") (ascii "a") true), .reader, .reader, .reader, .command .eof] ++ List.replicate 5 .reader

def subMeetsClose : List Nats.Turn :=
  [.command (.sub (ascii "1") (ascii "a") true), .reader, .disconnect, .other 0, .reader]

def leavesWithConsumer : List Nats.Turn :=
  [.command (.consumerCreate ⟨ascii "w", ascii "d", ascii "r", some 0⟩), .command .eof] ++ List.replicate 4 .reader

theorem careful_connections_close_safely :
    (run (Redis.Conn.step bareEnv) (.new subscribeCommand true) subscribedThenClosed).ClosesSafely bareEnv ∧
      (run Nats.Conn.step .new subscribesAndLeaves).ClosesSafely := by
  have hsafe := connections_close_safely bareEnv subscribeCommand true subscribedThenClosed subscribesAndLeaves
  refine ⟨hsafe.1 (by decide), hsafe.2 ?_⟩
  have hop : ∀ {c : Nats.Conn} {op : Nats.Op}, c.nextOp .reader = some op → c.CarefulOp op → c.Careful .reader := by
    intro c op hnext hcareful
    refine ⟨fun op' hop' => ?_, trivial⟩
    rw [hnext] at hop'
    cases hop'
    exact hcareful
  refine ⟨⟨nofun, trivial⟩, hop rfl trivial, hop rfl rfl, hop rfl trivial, ⟨nofun, trivial⟩, hop rfl trivial,
    hop rfl nofun, hop rfl trivial, hop rfl trivial, hop rfl nofun, trivial⟩

theorem careless_connections_leak : (run Nats.Conn.step .new subMeetsClose).panicked = true ∧
    (run Nats.Conn.step .new leavesWithConsumer).bus = [⟨1, none⟩] ∧
    (run (Redis.Conn.step bareEnv) (.new subscribeCommand true) closedThenSubscribed).subs = [⟨false, ascii "c"⟩] ∧
    ¬ (run Nats.Conn.step .new subMeetsClose).ClosesSafely ∧
    ¬ (run Nats.Conn.step .new leavesWithConsumer).ClosesSafely ∧
    ¬ (run (Redis.Conn.step bareEnv) (.new subscribeCommand true) closedThenSubscribed).ClosesSafely bareEnv := by
  have hpanic : (run Nats.Conn.step .new subMeetsClose).panicked = true := rfl
  have hbus : (run Nats.Conn.step .new leavesWithConsumer).bus = [⟨1, none⟩] := rfl
  have hsubs : (run (Redis.Conn.step bareEnv) (.new subscribeCommand true) closedThenSubscribed).subs =
      [⟨false, ascii "c"⟩] := by
    decide
  have hserve :
      (run (Redis.Conn.step bareEnv) (.new subscribeCommand true) closedThenSubscribed).serve = .returned := by
    decide
  refine ⟨hpanic, hbus, hsubs, fun h => ?_, fun h => ?_, fun h => ?_⟩
  · rw [h.noPanic] at hpanic
    cases hpanic
  · rw [(h.complete ⟨rfl, rfl⟩ rfl).1] at hbus
    cases hbus
  · rw [(h.2 hserve).2.1] at hsubs
    cases hsubs

end MonsterMQ
