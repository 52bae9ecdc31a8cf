import MonsterMQ.RedisConn

/-!
# Waiting for its own mutex

The programs of a connection are bracketed, except for the one that answers a protocol error: there `serve`
holds `writeMu` and calls `writeError`, which takes it again.
-/

namespace MonsterMQ.Redis.Conn

open LittleEndian Auth LockPrograms StateRuns

def program (c : Conn) : Goroutine → Program
  | .serve => c.serve.ops
  | .subWriterLoop => c.subWriter.ops

/-- `serve` is to return after it has answered the protocol error with one reply behind the earlier
ones. -/
def Answers (E : Env) (c : Conn) (msg : Bytes) (before : ℕ) : Prop :=
  ∃ turns, let c' := run (step E) c turns
    c'.serve = .returned ∧ c'.closed = true ∧ c'.subs = [] ∧ c'.session = false ∧
      c'.replies.drop before = [respErr msg]

/-- A state as it should be: no goroutine waits for the mutex while it holds it, and a protocol error is
going to be answered. -/
structure Sound (E : Env) (c : Conn) : Prop where
  noSelfWait : ∀ g, c.writeMu = some g → (c.program g).head? ≠ some .lock
  answers : ∀ msg before, c.refused = some (msg, before) → c.Answers E msg before

/-- The condition on a turn: the command that `serve` reads is not a protocol error. -/
def Careful (E : Env) (c : Conn) : Turn → Prop
  | .serve fails => c.serve = .looping [] → c.closed = false → fails = false → ∀ msg,
      readCommand E.maxMsgSize c.input ≠ .error (.protocol msg)
  | _ => True

structure SameLocks (c c' : Conn) : Prop where
  writeMu : c'.writeMu = c.writeMu
  serve : c'.serve = c.serve
  subWriter : c'.subWriter.ops = c.subWriter.ops
  refused : c'.refused = c.refused

theorem SameLocks.refl (c : Conn) : SameLocks c c := ⟨rfl, rfl, rfl, rfl⟩

theorem SameLocks.trans {c c' c'' : Conn} (h : SameLocks c c') (h' : SameLocks c' c'') : SameLocks c c'' :=
  ⟨h'.writeMu.trans h.writeMu, h'.serve.trans h.serve, h'.subWriter.trans h.subWriter,
    h'.refused.trans h.refused⟩

theorem sameLocks_foldl {β : Type} {f : Conn → β → Conn} (hf : ∀ c b, SameLocks c (f c b)) (l : List β)
    (c : Conn) : SameLocks c (l.foldl f c) := by
  induction l generalizing c with
  | nil => exact .refl c
  | cons b l ih => exact (hf c b).trans (ih _)

theorem sameLocks_close (c : Conn) : SameLocks c c.close := by
  rw [close]
  split
  · exact .refl c
  · exact ⟨rfl, rfl, rfl, rfl⟩

private theorem sameLocks_subscribe (E : Env) (c : Conn) (k : SubKey) : SameLocks c (c.subscribe E k) := by
  have hops : c.ensureSubWriter.ops = c.subWriter.ops := by
    rw [ensureSubWriter]
    split
    · rename_i hphase
      rw [hphase]
      rfl
    · rfl
  rw [subscribe]
  split
  · exact ⟨rfl, rfl, rfl, rfl⟩
  · exact ⟨rfl, rfl, hops, rfl⟩

private theorem sameLocks_unsubscribeAll (c : Conn) (isPattern : Bool) :
    SameLocks c (c.unsubscribeAll isPattern) := by
  rw [unsubscribeAll]
  split
  · exact ⟨rfl, rfl, rfl, rfl⟩
  · exact sameLocks_foldl (f := unsubscribe) (fun _ _ => ⟨rfl, rfl, rfl, rfl⟩) _ c

private theorem sameLocks_batch (E : Env) (c : Conn) (more : ℕ) : SameLocks c (c.batch E more) := by
  have htaken : SameLocks c { c with subCh := c.subCh.drop (min more 256 + 1) } := ⟨rfl, rfl, rfl, rfl⟩
  have hsent := htaken.trans (sameLocks_foldl (f := fun c d => c.write .subWriterLoop (writePubSubFrame d))
    (fun _ _ => ⟨rfl, rfl, rfl, rfl⟩)
    ((c.subCh.take (min more 256 + 1)).filter fun d => c.active d ∧ E.canRead d.topicName) _)
  rw [batch]
  split
  · exact hsent
  · exact hsent.trans ⟨rfl, rfl, rfl, rfl⟩

theorem sameLocks_act (E : Env) (c : Conn) (g : Goroutine) (a : Action) : SameLocks c (c.act E g a) := by
  cases a with
  | write frame | unsubscribe k | flush => exact ⟨rfl, rfl, rfl, rfl⟩
  | subscribe k => exact sameLocks_subscribe E c k
  | unsubscribeAll isPattern => exact sameLocks_unsubscribeAll c isPattern
  | batch more => exact sameLocks_batch E c more
  | close => exact sameLocks_close c

private theorem dispatch_bracketed (E : Env) (c : Conn) (args : List Bytes) :
    Bracketed false (c.dispatch E args).1 := by
  rw [dispatch.eq_def]
  split
  · exact bracketed_locked _
  · split
    · exact bracketed_locked _
    · split
      · exact bracketed_append (bracketed_locked _) rfl
      · split
        · exact bracketed_locked _
        · split
          · exact bracketed_locked _
          · exact bracketed_flatMap_locked _ _
      · split
        · exact bracketed_locked _
        · exact bracketed_locked _
      · exact bracketed_locked _

structure Invariant (c : Conn) : Prop where
  serve : Bracketed (c.held .serve) c.serve.ops
  subWriter : Bracketed (c.held .subWriterLoop) c.subWriter.ops

theorem Invariant.of_sameLocks {c c' : Conn} (h : c.Invariant) (hsame : SameLocks c c') : c'.Invariant where
  serve := by
    rw [held, hsame.writeMu, hsame.serve]
    exact h.serve
  subWriter := by
    rw [held, hsame.writeMu, hsame.subWriter]
    exact h.subWriter

theorem held_eq_false {c : Conn} {g : Goroutine} (h : c.writeMu ≠ some g) : c.held g = false := by
  rw [held, decide_eq_false_iff_not]
  exact h

structure Performed (c c' : Conn) (g : Goroutine) (ops : Program) : Prop where
  own : Bracketed (c'.held g) ops
  others : ∀ g', g' ≠ g → c'.held g' = c.held g'
  serve : c'.serve = c.serve
  subWriter : c'.subWriter.ops = c.subWriter.ops
  refused : c'.refused = c.refused

theorem perform_spec {E : Env} {c c' : Conn} {g : Goroutine} {op : Op Action} {ops : Program}
    (h : c.perform E g op = some c') (hb : Bracketed (c.held g) (op :: ops)) : Performed c c' g ops := by
  cases op with
  | lock =>
    rw [perform] at h
    split at h
    · cases h
    · rename_i hfree
      cases h
      refine ⟨?_, ?_, rfl, rfl, rfl⟩
      · rw [show held _ g = true from decide_eq_true rfl]
        exact hb.2
      · intro g' hne
        rw [held_eq_false (fun heq => hne (Option.some.inj heq).symm), held_eq_false]
        rw [hfree]
        exact fun heq => by cases heq
  | unlock =>
    cases h
    refine ⟨?_, ?_, rfl, rfl, rfl⟩
    · rw [held_eq_false (fun heq => by cases heq)]
      exact hb.2
    · intro g' hne
      have hmine : c.writeMu = some g := of_decide_eq_true hb.1
      rw [held_eq_false (fun heq => by cases heq), held_eq_false]
      rw [hmine]
      exact fun heq => hne (Option.some.inj heq).symm
  | act a =>
    cases h
    have hsame := sameLocks_act E c g a
    have hheld : ∀ g', (c.act E g a).held g' = c.held g' := by
      intro g'
      rw [held, held, hsame.writeMu]
    refine ⟨?_, fun g' _ => hheld g', hsame.serve, hsame.subWriter, hsame.refused⟩
    rw [hheld]
    exact hb

section Steps

variable {E : Env} {c : Conn}

theorem serve_invariant (h : c.Invariant) {op : Op Action} {ops : Program} {c' : Conn} {p : Phase}
    (hops : c.serve.ops = op :: ops) (hperform : c.perform E .serve op = some c') (hp : p.ops = ops) :
    { c' with serve := p }.Invariant := by
  have hserve := h.serve
  rw [hops] at hserve
  have hspec := perform_spec hperform hserve
  constructor
  case serve =>
    change Bracketed (c'.held .serve) p.ops
    rw [hp]
    exact hspec.own
  case subWriter =>
    change Bracketed (c'.held .subWriterLoop) c'.subWriter.ops
    rw [hspec.others _ (by decide), hspec.subWriter]
    exact h.subWriter

/-- `serve` gives up, starts a program or ends. -/
theorem Invariant.setServe (h : c.Invariant) {p : Phase} (hp : Bracketed (c.held .serve) p.ops) :
    { c with serve := p }.Invariant := ⟨hp, h.subWriter⟩

theorem next_invariant (h : c.Invariant) (hserve : c.serve = .looping []) {fails : Bool}
    (hq : c.Careful E (.serve fails)) : (c.next E fails).Invariant ∧ (c.next E fails).refused = c.refused := by
  have hfree : c.held .serve = false := by
    have hb := h.serve
    rw [hserve] at hb
    exact hb
  have hend : Bracketed (c.held .serve) (Phase.ending []).ops := hfree
  rw [next]
  split
  · exact ⟨h.setServe hend, rfl⟩
  · rename_i hopen
    rw [not_or, Bool.not_eq_true, Bool.not_eq_true] at hopen
    split
    · exact ⟨h.setServe hend, rfl⟩
    · rename_i msg hread
      exact absurd hread (hq hserve hopen.1 hopen.2 msg)
    · rename_i args rest hread
      have hdispatch := dispatch_bracketed E c args
      refine ⟨⟨?_, h.subWriter⟩, rfl⟩
      change Bracketed (c.held .serve) (Phase.ops (if (c.dispatch E args).2 then _ else _))
      rw [hfree]
      split
      · exact hdispatch
      · exact bracketed_append hdispatch (bracketed_locked _)

theorem serveStep_invariant (h : c.Invariant) {fails : Bool} (hq : c.Careful E (.serve fails)) :
    (c.serveStep E fails).Invariant ∧ (c.serveStep E fails).refused = c.refused := by
  rw [serveStep.eq_def]
  split
  · exact ⟨h, rfl⟩
  · rename_i hserve
    exact next_invariant h hserve hq
  · rename_i op ops hserve
    have hops : c.serve.ops = op :: ops := by rw [hserve]; rfl
    split
    · exact ⟨h.setServe (bracketed_release _), rfl⟩
    · split
      · exact ⟨h, rfl⟩
      · rename_i c' hperform
        refine ⟨serve_invariant h hops hperform rfl, ?_⟩
        have hb := h.serve
        rw [hops] at hb
        exact (perform_spec hperform hb).refused
  · rename_i hserve
    have hb := h.serve
    rw [hserve] at hb
    have hsame := sameLocks_close c
    refine ⟨(h.of_sameLocks hsame).setServe ?_, hsame.refused⟩
    rw [held, hsame.writeMu]
    exact hb
  · rename_i op ops hserve
    have hops : c.serve.ops = op :: ops := by rw [hserve]; rfl
    split
    · exact ⟨h, rfl⟩
    · rename_i c' hperform
      refine ⟨serve_invariant h hops hperform rfl, ?_⟩
      have hb := h.serve
      rw [hops] at hb
      exact (perform_spec hperform hb).refused
  · exact ⟨h, rfl⟩

/-- What a turn of the others does: `serve` and its hold on the mutex stay as they are. -/
structure OthersTurn (c c' : Conn) : Prop where
  serve : c'.serve = c.serve
  held : c'.held .serve = c.held .serve
  refused : c'.refused = c.refused
  subWriter : Bracketed (c'.held .subWriterLoop) c'.subWriter.ops

theorem OthersTurn.of_sameLocks {c' : Conn} (hsame : SameLocks c c')
    (hb : Bracketed (c.held .subWriterLoop) c.subWriter.ops) : OthersTurn c c' where
  serve := hsame.serve
  held := by rw [Conn.held, Conn.held, hsame.writeMu]
  refused := hsame.refused
  subWriter := by
    rw [Conn.held, hsame.writeMu, hsame.subWriter]
    exact hb

theorem OthersTurn.of_perform {op : Op Action} {ops : Program} {c' : Conn} {p : Phase}
    (hops : c.subWriter.ops = op :: ops) (hb : Bracketed (c.held .subWriterLoop) c.subWriter.ops)
    (hperform : c.perform E .subWriterLoop op = some c') (hp : p.ops = ops) :
    OthersTurn c { c' with subWriter := p } := by
  rw [hops] at hb
  have hspec := perform_spec hperform hb
  refine ⟨hspec.serve, hspec.others _ (by decide), hspec.refused, ?_⟩
  change Bracketed (c'.held .subWriterLoop) p.ops
  rw [hp]
  exact hspec.own

theorem subWriterStep_others (hb : Bracketed (c.held .subWriterLoop) c.subWriter.ops) (fails : Bool) (more : ℕ) :
    OthersTurn c (c.subWriterStep E fails more) := by
  have hsame : OthersTurn c c := .of_sameLocks (.refl c) hb
  rw [subWriterStep.eq_def]
  split
  · exact hsame
  · rename_i hphase
    rw [hphase] at hb
    split
    · exact ⟨rfl, rfl, rfl, hb⟩
    · split
      · exact hsame
      · refine ⟨rfl, rfl, rfl, ?_⟩
        change Bracketed (c.held .subWriterLoop) _
        rw [show c.held .subWriterLoop = false from hb]
        exact bracketed_locked _
  · rename_i op ops hphase
    split
    · exact ⟨rfl, rfl, rfl, bracketed_append (bracketed_release _) rfl⟩
    · split
      · exact hsame
      · rename_i c' hperform
        exact .of_perform (by rw [hphase]; rfl) hb hperform rfl
  · rename_i hphase
    rw [hphase] at hb
    exact ⟨rfl, rfl, rfl, hb⟩
  · rename_i op ops hphase
    split
    · exact hsame
    · rename_i c' hperform
      exact .of_perform (by rw [hphase]; rfl) hb hperform rfl
  · exact hsame

theorem deliver_others (hb : Bracketed (c.held .subWriterLoop) c.subWriter.ops)
    (d : PubSubDelivery) : OthersTurn c (c.step E (.deliver d)) := by
  rw [step]
  split
  · exact ⟨rfl, rfl, rfl, hb⟩
  · exact .of_sameLocks (.refl c) hb

theorem OthersTurn.invariant {c' : Conn} (h : OthersTurn c c') (hinv : c.Invariant) : c'.Invariant where
  serve := by
    rw [h.held, h.serve]
    exact hinv.serve
  subWriter := h.subWriter

theorem step_invariant (h : c.Invariant) {turn : Turn} (hq : c.Careful E turn) :
    (c.step E turn).Invariant ∧ (c.step E turn).refused = c.refused := by
  cases turn with
  | serve fails => exact serveStep_invariant h hq
  | subWriter fails more =>
    have hothers := subWriterStep_others (E := E) h.subWriter fails more
    exact ⟨hothers.invariant h, hothers.refused⟩
  | deliver d =>
    have hothers := deliver_others (E := E) h.subWriter d
    exact ⟨hothers.invariant h, hothers.refused⟩
  | close =>
    have hsame := sameLocks_close c
    exact ⟨h.of_sameLocks hsame, hsame.refused⟩

end Steps

/-- `serve` is about to take the mutex twice, or waits for itself. -/
structure Stuck (c : Conn) : Prop where
  subWriter : Bracketed (c.held .subWriterLoop) c.subWriter.ops
  refused : c.refused ≠ none
  serve : ∃ ops, c.serve = .ending (.lock :: .lock :: ops) ∨
    (c.serve = .ending (.lock :: ops) ∧ c.held .serve = true)

variable {E : Env} {c : Conn}

theorem Stuck.others {c' : Conn} (h : c.Stuck) (hothers : OthersTurn c c') : c'.Stuck where
  subWriter := hothers.subWriter
  refused := by
    rw [hothers.refused]
    exact h.refused
  serve := by
    rw [hothers.serve, hothers.held]
    exact h.serve

theorem Stuck.serveStep (h : c.Stuck) (fails : Bool) : (c.serveStep E fails).Stuck := by
  obtain ⟨ops, hserve | ⟨hserve, hheld⟩⟩ := h.serve
  · cases hmu : c.writeMu with
    | none =>
      have hstep : c.serveStep E fails = { c with
          writeMu := some .serve
          serve := .ending (.lock :: ops) } := by
        rw [Conn.serveStep, hserve]
        dsimp only
        rw [perform, hmu]
      rw [hstep]
      refine ⟨?_, h.refused, ops, .inr ⟨rfl, decide_eq_true rfl⟩⟩
      have hsub := h.subWriter
      rw [held_eq_false (by rw [hmu]; exact fun heq => by cases heq)] at hsub
      rw [held_eq_false (by intro heq; cases heq)]
      exact hsub
    | some g =>
      have hstep : c.serveStep E fails = c := by
        rw [Conn.serveStep, hserve]
        dsimp only
        rw [perform, hmu]
      rw [hstep]
      exact h
  · have hmu : c.writeMu = some .serve := of_decide_eq_true hheld
    have hstep : c.serveStep E fails = c := by
      rw [Conn.serveStep, hserve]
      dsimp only
      rw [perform, hmu]
    rw [hstep]
    exact h

theorem Stuck.step (h : c.Stuck) (turn : Turn) : (c.step E turn).Stuck := by
  cases turn with
  | serve fails => exact h.serveStep fails
  | subWriter fails more => exact h.others (subWriterStep_others h.subWriter fails more)
  | deliver d => exact h.others (deliver_others h.subWriter d)
  | close => exact h.others (.of_sameLocks (sameLocks_close c) h.subWriter)

theorem Stuck.run (h : c.Stuck) (turns : List Turn) : (StateRuns.run (Conn.step E) c turns).Stuck :=
  run_always (fun _ turn hs => hs.step turn) h turns

/-- After a protocol error `serve` neither answers nor returns. -/
theorem Stuck.not_sound (h : c.Stuck) : ¬ c.Sound E := by
  intro hsound
  obtain ⟨⟨msg, before⟩, hrefused⟩ := Option.ne_none_iff_exists'.mp h.refused
  obtain ⟨turns, hreturned, -⟩ := hsound.answers msg before hrefused
  obtain ⟨ops, hserve | ⟨hserve, -⟩⟩ := (h.run (E := E) turns).serve
  · rw [hserve] at hreturned
    cases hreturned
  · rw [hserve] at hreturned
    cases hreturned

private theorem stuck_of_not_careful (h : c.Invariant) {turn : Turn} (hq : ¬ c.Careful E turn) :
    (c.step E turn).Stuck := by
  cases turn with
  | serve fails =>
    simp only [Careful, not_forall, not_not] at hq
    obtain ⟨hserve, hopen, hok, msg, hread⟩ := hq
    have hstep : c.step E (.serve fails) = { c with
        serve := .ending (refuse msg)
        refused := some (msg, c.replies.length) } := by
      rw [Conn.step, Conn.serveStep, hserve]
      dsimp only
      rw [next, if_neg (by rw [hopen, hok]; decide), hread]
    rw [hstep]
    exact ⟨h.subWriter, (fun heq => by cases heq), _, .inl rfl⟩
  | subWriter fails more | deliver d | close => exact absurd trivial hq

private theorem sound_of_invariant (h : c.Invariant) (hrefused : c.refused = none) : c.Sound E where
  noSelfWait := by
    intro g hheld
    have hself : c.held g = true := decide_eq_true hheld
    cases g with
    | serve =>
      have hb := h.serve
      rw [hself] at hb
      exact not_lock_of_held hb
    | subWriterLoop =>
      have hb := h.subWriter
      rw [hself] at hb
      exact not_lock_of_held hb
  answers := by
    intro msg before heq
    rw [hrefused] at heq
    cases heq

theorem run_sound_or_stuck (h : c.Invariant) (hrefused : c.refused = none) (turns : List Turn) :
    (Along (Conn.step E) (Careful E) c turns ∧ (StateRuns.run (Conn.step E) c turns).Sound E) ∨
      (¬ Along (Conn.step E) (Careful E) c turns ∧ (StateRuns.run (Conn.step E) c turns).Stuck) := by
  induction turns generalizing c with
  | nil => exact .inl ⟨trivial, sound_of_invariant h hrefused⟩
  | cons turn turns ih =>
    by_cases hq : c.Careful E turn
    · obtain ⟨hinv, hsame⟩ := step_invariant h hq
      rcases ih hinv (hsame.trans hrefused) with ⟨halong, hsound⟩ | ⟨hnot, hstuck⟩
      · exact .inl ⟨⟨hq, halong⟩, hsound⟩
      · exact .inr ⟨fun halong => hnot halong.2, hstuck⟩
    · exact .inr ⟨fun halong => hq halong.1, (stuck_of_not_careful h hq).run turns⟩

theorem new_invariant (input : Bytes) (authenticated : Bool) : (new input authenticated).Invariant :=
  ⟨rfl, rfl⟩

/-- A run of a connection ends as it should exactly if `serve` has read no protocol error. -/
theorem sound_iff_no_protocol_error (E : Env) (input : Bytes) (authenticated : Bool) (turns : List Turn) :
    (StateRuns.run (Conn.step E) (new input authenticated) turns).Sound E ↔
      Along (Conn.step E) (Careful E) (new input authenticated) turns := by
  rcases run_sound_or_stuck (E := E) (new_invariant input authenticated) rfl turns with
    ⟨halong, hsound⟩ | ⟨hnot, hstuck⟩
  · exact ⟨fun _ => halong, fun _ => hsound⟩
  · exact ⟨fun hsound => absurd hsound hstuck.not_sound, fun halong => absurd halong hnot⟩

/-- A server without a bus whose handlers answer nothing. -/
def plainEnv : Env :=
  ⟨0, false, fun _ => true, fun _ _ => true, fun _ => [], fun _ => false, fun _ => none, fun _ => true⟩

def badCount : Bytes := [0x2a, 0x78, 0x0d, 0x0a]

/-- After two turns `serve` holds the mutex and waits for it. -/
theorem badCount_waits :
    (StateRuns.run (Conn.step plainEnv) (new badCount true) [.serve false, .serve false]).writeMu = some .serve ∧
    ((StateRuns.run (Conn.step plainEnv) (new badCount true) [.serve false, .serve false]).program .serve).head? =
      some .lock ∧
    ¬ (StateRuns.run (Conn.step plainEnv) (new badCount true) [.serve false, .serve false]).Sound plainEnv := by
  have hwaits : (StateRuns.run (Conn.step plainEnv) (new badCount true)
      [.serve false, .serve false]).writeMu = some .serve ∧
      ((StateRuns.run (Conn.step plainEnv) (new badCount true) [.serve false, .serve false]).program
        .serve).head? = some .lock := by
    decide
  exact ⟨hwaits.1, hwaits.2, fun hsound => hsound.noSelfWait .serve hwaits.1 hwaits.2⟩

end MonsterMQ.Redis.Conn
