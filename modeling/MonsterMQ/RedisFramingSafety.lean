import MonsterMQ.RedisConnLocks
import MonsterMQ.RedisFramingRuns

/-!
# Harmless pipelines are framed

Each turn of the two goroutines adds whole frames to what the client reads, and the frames of `serve` are
those of the commands in their order.
-/

namespace MonsterMQ.Redis

open LittleEndian Auth LockPrograms StateRuns List

/-- The state after some frames of a goroutine, with the same place in the input. -/
structure Adds (g : Goroutine) (c c' : Conn) (fs : List Bytes) : Prop where
  out : c'.out = c.out ++ fs.map (Prod.mk g)
  count : c'.count = c.count
  input : c'.input = c.input
  authenticated : c'.authenticated = c.authenticated
  subCh : c'.subCh = c.subCh

variable {g : Goroutine} {c' : Conn} {fs : List Bytes}

theorem Adds.trans {c c'' : Conn} {gs : List Bytes} (h : Adds g c c' fs)
    (h' : Adds g c' c'' gs) : Adds g c c'' (fs ++ gs) := by
  refine ⟨?_, h'.count.trans h.count, h'.input.trans h.input, h'.authenticated.trans h.authenticated,
    h'.subCh.trans h.subCh⟩
  rw [h'.out, h.out, map_append, append_assoc]

theorem adds_nil {c : Conn} (hout : c'.out = c.out) (hcount : c'.count = c.count) (hinput : c'.input = c.input)
    (hauth : c'.authenticated = c.authenticated) (hsubCh : c'.subCh = c.subCh) : Adds g c c' [] :=
  ⟨by rw [hout, map_nil, append_nil], hcount, hinput, hauth, hsubCh⟩

private theorem adds_foldl {β : Type} {f : Conn → β → Conn} {P : β → Bytes → Prop}
    (hf : ∀ c b, ∃ x, P b x ∧ Adds g c (f c b) [x]) (l : List β) (c : Conn) :
    ∃ fs, List.Forall₂ P l fs ∧ Adds g c (l.foldl f c) fs := by
  induction l generalizing c with
  | nil => exact ⟨[], .nil, adds_nil rfl rfl rfl rfl rfl⟩
  | cons b l ih =>
    obtain ⟨x, hx, hadds⟩ := hf c b
    obtain ⟨fs, hfs, hrest⟩ := ih (f c b)
    exact ⟨x :: fs, .cons hx hfs, hadds.trans hrest⟩

theorem adds_close (g : Goroutine) (c : Conn) : Adds g c c.close [] := by
  rw [Conn.close]
  split
  · exact adds_nil rfl rfl rfl rfl rfl
  · exact adds_nil rfl rfl rfl rfl rfl

theorem holders_close (c : Conn) : ∀ x ∈ c.close.holders, x ∈ c.holders := by
  intro x hx
  rw [Conn.close] at hx
  split at hx
  · exact hx
  · cases hx

private theorem adds_subscribe (E : Env) (c : Conn) (k : SubKey) :
    ∃ fs, Named (subscribeName k.isPattern) [k.name] fs ∧ Adds .serve c (c.subscribe E k) fs := by
  rw [Conn.subscribe]
  split
  · exact ⟨_, .cons ⟨_, rfl⟩ .nil, rfl, rfl, rfl, rfl, rfl⟩
  · exact ⟨_, .cons ⟨_, rfl⟩ .nil, rfl, rfl, rfl, rfl, rfl⟩

private theorem named_of_keys {isPattern : Bool} {ks : List SubKey} (hks : ∀ k ∈ ks, k.isPattern = isPattern)
    (h : List.Forall₂ (fun k f => ∃ t, f = subReply (unsubscribeName k.isPattern) (some k.name) t) ks fs) :
    Named (unsubscribeName isPattern) (ks.map SubKey.name) fs := by
  induction h with
  | nil => exact .nil
  | cons hx _ ih =>
    rw [hks _ mem_cons_self] at hx
    exact .cons hx (ih fun k hk => hks k (mem_cons_of_mem _ hk))

theorem adds_unsubscribeAll (c : Conn) (isPattern : Bool) : ∃ fs,
    AllRemoved isPattern (namesOf isPattern c.subs) fs ∧ Adds .serve c (c.unsubscribeAll isPattern) fs := by
  rw [Conn.unsubscribeAll, namesOf]
  split
  · next hnone =>
    rw [List.isEmpty_iff.mp hnone, map_nil]
    exact ⟨_, ⟨_, rfl⟩, rfl, rfl, rfl, rfl, rfl⟩
  · next hsome =>
    obtain ⟨fs, hfs, hadds⟩ := adds_foldl (g := .serve) (f := Conn.unsubscribe)
      (P := fun k x => ∃ t, x = subReply (unsubscribeName k.isPattern) (some k.name) t)
      (fun c k => ⟨_, ⟨_, rfl⟩, rfl, rfl, rfl, rfl, rfl⟩)
      ((c.subs.filter fun k => k.isPattern = isPattern).mergeSort fun a b => a.name ≤ b.name) c
    refine ⟨fs, ?_, hadds⟩
    rw [AllRemoved, if_neg fun hnil => hsome (List.isEmpty_iff.mpr (map_eq_nil_iff.mp hnil))]
    refine ⟨_, (mergeSort_perm _ _).map _, named_of_keys ?_ hfs⟩
    intro k hk
    exact of_decide_eq_true (mem_filter.mp (mem_mergeSort.mp hk)).2

theorem adds_batch (E : Env) (c : Conn) (more : ℕ) :
    Adds .subWriterLoop { c with subCh := c.subCh.drop (min more 256 + 1) } (c.batch E more)
      (((c.subCh.take (min more 256 + 1)).filter fun d => c.active d ∧ E.canRead d.topicName).map
        writePubSubFrame) := by
  have hsent : ∀ (ds : List PubSubDelivery) (c : Conn), Adds .subWriterLoop c
      (ds.foldl (fun c d => c.write .subWriterLoop (writePubSubFrame d)) c) (ds.map writePubSubFrame) := by
    intro ds
    induction ds with
    | nil => exact fun c => adds_nil rfl rfl rfl rfl rfl
    | cons d ds ih =>
      intro c
      have hone : Adds .subWriterLoop c (c.write .subWriterLoop (writePubSubFrame d)) [writePubSubFrame d] :=
        ⟨rfl, rfl, rfl, rfl, rfl⟩
      exact hone.trans (ih _)
  have hadds := hsent ((c.subCh.take (min more 256 + 1)).filter fun d => c.active d ∧ E.canRead d.topicName)
    { c with subCh := c.subCh.drop (min more 256 + 1) }
  rw [Conn.batch]
  split
  · exact hadds
  · exact ⟨hadds.out, hadds.count, hadds.input, hadds.authenticated, hadds.subCh⟩

/-- What `serve` may have to do: the frames it writes are whole values, and no post filter that it enters
panics. -/
def ServeOp (V : Server) : Op Action → Prop
  | .act (.write f) => OneValue f
  | .act (.subscribe k) => ∀ f ∈ V.postFilter k, ∀ topic, (f topic).isSome
  | .act (.batch _) => False
  | _ => True

def SubWriterOp : Op Action → Prop
  | .act (.batch _) | .act .close => True
  | .act _ => False
  | _ => True

variable {op : Op Action}

theorem subWriterOp_batch (more : ℕ) : ∀ op ∈ locked [Action.batch more], SubWriterOp op := by
  intro op hop
  rcases mem_cons.mp hop with rfl | hop
  · trivial
  · rcases mem_cons.mp hop with rfl | hop
    · trivial
    · rw [mem_singleton.mp hop]
      trivial

variable {V : Server} {H : List SubKey → Prop}

theorem adds_perform_serve {E : Env} {c : Conn} (hop : ServeOp V op) (h : c.perform E .serve op = some c')
    (hH : ∀ isPattern, op = .act (.unsubscribeAll isPattern) → H c.subs) :
    ∃ fs, Written H op fs ∧ Adds .serve c c' fs := by
  cases op with
  | lock =>
    rw [Conn.perform] at h
    split at h
    · cases h
    · cases h
      exact ⟨[], rfl, adds_nil rfl rfl rfl rfl rfl⟩
  | unlock =>
    cases h
    exact ⟨[], rfl, adds_nil rfl rfl rfl rfl rfl⟩
  | act a =>
    cases h
    cases a with
    | write f => exact ⟨[f], rfl, rfl, rfl, rfl, rfl, rfl⟩
    | subscribe k => exact adds_subscribe E c k
    | unsubscribe k => exact ⟨_, .cons ⟨_, rfl⟩ .nil, rfl, rfl, rfl, rfl, rfl⟩
    | unsubscribeAll isPattern =>
      obtain ⟨fs, hfs, hadds⟩ := adds_unsubscribeAll c isPattern
      exact ⟨fs, ⟨c.subs, hH isPattern rfl, hfs⟩, hadds⟩
    | batch more => exact absurd hop id
    | flush => exact ⟨[], rfl, adds_nil rfl rfl rfl rfl rfl⟩
    | close => exact ⟨[], rfl, adds_close .serve c⟩

/-- A subscription that is held after an operation was held before or has just been made. -/
theorem holders_perform {E : Env} {c : Conn} (h : c.perform E g op = some c') :
    ∀ x ∈ c'.holders, x ∈ c.holders ∨ op = .act (.subscribe x.1) := by
  intro x hx
  have hfoldl : ∀ {β : Type} {f : Conn → β → Conn}, (∀ c b, (f c b).holders ⊆ c.holders) → ∀ (l : List β) c,
      (l.foldl f c).holders ⊆ c.holders := by
    intro β f hf l
    induction l with
    | nil => exact fun c => List.Subset.refl _
    | cons b l ih => exact fun c => List.Subset.trans (ih (f c b)) (hf c b)
  have hwritten := hfoldl (f := fun c d => c.write .subWriterLoop (writePubSubFrame d)) fun c d => List.Subset.refl _
  cases op with
  | lock =>
    rw [Conn.perform] at h
    split at h
    · cases h
    · cases h
      exact .inl hx
  | unlock =>
    cases h
    exact .inl hx
  | act a =>
    cases h
    cases a with
    | write | flush => exact .inl hx
    | subscribe k =>
      change x ∈ (c.subscribe E k).holders at hx
      rw [Conn.subscribe] at hx
      split at hx
      · exact .inl hx
      · rcases mem_append.mp hx with hx | hx
        · exact .inl hx
        · rw [mem_singleton.mp hx]
          exact .inr rfl
    | unsubscribe k => exact .inl (mem_of_mem_filter hx)
    | unsubscribeAll isPattern =>
      change x ∈ (c.unsubscribeAll isPattern).holders at hx
      rw [Conn.unsubscribeAll] at hx
      split at hx
      · exact .inl hx
      · exact .inl (hfoldl (f := Conn.unsubscribe) (fun c k x hx => mem_of_mem_filter hx) _ c hx)
    | batch more =>
      change x ∈ (c.batch E more).holders at hx
      rw [Conn.batch] at hx
      split at hx
      · have hold := hwritten _ _ hx
        exact .inl hold
      · have hold := hwritten _ _ hx
        exact .inl hold
    | close => exact .inl (holders_close c x hx)

theorem oneValue_of_named {cmdName : String} {ns : List Bytes} (h : Named cmdName ns fs) :
    ∀ f ∈ fs, OneValue f := by
  induction h with
  | nil =>
    intro f hf
    cases hf
  | cons hx _ ih =>
    intro f hf
    rcases mem_cons.mp hf with rfl | hf
    · obtain ⟨t, rfl⟩ := hx
      exact oneValue_subReply _ _ _
    · exact ih f hf

theorem oneValue_of_written (hop : ServeOp V op) (h : Written H op fs) : ∀ f ∈ fs, OneValue f := by
  intro f hf
  cases op with
  | lock | unlock =>
    cases h
    cases hf
  | act a =>
    cases a with
    | write x =>
      cases h
      rw [mem_singleton.mp hf]
      exact hop
    | subscribe k | unsubscribe k => exact oneValue_of_named h f hf
    | unsubscribeAll isPattern =>
      obtain ⟨subs, -, hremoved⟩ := h
      rw [AllRemoved] at hremoved
      split at hremoved
      · obtain ⟨t, rfl⟩ := hremoved
        rw [mem_singleton.mp hf]
        exact oneValue_subReply _ _ _
      · obtain ⟨order, -, hnamed⟩ := hremoved
        exact oneValue_of_named hnamed f hf
    | batch more => exact absurd hop id
    | flush | close =>
      cases h
      cases hf

theorem perform_phases {E : Env} {c : Conn} (h : c.perform E g op = some c') :
    c'.serve = c.serve ∧ c'.subWriter.ops = c.subWriter.ops := by
  cases op with
  | lock =>
    rw [Conn.perform] at h
    split at h
    · cases h
    · cases h
      exact ⟨rfl, rfl⟩
  | unlock =>
    cases h
    exact ⟨rfl, rfl⟩
  | act a =>
    cases h
    have hsame := Conn.sameLocks_act E c g a
    exact ⟨hsame.serve, hsame.subWriter⟩

/-- The frames of one goroutine after those of another, or of the same, have been added. -/
theorem filter_adds {g g' : Goroutine} {c : Conn} (h : Adds g c c' fs) :
    (c'.out.filter fun w => w.1 = g').map Prod.snd =
      (c.out.filter fun w => w.1 = g').map Prod.snd ++ if g = g' then fs else [] := by
  have hnew : ((fs.map (Prod.mk g)).filter fun w => w.1 = g').map Prod.snd = if g = g' then fs else [] := by
    split
    · next heq =>
      rw [filter_eq_self.mpr, map_map]
      · exact map_id _
      · intro w hw
        obtain ⟨f, -, rfl⟩ := mem_map.mp hw
        exact decide_eq_true heq
    · next hne =>
      rw [filter_eq_nil_iff.mpr, map_nil]
      intro w hw
      obtain ⟨f, -, rfl⟩ := mem_map.mp hw
      exact fun heq => hne (of_decide_eq_true heq)
  rw [h.out, filter_append, map_append, hnew]

theorem replies_of_adds_serve {c : Conn} (h : Adds .serve c c' fs) : c'.replies = c.replies ++ fs := filter_adds h

theorem replies_of_adds_subWriter {c : Conn} (h : Adds .subWriterLoop c c' fs) : c'.replies = c.replies :=
  (filter_adds h).trans (append_nil _)

theorem pushes_of_adds_serve {c : Conn} (h : Adds .serve c c' fs) : c'.pushes = c.pushes :=
  (filter_adds h).trans (append_nil _)

theorem pushes_of_adds_subWriter {c : Conn} (h : Adds .subWriterLoop c c' fs) : c'.pushes = c.pushes ++ fs :=
  filter_adds h

theorem named_subReply (cmdName : String) (ns : List Bytes) : ∃ fs, Named cmdName ns fs := by
  induction ns with
  | nil => exact ⟨[], .nil⟩
  | cons n ns ih =>
    obtain ⟨fs, hfs⟩ := ih
    exact ⟨subReply cmdName (some n) 0 :: fs, .cons ⟨0, rfl⟩ hfs⟩

theorem exists_writtenBy (hH : ∃ subs, H subs) (ops : Program) : ∃ fs, WrittenBy H ops fs := by
  have hone : ∀ op, ∃ fs, Written H op fs := by
    intro op
    cases op with
    | lock | unlock => exact ⟨[], rfl⟩
    | act a =>
      cases a with
      | write f => exact ⟨[f], rfl⟩
      | subscribe k | unsubscribe k => exact named_subReply _ _
      | unsubscribeAll isPattern =>
        obtain ⟨subs, hsubs⟩ := hH
        by_cases hnil : namesOf isPattern subs = []
        · exact ⟨_, subs, hsubs, by rw [AllRemoved, if_pos hnil]; exact ⟨0, rfl⟩⟩
        · obtain ⟨fs, hfs⟩ := named_subReply (unsubscribeName isPattern) (namesOf isPattern subs)
          exact ⟨fs, subs, hsubs, by rw [AllRemoved, if_neg hnil]; exact ⟨_, .refl _, hfs⟩⟩
      | batch | flush | close => exact ⟨[], rfl⟩
  induction ops with
  | nil => exact ⟨[], .nil⟩
  | cons op ops ih =>
    obtain ⟨fs, hfs⟩ := hone op
    obtain ⟨gs, hgs⟩ := ih
    exact ⟨fs ++ gs, .cons hfs hgs⟩

/-- How far `serve` is: `gs` are the frames of the commands before, `g` are those written for the command
at hand. `H` tells the subscriptions that there were when a command gave up all of a kind. -/
inductive Stage (command : ℕ → List Bytes) (H : ℕ → List SubKey → Prop) (c : Conn) (gs : List (List Bytes))
    (g : List Bytes) : Prop where
  | between (hlen : gs.length = c.count) (hg : g = []) (hops : ∀ op ∈ c.serve.ops, Silent op)
  | during (hlen : gs.length + 1 = c.count)
    (h : ∀ H' : List SubKey → Prop, (∀ subs, H gs.length subs → H' subs) → ∀ fs, WrittenBy H' c.serve.ops fs →
      Answered H' (command gs.length) (g ++ fs))
  | broken (hlen : gs.length + 1 = c.count)
    (h : ∃ fs, Answered (fun _ => True) (command gs.length) (g ++ fs))
    (hops : ∀ op ∈ c.serve.ops, Silent op) (hphase : ∀ ops, c.serve ≠ .looping ops)

/-- What holds in every state of a run: whole frames have been written, those of `serve` belong to the
commands that have been read, in their order, and those of `subWriterLoop` are what was taken out of the
channel. -/
structure Progress (V : Server) (input : Bytes) (authenticated : Bool) (H : ℕ → List SubKey → Prop)
    (handed : List PubSubDelivery) (done : List (PubSubDelivery × Bool)) (c : Conn) : Prop where
  out : ∀ w ∈ c.out, OneValue w.2
  serveOps : ∀ op ∈ c.serve.ops, ServeOp V op
  subWriterOps : ∀ op ∈ c.subWriter.ops, SubWriterOp op
  rest : restAfter V.maxMsgSize input c.count = some c.input
  auth : c.authenticated = V.signedIn input authenticated c.count
  filters : ∀ x ∈ c.holders, ∀ f ∈ V.postFilter x.1, ∀ topic, (f topic).isSome
  channel : handed = done.map Prod.fst ++ c.subCh
  pushes : c.pushes = (done.filter Prod.snd).map fun p => writePubSubFrame p.1
  answers : ∃ gs g, c.replies = gs.flatten ++ g ∧
    (∀ i (h : i < gs.length), Answered (H i) (commandAt V.maxMsgSize input i) (gs.get ⟨i, h⟩)) ∧
    Stage (commandAt V.maxMsgSize input) H c gs g

section
variable {input : Bytes} {authenticated : Bool} {H : ℕ → List SubKey → Prop} {handed : List PubSubDelivery}
  {done : List (PubSubDelivery × Bool)} {c : Conn}

theorem progress_new (V : Server) (input : Bytes) (authenticated : Bool) (H : ℕ → List SubKey → Prop) :
    Progress V input authenticated H [] [] (.new input authenticated) where
  out := fun w hw => by cases hw
  serveOps := fun op hop => by cases hop
  subWriterOps := fun op hop => by cases hop
  rest := rfl
  auth := rfl
  filters := fun x hx => by cases hx
  channel := rfl
  pushes := rfl
  answers := ⟨[], [], rfl, (fun i h => absurd h (Nat.not_lt_zero i)), .between rfl rfl fun op hop => by cases hop⟩

section

variable (h : Progress V input authenticated H handed done c)
include h

/-- A turn of another goroutine, which hands messages over or takes them, leaves `serve` where it is. -/
theorem Progress.others {c' : Conn}
    {fs : List Bytes} {q hs : List PubSubDelivery} (ts : List (PubSubDelivery × Bool))
    (hq : c.subCh ++ hs = ts.map Prod.fst ++ q) (hfs : fs = (ts.filter Prod.snd).map fun p => writePubSubFrame p.1)
    (hadds : Adds .subWriterLoop { c with subCh := q } c' fs) (hserve : c'.serve = c.serve)
    (hholders : ∀ x ∈ c'.holders, x ∈ c.holders)
    (hops : ∀ op ∈ c'.subWriter.ops, SubWriterOp op) :
    Progress V input authenticated H (handed ++ hs) (done ++ ts) c' where
  out := by
    intro w hw
    rw [hadds.out, mem_append] at hw
    rcases hw with hw | hw
    · exact h.out w hw
    · obtain ⟨f, hf, rfl⟩ := mem_map.mp hw
      rw [hfs] at hf
      obtain ⟨p, -, rfl⟩ := mem_map.mp hf
      exact oneValue_writePubSubFrame p.1
  serveOps := by
    rw [hserve]
    exact h.serveOps
  subWriterOps := hops
  rest := by
    rw [hadds.count, hadds.input]
    exact h.rest
  auth := by
    rw [hadds.count, hadds.authenticated]
    exact h.auth
  filters := fun x hx => h.filters x (hholders x hx)
  channel := by
    rw [h.channel, hadds.subCh, map_append, append_assoc, append_assoc, hq]
  pushes := by
    rw [pushes_of_adds_subWriter hadds, filter_append, map_append, ← hfs]
    exact congrArg (· ++ fs) h.pushes
  answers := by
    obtain ⟨gs, g, hreplies, hgs, hstage⟩ := h.answers
    refine ⟨gs, g, ?_, hgs, ?_⟩
    · rw [replies_of_adds_subWriter hadds]
      exact hreplies
    · cases hstage with
      | between hlen hg hsilent => exact .between (hlen.trans hadds.count.symm) hg (by rw [hserve]; exact hsilent)
      | during hlen hw => exact .during (hlen.trans hadds.count.symm) (by rw [hserve]; exact hw)
      | broken hlen hw hsilent hphase =>
        exact .broken (hlen.trans hadds.count.symm) hw (by rw [hserve]; exact hsilent) (by rw [hserve]; exact hphase)

/-- A turn that writes nothing and leaves the channel as it is. -/
theorem Progress.quiet {c' : Conn} (hadds : Adds .subWriterLoop c c' []) (hserve : c'.serve = c.serve)
    (hholders : ∀ x ∈ c'.holders, x ∈ c.holders) (hops : ∀ op ∈ c'.subWriter.ops, SubWriterOp op) :
    Progress V input authenticated H handed done c' := by
  have hothers := h.others [] (append_nil c.subCh) rfl hadds hserve hholders hops
  rwa [append_nil, append_nil] at hothers

/-- A turn of `serve` that adds the frames of its operation. -/
theorem Progress.serve {c' : Conn} {op : Op Action} {ops : Program} {fs : List Bytes}
    (hc : c.serve.ops = op :: ops) (hfs : Written (H (c.count - 1)) op fs) (hadds : Adds .serve c c' fs)
    (hops : c'.serve.ops = ops) (hphase : ∀ l, c'.serve = .looping l → ∃ l', c.serve = .looping l')
    (hsub : c'.subWriter.ops = c.subWriter.ops)
    (hholders : ∀ x ∈ c'.holders, x ∈ c.holders ∨ op = .act (.subscribe x.1)) :
    Progress V input authenticated H handed done c' where
  out := by
    intro w hw
    rw [hadds.out, mem_append] at hw
    rcases hw with hw | hw
    · exact h.out w hw
    · obtain ⟨f, hf, rfl⟩ := mem_map.mp hw
      exact oneValue_of_written (h.serveOps op (by rw [hc]; exact mem_cons_self)) hfs f hf
  serveOps := by
    intro op' hop'
    rw [hops] at hop'
    exact h.serveOps op' (by rw [hc]; exact mem_cons_of_mem _ hop')
  subWriterOps := by
    rw [hsub]
    exact h.subWriterOps
  rest := by
    rw [hadds.count, hadds.input]
    exact h.rest
  auth := by
    rw [hadds.count, hadds.authenticated]
    exact h.auth
  filters := by
    intro x hx
    rcases hholders x hx with hx | rfl
    · exact h.filters x hx
    · exact h.serveOps _ (by rw [hc]; exact mem_cons_self)
  channel := by
    rw [hadds.subCh]
    exact h.channel
  pushes := by
    rw [pushes_of_adds_serve hadds]
    exact h.pushes
  answers := by
    obtain ⟨gs, g, hreplies, hgs, hstage⟩ := h.answers
    have hlater : ∀ op' ∈ c'.serve.ops, op' ∈ c.serve.ops := by
      intro op' hop'
      rw [hops] at hop'
      rw [hc]
      exact mem_cons_of_mem _ hop'
    have hmem : op ∈ c.serve.ops := by
      rw [hc]
      exact mem_cons_self
    refine ⟨gs, g ++ fs, ?_, hgs, ?_⟩
    · rw [replies_of_adds_serve hadds, hreplies, append_assoc]
    · cases hstage with
      | between hlen hg hsilent =>
        have hnil := written_of_silent (hsilent op hmem) hfs
        refine .between (hlen.trans hadds.count.symm) ?_ fun op' hop' => hsilent op' (hlater op' hop')
        rw [hg, hnil]
        rfl
      | during hlen hw =>
        refine .during (hlen.trans hadds.count.symm) fun H' hH fs' hfs' => ?_
        rw [append_assoc]
        apply hw H' hH
        rw [hc]
        rw [hops] at hfs'
        have hlast : c.count - 1 = gs.length := by omega
        rw [hlast] at hfs
        exact .cons (hfs.mono hH) hfs'
      | broken hlen hw hsilent hnot =>
        have hnil := written_of_silent (hsilent op hmem) hfs
        refine .broken (hlen.trans hadds.count.symm) ?_ (fun op' hop' => hsilent op' (hlater op' hop')) ?_
        · rw [hnil, append_nil]
          exact hw
        · intro l hl
          obtain ⟨l', hl'⟩ := hphase l hl
          exact hnot l' hl'

/-- `serve` gives up: what it does from now on writes nothing. -/
theorem Progress.giveUp {c' : Conn}
    (hadds : Adds .serve c c' []) (hops : ∀ op ∈ c'.serve.ops, Silent op ∧ ServeOp V op)
    (hphase : ∀ l, c'.serve ≠ .looping l) (hsub : c'.subWriter.ops = c.subWriter.ops)
    (hholders : ∀ x ∈ c'.holders, x ∈ c.holders) : Progress V input authenticated H handed done c' where
  out := by
    intro w hw
    rw [hadds.out, map_nil, append_nil] at hw
    exact h.out w hw
  serveOps := fun op hop => (hops op hop).2
  subWriterOps := by
    rw [hsub]
    exact h.subWriterOps
  rest := by
    rw [hadds.count, hadds.input]
    exact h.rest
  auth := by
    rw [hadds.count, hadds.authenticated]
    exact h.auth
  filters := fun x hx => h.filters x (hholders x hx)
  channel := by
    rw [hadds.subCh]
    exact h.channel
  pushes := by
    rw [pushes_of_adds_serve hadds]
    exact h.pushes
  answers := by
    obtain ⟨gs, g, hreplies, hgs, hstage⟩ := h.answers
    refine ⟨gs, g, ?_, hgs, ?_⟩
    · rw [replies_of_adds_serve hadds, append_nil]
      exact hreplies
    · cases hstage with
      | between hlen hg _ => exact .between (hlen.trans hadds.count.symm) hg fun op hop => (hops op hop).1
      | during hlen hw =>
        obtain ⟨fs, hfs⟩ := exists_writtenBy (H := fun _ => True) ⟨[], trivial⟩ c.serve.ops
        exact .broken (hlen.trans hadds.count.symm) ⟨fs, hw (fun _ => True) (fun _ _ => trivial) fs hfs⟩
          (fun op hop => (hops op hop).1) hphase
      | broken hlen hw _ _ =>
        exact .broken (hlen.trans hadds.count.symm) hw (fun op hop => (hops op hop).1) hphase

end

theorem commandAt_of_read {maxMsgSize : ℤ} {input r rest : Bytes} {n : ℕ} {args : List Bytes}
    (hrest : restAfter maxMsgSize input n = some r) (hread : readCommand maxMsgSize r = .ok (args, rest)) :
    commandAt maxMsgSize input n = args ∧ restAfter maxMsgSize input (n + 1) = some rest := by
  constructor
  · rw [commandAt, hrest]
    dsimp only
    rw [hread]
  · rw [restAfter, hrest]
    dsimp only
    rw [hread]

theorem serveOp_reply {f : Bytes} (h : OneValue f) : ∀ op ∈ reply f, ServeOp V op := by
  intro op hop
  rcases mem_cons.mp hop with rfl | hop
  · trivial
  · rcases mem_cons.mp hop with rfl | hop
    · exact h
    · rw [mem_singleton.mp hop]
      trivial

theorem serveOp_locked {as : List Action} (h : ∀ a ∈ as, ServeOp V (.act a)) : ∀ op ∈ locked as, ServeOp V op := by
  intro op hop
  rcases mem_cons.mp hop with rfl | hop
  · trivial
  · rcases mem_append.mp hop with hop | hop
    · obtain ⟨a, ha, rfl⟩ := mem_map.mp hop
      exact h a ha
    · rw [mem_singleton.mp hop]
      trivial

/-- What `dispatch` writes for a harmless command are whole values. -/
theorem serveOp_dispatch {args : List Bytes} (hquiet : (V.world c.count).Quiet)
    (hargs : commandAt V.maxMsgSize input c.count = args)
    (hharmless : c.authenticated = true ∨ (commandOf (args.headD [])).allowedBeforeAuth = true →
      Harmless (V.world c.count) args) : ∀ op ∈ (c.dispatch (V.env input) args).1, ServeOp V op := by
  have hanswer : Harmless (V.world c.count) args → OneValue ((V.env input).answer c.count) := by
    intro hharmless
    obtain ⟨v, hv, hclean⟩ := clean_answer hquiet hharmless
    refine ⟨v, hclean, ?_⟩
    change ((answer (V.world c.count) (commandAt V.maxMsgSize input c.count)).map frame).getD [] = _
    rw [hargs, hv]
    rfl
  have hrefuses : Harmless (V.world c.count) args → ∀ msg, (V.env input).refuses c.count = some msg →
      OneValue (respErr msg) := by
    intro hharmless msg hmsg
    change refusedBy (V.world c.count) (commandAt V.maxMsgSize input c.count) = some msg at hmsg
    rw [hargs] at hmsg
    exact oneValue_respErr (plain_refusedBy hquiet hharmless hmsg)
  have hok : OneValue (respSimple "OK") := by
    have hplain : Plain (ascii "OK") := plain_ascii rfl rfl
    refine ⟨.simple (ascii "OK"), hplain, ?_⟩
    rw [frame]
    rfl
  cases args with
  | nil => exact serveOp_reply (oneValue_respErr (plain_ascii rfl rfl))
  | cons cmd filters =>
    rw [Conn.dispatch.eq_def]
    dsimp only
    split
    · exact serveOp_reply (oneValue_respErr (plain_ascii rfl rfl))
    · next hhandled =>
      have hharmless := hharmless (by
        rw [not_and_or, Bool.not_eq_false, Bool.not_eq_false] at hhandled
        exact hhandled)
      split
      · intro op hop
        rcases mem_append.mp hop with hop | hop
        · exact serveOp_reply hok op hop
        · rcases mem_cons.mp hop with rfl | hop
          · trivial
          · rw [mem_singleton.mp hop]
            trivial
      · next isPattern hcmd =>
        split
        · have hname : Plain (ascii (subscribeName isPattern)) := by
            cases isPattern with
            | true | false => exact plain_ascii rfl rfl
          refine serveOp_reply (oneValue_respErr ?_)
          rw [ascii_append, ascii_append]
          exact (plain_append).mpr ⟨(plain_append).mpr ⟨plain_ascii rfl rfl, hname⟩, plain_ascii rfl rfl⟩
        · split
          · next msg hmsg => exact serveOp_reply (hrefuses hharmless msg hmsg)
          · intro op hop
            obtain ⟨f, hf, hop⟩ := mem_flatMap.mp hop
            refine serveOp_locked ?_ op hop
            intro a ha
            rw [mem_singleton.mp ha]
            intro post hpost
            rw [Server.postFilter] at hpost
            split at hpost
            · next hpattern =>
              have hpattern : isPattern = true := hpattern
              rw [hpattern] at hcmd
              rw [← V.compiles c.count] at hpost
              exact hharmless.patterns hcmd f hf post hpost
            · cases hpost
      · split
        · apply serveOp_locked
          intro a ha
          rw [mem_singleton.mp ha]
          trivial
        · apply serveOp_locked
          intro a ha
          obtain ⟨f, -, rfl⟩ := mem_map.mp ha
          trivial
      · exact serveOp_reply (hanswer hharmless)

private theorem silent_flush (flushes : Bool) :
    ∀ op ∈ locked (if flushes then [Action.flush] else []), Silent op ∧ ServeOp V op := by
  intro op hop
  rcases mem_cons.mp hop with rfl | hop
  · exact ⟨trivial, trivial⟩
  · rcases mem_append.mp hop with hop | hop
    · obtain ⟨a, ha, rfl⟩ := mem_map.mp hop
      split at ha
      · rw [mem_singleton.mp ha]
        exact ⟨trivial, trivial⟩
      · cases ha
    · rw [mem_singleton.mp hop]
      exact ⟨trivial, trivial⟩

/-- What `serve` has to do after it has read a harmless command answers it. -/
theorem dispatched {args : List Bytes} (hquiet : (V.world c.count).Quiet)
    (hargs : commandAt V.maxMsgSize input c.count = args)
    (hharmless : c.authenticated = true ∨ (commandOf (args.headD [])).allowedBeforeAuth = true →
      Harmless (V.world c.count) args) :
    let p := c.dispatch (V.env input) args
    let phase : Phase := if p.2 then .ending p.1
      else .looping (p.1 ++ locked (if (V.env input).flushes c.count then [.flush] else []))
    (∀ op ∈ phase.ops, ServeOp V op) ∧
      ∀ (H : List SubKey → Prop) fs, WrittenBy H phase.ops fs → Answered H args fs := by
  have hops := serveOp_dispatch hquiet hargs hharmless
  have hflush := silent_flush (V := V) ((V.env input).flushes c.count)
  intro p phase
  by_cases hreturns : p.2 = true
  · have hphase : phase = .ending p.1 := if_pos hreturns
    rw [hphase]
    exact ⟨hops, fun H fs hfs => answered_of_dispatch hfs⟩
  · have hphase : phase = .looping (p.1 ++ locked (if (V.env input).flushes c.count then [.flush] else [])) :=
      if_neg hreturns
    rw [hphase]
    constructor
    · intro op hop
      rcases mem_append.mp hop with hop | hop
      · exact hops op hop
      · exact (hflush op hop).2
    · intro H fs hfs
      obtain ⟨gs, gs', rfl, hgs, hgs'⟩ := writtenBy_append hfs
      rw [writtenBy_silent (fun op hop => (hflush op hop).1) hgs', append_nil]
      exact answered_of_dispatch hgs

/-- Before `serve` reads a command, the commands before it are answered. -/
theorem Progress.complete (h : Progress V input authenticated H handed done c) (hserve : c.serve = .looping []) :
    ∃ gs : List (List Bytes), c.replies = gs.flatten ∧ gs.length = c.count ∧
      ∀ i (h : i < gs.length), Answered (H i) (commandAt V.maxMsgSize input i) (gs.get ⟨i, h⟩) := by
  obtain ⟨gs, g, hreplies, hgs, hstage⟩ := h.answers
  cases hstage with
  | between hlen hg _ =>
    refine ⟨gs, ?_, hlen, hgs⟩
    rw [hreplies, hg, append_nil]
  | during hlen hw =>
    have hlast := hw (H gs.length) (fun _ h => h) [] (by rw [hserve]; exact .nil)
    rw [append_nil] at hlast
    refine ⟨gs ++ [g], ?_, ?_, ?_⟩
    · rw [hreplies, flatten_append, flatten_singleton]
    · rw [length_append]
      exact hlen
    · intro i hi
      rw [get_eq_getElem]
      rcases Nat.lt_or_ge i gs.length with hlt | hge
      · rw [getElem_append_left hlt]
        exact hgs i hlt
      · have hi' : i = gs.length := by
          rw [length_append, length_singleton] at hi
          omega
        subst hi'
        rw [getElem_append_right hge]
        simp only [Nat.sub_self, getElem_cons_zero]
        exact hlast
  | broken _ _ _ hnot => exact absurd hserve (hnot [])

def Conn.handedOver (E : Env) (c : Conn) : Turn → List PubSubDelivery
  | .deliver d => if c.accepts E d then [d] else []
  | _ => []

/-- What an operation takes out of the channel, and of every message whether its subscription is still held
and the client may read the topic. -/
def Conn.takes (E : Env) (c : Conn) : Op Action → List (PubSubDelivery × Bool)
  | .act (.batch more) =>
    (c.subCh.take (min more 256 + 1)).map fun d => (d, decide (c.active d ∧ E.canRead d.topicName))
  | _ => []

def Conn.taken (E : Env) (c : Conn) : Turn → List (PubSubDelivery × Bool)
  | .subWriter fails _ =>
    match c.subWriter with
    | .looping (op :: _) => if fails then [] else c.takes E op
    | .ending (op :: _) => c.takes E op
    | _ => []
  | _ => []

/-- A message that is taken is pushed, unless its subscription is gone or the client may not read it. -/
theorem Progress.perform {E : Env} {op : Op Action} {ops : Program} {c' : Conn} {p : Phase}
    (h : Progress V input authenticated H handed done c) (hc : c.subWriter.ops = op :: ops)
    (hperform : c.perform E .subWriterLoop op = some c') (hp : p.ops = ops) :
    Progress V input authenticated H handed (done ++ c.takes E op) { c' with subWriter := p } := by
  have hop : SubWriterOp op := h.subWriterOps op (by rw [hc]; exact mem_cons_self)
  have hops : ∀ op' ∈ p.ops, SubWriterOp op' := by
    intro op' hop'
    rw [hp] at hop'
    exact h.subWriterOps op' (by rw [hc]; exact mem_cons_of_mem _ hop')
  have hholders : ∀ x ∈ c'.holders, x ∈ c.holders := by
    intro x hx
    rcases holders_perform hperform x hx with hx | rfl
    · exact hx
    · exact absurd hop id
  have hserve := (perform_phases hperform).1
  have hquiet : Adds .subWriterLoop c c' [] → Progress V input authenticated H handed (done ++ []) { c' with
      subWriter := p } := by
    intro hadds
    rw [append_nil]
    exact h.quiet ⟨hadds.out, hadds.count, hadds.input, hadds.authenticated, hadds.subCh⟩ hserve hholders hops
  cases op with
  | lock =>
    rw [Conn.perform] at hperform
    split at hperform
    · cases hperform
    · cases hperform
      exact hquiet (adds_nil rfl rfl rfl rfl rfl)
  | unlock =>
    cases hperform
    exact hquiet (adds_nil rfl rfl rfl rfl rfl)
  | act a =>
    cases hperform
    cases a with
    | close => exact hquiet (adds_close _ c)
    | batch more =>
      have hadds := adds_batch E c more
      have htaken : c.subCh ++ [] =
          (c.takes E (.act (.batch more))).map Prod.fst ++ c.subCh.drop (min more 256 + 1) := by
        rw [append_nil, Conn.takes, map_map, Function.comp_def, map_id', take_append_drop]
      have hothers : Progress V input authenticated H (handed ++ []) (done ++ c.takes E (.act (.batch more)))
          { c.batch E more with subWriter := p } :=
        h.others _ htaken (by rw [Conn.takes, filter_map, map_map]; rfl)
          ⟨hadds.out, hadds.count, hadds.input, hadds.authenticated, hadds.subCh⟩ hserve hholders hops
      rwa [append_nil] at hothers
    | write | subscribe | unsubscribe | unsubscribeAll | flush => exact absurd hop id

theorem Progress.subWriterStep {E : Env} (h : Progress V input authenticated H handed done c) (fails : Bool)
    (more : ℕ) : Progress V input authenticated H handed (done ++ c.taken E (.subWriter fails more))
      (c.subWriterStep E fails more) := by
  have hsame : Progress V input authenticated H handed (done ++ []) c := by
    rw [append_nil]
    exact h
  have hquiet : ∀ {p : Phase}, (∀ op ∈ p.ops, SubWriterOp op) →
      Progress V input authenticated H handed (done ++ []) { c with subWriter := p } := by
    intro p hops
    rw [append_nil]
    exact h.quiet (adds_nil rfl rfl rfl rfl rfl) rfl (fun x hx => hx) hops
  have hwaits : ∀ {op : Op Action}, c.perform E .subWriterLoop op = none → c.takes E op = [] := by
    intro op hnone
    cases op with
    | lock => rfl
    | unlock => rfl
    | act a => cases hnone
  rw [Conn.subWriterStep.eq_def, Conn.taken]
  cases hphase : c.subWriter with
  | notStarted => exact hsame
  | returned => exact hsame
  | looping ops =>
    cases ops with
    | nil =>
      dsimp only
      split
      · exact hquiet fun op hop => by cases hop
      · split
        · exact hsame
        · exact hquiet (p := .looping _) (subWriterOp_batch more)
    | cons op ops =>
      dsimp only
      by_cases hfails : fails = true ∧ Conn.canFail op = true
      · rw [if_pos hfails, if_pos hfails.1]
        refine hquiet (p := .ending _) fun op hop => ?_
        rcases mem_append.mp hop with hop | hop
        · rw [release] at hop
          split at hop
          · rw [mem_singleton.mp hop]
            trivial
          · cases hop
        · rw [mem_singleton.mp hop]
          trivial
      · have htakes : (if fails = true then [] else c.takes E op) = c.takes E op := by
          split
          · next hfailed =>
            cases op with
            | lock => rfl
            | unlock => rfl
            | act a =>
              cases a with
              | batch more => exact absurd ⟨hfailed, rfl⟩ hfails
              | write | subscribe | unsubscribe | unsubscribeAll | flush | close => rfl
          · rfl
        rw [if_neg hfails, htakes]
        split
        · next hnone =>
          rw [hwaits hnone]
          exact hsame
        · next c' hperform => exact h.perform (by rw [hphase]; rfl) hperform rfl
  | ending ops =>
    cases ops with
    | nil => exact hquiet fun op hop => by cases hop
    | cons op ops =>
      dsimp only
      split
      · next hnone =>
        rw [hwaits hnone]
        exact hsame
      · next c' hperform => exact h.perform (by rw [hphase]; rfl) hperform rfl

variable (hpipeline : Pipeline V.maxMsgSize input) (hquiet : ∀ n, (V.world n).Quiet)
  (hharmless : ∀ n, V.Handles input authenticated n → Harmless (V.world n) (commandAt V.maxMsgSize input n))

/-- `serve` gets past its loop only with commands that are harmless where they are handled. -/
theorem Progress.harmless (h : Progress V input authenticated H handed done c) {args : List Bytes}
    (hargs : commandAt V.maxMsgSize input c.count = args)
    (hharmless : ∀ n, V.Handles input authenticated n → Harmless (V.world n) (commandAt V.maxMsgSize input n))
    (hhandled : c.authenticated = true ∨ (commandOf (args.headD [])).allowedBeforeAuth = true) :
    Harmless (V.world c.count) args := by
  rw [h.auth, ← hargs] at hhandled
  rw [← hargs]
  exact hharmless c.count hhandled

/-- No turn panics. -/
theorem Progress.not_panics (h : Progress V input authenticated H handed done c)
    (hquiet : ∀ n, (V.world n).Quiet)
    (hharmless : ∀ n, V.Handles input authenticated n → Harmless (V.world n) (commandAt V.maxMsgSize input n))
    (turn : Turn) : ¬ V.Panics c turn := by
  intro hpanics
  cases turn with
  | serve fails =>
    obtain ⟨-, args, rest, hread, hhandled, hnone⟩ := hpanics
    obtain ⟨v, hv, -⟩ := clean_answer (hquiet c.count)
      (h.harmless (commandAt_of_read h.rest hread).1 hharmless hhandled)
    rw [hv] at hnone
    cases hnone
  | deliver d =>
    obtain ⟨hactive, f, hf, hnone⟩ := hpanics
    have hsome := h.filters _ (of_decide_eq_true hactive) f hf d.topicName
    rw [hnone] at hsome
    cases hsome
  | subWriter | close => exact hpanics

include hpipeline hquiet hharmless

section

variable (h : Progress V input authenticated H handed done c)
include h

theorem Progress.next (hserve : c.serve = .looping [])
    (fails : Bool) : Progress V input authenticated H handed done (c.next (V.env input) fails) := by
  have hend : Progress V input authenticated H handed done { c with serve := .ending [] } :=
    h.giveUp (adds_nil rfl rfl rfl rfl rfl) (fun op hop => by cases hop) (fun l hl => by cases hl) rfl fun x hx => hx
  rw [Conn.next.eq_def]
  split
  · exact hend
  · split
    · exact hend
    · next msg hread => exact absurd hread (hpipeline _ _ msg h.rest)
    · next args rest hread =>
      obtain ⟨hargs, hrest⟩ := commandAt_of_read h.rest hread
      obtain ⟨hops, hanswered⟩ := dispatched (hquiet c.count) hargs (h.harmless hargs hharmless)
      obtain ⟨gs, hreplies, hlen, hgs⟩ := h.complete hserve
      have hauth : (c.authenticated || c.signIn (V.env input) args) =
          V.signedIn input authenticated (c.count + 1) := by
        rw [Server.signedIn, hargs, h.auth]
        rfl
      refine ⟨h.out, hops, h.subWriterOps, hrest, hauth, h.filters, h.channel, h.pushes, gs, [], ?_, hgs,
        .during ?_ ?_⟩
      · rw [append_nil]
        exact hreplies
      · exact congrArg (· + 1) hlen
      · intro H' _ fs hfs
        rw [hlen, hargs, nil_append]
        exact hanswered H' fs hfs

theorem Progress.serveStep (fails : Bool)
    (hH : ∀ isPattern ops, c.serve.ops = .act (.unsubscribeAll isPattern) :: ops → H (c.count - 1) c.subs) :
    Progress V input authenticated H handed done (c.serveStep (V.env input) fails) := by
  have hperformed : ∀ {op : Op Action} {ops : Program} {c' : Conn} {p : Phase}, c.serve.ops = op :: ops →
      c.perform (V.env input) .serve op = some c' → p.ops = ops →
        (∀ l, p = .looping l → ∃ l', c.serve = .looping l') → Progress V input authenticated H handed done { c' with
          serve := p } := by
    intro op ops c' p hc hperform hp hphase
    obtain ⟨fs, hfs, hadds⟩ := adds_perform_serve (h.serveOps op (by rw [hc]; exact mem_cons_self)) hperform
      fun isPattern heq => hH isPattern ops (by rw [hc, heq])
    exact h.serve hc hfs ⟨hadds.out, hadds.count, hadds.input, hadds.authenticated, hadds.subCh⟩ hp hphase
      (perform_phases hperform).2 fun x hx => holders_perform hperform x hx
  rw [Conn.serveStep.eq_def]
  split
  · exact h
  · next hserve => exact h.next hpipeline hquiet hharmless hserve fails
  · next op ops hserve =>
    split
    · apply h.giveUp
      · exact adds_nil rfl rfl rfl rfl rfl
      · intro op hop
        change op ∈ release (c.held .serve) at hop
        rw [release] at hop
        split at hop
        · rw [mem_singleton.mp hop]
          exact ⟨trivial, trivial⟩
        · cases hop
      · exact fun l hl => by cases hl
      · rfl
      · exact fun x hx => hx
    · split
      · exact h
      · next c' hperform => exact hperformed (by rw [hserve]; rfl) hperform rfl fun l _ => ⟨_, hserve⟩
  · apply h.giveUp
    · have hclose := adds_close .serve c
      exact ⟨hclose.out, hclose.count, hclose.input, hclose.authenticated, hclose.subCh⟩
    · exact fun op hop => by cases hop
    · exact fun l hl => by cases hl
    · exact (Conn.sameLocks_close c).subWriter
    · exact holders_close c
  · next op ops hserve =>
    split
    · exact h
    · next c' hperform => exact hperformed (by rw [hserve]; rfl) hperform rfl fun l hl => by cases hl
  · exact h

theorem Progress.step (turn : Turn)
    (hH : ∀ isPattern ops, c.serve.ops = .act (.unsubscribeAll isPattern) :: ops → H (c.count - 1) c.subs) :
    Progress V input authenticated H (handed ++ c.handedOver (V.env input) turn)
      (done ++ c.taken (V.env input) turn) (c.step (V.env input) turn) := by
  cases turn with
  | serve fails =>
    change Progress V input authenticated H (handed ++ []) (done ++ []) (c.serveStep (V.env input) fails)
    rw [append_nil, append_nil]
    exact h.serveStep hpipeline hquiet hharmless fails hH
  | subWriter fails more =>
    change Progress V input authenticated H (handed ++ []) (done ++ c.taken (V.env input) (.subWriter fails more)) _
    rw [append_nil]
    exact h.subWriterStep fails more
  | deliver d =>
    change Progress V input authenticated H (handed ++ if c.accepts (V.env input) d then [d] else []) (done ++ []) _
    rw [Conn.step]
    split
    · exact h.others [] rfl rfl (adds_nil rfl rfl rfl rfl rfl) rfl (fun x hx => hx) h.subWriterOps
    · rw [append_nil, append_nil]
      exact h
  | close =>
    change Progress V input authenticated H (handed ++ []) (done ++ []) c.close
    rw [append_nil, append_nil]
    have hsame := Conn.sameLocks_close c
    refine h.quiet (adds_close _ c) hsame.serve (holders_close c) ?_
    intro op hop
    change op ∈ c.close.subWriter.ops at hop
    rw [hsame.subWriter] at hop
    exact h.subWriterOps op hop

end

end

/-- What there was of subscriptions when the `i`-th command gave up all of a kind in the run. -/
def Server.HeldAt (V : Server) (input : Bytes) (authenticated : Bool) (turns : List Turn) (i : ℕ)
    (subs : List SubKey) : Prop :=
  ∃ before after isPattern ops, turns = before ++ after ∧
    let c := run (Conn.step (V.env input)) (.new input authenticated) before
    c.count = i + 1 ∧ c.serve.ops = .act (.unsubscribeAll isPattern) :: ops ∧ c.subs = subs

/-- What the client reads of a connection that has been sent `input`. -/
structure Framed (V : Server) (input : Bytes) (authenticated : Bool) (turns : List Turn) (c : Conn) : Prop where
  /-- The bytes are read as the values that were written. -/
  parses : ∃ vs, readAll (c.out.map Prod.snd).flatten.length (c.out.map Prod.snd).flatten = some vs ∧
    vs.map frame = c.out.map Prod.snd
  /-- The values of `serve` answer the commands in their order, the last one perhaps not in full. -/
  answers : ∃ (gs : List (List Bytes)) (g : List Bytes), c.replies = gs.flatten ++ g ∧
    (∀ i (h : i < gs.length),
      Answered (V.HeldAt input authenticated turns i) (commandAt V.maxMsgSize input i) (gs.get ⟨i, h⟩)) ∧
    (gs.length = c.count ∧ g = [] ∨
      gs.length + 1 = c.count ∧
        ∃ fs, Answered (fun _ => True) (commandAt V.maxMsgSize input gs.length) (g ++ fs))
  /-- Before `serve` reads on, every command is answered. -/
  complete : c.serve = .looping [] → ∃ gs : List (List Bytes), c.replies = gs.flatten ∧ gs.length = c.count ∧
    ∀ i (h : i < gs.length),
      Answered (V.HeldAt input authenticated turns i) (commandAt V.maxMsgSize input i) (gs.get ⟨i, h⟩)
  /-- Every message that was handed over is in the channel or was taken out of it, in this order. -/
  delivered : outputs (Conn.step (V.env input)) (Conn.handedOver (V.env input)) (.new input authenticated) turns =
    (outputs (Conn.step (V.env input)) (Conn.taken (V.env input)) (.new input authenticated) turns).map Prod.fst ++
      c.subCh
  /-- The other values are the messages that were taken for a subscription that was held and a topic that
  the client may read, one value for each. -/
  pushes : c.pushes = ((outputs (Conn.step (V.env input)) (Conn.taken (V.env input)) (.new input authenticated)
    turns).filter Prod.snd).map fun p => writePubSubFrame p.1

theorem Progress.framed {V : Server} {input : Bytes} {authenticated : Bool} {turns : List Turn} {c : Conn}
    (h : Progress V input authenticated (V.HeldAt input authenticated turns)
      (outputs (Conn.step (V.env input)) (Conn.handedOver (V.env input)) (.new input authenticated) turns)
      (outputs (Conn.step (V.env input)) (Conn.taken (V.env input)) (.new input authenticated) turns) c) :
    Framed V input authenticated turns c where
  parses := by
    apply readAll_of_oneValue
    intro f hf
    obtain ⟨w, hw, rfl⟩ := mem_map.mp hf
    exact h.out w hw
  answers := by
    obtain ⟨gs, g, hreplies, hgs, hstage⟩ := h.answers
    refine ⟨gs, g, hreplies, hgs, ?_⟩
    cases hstage with
    | between hlen hg _ => exact .inl ⟨hlen, hg⟩
    | during hlen hw =>
      obtain ⟨fs, hfs⟩ := exists_writtenBy (H := fun _ => True) ⟨[], trivial⟩ c.serve.ops
      exact .inr ⟨hlen, fs, hw (fun _ => True) (fun _ _ => trivial) fs hfs⟩
    | broken hlen hw _ _ => exact .inr ⟨hlen, hw⟩
  complete := h.complete
  delivered := h.channel
  pushes := h.pushes

theorem progress_of_append {V : Server} {input : Bytes} {authenticated : Bool} {turns : List Turn}
    (hpipeline : Pipeline V.maxMsgSize input) (hquiet : ∀ n, (V.world n).Quiet)
    (hharmless : ∀ n, V.Handles input authenticated n → Harmless (V.world n) (commandAt V.maxMsgSize input n))
    {before after : List Turn} (hturns : turns = before ++ after) :
    Progress V input authenticated (V.HeldAt input authenticated turns)
      (outputs (Conn.step (V.env input)) (Conn.handedOver (V.env input)) (.new input authenticated) before)
      (outputs (Conn.step (V.env input)) (Conn.taken (V.env input)) (.new input authenticated) before)
      (run (Conn.step (V.env input)) (.new input authenticated) before) := by
  refine prefix_induction (P := fun before => Progress V input authenticated (V.HeldAt input authenticated turns)
      (outputs (Conn.step (V.env input)) (Conn.handedOver (V.env input)) (.new input authenticated) before)
      (outputs (Conn.step (V.env input)) (Conn.taken (V.env input)) (.new input authenticated) before)
      (run (Conn.step (V.env input)) (.new input authenticated) before)) (progress_new V input authenticated _) ?_
  intro earlier turn rest hbefore h
  rw [outputs_concat, outputs_concat, run_concat]
  refine h.step hpipeline hquiet hharmless turn fun isPattern ops hops => ?_
  have hcount : 0 < (run (Conn.step (V.env input)) (.new input authenticated) earlier).count := by
    obtain ⟨gs, g, -, -, hstage⟩ := h.answers
    cases hstage with
    | between _ _ hsilent => exact absurd (hsilent _ (by rw [hops]; exact mem_cons_self)) id
    | during hlen _ => omega
    | broken hlen _ _ _ => omega
  exact ⟨earlier, turn :: rest ++ after, isPattern, ops, by rw [hturns, hbefore, append_assoc], by omega, hops, rfl⟩

private theorem harmless_nil (W : World) : Harmless W [] where
  name := by decide
  type := fun h => absurd h (by decide)
  filters := fun isPattern h => absurd h (by revert isPattern; decide)
  hscan := fun h => absurd h (by decide)
  scan := fun h => absurd h (by decide)
  keys := fun h => absurd h (by decide)
  patterns := fun h => absurd h (by decide)

variable {maxMsgSize : ℤ} {args : List Bytes}

theorem restAfter_single {input : Bytes} (h : readCommand maxMsgSize input = .ok (args, [])) (n : ℕ) :
    restAfter maxMsgSize input (n + 1) = if n = 0 then some [] else none := by
  have hempty : readCommand maxMsgSize [] = .error .io := rfl
  induction n with
  | zero => exact (commandAt_of_read rfl h).2
  | succ n ih =>
    rw [restAfter, ih]
    cases n with
    | zero =>
      rw [if_pos rfl]
      dsimp only
      rw [hempty]
      rfl
    | succ n => rfl

theorem pipeline_single {input : Bytes}
    (h : readCommand maxMsgSize input = .ok (args, [])) : Pipeline maxMsgSize input := by
  intro n r msg hr herror
  cases n with
  | zero =>
    cases hr
    rw [h] at herror
    cases herror
  | succ n =>
    rw [restAfter_single h] at hr
    split at hr
    · cases hr
      cases herror
    · cases hr

private theorem commandAt_single {input : Bytes} (h : readCommand maxMsgSize input = .ok (args, [])) (n : ℕ) :
    commandAt maxMsgSize input n = if n = 0 then args else [] := by
  cases n with
  | zero => exact (commandAt_of_read rfl h).1
  | succ n =>
    rw [commandAt, restAfter_single h]
    cases n with
    | zero => rfl
    | succ n => rfl

def exactly : Compile := fun s => if none ∈ JsonText.runes s then none else some fun text => exactText text = s

def openWorld : World where
  floats := ⟨fun _ => true, fun _ => [], id⟩
  group := some (ascii "Default")
  matchesFilter := fun _ => true
  isGroupReadOnly := false
  isNative := fun _ => false
  canRead := fun _ => true
  canWrite := fun _ => true
  publishError := fun _ _ => none
  store := fun _ => none
  hasStore := true
  validate := fun _ _ => false
  isMapped := fun db => db = 0
  version := ascii "1"
  id := 1
  clientName := []
  dbs := [0]
  nativeValueWrite := fun _ => none
  delError := none
  findMatchingTopics := fun _ => ([], none)
  keysLimit := 10000
  compile := exactly
  rejects := fun _ => none
  parseFloat := fun _ => none
  scoreLess := fun _ _ => false
  formatScore := fun _ => []
  marshalError := fun _ => none
  upper := id

private theorem openWorld_quiet : openWorld.Quiet where
  group := by
    intro g hg
    cases hg
    exact plain_ascii rfl rfl
  del := fun e h => by cases h
  find := fun p e h => absurd h (Option.some_ne_none e).symm
  rejects := fun f why h => by cases h
  marshal := fun l e h => by cases h
  upper := fun s h => h

def openServer : Server where
  maxMsgSize := 1048576
  hasBus := true
  canRead := fun _ => true
  compile := exactly
  world := fun _ => openWorld
  compiles := fun _ => rfl
  signsIn := fun _ => false
  flushes := fun _ => true

def oneCommand (input : Bytes) : Conn :=
  run (Conn.step (openServer.env input)) (.new input true) (List.replicate 4 (.serve false))

def subscribeK : Bytes := ascii "*2\r\n$9\r\nSUBSCRIBE\r\n$1\r\nk\r\n"

def replyInMessage : PubSubDelivery := ⟨⟨false, ascii "k"⟩, 0, ascii "k", ascii "a\r\n+OK\r\n"⟩

def subscribeTurns : List Turn :=
  List.replicate 4 (.serve false) ++ [.deliver replyInMessage] ++ List.replicate 4 (.subWriter false 0)

/-- A command of one argument whose name goes on after a line break. -/
def brokenName : Bytes := ascii "*1\r\n$6\r\nX\r\n+OK\r\n"

end MonsterMQ.Redis
