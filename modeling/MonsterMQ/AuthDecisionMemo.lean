import MonsterMQ.AuthAcl
import MonsterMQ.LockedReads
import MonsterMQ.StateRuns
import Mathlib.Data.List.Infix

/-!
# The decision memo

`Cache.AllowClient` of `internal/auth/auth.go` among concurrent calls of itself, `Refresh` and
`SetCanonical`. A call looks into the memo, evaluates the rules in several critical sections and stores its
verdict; a `Refresh` loads its records before it takes the lock to install them.
-/

namespace MonsterMQ.Auth

open LittleEndian PeerLink LockedReads List

structure Records where
  users : List (Bytes × User)
  rulesByUser : List (Bytes × List AclRule)
  deriving DecidableEq, Repr

abbrev Canonical := Option (Bytes → Option Bytes)

structure Config where
  records : Records
  canonical : Canonical

structure Settings where
  anonymousAllow : Bool
  aclCheckOnSubscribe : Bool
  deriving DecidableEq, Repr

structure AclKey where
  username : Bytes
  clientID : Bytes
  topic : Bytes
  write : Bool
  deriving DecidableEq, Repr

section Evaluation

variable (st : Settings)

@[grind =] def isAnonymousEnabled : Reads Records Bool :=
  if !st.anonymousAllow then .done false
  else .read fun c => .done (match c.users.lookup anonymousUser with
    | some u => u.enabled
    | none => true)

def readUser (username clientID topic : Bytes) (write : Bool) : Reads Records Bool :=
  .read fun c => match c.users.lookup username with
    | none => .done false
    | some u =>
      if !u.enabled then .done false
      else if u.isAdmin then .done true
      else if write && !u.canPublish then .done false
      else if !write && !u.canSubscribe then .done false
      else if !write && !st.aclCheckOnSubscribe && containsWildcard topic then .done true
      else .read fun c =>
        let rules := (c.rulesByUser.lookup username).getD []
        .done (if rules.isEmpty then true
          else decideRules (fun r => r.covers username clientID topic) write rules)

@[grind =] def allowClient (username clientID topic : Bytes) (write : Bool) : Reads Records Bool :=
  if username = [] then
    (isAnonymousEnabled st).bind fun enabled =>
      if !enabled then .done false
      else .read fun c =>
        if (c.users.lookup anonymousUser).isSome then
          readUser st anonymousUser clientID topic write
        else .done true
  else readUser st username clientID topic write

/-- `AllowClient` after a miss in the memo: an allowed alias is evaluated again under its
canonical topic. -/
def evaluate (canonical : Canonical) (key : AclKey) : Reads Records Bool :=
  (allowClient st key.username key.clientID key.topic key.write).bind fun ok =>
    match canonical with
    | none => .done ok
    | some f =>
      if !ok then .done ok
      else match f key.topic with
        | none => .done ok
        | some ct =>
          if ct ≠ key.topic then allowClient st key.username key.clientID ct key.write
          else .done ok

def Records.cache (r : Records) : Cache where
  anonymousEnabled := st.anonymousAllow && (match r.users.lookup anonymousUser with
    | some u => u.enabled
    | none => true)
  aclCheckOnSubscribe := st.aclCheckOnSubscribe
  users := r.users
  rulesByUser := r.rulesByUser

@[grind =] def Config.verdict (c : Config) (key : AclKey) : Bool :=
  (c.records.cache st).allowClient key.username key.clientID key.topic key.write &&
    match c.canonical.bind fun f => f key.topic with
    | none => true
    | some ct => (c.records.cache st).allowClient key.username key.clientID ct key.write

end Evaluation

variable {st : Settings}

private theorem eval_isAnonymousEnabled (r : Records) :
    (isAnonymousEnabled st).eval r = (r.cache st).anonymousEnabled := by
  rw [isAnonymousEnabled, Records.cache]
  cases st.anonymousAllow with
  | false => rfl
  | true => rfl

theorem eval_readUser (r : Records) (username clientID topic : Bytes) (write : Bool) :
    (readUser st username clientID topic write).eval r =
      (r.cache st).allowUser username clientID topic write := by
  rw [readUser, Reads.eval_read, Cache.allowUser]
  show Reads.eval (match r.users.lookup username with | none => _ | some u => _) r =
    match r.users.lookup username with | none => _ | some u => _
  cases r.users.lookup username with
  | none => rfl
  | some u =>
    dsimp only
    simp only [Reads.eval_ite, Reads.eval_done, Reads.eval_read]
    rfl

theorem eval_allowClient (r : Records) (username clientID topic : Bytes) (write : Bool) :
    (allowClient st username clientID topic write).eval r =
      (r.cache st).allowClient username clientID topic write := by
  rw [allowClient, Cache.allowClient]
  split
  · rw [Reads.eval_bind, eval_isAnonymousEnabled]
    split
    · rfl
    · rw [Reads.eval_read]
      show Reads.eval (if (r.users.lookup anonymousUser).isSome then _ else _) r =
        if (r.users.lookup anonymousUser).isSome then _ else _
      split
      · exact eval_readUser r anonymousUser clientID topic write
      · rfl
  · exact eval_readUser r username clientID topic write

theorem eval_evaluate (c : Config) (key : AclKey) :
    (evaluate st c.canonical key).eval c.records = c.verdict st key := by
  rw [evaluate, Reads.eval_bind, eval_allowClient, Config.verdict]
  cases hok : (c.records.cache st).allowClient key.username key.clientID key.topic key.write with
  | false =>
    cases c.canonical with
    | none => rfl
    | some f => rfl
  | true =>
    cases c.canonical with
    | none => rfl
    | some f =>
      dsimp only [Option.bind_some, Bool.not_true]
      rw [if_neg (by decide)]
      cases f key.topic with
      | none => rfl
      | some ct =>
        dsimp only
        split
        · rw [eval_allowClient, Bool.true_and]
        · rename_i heq
          rw [not_not] at heq
          rw [heq, hok]
          rfl

def AclKey.name (key : AclKey) : Bytes := if key.username = [] then anonymousUser else key.username

def SameFor (name : Bytes) (r r' : Records) : Prop :=
  r.users.lookup name = r'.users.lookup name ∧ r.rulesByUser.lookup name = r'.rulesByUser.lookup name

theorem readUser_respects (username clientID topic : Bytes) (write : Bool) :
    (readUser st username clientID topic write).Respects (SameFor username) := by
  refine ⟨?_, ?_⟩
  · intro r r' h
    dsimp only
    rw [h.1]
  · intro r
    dsimp only
    cases r.users.lookup username with
    | none => trivial
    | some u =>
      refine Reads.respects_ite trivial (Reads.respects_ite trivial (Reads.respects_ite trivial
        (Reads.respects_ite trivial (Reads.respects_ite trivial ⟨?_, fun _ => trivial⟩))))
      intro r r' h
      dsimp only
      rw [h.2]

theorem allowClient_respects (key : AclKey) (topic : Bytes) :
    (allowClient st key.username key.clientID topic key.write).Respects (SameFor key.name) := by
  rw [allowClient, AclKey.name]
  split
  · apply Reads.respects_bind
    · rw [isAnonymousEnabled]
      refine Reads.respects_ite trivial ⟨?_, fun _ => trivial⟩
      intro r r' h
      dsimp only
      rw [h.1]
    · intro enabled
      refine Reads.respects_ite trivial ⟨?_, ?_⟩
      · intro r r' h
        dsimp only
        rw [h.1]
      · intro r
        exact Reads.respects_ite (readUser_respects _ _ _ _) trivial
  · exact readUser_respects _ _ _ _

private theorem evaluate_respects (canonical : Canonical) (key : AclKey) :
    (evaluate st canonical key).Respects (SameFor key.name) := by
  apply Reads.respects_bind (allowClient_respects key key.topic)
  intro ok
  cases canonical with
  | none => trivial
  | some f =>
    dsimp only
    refine Reads.respects_ite trivial ?_
    cases f key.topic with
    | none => trivial
    | some ct => exact Reads.respects_ite (allowClient_respects key ct) trivial

inductive Stage where
  | started
  | reading (gen : ℕ) (canonical : Canonical) (rest : Reads Records Bool)
  | returned (ok : Bool)

/-- A call, with the configurations in force since it began and until it returns. -/
structure AclCall where
  key : AclKey
  stage : Stage
  during : List Config

/-- A `Refresh` with what it has loaded from the store. -/
structure Refreshing where
  records : Records
  returned : Bool
  deriving DecidableEq, Repr

/-- The cache, with the calls of `AllowClient` and those of `Refresh` in the order of their loads. -/
structure MemoCache where
  config : Config
  decisions : List (AclKey × Bool)
  decisionsGen : ℕ
  calls : List AclCall
  refreshes : List Refreshing

def MemoCache.new (config : Config) : MemoCache := ⟨config, [], 0, [], []⟩

def maxACLDecisions : ℕ := 2 ^ 16

def maxACLMemoKeyLen : ℕ := 256

/-- The last critical section of `AllowClient`. -/
def MemoCache.memoize (s : MemoCache) (gen : ℕ) (key : AclKey) (ok : Bool) : List (AclKey × Bool) :=
  if s.decisionsGen = gen ∧
      key.topic.length + key.clientID.length + key.username.length ≤ maxACLMemoKeyLen then
    let decisions := if s.decisions.length ≥ maxACLDecisions then [] else s.decisions
    (key, ok) :: decisions.filter fun e => e.1 ≠ key
  else s.decisions

@[grind =] def MemoCache.advance (st : Settings) (s : MemoCache) (call : AclCall) :
    List (AclKey × Bool) × AclCall :=
  match call.stage with
  | .started =>
    match s.decisions.lookup call.key with
    | some ok => (s.decisions, { call with stage := .returned ok })
    | none => (s.decisions, { call with
        stage := .reading s.decisionsGen s.config.canonical
          (evaluate st s.config.canonical call.key) })
  | .reading gen canonical (.read k) =>
    (s.decisions, { call with stage := .reading gen canonical (k s.config.records) })
  | .reading gen _ (.done ok) =>
    (s.memoize gen call.key ok, { call with stage := .returned ok })
  | .returned _ => (s.decisions, call)

/-- The call sees one more configuration, unless it has returned. -/
def AclCall.seeing (config : Config) (call : AclCall) : AclCall :=
  match call.stage with
  | .returned _ => call
  | _ => { call with during := call.during ++ [config] }

/-- A new configuration in force: the memo is emptied and its generation goes up. -/
def MemoCache.install (s : MemoCache) (config : Config) : MemoCache where
  config := config
  decisions := []
  decisionsGen := s.decisionsGen + 1
  calls := s.calls.map (AclCall.seeing config)
  refreshes := s.refreshes

/-- The critical section of `Refresh`, after which it returns. -/
def MemoCache.refresh (s : MemoCache) (i : ℕ) (r : Refreshing) : MemoCache :=
  { s.install { s.config with records := r.records } with
    refreshes := s.refreshes.set i { r with returned := true } }

/-- `load` begins a `Refresh` with what the store holds then, `refresh` is the lock of one. -/
inductive AclEvent where
  | allowClient (key : AclKey)
  | advance (i : ℕ)
  | load (records : Records)
  | refresh (i : ℕ)
  | setCanonical (canonical : Canonical)

@[grind =] def MemoCache.step (st : Settings) (s : MemoCache) : AclEvent → MemoCache
  | .allowClient key => { s with calls := s.calls ++ [⟨key, .started, [s.config]⟩] }
  | .advance i =>
    match s.calls[i]? with
    | none => s
    | some call =>
      let (decisions, call) := s.advance st call
      { s with decisions := decisions, calls := s.calls.set i call }
  | .load records => { s with refreshes := s.refreshes ++ [⟨records, false⟩] }
  | .refresh i =>
    match s.refreshes[i]? with
    | none => s
    | some r => if r.returned then s else s.refresh i r
  | .setCanonical canonical => s.install { s.config with canonical := canonical }

/-- Installing the records does not mix two configurations in the call: it has not begun to read
or has read everything, or the records are the same for the user that it reads of. A call that
has not begun to read must not hold a replaced alias mapping either. -/
def AclCall.Undisturbed (st : Settings) (s : MemoCache) (records : Records) (call : AclCall) : Prop :=
  match call.stage with
  | .started => True
  | .reading _ canonical rest =>
    (canonical = s.config.canonical ∧ rest = evaluate st canonical call.key) ∨
      (∃ ok, rest = .done ok) ∨ SameFor call.key.name s.config.records records
  | .returned _ => True

/-- A `Refresh` installs its records undisturbing, and before every one that loaded after it. -/
def MemoCache.Meets (st : Settings) (s : MemoCache) : AclEvent → Prop
  | .refresh i => ∀ r, s.refreshes[i]? = some r → r.returned = false →
      (∀ call ∈ s.calls, call.Undisturbed st s r.records) ∧
        ∀ j r', i < j → s.refreshes[j]? = some r' → r'.returned = false
  | _ => True

@[grind =] def AclCall.Sound (st : Settings) (s : MemoCache) (call : AclCall) : Prop :=
  match call.stage with
  | .started => s.config ∈ call.during
  | .reading gen canonical rest =>
    gen ≤ s.decisionsGen ∧ s.config ∈ call.during ∧ rest.Respects (SameFor call.key.name) ∧
      (gen = s.decisionsGen →
        canonical = s.config.canonical ∧ rest.eval s.config.records = s.config.verdict st call.key) ∧
      ∃ c ∈ call.during, rest.eval s.config.records = c.verdict st call.key
  | .returned ok => ∃ c ∈ call.during, ok = c.verdict st call.key

structure MemoCache.Sound (st : Settings) (s : MemoCache) : Prop where
  memo : ∀ e ∈ s.decisions, e.2 = s.config.verdict st e.1
  calls : ∀ call ∈ s.calls, call.Sound st s

variable {s : MemoCache}

private theorem memoize_sound {gen : ℕ} {key : AclKey} {ok : Bool} (h : s.Sound st)
    (hok : gen = s.decisionsGen → ok = s.config.verdict st key) :
    ∀ e ∈ s.memoize gen key ok, e.2 = s.config.verdict st e.1 := by
  intro e he
  rw [MemoCache.memoize] at he
  split at he
  · rename_i hc
    rcases mem_cons.mp he with rfl | he
    · exact hok hc.1.symm
    · have he := (mem_filter.mp he).1
      split at he
      · exact absurd he not_mem_nil
      · exact h.memo e he
  · exact h.memo e he

private theorem mem_of_lookup {key : AclKey} {ok : Bool} {l : List (AclKey × Bool)}
    (h : l.lookup key = some ok) : (key, ok) ∈ l := by
  induction l with
  | nil => cases h
  | cons e l ih =>
    obtain ⟨k, v⟩ := e
    rw [lookup_cons] at h
    split at h
    · rename_i heq
      rw [beq_iff_eq.mp heq, Option.some.inj h]
      exact mem_cons_self
    · exact mem_cons_of_mem _ (ih h)

variable {call : AclCall}

theorem advance_sound (h : s.Sound st) (hc : call.Sound st s) :
    (∀ e ∈ (s.advance st call).1, e.2 = s.config.verdict st e.1) ∧
      (s.advance st call).2.Sound st s := by
  obtain ⟨key, stage, during⟩ := call
  cases stage with
  | started =>
    rw [MemoCache.advance]
    cases hlook : s.decisions.lookup key with
    | some ok =>
      exact ⟨h.memo, s.config, hc, h.memo _ (mem_of_lookup hlook)⟩
    | none =>
      refine ⟨h.memo, Nat.le_refl _, hc, evaluate_respects _ _, ?_, s.config, hc, ?_⟩
      · intro _
        exact ⟨rfl, eval_evaluate s.config key⟩
      · exact eval_evaluate s.config key
  | reading gen canonical rest =>
    obtain ⟨hgen, hin, hrespects, hcurrent, hone⟩ := hc
    cases rest with
    | done ok =>
      refine ⟨memoize_sound h ?_, hone⟩
      intro heq
      exact (hcurrent heq).2
    | read k => exact ⟨h.memo, hgen, hin, hrespects.2 _, hcurrent, hone⟩
  | returned ok => exact ⟨h.memo, hc⟩

/-- A new configuration keeps a call sound when the rest of its evaluation gives the same on the
new records, or all of it is still to come. -/
theorem seeing_sound {config : Config} (hc : call.Sound st s)
    (hrest : ∀ gen canonical rest, call.stage = .reading gen canonical rest →
      rest.eval config.records = rest.eval s.config.records ∨
        rest.eval config.records = config.verdict st call.key) :
    (call.seeing config).Sound st (s.install config) := by
  obtain ⟨key, stage, during⟩ := call
  have hnew : config ∈ during ++ [config] := mem_append_right _ (mem_singleton_self _)
  cases stage with
  | started => exact hnew
  | reading gen canonical rest =>
    obtain ⟨hgen, -, hrespects, -, c, hc, hv⟩ := hc
    refine ⟨Nat.le_succ_of_le hgen, hnew, hrespects, ?_, ?_⟩
    · intro heq
      have hlt : gen < s.decisionsGen + 1 := Nat.lt_succ_of_le hgen
      exact absurd heq (Nat.ne_of_lt hlt)
    · rcases hrest gen canonical rest rfl with heq | heq
      · exact ⟨c, mem_append_left _ hc, heq.trans hv⟩
      · exact ⟨config, hnew, heq⟩
  | returned ok => exact hc

theorem install_sound {config : Config}
    (hcalls : ∀ call ∈ s.calls, (call.seeing config).Sound st (s.install config)) :
    (s.install config).Sound st := by
  refine ⟨fun e he => absurd he not_mem_nil, ?_⟩
  intro call' hm'
  obtain ⟨call, hm, rfl⟩ := mem_map.mp hm'
  exact hcalls call hm

theorem sound_of_same {s' : MemoCache} (hc : s'.config = s.config)
    (hg : s'.decisionsGen = s.decisionsGen) (h : call.Sound st s) : call.Sound st s' := by
  rw [AclCall.Sound] at h ⊢
  rw [hc, hg]
  exact h

theorem refresh_sound {i : ℕ} {r : Refreshing} (h : s.Sound st)
    (hm : ∀ call ∈ s.calls, call.Undisturbed st s r.records) : (s.refresh i r).Sound st := by
  have hinstall : (s.install { s.config with records := r.records }).Sound st := by
    apply install_sound
    intro call hcall
    have hsound := h.calls call hcall
    apply seeing_sound hsound
    intro gen canonical rest hstage
    have hun := hm call hcall
    rw [AclCall.Undisturbed, hstage] at hun
    rw [AclCall.Sound, hstage] at hsound
    rcases hun with ⟨rfl, rfl⟩ | ⟨ok, rfl⟩ | hsame
    · right
      exact eval_evaluate { s.config with records := r.records } call.key
    · exact .inl rfl
    · exact .inl (Reads.eval_eq_of_respects hsound.2.2.1 hsame).symm
  exact ⟨hinstall.memo, fun call hcall => sound_of_same rfl rfl (hinstall.calls call hcall)⟩

theorem memo_step_sound (e : AclEvent) (h : s.Sound st) (hm : s.Meets st e) : (s.step st e).Sound st := by
  cases e with
  | allowClient key =>
    refine ⟨h.memo, ?_⟩
    intro call hcall
    rcases mem_append.mp hcall with hcall | hcall
    · exact sound_of_same rfl rfl (h.calls call hcall)
    · rw [mem_singleton.mp hcall]
      exact mem_singleton_self _
  | advance i =>
    rw [MemoCache.step]
    cases hi : s.calls[i]? with
    | none => exact h
    | some call =>
      obtain ⟨hmemo, hsound⟩ := advance_sound h (h.calls call (mem_of_getElem? hi))
      refine ⟨hmemo, ?_⟩
      intro call' hcall'
      rcases mem_or_eq_of_mem_set hcall' with hcall' | rfl
      · exact sound_of_same rfl rfl (h.calls call' hcall')
      · exact sound_of_same rfl rfl hsound
  | load records => exact ⟨h.memo, fun call hcall => sound_of_same rfl rfl (h.calls call hcall)⟩
  | refresh i =>
    rw [MemoCache.step]
    cases hi : s.refreshes[i]? with
    | none => exact h
    | some r =>
      dsimp only
      split
      · exact h
      · rename_i hr
        exact refresh_sound h (hm r hi (Bool.eq_false_iff.mpr hr)).1
  | setCanonical canonical =>
    apply install_sound
    intro call hcall
    apply seeing_sound (h.calls call hcall)
    intro gen canonical' rest _
    exact .inl rfl

/-- The records in force are those of a load that is not before the `i`th. -/
def MemoCache.NoOlder (s : MemoCache) (i : ℕ) : Prop :=
  ∃ j r, i ≤ j ∧ s.refreshes[j]? = some r ∧ s.config.records = r.records

def MemoCache.Returned (s : MemoCache) (i : ℕ) : Prop :=
  ∃ r, s.refreshes[i]? = some r ∧ r.returned = true

/-- No `Refresh` that has returned is undone by one that loaded before it. -/
def MemoCache.InOrder (s : MemoCache) : Prop := ∀ i, s.Returned i → s.NoOlder i

theorem returned_step (e : AclEvent) {i : ℕ} (h : s.Returned i) : (s.step st e).Returned i := by
  obtain ⟨r, hr, hret⟩ := h
  have hlt := (List.getElem?_eq_some_iff.mp hr).1
  cases e with
  | allowClient key | setCanonical canonical => exact ⟨r, hr, hret⟩
  | advance j =>
    refine ⟨r, ?_, hret⟩
    rw [MemoCache.step]
    split
    · exact hr
    · exact hr
  | load records => exact ⟨r, (List.getElem?_append_left hlt).trans hr, hret⟩
  | refresh j =>
    rw [MemoCache.step]
    cases hj : s.refreshes[j]? with
    | none => exact ⟨r, hr, hret⟩
    | some r' =>
      dsimp only
      split
      · exact ⟨r, hr, hret⟩
      · by_cases hij : j = i
        · subst hij
          exact ⟨{ r' with returned := true }, List.getElem?_set_self hlt, rfl⟩
        · exact ⟨r, (List.getElem?_set_ne hij).trans hr, hret⟩

/-- A `Refresh` that returns in the order of the loads leaves its own records in force. -/
theorem refresh_inOrder {i : ℕ} {r : Refreshing} (hi : s.refreshes[i]? = some r)
    (hm : ∀ j r', i < j → s.refreshes[j]? = some r' → r'.returned = false) : (s.refresh i r).InOrder := by
  intro k ⟨r', hr', hret⟩
  have hset : (s.refresh i r).refreshes[i]? = some { r with returned := true } :=
    List.getElem?_set_self (List.getElem?_eq_some_iff.mp hi).1
  refine ⟨i, _, ?_, hset, rfl⟩
  by_contra hlt
  have hlt : i < k := by omega
  have hr' : s.refreshes[k]? = some r' := (List.getElem?_set_ne (Nat.ne_of_lt hlt)).symm.trans hr'
  rw [hm k r' hlt hr'] at hret
  cases hret

theorem inOrder_step (e : AclEvent) (h : s.InOrder) (hm : s.Meets st e) : (s.step st e).InOrder := by
  cases e with
  | allowClient key => exact h
  | advance j =>
    rw [MemoCache.step]
    split
    · exact h
    · exact h
  | load records =>
    intro i ⟨r, hr, hret⟩
    have hlt : i < s.refreshes.length := by
      by_contra hge
      rw [MemoCache.step, List.getElem?_append_right (by omega), List.getElem?_singleton] at hr
      split at hr
      · rw [← Option.some.inj hr] at hret
        cases hret
      · cases hr
    rw [MemoCache.step, List.getElem?_append_left hlt] at hr
    obtain ⟨j, r', hij, hr', hrec⟩ := h i ⟨r, hr, hret⟩
    have hltj := (List.getElem?_eq_some_iff.mp hr').1
    exact ⟨j, r', hij, (List.getElem?_append_left hltj).trans hr', hrec⟩
  | refresh j =>
    rw [MemoCache.step]
    cases hj : s.refreshes[j]? with
    | none => exact h
    | some r =>
      dsimp only
      split
      · exact h
      · rename_i hr
        exact refresh_inOrder hj (hm r hj (Bool.eq_false_iff.mpr hr)).2
  | setCanonical canonical => exact h

section Runs

open StateRuns

def MemoCache.UnderWay (s : MemoCache) (i : ℕ) : Prop :=
  ∃ call, s.calls[i]? = some call ∧ ∀ ok, call.stage ≠ .returned ok

/-- A step leaves the key of a call, and adds to what it has seen only the configuration that it
puts in force while the call runs. -/
theorem step_call {s : MemoCache} {i : ℕ} {call : AclCall} (hi : s.calls[i]? = some call)
    (e : AclEvent) : ∃ call', (s.step st e).calls[i]? = some call' ∧ call'.key = call.key ∧
      ∀ c ∈ call'.during, c ∈ call.during ∨
        (c = (s.step st e).config ∧ (s.step st e).UnderWay i) := by
  have hseeing : ∀ config, ∃ call', (s.install config).calls[i]? = some call' ∧
      call'.key = call.key ∧ ∀ c ∈ call'.during, c ∈ call.during ∨
        (c = config ∧ (s.install config).UnderWay i) := by
    intro config
    have hget : (s.install config).calls[i]? = some (call.seeing config) := by
      rw [MemoCache.install, List.getElem?_map, hi, Option.map_some]
    refine ⟨_, hget, ?_⟩
    obtain ⟨key, stage, during⟩ := call
    cases stage with
    | returned ok => exact ⟨rfl, fun c hc => .inl hc⟩
    | started | reading gen canonical rest =>
      refine ⟨rfl, ?_⟩
      intro c hc
      rcases mem_append.mp hc with hc | hc
      · exact .inl hc
      · exact .inr ⟨mem_singleton.mp hc, _, hget, fun ok h => by cases h⟩
  cases e with
  | allowClient key =>
    have hlt := (List.getElem?_eq_some_iff.mp hi).1
    refine ⟨call, ?_, rfl, fun c hc => .inl hc⟩
    rw [MemoCache.step, List.getElem?_append_left hlt, hi]
  | advance j =>
    rw [MemoCache.step]
    cases hj : s.calls[j]? with
    | none => exact ⟨call, hi, rfl, fun c hc => .inl hc⟩
    | some other =>
      dsimp only
      by_cases hij : j = i
      · subst hij
        obtain rfl := Option.some.inj (hj.symm.trans hi)
        have hlt := (List.getElem?_eq_some_iff.mp hi).1
        refine ⟨(s.advance st other).2, List.getElem?_set_self hlt, ?_⟩
        have hsame : (s.advance st other).2.key = other.key ∧
            (s.advance st other).2.during = other.during := by
          rw [MemoCache.advance]
          repeat' split
          all_goals exact ⟨rfl, rfl⟩
        rw [hsame.1, hsame.2]
        exact ⟨rfl, fun c hc => .inl hc⟩
      · exact ⟨call, (List.getElem?_set_ne hij).trans hi, rfl, fun c hc => .inl hc⟩
  | load records => exact ⟨call, hi, rfl, fun c hc => .inl hc⟩
  | refresh j =>
    rw [MemoCache.step]
    cases s.refreshes[j]? with
    | none => exact ⟨call, hi, rfl, fun c hc => .inl hc⟩
    | some r =>
      dsimp only
      split
      · exact ⟨call, hi, rfl, fun c hc => .inl hc⟩
      · exact hseeing { s.config with records := r.records }
  | setCanonical canonical => exact hseeing _

theorem run_call (s : MemoCache) (key : AclKey) (es : List AclEvent) :
    ∃ call, (run (MemoCache.step st) (s.step st (.allowClient key)) es).calls[s.calls.length]? =
        some call ∧ call.key = key ∧
      ∀ c ∈ call.during, ∃ mid, mid <+: es ∧
        (run (MemoCache.step st) (s.step st (.allowClient key)) mid).UnderWay s.calls.length ∧
        c = (run (MemoCache.step st) (s.step st (.allowClient key)) mid).config := by
  induction es using List.reverseRecOn with
  | nil =>
    have hget : (s.step st (.allowClient key)).calls[s.calls.length]? =
        some ⟨key, .started, [s.config]⟩ := by
      rw [MemoCache.step, List.getElem?_append_right (Nat.le_refl _), Nat.sub_self]
      rfl
    refine ⟨_, hget, rfl, ?_⟩
    intro c hc
    exact ⟨[], prefix_rfl, ⟨_, hget, fun ok h => by cases h⟩, mem_singleton.mp hc⟩
  | append_singleton es e ih =>
    obtain ⟨call, hget, hkey, hseen⟩ := ih
    obtain ⟨call', hget', hkey', hseen'⟩ := step_call hget e
    have hrun : (run (MemoCache.step st) (s.step st (.allowClient key)) es).step st e =
        run (MemoCache.step st) (s.step st (.allowClient key)) (es ++ [e]) :=
      (run_concat _ _ _).symm
    rw [hrun] at hget' hseen'
    refine ⟨call', hget', hkey'.trans hkey, ?_⟩
    intro c hc
    rcases hseen' c hc with hc | ⟨hc, hway⟩
    · obtain ⟨mid, hmid, hrest⟩ := hseen c hc
      exact ⟨mid, hmid.trans (prefix_append _ _), hrest⟩
    · exact ⟨es ++ [e], prefix_rfl, hway, hc⟩

/-- In a run whose refreshes disturb no evaluation and return in the order of their loads, the
verdict of every call is that of one configuration, in force at a point of the run at which the
call was under way, and with records loaded no earlier than those of any `Refresh` that had returned
when the call began. -/
theorem allowClient_consistent {config : Config} {before after : List AclEvent} {key : AclKey}
    (h : Along (MemoCache.step st) (MemoCache.Meets st) (.new config)
      (before ++ .allowClient key :: after)) {call : AclCall} {ok : Bool}
    (hcall : (run (MemoCache.step st) (.new config) (before ++ .allowClient key :: after)).calls[
      (run (MemoCache.step st) (.new config) before).calls.length]? = some call)
    (hok : call.stage = .returned ok) :
    ∃ mid, mid <+: after ∧
      (run (MemoCache.step st) (.new config) (before ++ .allowClient key :: mid)).UnderWay
        (run (MemoCache.step st) (.new config) before).calls.length ∧
      ok = (run (MemoCache.step st) (.new config)
        (before ++ .allowClient key :: mid)).config.verdict st key ∧
      ∀ i, (run (MemoCache.step st) (.new config) before).Returned i →
        (run (MemoCache.step st) (.new config) (before ++ .allowClient key :: mid)).NoOlder i := by
  have hnew : (MemoCache.new config).Sound st :=
    ⟨fun e he => absurd he not_mem_nil, fun call hc => absurd hc not_mem_nil⟩
  have hsound := run_invariant (fun s e hs hm => memo_step_sound e hs hm) hnew h
  have hc := hsound.calls call (mem_of_getElem? hcall)
  rw [AclCall.Sound, hok] at hc
  obtain ⟨c, hc, hverdict⟩ := hc
  obtain ⟨call', hget, hkey, hseen⟩ :=
    run_call (run (MemoCache.step st) (.new config) before) key after
  have hrun : ∀ mid, run (MemoCache.step st) (.new config) (before ++ .allowClient key :: mid) =
      run (MemoCache.step st) ((run (MemoCache.step st) (.new config) before).step st
        (.allowClient key)) mid := fun mid => run_append _ _ _
  rw [hrun] at hcall
  obtain rfl := Option.some.inj (hget.symm.trans hcall)
  obtain ⟨mid, ⟨rest, rfl⟩, hway, rfl⟩ := hseen c hc
  rw [hkey] at hverdict
  refine ⟨mid, prefix_append _ _, hrun mid ▸ hway, hrun mid ▸ hverdict, ?_⟩
  intro i hi
  have hmid : Along (MemoCache.step st) (MemoCache.Meets st) (.new config)
      (before ++ .allowClient key :: mid) := by
    rw [← List.cons_append, ← List.append_assoc] at h
    exact (along_append h).1
  have hstart : (MemoCache.new config).InOrder := by
    rintro i ⟨r, hr, -⟩
    cases hr
  refine run_invariant (fun s e hs hm => inOrder_step e hs hm) hstart hmid i ?_
  rw [run_append]
  have hstays : ∀ (s : MemoCache) (e : AclEvent), s.Returned i → (s.step st e).Returned i :=
    fun s e hs => returned_step e hs
  exact run_always hstays hi _

/-- A user that may publish, with a rule that denies every topic. -/
def deniedRecords : Records where
  users := [(ascii "alice", ⟨true, false, true, true⟩)]
  rulesByUser := [(ascii "alice", [⟨ascii "#", false, false⟩])]

def aliceKey : AclKey := ⟨ascii "alice", ascii "c1", ascii "machine/a", true⟩

def strictSettings : Settings := ⟨false, true⟩

def loadedEvents : List AclEvent := [.load deniedRecords, .refresh 0]

/-- A `Refresh` that removes the user comes before the first read of the evaluation. -/
def refreshedEvents : List AclEvent :=
  [.load ⟨[], []⟩, .advance 0, .refresh 1, .advance 0, .advance 0]

theorem refreshed_consistent : ∃ mid, mid <+: refreshedEvents ∧
    (run (MemoCache.step strictSettings) (.new ⟨⟨[], []⟩, none⟩)
      (loadedEvents ++ .allowClient aliceKey :: mid)).UnderWay 0 ∧
    false = (run (MemoCache.step strictSettings) (.new ⟨⟨[], []⟩, none⟩)
      (loadedEvents ++ .allowClient aliceKey :: mid)).config.verdict strictSettings aliceKey ∧
    ∀ i, (run (MemoCache.step strictSettings) (.new ⟨⟨[], []⟩, none⟩) loadedEvents).Returned i →
      (run (MemoCache.step strictSettings) (.new ⟨⟨[], []⟩, none⟩)
        (loadedEvents ++ .allowClient aliceKey :: mid)).NoOlder i := by
  have hmeets : Along (MemoCache.step strictSettings) (MemoCache.Meets strictSettings)
      (.new ⟨⟨[], []⟩, none⟩) (loadedEvents ++ .allowClient aliceKey :: refreshedEvents) := by
    refine ⟨trivial, ?_, trivial, trivial, trivial, ?_, trivial, trivial, trivial⟩
    · intro r hr _
      refine ⟨fun call hcall => absurd hcall not_mem_nil, ?_⟩
      intro j r' hj hr'
      rw [List.getElem?_eq_none (by exact hj)] at hr'
      cases hr'
    · intro r hr _
      refine ⟨?_, ?_⟩
      · intro call hcall
        rw [mem_singleton.mp hcall]
        exact .inl ⟨rfl, rfl⟩
      · intro j r' hj hr'
        rw [List.getElem?_eq_none (by exact hj)] at hr'
        cases hr'
  exact allowClient_consistent hmeets rfl rfl

/-- The user is read before a `Refresh` removes it, and its rules after. -/
def torn : List AclEvent :=
  [.advance 0, .advance 0, .load ⟨[], []⟩, .refresh 0, .advance 0, .advance 0]

/-- The call is allowed, and no configuration allows it. -/
theorem torn_verdict : (∃ call, (run (MemoCache.step strictSettings)
      (.new ⟨deniedRecords, none⟩) (.allowClient aliceKey :: torn)).calls[0]? = some call ∧
        call.stage = .returned true) ∧
    ∀ mid, mid <+: torn → (run (MemoCache.step strictSettings) (.new ⟨deniedRecords, none⟩)
      (.allowClient aliceKey :: mid)).config.verdict strictSettings aliceKey = false := by
  refine ⟨⟨_, rfl, rfl⟩, ?_⟩
  have hall : ∀ mid ∈ torn.inits, (run (MemoCache.step strictSettings)
      (.new ⟨deniedRecords, none⟩) (.allowClient aliceKey :: mid)).config.verdict strictSettings
        aliceKey = false := by
    decide
  intro mid hmid
  exact hall mid (mem_inits mid torn |>.mpr hmid)

end Runs

end MonsterMQ.Auth
