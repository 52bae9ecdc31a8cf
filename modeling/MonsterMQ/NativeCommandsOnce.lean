import MonsterMQ.NativeCommands

/-!
# Native commands are executed once

A command is found again under its key as long as its record is there. So it is written once and its result
goes to every call that names a reply topic, as long as no such call finds a record without a result or of
another client.
-/

namespace MonsterMQ.WinccoaNative

open LittleEndian Auth StateRuns FiniteMaps List

namespace Phase

def settled : Phase → Option (Option OaError)
  | .stored err => some err
  | .finished err => some err
  | _ => Option.none

def Running (p : Phase) : Prop := p ≠ .none ∧ p.settled = Option.none

def Counts : Phase → ℕ → Prop
  | .none, k => k = 0
  | .start, k => k = 0
  | .queued, k => k = 0
  | .writing, k => k = 1
  | .done err, k => k ≤ 1 ∧ (err = Option.none → k = 1)
  | .stored err, k => k ≤ 1 ∧ (err = Option.none → k = 1)
  | .finished err, k => k ≤ 1 ∧ (err = Option.none → k = 1)

def published (a : Accepted) : Phase → List CommandResult
  | .finished err => if a.replyTopic = [] then [] else [resultOf a err]
  | _ => []

theorem published_of_running {p : Phase} (h : p.Running) (a : Accepted) : p.published a = [] := by
  cases p with
  | finished err => cases h.2
  | _ => rfl

theorem not_running_of_settled {p : Phase} {err : Option OaError} (h : p.settled = some err) : ¬ p.Running := by
  intro hrun
  rw [hrun.2] at h
  cases h

theorem Counts.le_one {p : Phase} {k : ℕ} (h : p.Counts k) : k ≤ 1 := by
  cases p with
  | none | start | queued => exact h.symm ▸ Nat.zero_le 1
  | writing => exact Nat.le_of_eq h
  | done err | stored err | finished err => exact h.1

end Phase

def SameCommand (a b : Accepted) : Prop := a.clientID = b.clientID ∧ a.id = b.id ∧ a.id ≠ []

variable {a b : Accepted}

theorem SameCommand.symm (h : SameCommand a b) : SameCommand b a :=
  ⟨h.1.symm, h.2.1.symm, h.2.1 ▸ h.2.2⟩

theorem sameCommand_of_key (hkey : a.key = b.key) (hclient : a.clientID = b.clientID) (hid : a.id ≠ []) :
    SameCommand a b := by
  rw [Accepted.key, Accepted.key, hclient] at hkey
  exact ⟨hclient, (List.cons.inj (append_cancel_left hkey)).2, hid⟩

namespace Service

/-- What a turn must not meet: a call with a reply topic that finds a record without a result, or one of
another client; an identifier that comes back when the record of its command is gone; and `pruneCommands`
with more than ten thousand recent records, or with a command on its way for more than ten minutes. -/
def Within (s : Service) : Turn → Prop
  | .command r => ∀ cmd, r.check = .ok cmd → cmd.id ≠ [] →
      let a : Accepted := ⟨r.clientID, cmd.id, r.topic, r.replyTopic cmd⟩
      match s.cmds.lookup a.key with
      | some rec => a.replyTopic ≠ [] → rec.result ≠ none ∧
          ∀ b, s.accepted[s.owner a.key]? = some b → b.clientID = a.clientID
      | none => ∀ n b, s.accepted[n]? = some b → SameCommand b a → s.phase n = .none
  | .pruneCommands => size s.recent ≤ 10000 ∧ ∀ k rec, s.cmds.lookup k = some rec → rec.result = none → ¬ s.expired rec
  | _ => True

/-- What has been published for a repeated command: the result of the first one. -/
def Repeated (s : Service) (n : ℕ) (a : Accepted) : Prop :=
  a.id ≠ [] ∧ (a.replyTopic = [] → s.sent n = []) ∧
    (a.replyTopic ≠ [] → ∃ m b err, s.accepted[m]? = some b ∧ SameCommand b a ∧
      (s.phase m).settled = some err ∧ s.sent n = [resultOf b err])

def Owned (s : Service) (k : Bytes) (rec : CmdRecord) : Prop :=
  ∃ a, s.accepted[s.owner k]? = some a ∧ a.id ≠ [] ∧ a.key = k ∧ s.phase (s.owner k) ≠ .none ∧
    rec.result = (s.phase (s.owner k)).settled.map (resultOf a)

structure Inv (s : Service) : Prop where
  fresh : ∀ n, s.accepted.length ≤ n → s.phase n = .none ∧ s.sent n = []
  counts : ∀ n, (s.phase n).Counts (s.issued n)
  answered : ∀ n a, s.accepted[n]? = some a → s.phase n ≠ .none → s.sent n = (s.phase n).published a
  repeated : ∀ n a, s.accepted[n]? = some a → s.phase n = .none → s.Repeated n a
  unique : ∀ n m a b, s.accepted[n]? = some a → s.accepted[m]? = some b → SameCommand a b →
    s.phase n ≠ .none → s.phase m ≠ .none → n = m
  held : ∀ n a, s.accepted[n]? = some a → a.id ≠ [] → (s.phase n).Running →
    s.cmds.lookup a.key ≠ none ∧ s.owner a.key = n
  owned : ∀ k rec, s.cmds.lookup k = some rec → s.Owned k rec

/-- The commands that wait in the collector and in the calls of `DpSet`. -/
structure Queues (s : Service) : Prop where
  queued : ∀ r ∈ s.waitReqs ++ s.collected.flatten, s.phase r.cmd = .queued
  writing : ∀ n ∈ s.sending.flatten, s.phase n = .writing
  nodup : ((s.waitReqs ++ s.collected.flatten).map WaitWriteReq.cmd).Nodup
  nodup_sending : s.sending.flatten.Nodup

section Invariant

variable {s : Service}

theorem Inv.advance (h : s.Inv) {s' : Service} (hacc : s'.accepted = s.accepted) (hcmds : s'.cmds = s.cmds)
    (howner : s'.owner = s.owner) (hsent : s'.sent = s.sent)
    (hphase : ∀ n, s'.phase n = s.phase n ∨ (s.phase n).Running ∧ (s'.phase n).Running)
    (hcounts : ∀ n, (s'.phase n).Counts (s'.issued n)) : s'.Inv := by
  have hne : ∀ n, s'.phase n ≠ .none → s.phase n ≠ .none := by
    intro n hn
    rcases hphase n with heq | ⟨hrun, -⟩
    · rwa [heq] at hn
    · exact hrun.1
  have hkeep : ∀ n err, (s.phase n).settled = some err → s'.phase n = s.phase n := by
    intro n err hset
    exact (hphase n).resolve_right fun hrun => Phase.not_running_of_settled hset hrun.1
  refine ⟨?_, hcounts, ?_, ?_, ?_, ?_, ?_⟩
  · intro n hn
    rw [hacc] at hn
    refine ⟨?_, by rw [hsent, (h.fresh n hn).2]⟩
    by_contra hnone
    exact hne n hnone (h.fresh n hn).1
  · intro n a ha hn
    rw [hacc] at ha
    rw [hsent, h.answered n a ha (hne n hn)]
    rcases hphase n with heq | ⟨hrun, hrun'⟩
    · rw [heq]
    · rw [Phase.published_of_running hrun, Phase.published_of_running hrun']
  · intro n a ha hn
    rw [hacc] at ha
    have hnone : s.phase n = .none := by
      rcases hphase n with heq | ⟨-, hrun'⟩
      · rw [← heq, hn]
      · exact absurd hn hrun'.1
    obtain ⟨hid, hquiet, hreply⟩ := h.repeated n a ha hnone
    refine ⟨hid, fun hr => by rw [hsent, hquiet hr], fun hr => ?_⟩
    obtain ⟨m, b, err, hb, hsame, hset, hm⟩ := hreply hr
    exact ⟨m, b, err, hacc ▸ hb, hsame, by rw [hkeep m err hset, hset], by rw [hsent, hm]⟩
  · intro n m a b ha hb hsame hn hm
    rw [hacc] at ha hb
    exact h.unique n m a b ha hb hsame (hne n hn) (hne m hm)
  · intro n a ha hid hrun
    rw [hacc] at ha
    rw [hcmds, howner]
    refine h.held n a ha hid ?_
    rcases hphase n with heq | ⟨hold, -⟩
    · rwa [← heq]
    · exact hold
  · intro k rec hk
    rw [hcmds] at hk
    obtain ⟨a, ha, hid, hkey, hn, hres⟩ := h.owned k rec hk
    rw [Owned, hacc, howner]
    refine ⟨a, ha, hid, hkey, ?_⟩
    rcases hphase (s.owner k) with heq | ⟨hrun, hrun'⟩
    · rw [heq]
      exact ⟨hn, hres⟩
    · rw [hrun.2] at hres
      rw [hrun'.2]
      exact ⟨hrun'.1, hres⟩

private theorem inv_new (batched : Bool) (writeTimeout : ℕ) : (new batched writeTimeout).Inv where
  fresh := fun _ _ => ⟨rfl, rfl⟩
  counts := fun _ => rfl
  answered := fun n a ha => by cases ha
  repeated := fun n a ha => by cases ha
  unique := fun n m a b ha => by cases ha
  held := fun n a ha => by cases ha
  owned := fun k rec hk => by cases hk

private theorem inv_tick (h : s.Inv) (d : ℕ) : (s.step (.tick d)).Inv :=
  ⟨h.fresh, h.counts, h.answered, h.repeated, h.unique, h.held, h.owned⟩

variable {n : ℕ}

theorem getElem?_concat {α : Type} {l : List α} {a b : α} (h : (l ++ [a])[n]? = some b) :
    l[n]? = some b ∧ n < l.length ∨ n = l.length ∧ a = b := by
  rcases Nat.lt_trichotomy n l.length with hlt | heq | hgt
  · rw [List.getElem?_append_left hlt] at h
    exact .inl ⟨h, hlt⟩
  · subst heq
    rw [List.getElem?_concat_length] at h
    exact .inr ⟨rfl, Option.some.inj h⟩
  · rw [List.getElem?_eq_none (by rw [length_append, length_singleton]; omega)] at h
    cases h

theorem getElem?_concat_of_some {α : Type} {l : List α} {b : α} (h : l[n]? = some b) (a : α) :
    (l ++ [a])[n]? = some b := by
  rw [List.getElem?_append_left (List.getElem?_eq_some_iff.mp h).1, h]

theorem Inv.lt_length (h : s.Inv) (hn : s.phase n ≠ .none) : n < s.accepted.length := by
  by_contra hle
  exact hn (h.fresh n (Nat.le_of_not_lt hle)).1

theorem inv_begin (h : s.Inv) {a : Accepted} {cmds : FMap Bytes CmdRecord} {owner : Bytes → ℕ}
    (hcmds : a.id = [] ∧ cmds = s.cmds ∧ owner = s.owner ∨
      a.id ≠ [] ∧ s.cmds.lookup a.key = none ∧ cmds = s.cmds.insert a.key ⟨s.now, none⟩ ∧
        owner = Function.update s.owner a.key s.accepted.length)
    (hnew : ∀ n b, s.accepted[n]? = some b → SameCommand b a → s.phase n = .none) :
    ({ s.begin a with cmds := cmds, owner := owner } : Service).Inv := by
  obtain ⟨hnone, hsent⟩ := h.fresh s.accepted.length (Nat.le_refl _)
  have hself : (s.begin a).phase s.accepted.length = .start := Function.update_self ..
  have hold : ∀ n, n < s.accepted.length → (s.begin a).phase n = s.phase n :=
    fun n hn => Function.update_of_ne (Nat.ne_of_lt hn) ..
  refine ⟨?_, ?_, ?_, ?_, ?_, ?_, ?_⟩
  · intro n hn
    have hn : s.accepted.length + 1 ≤ n := by
      rwa [← length_singleton (a := a), ← length_append]
    obtain ⟨hp, hs⟩ := h.fresh n (by omega)
    exact ⟨(Function.update_of_ne (by omega) ..).trans hp, hs⟩
  · intro n
    show ((s.begin a).phase n).Counts (s.issued n)
    by_cases hn : n = s.accepted.length
    · subst hn
      have hcounts := h.counts s.accepted.length
      rw [hnone] at hcounts
      rw [hself]
      exact hcounts
    · rw [show (s.begin a).phase n = s.phase n from Function.update_of_ne hn ..]
      exact h.counts n
  · intro n b hb hn
    rcases getElem?_concat hb with ⟨hb, hlt⟩ | ⟨rfl, rfl⟩
    · rw [hold n hlt] at hn ⊢
      exact h.answered n b hb hn
    · rw [hself]
      exact hsent
  · intro n b hb hn
    rcases getElem?_concat hb with ⟨hb, hlt⟩ | ⟨rfl, rfl⟩
    · obtain ⟨hid, hquiet, hreply⟩ := h.repeated n b hb ((hold n hlt).symm.trans hn)
      refine ⟨hid, hquiet, fun hr => ?_⟩
      obtain ⟨m, b', err, hb', hsame, hset, hm⟩ := hreply hr
      have hmlt := (List.getElem?_eq_some_iff.mp hb').1
      exact ⟨m, b', err, getElem?_concat_of_some hb' a, hsame, by rw [hold m hmlt, hset], hm⟩
    · rw [hself] at hn
      cases hn
  · intro n m b b' hb hb' hsame hn hm
    rcases getElem?_concat hb with ⟨hb, hlt⟩ | ⟨rfl, rfl⟩
    · rcases getElem?_concat hb' with ⟨hb', hlt'⟩ | ⟨rfl, rfl⟩
      · exact h.unique n m b b' hb hb' hsame (hold n hlt ▸ hn) (hold m hlt' ▸ hm)
      · exact absurd (hnew n b hb hsame) (hold n hlt ▸ hn)
    · rcases getElem?_concat hb' with ⟨hb', hlt'⟩ | ⟨rfl, rfl⟩
      · exact absurd (hnew m b' hb' hsame.symm) (hold m hlt' ▸ hm)
      · rfl
  · intro n b hb hid hrun
    rcases getElem?_concat hb with ⟨hbn, hlt⟩ | ⟨rfl, rfl⟩
    · have hheld := h.held n b hbn hid (hold n hlt ▸ hrun)
      rcases hcmds with ⟨-, rfl, rfl⟩ | ⟨-, hfree, rfl, rfl⟩
      · exact hheld
      · have hkey : b.key ≠ a.key := fun hkey => hheld.1 (hkey ▸ hfree)
        rw [AList.lookup_insert_ne hkey]
        exact ⟨hheld.1, (Function.update_of_ne hkey ..).trans hheld.2⟩
    · rcases hcmds with ⟨hnil, -⟩ | ⟨-, -, rfl, rfl⟩
      · exact absurd hnil hid
      · rw [AList.lookup_insert]
        exact ⟨Option.some_ne_none _, Function.update_self ..⟩
  · intro k rec hk
    have hkeep : s.cmds.lookup k = some rec → ∃ b, (s.accepted ++ [a])[s.owner k]? = some b ∧ b.id ≠ [] ∧
        b.key = k ∧ (s.begin a).phase (s.owner k) ≠ .none ∧
        rec.result = ((s.begin a).phase (s.owner k)).settled.map (resultOf b) := by
      intro hk
      obtain ⟨b, hb, hid, hkey, hn, hres⟩ := h.owned k rec hk
      rw [hold _ (h.lt_length hn)]
      exact ⟨b, getElem?_concat_of_some hb a, hid, hkey, hn, hres⟩
    rcases hcmds with ⟨-, rfl, rfl⟩ | ⟨hid, -, rfl, rfl⟩
    · exact hkeep hk
    · by_cases hkey : k = a.key
      · subst hkey
        rw [AList.lookup_insert] at hk
        have howner : Function.update s.owner a.key s.accepted.length a.key = s.accepted.length :=
          Function.update_self ..
        obtain rfl := Option.some.inj hk
        rw [Owned]
        dsimp only
        rw [howner, hself]
        exact ⟨a, List.getElem?_concat_length .., hid, rfl, by decide, rfl⟩
      · rw [AList.lookup_insert_ne hkey] at hk
        have howner : Function.update s.owner a.key s.accepted.length k = s.owner k := Function.update_of_ne hkey ..
        rw [Owned]
        dsimp only
        rw [howner]
        exact hkeep hk

theorem inv_repeated (h : s.Inv) {a : Accepted} (hid : a.id ≠ []) {r : CmdRecord} (hr : s.cmds.lookup a.key = some r)
    (hwithin : a.replyTopic ≠ [] →
      r.result ≠ none ∧ ∀ b, s.accepted[s.owner a.key]? = some b → b.clientID = a.clientID) :
    ({ s with
      accepted := s.accepted ++ [a]
      sent := Function.update s.sent s.accepted.length
        (if a.replyTopic = [] then [] else r.result.toList) } : Service).Inv := by
  obtain ⟨hnone, -⟩ := h.fresh s.accepted.length (Nat.le_refl _)
  refine ⟨?_, h.counts, ?_, ?_, ?_, ?_, ?_⟩
  · intro n hn
    have hn : s.accepted.length + 1 ≤ n := by
      rwa [← length_singleton (a := a), ← length_append]
    obtain ⟨hp, hs⟩ := h.fresh n (by omega)
    exact ⟨hp, (Function.update_of_ne (by omega) ..).trans hs⟩
  · intro n b hb hn
    rcases getElem?_concat hb with ⟨hb, hlt⟩ | ⟨rfl, rfl⟩
    · exact (Function.update_of_ne (Nat.ne_of_lt hlt) ..).trans (h.answered n b hb hn)
    · exact absurd hnone hn
  · intro n b hb hn
    rcases getElem?_concat hb with ⟨hb, hlt⟩ | ⟨rfl, rfl⟩
    · obtain ⟨hid, hquiet, hreply⟩ := h.repeated n b hb hn
      have hsame : Function.update s.sent s.accepted.length
          (if a.replyTopic = [] then [] else r.result.toList) n = s.sent n :=
        Function.update_of_ne (Nat.ne_of_lt hlt) ..
      refine ⟨hid, fun hr => hsame.trans (hquiet hr), fun hr => ?_⟩
      obtain ⟨m, b', err, hb', hcmd, hset, hm⟩ := hreply hr
      exact ⟨m, b', err, getElem?_concat_of_some hb' a, hcmd, hset, hsame.trans hm⟩
    · have hself : Function.update s.sent s.accepted.length (if a.replyTopic = [] then [] else r.result.toList)
          s.accepted.length = if a.replyTopic = [] then [] else r.result.toList := Function.update_self ..
      refine ⟨hid, fun hquiet => hself.trans (if_pos hquiet), fun hreply => ?_⟩
      obtain ⟨b, hb, hidb, hkey, -, hres⟩ := h.owned a.key r hr
      obtain ⟨hdone, hclient⟩ := hwithin hreply
      rw [hres] at hdone
      obtain ⟨err, hset⟩ := Option.ne_none_iff_exists'.mp fun hx : (s.phase (s.owner a.key)).settled = none =>
        hdone (by rw [hx]; rfl)
      refine ⟨s.owner a.key, b, err, getElem?_concat_of_some hb a, sameCommand_of_key hkey (hclient b hb) hidb, hset,
        ?_⟩
      refine hself.trans ?_
      rw [if_neg hreply, hres, hset]
      rfl
  · intro n m b b' hb hb' hcmd hn hm
    rcases getElem?_concat hb with ⟨hb, -⟩ | ⟨rfl, rfl⟩
    · rcases getElem?_concat hb' with ⟨hb', -⟩ | ⟨rfl, rfl⟩
      · exact h.unique n m b b' hb hb' hcmd hn hm
      · exact absurd hnone hm
    · exact absurd hnone hn
  · intro n b hb hidb hrun
    rcases getElem?_concat hb with ⟨hb, -⟩ | ⟨rfl, rfl⟩
    · exact h.held n b hb hidb hrun
    · exact absurd hnone hrun.1
  · intro k rec hk
    obtain ⟨b, hb, hown⟩ := h.owned k rec hk
    exact ⟨b, getElem?_concat_of_some hb a, hown⟩

variable {ns : List ℕ}

theorem setPhase_self (h : n ∈ ns) (p : Phase) : (s.setPhase ns p).phase n = p := if_pos h

theorem setPhase_of_notMem (h : n ∉ ns) (p : Phase) : (s.setPhase ns p).phase n = s.phase n :=
  if_neg h

theorem running_start : Phase.start.Running := ⟨by decide, rfl⟩

theorem running_queued : Phase.queued.Running := ⟨by decide, rfl⟩

theorem running_writing : Phase.writing.Running := ⟨by decide, rfl⟩

theorem running_done (err : Option OaError) : (Phase.done err).Running := ⟨fun h => (by cases h), rfl⟩

theorem inv_store (h : s.Inv) {a : Accepted} {err : Option OaError} (ha : s.accepted[n]? = some a)
    (hp : s.phase n = .done err) {cmds : FMap Bytes CmdRecord} {owner : Bytes → ℕ}
    (hcmds : a.id = [] ∧ cmds = s.cmds ∧ owner = s.owner ∨
      a.id ≠ [] ∧ cmds = s.cmds.insert a.key ⟨s.now, some (resultOf a err)⟩ ∧
        owner = Function.update s.owner a.key n) :
    ({ s.setPhase [n] (.stored err) with cmds := cmds, owner := owner } : Service).Inv := by
  have hnone : s.phase n ≠ .none := by
    rw [hp]
    exact fun hx => by cases hx
  have hlen : n < s.accepted.length := h.lt_length hnone
  have hself : (s.setPhase [n] (.stored err)).phase n = .stored err := setPhase_self mem_cons_self _
  have hother : ∀ m, m ≠ n → (s.setPhase [n] (.stored err)).phase m = s.phase m :=
    fun m hm => setPhase_of_notMem (fun hx => hm (mem_singleton.mp hx)) _
  have hne : ∀ m, (s.setPhase [n] (.stored err)).phase m ≠ .none → s.phase m ≠ .none := by
    intro m hm
    by_cases hmn : m = n
    · rw [hmn]
      exact hnone
    · rwa [hother m hmn] at hm
  refine ⟨?_, ?_, ?_, ?_, ?_, ?_, ?_⟩
  · intro m hm
    obtain ⟨hp, hs⟩ := h.fresh m hm
    exact ⟨(hother m (Nat.ne_of_gt (Nat.lt_of_lt_of_le hlen hm))).trans hp, hs⟩
  · intro m
    show ((s.setPhase [n] (.stored err)).phase m).Counts (s.issued m)
    by_cases hm : m = n
    · subst hm
      have hcounts := h.counts m
      rw [hp] at hcounts
      rw [hself]
      exact hcounts
    · rw [hother m hm]
      exact h.counts m
  · intro m b hb hm
    show s.sent m = ((s.setPhase [n] (.stored err)).phase m).published b
    rw [h.answered m b hb (hne m hm)]
    by_cases hmn : m = n
    · subst hmn
      rw [hself, hp]
      rfl
    · rw [hother m hmn]
  · intro m b hb hm
    have hmn : m ≠ n := by
      rintro rfl
      rw [hself] at hm
      cases hm
    obtain ⟨hid, hquiet, hreply⟩ := h.repeated m b hb ((hother m hmn).symm.trans hm)
    refine ⟨hid, hquiet, fun hr => ?_⟩
    obtain ⟨m', b', err', hb', hcmd, hset, hsent⟩ := hreply hr
    refine ⟨m', b', err', hb', hcmd, ?_, hsent⟩
    rw [hother m', hset]
    rintro rfl
    rw [hp] at hset
    cases hset
  · intro m m' b b' hb hb' hcmd hm hm'
    exact h.unique m m' b b' hb hb' hcmd (hne m hm) (hne m' hm')
  · intro m b hb hid hrun
    have hmn : m ≠ n := by
      rintro rfl
      rw [hself] at hrun
      cases hrun.2
    have hheld := h.held m b hb hid (hother m hmn ▸ hrun)
    rcases hcmds with ⟨-, rfl, rfl⟩ | ⟨hida, rfl, rfl⟩
    · exact hheld
    · have hkey : b.key ≠ a.key := by
        intro hkey
        refine hmn (hheld.2.symm.trans ?_)
        rw [hkey]
        exact (h.held n a ha hida (by rw [hp]; exact running_done err)).2
      rw [AList.lookup_insert_ne hkey]
      exact ⟨hheld.1, (Function.update_of_ne hkey ..).trans hheld.2⟩
  · intro k rec hk
    have hkeep : (a.id ≠ [] → k ≠ a.key) → s.cmds.lookup k = some rec →
        ∃ b, s.accepted[s.owner k]? = some b ∧ b.id ≠ [] ∧ b.key = k ∧
        (s.setPhase [n] (.stored err)).phase (s.owner k) ≠ .none ∧
        rec.result = ((s.setPhase [n] (.stored err)).phase (s.owner k)).settled.map (resultOf b) := by
      intro hkey hk
      obtain ⟨b, hb, hid, hbk, hn, hres⟩ := h.owned k rec hk
      rw [hother]
      · exact ⟨b, hb, hid, hbk, hn, hres⟩
      · intro hkn
        rw [hkn] at hb
        obtain rfl : a = b := Option.some.inj (ha.symm.trans hb)
        exact hkey hid hbk.symm
    rcases hcmds with ⟨hida, rfl, rfl⟩ | ⟨hida, rfl, rfl⟩
    · exact hkeep (fun hid => absurd hida hid) hk
    · by_cases hkey : k = a.key
      · subst hkey
        rw [AList.lookup_insert] at hk
        have howner : Function.update s.owner a.key n a.key = n := Function.update_self ..
        obtain rfl := Option.some.inj hk
        rw [Owned]
        dsimp only
        rw [howner, hself]
        exact ⟨a, ha, hida, rfl, fun hx => (by cases hx), rfl⟩
      · rw [AList.lookup_insert_ne hkey] at hk
        have howner : Function.update s.owner a.key n k = s.owner k := Function.update_of_ne hkey ..
        rw [Owned]
        dsimp only
        rw [howner]
        exact hkeep (fun _ => hkey) hk

theorem inv_reply (h : s.Inv) (n : ℕ) : (s.step (.reply n)).Inv := by
  rw [step]
  split
  swap
  · exact h
  next a err ha hp =>
  have hnone : s.phase n ≠ .none := by
    rw [hp]
    exact fun hx => by cases hx
  have hlen : n < s.accepted.length := h.lt_length hnone
  have hself : (s.setPhase [n] (.finished err)).phase n = .finished err := setPhase_self mem_cons_self _
  have hother : ∀ m, m ≠ n → (s.setPhase [n] (.finished err)).phase m = s.phase m :=
    fun m hm => setPhase_of_notMem (fun hx => hm (mem_singleton.mp hx)) _
  have hsettled : ∀ m, ((s.setPhase [n] (.finished err)).phase m).settled = (s.phase m).settled := by
    intro m
    by_cases hmn : m = n
    · rw [hmn, hself, hp]
      rfl
    · rw [hother m hmn]
  have hiff : ∀ m, (s.setPhase [n] (.finished err)).phase m = .none ↔ s.phase m = .none := by
    intro m
    by_cases hmn : m = n
    · rw [hmn, hself]
      exact iff_of_false (fun hx => by cases hx) hnone
    · rw [hother m hmn]
  refine ⟨?_, ?_, ?_, ?_, ?_, ?_, ?_⟩
  · intro m hm
    obtain ⟨hp, hs⟩ := h.fresh m hm
    have hmn : m ≠ n := Nat.ne_of_gt (Nat.lt_of_lt_of_le hlen hm)
    exact ⟨(hother m hmn).trans hp, (Function.update_of_ne hmn ..).trans hs⟩
  · intro m
    show ((s.setPhase [n] (.finished err)).phase m).Counts (s.issued m)
    by_cases hm : m = n
    · subst hm
      have hcounts := h.counts m
      rw [hp] at hcounts
      rw [hself]
      exact hcounts
    · rw [hother m hm]
      exact h.counts m
  · intro m b hb hm
    by_cases hmn : m = n
    · subst hmn
      obtain rfl : a = b := Option.some.inj (ha.symm.trans hb)
      have hsent := h.answered m a ha hnone
      rw [hp] at hsent
      refine (Function.update_self ..).trans ?_
      rw [hself, hsent]
      rfl
    · refine (Function.update_of_ne hmn ..).trans ?_
      rw [hother m hmn]
      exact h.answered m b hb fun hx => hm ((hiff m).mpr hx)
  · intro m b hb hm
    have hmn : m ≠ n := by
      rintro rfl
      rw [hself] at hm
      cases hm
    have hsame :
        Function.update s.sent n (s.sent n ++ if a.replyTopic = [] then [] else [resultOf a err]) m = s.sent m :=
      Function.update_of_ne hmn ..
    obtain ⟨hid, hquiet, hreply⟩ := h.repeated m b hb ((hiff m).mp hm)
    refine ⟨hid, fun hr => hsame.trans (hquiet hr), fun hr => ?_⟩
    obtain ⟨m', b', err', hb', hcmd, hset, hsent⟩ := hreply hr
    exact ⟨m', b', err', hb', hcmd, (hsettled m').trans hset, hsame.trans hsent⟩
  · intro m m' b b' hb hb' hcmd hm hm'
    exact h.unique m m' b b' hb hb' hcmd (fun hx => hm ((hiff m).mpr hx)) (fun hx => hm' ((hiff m').mpr hx))
  · intro m b hb hid hrun
    exact h.held m b hb hid ⟨fun hx => hrun.1 ((hiff m).mpr hx), (hsettled m).symm.trans hrun.2⟩
  · intro k rec hk
    obtain ⟨b, hb, hid, hkey, hm, hres⟩ := h.owned k rec hk
    exact ⟨b, hb, hid, hkey, fun hx => hm ((hiff _).mp hx),
      hres.trans (congrArg (Option.map (resultOf b)) (hsettled _).symm)⟩

theorem lookup_recent (k : Bytes) : s.recent.lookup k = (s.cmds.lookup k).filter fun r => !s.expired r := by
  rw [recent, lookup_eraseAll]
  cases hk : s.cmds.lookup k with
  | none => rw [ite_self]; rfl
  | some r =>
    have hmem : k ∈ s.cmds.keys := AList.mem_keys.mp (AList.lookup_isSome.mp (by rw [hk]; rfl))
    have hiff : k ∈ s.cmds.keys.filter (fun k => (s.cmds.lookup k).any s.expired) ↔ s.expired r = true := by
      rw [mem_filter, hk, Option.any_some]
      exact and_iff_right hmem
    rw [Option.filter_some]
    cases hexp : s.expired r with
    | false => rw [if_neg fun hx => Bool.false_ne_true (hexp.symm.trans (hiff.mp hx))]; rfl
    | true => rw [if_pos (hiff.mpr hexp)]; rfl

theorem inv_prune (h : s.Inv) (hwithin : s.Within .pruneCommands) : (s.step .pruneCommands).Inv := by
  have hcmds : (s.step .pruneCommands).cmds = s.recent := if_neg (Nat.not_lt.mpr hwithin.1)
  refine ⟨h.fresh, h.counts, h.answered, h.repeated, h.unique, ?_, ?_⟩
  · intro n a ha hid hrun
    obtain ⟨hlook, howner⟩ := h.held n a ha hid hrun
    obtain ⟨rec, hrec⟩ := Option.ne_none_iff_exists'.mp hlook
    obtain ⟨b, -, -, -, -, hres⟩ := h.owned a.key rec hrec
    have hset : (s.phase n).settled = none := hrun.2
    rw [howner, hset] at hres
    have hexp : (!s.expired rec) = true := by
      rw [Bool.not_eq_true', Bool.eq_false_iff]
      exact hwithin.2 a.key rec hrec hres
    rw [hcmds, lookup_recent, hrec, Option.filter_some, if_pos hexp]
    exact ⟨Option.some_ne_none rec, howner⟩
  · intro k r hk
    rw [hcmds, lookup_recent, Option.filter_eq_some_iff] at hk
    exact h.owned k r hk.1

theorem inv_setPhase (h : s.Inv) {p : Phase} (hp : p.Running)
    (hns : ∀ n ∈ ns, (s.phase n).Running) {s' : Service} (hacc : s'.accepted = s.accepted)
    (hcmds : s'.cmds = s.cmds) (howner : s'.owner = s.owner) (hsent : s'.sent = s.sent)
    (hphase : s'.phase = (s.setPhase ns p).phase)
    (hcounts : ∀ n ∈ ns, p.Counts (s'.issued n)) (hissued : ∀ n, n ∉ ns → s'.issued n = s.issued n) : s'.Inv := by
  refine h.advance hacc hcmds howner hsent ?_ ?_
  · intro n
    rw [hphase]
    by_cases hn : n ∈ ns
    · rw [setPhase_self hn]
      exact .inr ⟨hns n hn, hp⟩
    · exact .inl (setPhase_of_notMem hn p)
  · intro n
    rw [hphase]
    by_cases hn : n ∈ ns
    · rw [setPhase_self hn]
      exact hcounts n hn
    · rw [setPhase_of_notMem hn, hissued n hn]
      exact h.counts n

theorem inv_callDpSet (h : s.Inv) (hns : ∀ n ∈ ns, s.phase n = .start ∨ s.phase n = .queued) :
    (s.callDpSet ns).Inv := by
  refine inv_setPhase h running_writing ?_ rfl rfl rfl rfl rfl ?_ ?_
  · intro n hn
    rcases hns n hn with hp | hp
    · rw [hp]
      exact running_start
    · rw [hp]
      exact running_queued
  · intro n hn
    have hzero : s.issued n = 0 := by
      have hcounts := h.counts n
      rcases hns n hn with hp | hp
      · rw [hp] at hcounts
        exact hcounts
      · rw [hp] at hcounts
        exact hcounts
    show (if n ∈ ns then s.issued n + 1 else s.issued n) = 1
    rw [if_pos hn, hzero]
  · intro n hn
    exact if_neg hn

theorem mem_collected {j : ℕ} {b : List WaitWriteReq} (hj : s.collected[j]? = some b) {r : WaitWriteReq} (hr : r ∈ b) :
    r ∈ s.waitReqs ++ s.collected.flatten :=
  mem_append_right _ (mem_flatten.mpr ⟨b, mem_of_getElem? hj, hr⟩)

theorem inv_step (h : s.Inv) (hq : s.Queues) (t : Turn) (hwithin : s.Within t) : (s.step t).Inv := by
  cases t with
  | tick d => exact inv_tick h d
  | command r =>
    rw [step]
    cases hcheck : r.check with
    | error v => exact h
    | ok cmd =>
      have hw := hwithin cmd hcheck
      dsimp only at hw ⊢
      rw [accept]
      split
      · next hid =>
        exact inv_begin h (.inl ⟨hid, rfl, rfl⟩) fun n b _ hcmd => absurd (hcmd.2.1.trans hid) hcmd.2.2
      · next hid =>
        replace hw := hw hid
        split
        · next hlook =>
          rw [hlook] at hw
          exact inv_begin h (.inr ⟨hid, hlook, rfl, rfl⟩) hw
        · next rec hlook =>
          rw [hlook] at hw
          exact inv_repeated h hid hlook hw
  | enqueueWrite n =>
    rw [step]
    split
    swap
    · exact h
    next hp =>
    rw [enqueueWrite]
    split
    · have hstart : ∀ m ∈ [n], (s.phase m).Running := by
        intro m hm
        rw [mem_singleton.mp hm, hp]
        exact running_start
      refine inv_setPhase h running_queued hstart rfl rfl rfl rfl rfl ?_ fun _ _ => rfl
      · intro m hm
        have hcounts := h.counts m
        rw [mem_singleton.mp hm, hp] at hcounts
        rw [mem_singleton.mp hm]
        exact hcounts
    · refine inv_callDpSet h fun m hm => .inl ?_
      rw [mem_singleton.mp hm, hp]
  | collect =>
    rw [step]
    split
    · exact h
    · exact h.advance rfl rfl rfl rfl (fun _ => .inl rfl) h.counts
  | sendWaitBatch j =>
    rw [step, sendWaitBatch]
    split
    swap
    · exact h
    next r rs hj =>
    have hqueued : ∀ n ∈ (r :: rs).map WaitWriteReq.cmd, s.phase n = .queued := by
      intro n hn
      obtain ⟨r', hr', rfl⟩ := mem_map.mp hn
      exact hq.queued r' (mem_collected hj hr')
    have h' : ({ s with
        collected := s.collected.eraseIdx j } : Service).Inv := h.advance rfl rfl rfl rfl (fun _ => .inl rfl) h.counts
    dsimp only
    split
    · refine inv_setPhase h' (running_done _) ?_ rfl rfl rfl rfl rfl ?_ fun _ _ => rfl
      · intro n hn
        rw [hqueued n hn]
        exact running_queued
      · intro n hn
        have hcounts := h.counts n
        rw [hqueued n hn] at hcounts
        exact ⟨hcounts.symm ▸ Nat.zero_le 1, fun hx => by cases hx⟩
    · exact inv_callDpSet h' fun n hn => .inr (hqueued n hn)
  | dpSet j err =>
    rw [step]
    split
    · exact h
    · next ns hj =>
      have hwriting : ∀ n ∈ ns, s.phase n = .writing := fun n hn =>
        hq.writing n (mem_flatten.mpr ⟨ns, mem_of_getElem? hj, hn⟩)
      refine inv_setPhase h (running_done err) ?_ rfl rfl rfl rfl rfl ?_ fun _ _ => rfl
      · intro n hn
        rw [hwriting n hn]
        exact running_writing
      · intro n hn
        have hcounts := h.counts n
        rw [hwriting n hn] at hcounts
        exact ⟨Nat.le_of_eq hcounts, fun _ => hcounts⟩
  | store n =>
    rw [step]
    split
    swap
    · exact h
    next a err ha hp =>
    split
    · next hid => exact inv_store h ha hp (.inl ⟨hid, rfl, rfl⟩)
    · next hid => exact inv_store h ha hp (.inr ⟨hid, rfl, rfl⟩)
  | reply n => exact inv_reply h n
  | pruneCommands => exact inv_prune h hwithin

private theorem queues_new (batched : Bool) (writeTimeout : ℕ) : (new batched writeTimeout).Queues where
  queued := fun r hr => by cases hr
  writing := fun n hn => by cases hn
  nodup := nodup_nil
  nodup_sending := nodup_nil

theorem Queues.keep (hq : s.Queues) {s' : Service} (hwait : s'.waitReqs = s.waitReqs)
    (hcollected : s'.collected = s.collected) (hsending : s'.sending = s.sending)
    (hphase : ∀ n, s.phase n = .queued ∨ s.phase n = .writing → s'.phase n = s.phase n) : s'.Queues := by
  refine ⟨?_, ?_, ?_, ?_⟩
  · intro r hr
    rw [hwait, hcollected] at hr
    have hp := hq.queued r hr
    rw [hphase r.cmd (.inl hp), hp]
  · intro n hn
    rw [hsending] at hn
    have hp := hq.writing n hn
    rw [hphase n (.inr hp), hp]
  · rw [hwait, hcollected]
    exact hq.nodup
  · rw [hsending]
    exact hq.nodup_sending

theorem flatten_perm_eraseIdx {α : Type} {l : List (List α)} {j : ℕ} {b : List α} (h : l[j]? = some b) :
    l.flatten.Perm (b ++ (l.eraseIdx j).flatten) := by
  induction l generalizing j with
  | nil => cases h
  | cons c l ih =>
    cases j with
    | zero =>
      cases h
      exact List.Perm.refl _
    | succ j =>
      rw [flatten_cons, eraseIdx_cons_succ, flatten_cons]
      exact ((ih h).append_left c).trans (perm_append_comm_assoc c b _)

/-- `DpSet` is called with commands that wait no longer. -/
theorem queues_callDpSet (hqueued : ∀ r ∈ s.waitReqs ++ s.collected.flatten, s.phase r.cmd = .queued)
    (hwriting : ∀ n ∈ s.sending.flatten, s.phase n = .writing)
    (hnodup : ((s.waitReqs ++ s.collected.flatten).map WaitWriteReq.cmd).Nodup) (hsending : s.sending.flatten.Nodup)
    (hns : ns.Nodup) (hout : ∀ r ∈ s.waitReqs ++ s.collected.flatten, r.cmd ∉ ns)
    (hnew : ∀ n ∈ s.sending.flatten, n ∉ ns) : (s.callDpSet ns).Queues := by
  have hflat : (s.sending ++ [ns]).flatten = s.sending.flatten ++ ns := by
    rw [flatten_append, flatten_singleton]
  refine ⟨?_, ?_, hnodup, ?_⟩
  · intro r hr
    exact (setPhase_of_notMem (hout r hr) _).trans (hqueued r hr)
  · intro n hn
    rw [callDpSet, hflat] at hn
    rcases mem_append.mp hn with hn | hn
    · exact (setPhase_of_notMem (hnew n hn) _).trans (hwriting n hn)
    · exact setPhase_self hn _
  · rw [callDpSet, hflat]
    exact nodup_append.mpr ⟨hsending, hns, fun a ha b hb hab => hnew a ha (hab ▸ hb)⟩

theorem queues_begin (h : s.Inv) (hq : s.Queues) (a : Accepted) : (s.begin a).Queues := by
  refine hq.keep rfl rfl rfl fun n hp => Function.update_of_ne ?_ ..
  rintro rfl
  rw [(h.fresh s.accepted.length (Nat.le_refl _)).1] at hp
  rcases hp with hp | hp
  · cases hp
  · cases hp

private theorem queues_accept (h : s.Inv) (hq : s.Queues) (a : Accepted) : (s.accept a).Queues := by
  rw [accept]
  split
  · exact queues_begin h hq a
  · split
    · exact (queues_begin h hq a).keep rfl rfl rfl fun _ _ => rfl
    · exact hq.keep rfl rfl rfl fun _ _ => rfl

section

variable (hq : s.Queues)
include hq

theorem queues_enqueueWrite (hp : s.phase n = .start) : (s.enqueueWrite n).Queues := by
  have hqueued : ∀ r ∈ s.waitReqs ++ s.collected.flatten, r.cmd ∉ [n] := by
    intro r hr hx
    rw [← mem_singleton.mp hx, hq.queued r hr] at hp
    cases hp
  have hwriting : ∀ m ∈ s.sending.flatten, m ∉ [n] := by
    intro m hm hx
    rw [← mem_singleton.mp hx, hq.writing m hm] at hp
    cases hp
  rw [enqueueWrite]
  split
  · have hperm : (s.waitReqs ++ [(⟨n, s.now⟩ : WaitWriteReq)] ++ s.collected.flatten).Perm
        ((⟨n, s.now⟩ : WaitWriteReq) :: (s.waitReqs ++ s.collected.flatten)) := by
      rw [append_assoc, singleton_append]
      exact perm_middle
    refine ⟨?_, ?_, ?_, hq.nodup_sending⟩
    · intro r hr
      rcases mem_cons.mp (hperm.mem_iff.mp hr) with rfl | hr
      · exact setPhase_self mem_cons_self _
      · exact (setPhase_of_notMem (hqueued r hr) _).trans (hq.queued r hr)
    · exact fun m hm => (setPhase_of_notMem (hwriting m hm) _).trans (hq.writing m hm)
    · refine (hperm.map _).nodup_iff.mpr (nodup_cons.mpr ⟨fun hx => ?_, hq.nodup⟩)
      obtain ⟨r, hr, hrn⟩ := mem_map.mp hx
      exact hqueued r hr (mem_singleton.mpr hrn)
  · exact queues_callDpSet hq.queued hq.writing hq.nodup hq.nodup_sending (nodup_singleton n) hqueued hwriting

private theorem queues_collect : (s.step .collect).Queues := by
  rw [step]
  split
  · exact hq
  · have hperm : (([] : List WaitWriteReq) ++ (s.collected ++ [s.waitReqs]).flatten).Perm
        (s.waitReqs ++ s.collected.flatten) := by
      rw [nil_append, flatten_append, flatten_singleton]
      exact perm_append_comm
    refine ⟨fun r hr => hq.queued r (hperm.mem_iff.mp hr), hq.writing, ?_, hq.nodup_sending⟩
    exact (hperm.map _).nodup_iff.mpr hq.nodup

theorem queues_sendWaitBatch (j : ℕ) : (s.sendWaitBatch j).Queues := by
  rw [sendWaitBatch]
  split
  swap
  · exact hq
  next r rs hj =>
  have hperm : (s.waitReqs ++ s.collected.flatten).Perm
      ((r :: rs) ++ (s.waitReqs ++ (s.collected.eraseIdx j).flatten)) :=
    ((flatten_perm_eraseIdx hj).append_left _).trans (perm_append_comm_assoc ..)
  have hnodup := (hperm.map WaitWriteReq.cmd).nodup_iff.mp hq.nodup
  rw [map_append, nodup_append] at hnodup
  have hqueued : ∀ r' ∈ s.waitReqs ++ (s.collected.eraseIdx j).flatten, s.phase r'.cmd = .queued :=
    fun r' hr' => hq.queued r' (hperm.mem_iff.mpr (mem_append_right _ hr'))
  have hout : ∀ r' ∈ s.waitReqs ++ (s.collected.eraseIdx j).flatten, r'.cmd ∉ (r :: rs).map WaitWriteReq.cmd :=
    fun r' hr' hx => hnodup.2.2 _ hx _ (mem_map_of_mem hr') rfl
  have hnew : ∀ n ∈ s.sending.flatten, n ∉ (r :: rs).map WaitWriteReq.cmd := by
    intro n hn hx
    obtain ⟨r', hr', rfl⟩ := mem_map.mp hx
    have hp := hq.writing _ hn
    rw [hq.queued r' (mem_collected hj hr')] at hp
    cases hp
  dsimp only
  split
  · refine ⟨?_, ?_, hnodup.2.1, hq.nodup_sending⟩
    · exact fun r' hr' => (setPhase_of_notMem (hout r' hr') _).trans (hqueued r' hr')
    · exact fun n hn => (setPhase_of_notMem (hnew n hn) _).trans (hq.writing n hn)
  · exact queues_callDpSet (s := { s with
      collected := s.collected.eraseIdx j }) hqueued hq.writing hnodup.2.1 hq.nodup_sending hnodup.1 hout hnew

/-- A call of `DpSet` returns: its commands are in no other. -/
theorem queues_dpSet {j : ℕ} (hj : s.sending[j]? = some ns) (err : Option OaError) :
    ({ s.setPhase ns (.done err) with sending := s.sending.eraseIdx j } : Service).Queues := by
  have hperm := flatten_perm_eraseIdx hj
  have hnodup := hperm.nodup_iff.mp hq.nodup_sending
  rw [nodup_append] at hnodup
  refine ⟨?_, ?_, hq.nodup, hnodup.2.1⟩
  · intro r hr
    refine (setPhase_of_notMem (fun hx => ?_) _).trans (hq.queued r hr)
    have hp := hq.writing r.cmd (hperm.mem_iff.mpr (mem_append_left _ hx))
    rw [hq.queued r hr] at hp
    cases hp
  · intro n hn
    refine (setPhase_of_notMem (fun hx => hnodup.2.2 n hx n hn rfl) _).trans ?_
    exact hq.writing n (hperm.mem_iff.mpr (mem_append_right _ hn))

/-- A command that has its result waits nowhere. -/
theorem Queues.setPhase_settled (hqueued : s.phase n ≠ .queued) (hwriting : s.phase n ≠ .writing)
    (p : Phase) : (s.setPhase [n] p).Queues := by
  refine hq.keep rfl rfl rfl fun m hm => setPhase_of_notMem (fun hx => ?_) p
  rw [mem_singleton.mp hx] at hm
  exact hm.elim hqueued hwriting

end

theorem queues_step (h : s.Inv) (hq : s.Queues) (t : Turn) : (s.step t).Queues := by
  cases t with
  | tick d | pruneCommands => exact hq.keep rfl rfl rfl fun _ _ => rfl
  | command r =>
    rw [step]
    cases r.check with
    | error v => exact hq
    | ok cmd => exact queues_accept h hq _
  | enqueueWrite n =>
    rw [step]
    split
    · next hp => exact queues_enqueueWrite hq hp
    · exact hq
  | collect => exact queues_collect hq
  | sendWaitBatch j => exact queues_sendWaitBatch hq j
  | dpSet j err =>
    rw [step]
    split
    · exact hq
    · next ns hj => exact queues_dpSet hq hj err
  | store n =>
    rw [step]
    split
    swap
    · exact hq
    next a err ha hp =>
    have hstored := hq.setPhase_settled (by rw [hp]; exact fun hx => by cases hx)
      (by rw [hp]; exact fun hx => by cases hx) (.stored err)
    split
    · exact hstored
    · exact hstored.keep rfl rfl rfl fun _ _ => rfl
  | reply n =>
    rw [step]
    split
    swap
    · exact hq
    next a err ha hp =>
    refine (hq.setPhase_settled ?_ ?_ (.finished err)).keep rfl rfl rfl fun _ _ => rfl
    · rw [hp]
      exact fun hx => by cases hx
    · rw [hp]
      exact fun hx => by cases hx

end Invariant

def Idle (s : Service) (n : ℕ) : Prop := s.phase n = .none ∨ ∃ err, s.phase n = .finished err

def States (s : Service) (res : CommandResult) (a : Accepted) (n : ℕ) : Prop :=
  ∃ m b err, s.accepted[m]? = some b ∧ (m = n ∨ SameCommand b a) ∧ (s.phase m).settled = some err ∧
    res = resultOf b err ∧ (res.status = ascii "confirmed" ↔ err = none) ∧ (err = none → s.issued m = 1)

theorem confirmed_iff (a : Accepted) (err : Option OaError) :
    (resultOf a err).status = ascii "confirmed" ↔ err = none := by
  cases err with
  | none => exact iff_of_true rfl rfl
  | some e =>
    refine iff_of_false ?_ (Option.some_ne_none e)
    cases e with
    | timeout | deadlineExceeded => exact (by decide : ascii "timeout" ≠ ascii "confirmed")
    | other text => exact (by decide : ascii "failed" ≠ ascii "confirmed")

theorem Inv.issued_of_settled {s : Service} (h : s.Inv) {m : ℕ} {err : Option OaError}
    (hset : (s.phase m).settled = some err) : err = none → s.issued m = 1 := by
  have hcounts := h.counts m
  cases hp : s.phase m with
  | stored err' | finished err' =>
    rw [hp] at hset hcounts
    cases hset
    exact hcounts.2
  | _ =>
    rw [hp] at hset
    cases hset

def setCall : Call where
  clientID := ascii "c"
  topic := ascii "t/set"
  parsed := some true
  retain := false
  cmd := some ⟨ascii "1", []⟩
  target := .accept
  converts := true
  reply := ascii "r"

def setAccepted : Accepted := ⟨ascii "c", ascii "1", ascii "t/set", ascii "r"⟩

def repeatedLater : List Turn :=
  [.command setCall, .enqueueWrite 0, .dpSet 0 none, .store 0, .reply 0, .command setCall]

private theorem repeatedLater_within : Along step Within (new false 5000) repeatedLater := by
  refine ⟨?_, trivial, trivial, trivial, trivial, ?_, trivial⟩
  · intro cmd _ _
    exact fun n b hb => by cases hb
  · intro cmd hcmd _
    obtain rfl := Except.ok.inj hcmd
    exact fun _ => ⟨Option.some_ne_none _, fun b hb => Option.some.inj hb ▸ rfl⟩

/-- The command comes again while it is written. -/
def repeatedAtOnce : List Turn :=
  [.command setCall, .enqueueWrite 0, .command setCall, .dpSet 0 none, .store 0, .reply 0]

def leftCall : Call := { setCall with clientID := [0x61, 0x00, 0x62], cmd := some ⟨ascii "c", []⟩ }

def rightCall : Call := { setCall with clientID := ascii "a", cmd := some ⟨[0x62, 0x00, 0x63], []⟩ }

def sharedKey : List Turn :=
  [.command leftCall, .enqueueWrite 0, .dpSet 0 none, .store 0, .reply 0, .command rightCall]

end Service

end MonsterMQ.WinccoaNative
