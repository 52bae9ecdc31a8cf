import MonsterMQ.RedisFraming

/-!
# The framing of whole runs

A pipeline of commands is answered frame by frame, with the messages of the subscriptions between the frames
in any order of the turns.
-/

namespace MonsterMQ.Redis

open LittleEndian Auth LockPrograms StateRuns List

/-- What the client has yet to send after `n` commands. -/
@[grind =] def restAfter (maxMsgSize : ℤ) (input : Bytes) : ℕ → Option Bytes
  | 0 => some input
  | n + 1 =>
    match restAfter maxMsgSize input n with
    | none => none
    | some r =>
      match readCommand maxMsgSize r with
      | .ok (_, rest) => some rest
      | .error _ => none

@[grind =] def commandAt (maxMsgSize : ℤ) (input : Bytes) (n : ℕ) : List Bytes :=
  match restAfter maxMsgSize input n with
  | none => []
  | some r =>
    match readCommand maxMsgSize r with
    | .ok (args, _) => args
    | .error _ => []

/-- The client sends commands: what it sends is no protocol error. -/
def Pipeline (maxMsgSize : ℤ) (input : Bytes) : Prop :=
  ∀ n r msg, restAfter maxMsgSize input n = some r → readCommand maxMsgSize r ≠ .error (.protocol msg)

def refusedBy (W : World) (args : List Bytes) : Option Bytes :=
  match commandOf (args.headD []) with
  | .subscribe isPattern => refusal W isPattern args.tail
  | _ => none

/-- The server around a connection: the world that the `n`-th command finds, and what does not matter
for the replies. -/
structure Server where
  maxMsgSize : ℤ
  hasBus : Bool
  canRead : Bytes → Bool
  compile : Compile
  world : ℕ → World
  compiles : ∀ n, (world n).compile = compile
  signsIn : ℕ → Bool
  flushes : ℕ → Bool

def Server.postFilter (V : Server) (k : SubKey) : Option (Bytes → Option Bool) :=
  if k.isPattern then (redisPatternToMqtt V.compile k.name).2 else none

/-- The handlers that answer a given input, as far as they do not panic. -/
def Server.env (V : Server) (input : Bytes) : Env where
  maxMsgSize := V.maxMsgSize
  hasBus := V.hasBus
  canRead := V.canRead
  passes := fun k topic => (V.postFilter k).elim true fun f => (f topic).getD false
  answer := fun n => ((answer (V.world n) (commandAt V.maxMsgSize input n)).map frame).getD []
  signsIn := V.signsIn
  refuses := fun n => refusedBy (V.world n) (commandAt V.maxMsgSize input n)
  flushes := V.flushes

/-- `AUTH` or `HELLO` has signed the client in before the `n`-th command. -/
def Server.signedIn (V : Server) (input : Bytes) (authenticated : Bool) : ℕ → Bool
  | 0 => authenticated
  | n + 1 => V.signedIn input authenticated n ||
    ((commandAt V.maxMsgSize input n).head?.any (fun cmd => commandOf cmd ∈ [.auth, .hello]) && V.signsIn n)

def Server.Handles (V : Server) (input : Bytes) (authenticated : Bool) (n : ℕ) : Prop :=
  V.signedIn input authenticated n = true ∨
    (commandOf ((commandAt V.maxMsgSize input n).headD [])).allowedBeforeAuth = true

/-- The turn makes the broker panic: a handler does, or the post filter of the subscription that a message
is for. -/
def Server.Panics (V : Server) (c : Conn) : Turn → Prop
  | .serve _ => c.serve = .looping [] ∧ ∃ args rest, readCommand V.maxMsgSize c.input = .ok (args, rest) ∧
      (c.authenticated = true ∨ (commandOf (args.headD [])).allowedBeforeAuth = true) ∧
      answer (V.world c.count) args = none
  | .deliver d => c.active d = true ∧ ∃ f ∈ V.postFilter d.key, f d.topicName = none
  | _ => False

def matching (W : World) (pattern : Bytes) (m : FiniteMaps.FMap Bytes JsonText.Json) : List Bytes :=
  (sortedKeys m).filter fun k => pattern = [] || globMatch W.compile pattern k = some true

def Globs (W : World) (pattern : Bytes) (m : FiniteMaps.FMap Bytes JsonText.Json) : Prop :=
  pattern = [] ∨ sortedKeys m = [] ∨ (globToRegex W.compile pattern).isSome

/-- What a command may not bring into a line: the name of an unknown command, the type of a stored
document and a rejected filter are plain; the bounds of a page of `HSCAN` are in range; and no pattern
makes its test panic. -/
structure Harmless (W : World) (args : List Bytes) : Prop where
  name : Plain (args.headD [])
  type : toUpper (args.headD []) = ascii "TYPE" → Plain (typeOf W (topicOf args))
  filters : ∀ isPattern, commandOf (args.headD []) = .subscribe isPattern →
    ∀ f ∈ busFilters W isPattern args.tail, (W.rejects f).isSome → Plain f
  hscan : toUpper (args.headD []) = ascii "HSCAN" → ∀ m cursor,
    readStored W.floats W.store (topicOf args) hash asMap = .value m → atoi (args.getD 2 []) = some cursor →
      Globs W (hscanMatch (args.drop 3)) m ∧ (cursor < (matching W (hscanMatch (args.drop 3)) m).length →
        cursor + hscanCount (args.drop 3) ≤ 9223372036854775807)
  scan : toUpper (args.headD []) = ascii "SCAN" → Tested W (matchOf (args.drop 2))
  keys : toUpper (args.headD []) = ascii "KEYS" → Tested W (args.getD 1 [])
  patterns : commandOf (args.headD []) = .subscribe true → ∀ p ∈ args.tail,
    ∀ f ∈ (redisPatternToMqtt W.compile p).2, ∀ topic, (f topic).isSome

theorem hscanKeys_eq_some {W : World} {pattern : Bytes} {m : FiniteMaps.FMap Bytes JsonText.Json}
    (h : Globs W pattern m) : hscanKeys W pattern (sortedKeys m) = some (matching W pattern m) := by
  have hall : ∀ l : List Bytes, (pattern = [] ∨ (globToRegex W.compile pattern).isSome) →
      hscanKeys W pattern l =
        some (l.filter fun k => pattern = [] || globMatch W.compile pattern k = some true) := by
    intro l hl
    induction l with
    | nil => rfl
    | cons k l ih =>
      rw [hscanKeys, ih]
      by_cases hp : pattern = []
      · simp [hp]
      · obtain ⟨re, hre⟩ := Option.isSome_iff_exists.mp (hl.resolve_left hp)
        cases hk : re k <;> simp [hp, globMatch, hre, hk]
  rcases h with h | h | h
  · exact hall _ (.inl h)
  · rw [matching, h]
    rfl
  · exact hall _ (.inr h)

theorem hscanKeys_eq_none {W : World} {pattern : Bytes} {m : FiniteMaps.FMap Bytes JsonText.Json}
    (h : ¬ Globs W pattern m) : hscanKeys W pattern (sortedKeys m) = none := by
  rw [Globs, not_or, not_or, Option.not_isSome_iff_eq_none] at h
  obtain ⟨hp, hkeys, hre⟩ := h
  obtain ⟨k, l, hl⟩ := exists_cons_of_ne_nil hkeys
  rw [hl, hscanKeys, if_neg hp, globMatch, hre]
  rfl

theorem addInt_eq {a b : ℤ} (hlow : -9223372036854775808 ≤ a + b) (hhigh : a + b ≤ 9223372036854775807) :
    addInt a b = a + b := by
  rw [addInt, Int.emod_eq_of_lt (by omega) (by omega)]
  omega

theorem hscanPage_isSome {keys : List Bytes} {cursor count : ℤ} (hpos : 0 ≤ cursor)
    (h : cursor < keys.length → cursor + count ≤ 9223372036854775807) : (hscanPage keys cursor count).isSome := by
  rw [hscanPage]
  split
  · next hlt =>
    split
    · next hcount =>
      have hsum := addInt_eq (by omega) (h hlt)
      rw [hsum] at hcount ⊢
      rw [if_neg (by omega)]
      rfl
    · rfl
  · rfl

variable {args fs : List Bytes}

/-- A page of `HSCAN` is an answer when its bounds are in range. -/
theorem clean_handleHscan {W : World} (h : Harmless W args)
    (hname : toUpper (args.headD []) = ascii "HSCAN") : ∃ v, handleHscan W args = some v ∧ Clean v := by
  have hcursor : Clean (.error (ascii "ERR invalid cursor")) := by
    have h : Plain (ascii "ERR invalid cursor") := plain_ascii rfl rfl
    exact h
  rw [handleHscan]
  split
  · exact ⟨_, rfl, clean_wrongNumber (plain_ascii rfl rfl)⟩
  · split
    · exact ⟨_, rfl, hcursor⟩
    · next cursor hatoi =>
      split
      · exact ⟨_, rfl, hcursor⟩
      · next hneg =>
        split
        · exact ⟨_, rfl, clean_noPermRead⟩
        · split
          · exact ⟨_, rfl, clean_error plain_notMapped⟩
          · cases hread : readStored W.floats W.store (topicOf args) hash asMap with
            | absent => exact ⟨_, rfl, clean_emptyPage⟩
            | wrong => exact ⟨_, rfl, clean_errWrongType⟩
            | value m =>
              obtain ⟨hglobs, hrange⟩ := h.hscan hname m cursor hread hatoi
              obtain ⟨p, hp⟩ := Option.isSome_iff_exists.mp (hscanPage_isSome (by omega) hrange)
              refine ⟨.array [bulk (signed p.2), bulks (p.1.flatMap fun k => [k, valueAt W.floats m k])], ?_,
                ⟨trivial, clean_bulks _, trivial⟩⟩
              change (hscanKeys W (hscanMatch (args.drop 3)) (sortedKeys m)).bind _ = _
              rw [hscanKeys_eq_some hglobs, Option.bind_some, hp, Option.map_some]

theorem clean_answer {W : World} (hW : W.Quiet) (h : Harmless W args) :
    ∃ v, answer W args = some v ∧ Clean v := by
  rw [answer]
  split
  · next hname => exact clean_handleHscan h hname
  · split
    · next hname => exact clean_handleScan args hW (h.scan hname)
    · split
      · next hname => exact clean_handleKeys args hW (h.keys hname)
      · exact ⟨_, rfl, clean_respond args hW h.name h.type⟩

theorem plain_refusedBy {W : World} (hW : W.Quiet) (h : Harmless W args) {msg : Bytes}
    (hmsg : refusedBy W args = some msg) : Plain msg := by
  rw [refusedBy] at hmsg
  split at hmsg
  · next isPattern hcmd =>
    rw [refusal, rejection] at hmsg
    split at hmsg
    · cases hmsg
      exact plain_ascii rfl rfl
    · obtain ⟨f, hf, hreject⟩ := exists_of_findSome?_eq_some hmsg
      cases hwhy : W.rejects f with
      | none =>
        rw [hwhy] at hreject
        cases hreject
      | some why =>
        rw [hwhy] at hreject
        cases hreject
        have hplain := h.filters isPattern hcmd f hf (by rw [hwhy]; rfl)
        exact (plain_append).mpr ⟨(plain_append).mpr ⟨(plain_append).mpr ⟨plain_ascii rfl rfl, hplain⟩,
          plain_ascii rfl rfl⟩, hW.rejects f why hwhy⟩
  · cases hmsg

def OneValue (f : Bytes) : Prop := ∃ v, Clean v ∧ f = frame v

theorem oneValue_respErr {s : Bytes} (h : Plain s) : OneValue (respErr s) := ⟨.error s, h, by rw [frame]; rfl⟩

private theorem respInteger_eq (n : ℕ) : respInteger n = frame (.integer n) := by
  rw [frame, signed, if_neg (by omega), Int.natAbs_natCast]
  rfl

theorem respBulk_eq (b : Option Bytes) : respBulk b = frame (.bulk b) := by
  cases b with
  | none | some b => rw [frame]; rfl

private theorem frames_eq (vs : List RespValue) : frames vs = (vs.map frame).flatten := by
  induction vs with
  | nil => rfl
  | cons v vs ih => rw [frames, ih, map_cons, flatten_cons]

theorem respArray_eq (vs : List RespValue) : respArray (vs.map frame) = frame (.array vs) := by
  rw [frame, frames_eq, respArray, length_map]

theorem oneValue_subReply (cmdName : String) (name : Option Bytes) (total : ℕ) :
    OneValue (subReply cmdName name total) := by
  refine ⟨.array [.bulk (some (ascii cmdName)), .bulk name, .integer total], ⟨trivial, trivial, trivial, trivial⟩, ?_⟩
  rw [← respArray_eq, subReply, respBulk_eq, respBulk_eq, respInteger_eq]
  rfl

theorem oneValue_writePubSubFrame (d : PubSubDelivery) : OneValue (writePubSubFrame d) := by
  rw [writePubSubFrame]
  split
  · refine ⟨.array [.bulk (some (ascii "pmessage")), .bulk (some d.key.name), .bulk (some d.topicName),
      .bulk (some d.payload)], ⟨trivial, trivial, trivial, trivial, trivial⟩, ?_⟩
    rw [← respArray_eq, respBulk_eq, respBulk_eq, respBulk_eq, respBulk_eq]
    rfl
  · refine ⟨.array [.bulk (some (ascii "message")), .bulk (some d.topicName), .bulk (some d.payload)],
      ⟨trivial, trivial, trivial, trivial⟩, ?_⟩
    rw [← respArray_eq, respBulk_eq, respBulk_eq, respBulk_eq]
    rfl

theorem readAll_of_oneValue (h : ∀ f ∈ fs, OneValue f) :
    ∃ vs, readAll fs.flatten.length fs.flatten = some vs ∧ vs.map frame = fs := by
  have hall : ∃ vs : List RespValue, (∀ v ∈ vs, Clean v) ∧ vs.map frame = fs := by
    induction fs with
    | nil => exact ⟨[], (fun v hv => by cases hv), rfl⟩
    | cons f fs ih =>
      obtain ⟨v, hv, rfl⟩ := h f mem_cons_self
      obtain ⟨vs, hvs, rfl⟩ := ih fun g hg => h g (mem_cons_of_mem _ hg)
      refine ⟨v :: vs, fun w hw => ?_, rfl⟩
      rcases mem_cons.mp hw with rfl | hw
      · exact hv
      · exact hvs w hw
  obtain ⟨vs, hclean, rfl⟩ := hall
  refine ⟨vs, ?_, rfl⟩
  have hlen : ∀ vs : List RespValue, vs.length ≤ (vs.map frame).flatten.length := by
    intro vs
    induction vs with
    | nil => exact Nat.zero_le _
    | cons v vs ih =>
      have hpos := length_pos_of_ne_nil (frame_ne_nil v)
      rw [map_cons, flatten_cons, length_append, length_cons]
      omega
  rw [← flatMap_def]
  refine readAll_frames hclean _ ?_
  rw [flatMap_def]
  exact hlen vs

def Named (cmdName : String) : List Bytes → List Bytes → Prop :=
  List.Forall₂ fun name f => ∃ t, f = subReply cmdName (some name) t

/-- The replies to a command that gives up all subscriptions of a kind: one for each that is held, or one
if there is none. -/
def AllRemoved (isPattern : Bool) (held fs : List Bytes) : Prop :=
  if held = [] then ∃ t, fs = [subReply (unsubscribeName isPattern) none t]
  else ∃ order, order.Perm held ∧ Named (unsubscribeName isPattern) order fs

def namesOf (isPattern : Bool) (subs : List SubKey) : List Bytes :=
  (subs.filter fun k => k.isPattern = isPattern).map SubKey.name

/-- The frames that an operation of `serve` writes; `H` tells what subscriptions there may be. -/
def Written (H : List SubKey → Prop) : Op Action → List Bytes → Prop
  | .act (.write f), fs => fs = [f]
  | .act (.subscribe k), fs => Named (subscribeName k.isPattern) [k.name] fs
  | .act (.unsubscribe k), fs => Named (unsubscribeName k.isPattern) [k.name] fs
  | .act (.unsubscribeAll isPattern), fs => ∃ subs, H subs ∧ AllRemoved isPattern (namesOf isPattern subs) fs
  | _, fs => fs = []

inductive WrittenBy (H : List SubKey → Prop) : Program → List Bytes → Prop where
  | nil : WrittenBy H [] []
  | cons {op : Op Action} {ops : Program} {fs gs : List Bytes} (h : Written H op fs) (h' : WrittenBy H ops gs) :
    WrittenBy H (op :: ops) (fs ++ gs)

@[grind =] def Silent : Op Action → Prop
  | .act (.write _) | .act (.subscribe _) | .act (.unsubscribe _) | .act (.unsubscribeAll _) => False
  | _ => True

variable {H : List SubKey → Prop}

theorem Written.mono {H' : List SubKey → Prop} {op : Op Action} (h : Written H op fs)
    (hH : ∀ subs, H subs → H' subs) : Written H' op fs := by
  cases op with
  | lock => exact h
  | unlock => exact h
  | act a =>
    cases a with
    | unsubscribeAll isPattern =>
      obtain ⟨subs, hsubs, hremoved⟩ := h
      exact ⟨subs, hH subs hsubs, hremoved⟩
    | write | subscribe | unsubscribe | batch | flush | close => exact h

theorem written_of_silent {op : Op Action} (hop : Silent op) (h : Written H op fs) : fs = [] := by
  cases op with
  | lock => exact h
  | unlock => exact h
  | act a => cases a <;> first | exact h | exact absurd hop id

theorem writtenBy_silent {ops : Program} (hops : ∀ op ∈ ops, Silent op) (h : WrittenBy H ops fs) :
    fs = [] := by
  induction h with
  | nil => rfl
  | cons hop _ ih =>
    rw [written_of_silent (hops _ mem_cons_self) hop, ih fun op hmem => hops op (mem_cons_of_mem _ hmem)]
    rfl

theorem writtenBy_append {ops ops' : Program} (h : WrittenBy H (ops ++ ops') fs) :
    ∃ gs gs', fs = gs ++ gs' ∧ WrittenBy H ops gs ∧ WrittenBy H ops' gs' := by
  induction ops generalizing fs with
  | nil => exact ⟨[], fs, rfl, .nil, h⟩
  | cons op ops ih =>
    cases h with
    | cons hop hops =>
      obtain ⟨gs, gs', rfl, hgs, hgs'⟩ := ih hops
      exact ⟨_ ++ gs, gs', (append_assoc _ _ _).symm, .cons hop hgs, hgs'⟩

theorem writtenBy_locked {as : List Action} (h : WrittenBy H (locked as) fs) :
    WrittenBy H (as.map .act) fs := by
  cases h with
  | cons hlock h =>
    obtain ⟨gs, gs', rfl, hgs, hgs'⟩ := writtenBy_append h
    have hnil := writtenBy_silent (by simp [Silent]) hgs'
    cases hlock
    rw [hnil, append_nil]
    exact hgs

theorem writtenBy_single {a : Action} (h : WrittenBy H (locked [a]) fs) : Written H (.act a) fs := by
  cases writtenBy_locked h with
  | cons hop hrest =>
    cases hrest
    rwa [append_nil]

theorem named_append {cmdName : String} {ns ns' gs : List Bytes} (h : Named cmdName ns fs)
    (h' : Named cmdName ns' gs) : Named cmdName (ns ++ ns') (fs ++ gs) := List.rel_append h h'

private theorem named_subscribes {isPattern : Bool} {filters : List Bytes}
    (h : WrittenBy H (filters.flatMap fun f => locked [.subscribe ⟨isPattern, f⟩]) fs) :
    Named (subscribeName isPattern) filters fs := by
  induction filters generalizing fs with
  | nil =>
    cases h
    exact .nil
  | cons f filters ih =>
    rw [flatMap_cons] at h
    obtain ⟨gs, gs', rfl, hgs, hgs'⟩ := writtenBy_append h
    exact named_append (writtenBy_single hgs) (ih hgs')

private theorem named_unsubscribes {isPattern : Bool} {filters : List Bytes}
    (h : WrittenBy H (locked (filters.map fun f => .unsubscribe ⟨isPattern, f⟩)) fs) :
    Named (unsubscribeName isPattern) filters fs := by
  have hacts := writtenBy_locked h
  clear h
  induction filters generalizing fs with
  | nil =>
    cases hacts
    exact .nil
  | cons f filters ih =>
    cases hacts with
    | cons hop hrest => exact named_append hop (ih hrest)

/-- The frames of a command: one, or one for each channel; a command that is refused has one error. -/
@[grind =] def Answered (H : List SubKey → Prop) (args : List Bytes) (fs : List Bytes) : Prop :=
  match commandOf (args.headD []) with
  | .subscribe isPattern => Named (subscribeName isPattern) args.tail fs ∨ ∃ msg, fs = [respErr msg]
  | .unsubscribe isPattern =>
    (if args.tail = [] then ∃ subs, H subs ∧ AllRemoved isPattern (namesOf isPattern subs) fs
      else Named (unsubscribeName isPattern) args.tail fs) ∨ ∃ msg, fs = [respErr msg]
  | _ => fs.length = 1

theorem answered_reply {msg : Bytes} (h : fs = [respErr msg]) : Answered H args fs := by
  rw [Answered]
  split
  · exact .inr ⟨msg, h⟩
  · exact .inr ⟨msg, h⟩
  · rw [h]
    rfl

/-- What `dispatch` has `serve` do is an answer to the command. -/
theorem answered_of_dispatch {E : Env} {c : Conn}
    (h : WrittenBy H (c.dispatch E args).1 fs) : Answered H args fs := by
  cases args with
  | nil => exact answered_reply (writtenBy_single h)
  | cons cmd filters =>
    rw [Conn.dispatch.eq_def] at h
    dsimp only at h
    split at h
    · exact answered_reply (writtenBy_single h)
    · rw [Answered, headD_cons, tail_cons]
      cases hcmd : commandOf cmd with
      | quit =>
        rw [hcmd] at h
        obtain ⟨gs, gs', rfl, hgs, hgs'⟩ := writtenBy_append h
        have hone : gs = [respSimple "OK"] := writtenBy_single hgs
        rw [hone, writtenBy_silent (by simp [Silent]) hgs']
        rfl
      | subscribe isPattern =>
        rw [hcmd] at h
        dsimp only at h
        split at h
        · exact .inr ⟨_, writtenBy_single h⟩
        · split at h
          · exact .inr ⟨_, writtenBy_single h⟩
          · exact .inl (named_subscribes h)
      | unsubscribe isPattern =>
        rw [hcmd] at h
        dsimp only at h
        left
        split at h
        · next hnil =>
          rw [if_pos (List.isEmpty_iff.mp hnil)]
          exact writtenBy_single h
        · next hne =>
          rw [if_neg (fun hnil => hne (by rw [hnil]; rfl))]
          exact named_unsubscribes h
      | auth | hello | ping | client | other =>
        rw [hcmd] at h
        have hone : fs = [E.answer c.count] := writtenBy_single h
        rw [hone]
        rfl

end MonsterMQ.Redis
