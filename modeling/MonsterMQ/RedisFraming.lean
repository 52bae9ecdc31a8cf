import MonsterMQ.RedisAnswers

/-!
# The framing of the replies

Every write of a connection is one frame, under `writeMu`, as long as the texts that the code puts into
lines have no carriage return and no line feed.
-/

namespace MonsterMQ.Redis

open LittleEndian Auth JsonText FiniteMaps List

structure World.Quiet (W : World) : Prop where
  group : ∀ g, W.group = some g → Plain g
  del : ∀ e, W.delError = some e → Plain e
  find : ∀ p e, (W.findMatchingTopics p).2 = some e → Plain e
  rejects : ∀ f why, W.rejects f = some why → Plain why
  marshal : ∀ l e, W.marshalError l = some e → Plain e
  upper : ∀ s, Plain s → Plain (W.upper s)

theorem clean_error {s : Bytes} (h : Plain s) : Clean (.error s) := h

theorem clean_bulk (b : Option Bytes) : Clean (.bulk b) := trivial

theorem clean_integer (n : ℤ) : Clean (.integer n) := trivial

theorem clean_nullArray : Clean .nullArray := trivial

private theorem cleanItems_of_forall {vs : List RespValue} (h : ∀ v ∈ vs, Clean v) : CleanItems vs := by
  induction vs with
  | nil => trivial
  | cons v vs ih => exact ⟨h v mem_cons_self, ih fun w hw => h w (mem_cons_of_mem v hw)⟩

theorem clean_array {vs : List RespValue} (h : ∀ v ∈ vs, Clean v) : Clean (.array vs) := cleanItems_of_forall h

theorem clean_arrayOf {α : Type} (l : List α) (f : α → Option Bytes) : Clean (.array (l.map fun x => .bulk (f x))) := by
  refine clean_array fun v hv => ?_
  obtain ⟨x, -, rfl⟩ := mem_map.mp hv
  exact clean_bulk _

theorem clean_bulks (bs : List Bytes) : Clean (bulks bs) := clean_arrayOf bs some

theorem clean_wrongNumber {cmd : Bytes} (h : Plain cmd) : Clean (wrongNumber cmd) :=
  (plain_append).mpr ⟨(plain_append).mpr ⟨plain_ascii rfl rfl, h⟩, plain_ascii rfl rfl⟩

theorem clean_checked {c : Prop} [Decidable c] {cmd : Bytes} {r : RespValue} (hcmd : Plain cmd) (hr : Clean r) :
    Clean (if c then wrongNumber cmd else r) := by
  split
  · exact clean_wrongNumber hcmd
  · exact hr

theorem clean_errWrongType : Clean errWrongType := by
  have h : Plain (ascii "WRONGTYPE Operation against a key holding the wrong kind of value") := plain_ascii rfl rfl
  exact h

theorem clean_notAnInteger : Clean notAnInteger := by
  have h : Plain (ascii "ERR value is not an integer or out of range") := plain_ascii rfl rfl
  exact h

theorem plain_notMapped : Plain notMapped := plain_ascii rfl rfl

theorem plain_readOnly {g : Bytes} (h : Plain g) :
    Plain (ascii "ERR last value store of archive group [" ++ g ++ ascii "] is read-only") :=
  (plain_append).mpr ⟨(plain_append).mpr ⟨plain_ascii rfl rfl, h⟩, plain_ascii rfl rfl⟩

theorem plain_err {e : Bytes} (h : Plain e) : Plain (ascii "ERR " ++ e) := (plain_append).mpr ⟨plain_ascii rfl rfl, h⟩

theorem plain_toLower {s : Bytes} (h : Plain s) : Plain (toLower s) := by
  have hlower : ∀ b : UInt8, b = 0x0d ∨ b = 0x0a → b ∈ toLower s → b ∈ s := by
    intro b hb hmem
    obtain ⟨c, hc, hcb⟩ := mem_map.mp hmem
    split at hcb
    · next hup =>
      exfalso
      have hlow := UInt8.le_iff_toNat_le.mp hup.1
      have hhigh := UInt8.le_iff_toNat_le.mp hup.2
      have hnat := congrArg UInt8.toNat hcb
      rw [UInt8.toNat_add] at hnat
      rcases hb with rfl | rfl <;> simp at hlow hhigh hnat <;> omega
    · rw [← hcb]
      exact hc
  exact ⟨fun hb => h.1 (hlower _ (.inl rfl) hb), fun hb => h.2 (hlower _ (.inr rfl) hb)⟩

section Shared

variable {E : Access} {S : Store} {topic typ cmd : Bytes} {α : Type} {cast : Json → Option α}

theorem clean_elim {h : Held α} {absent : RespValue} {body : α → RespValue} (habsent : Clean absent)
    (hbody : ∀ a, Clean (body a)) : Clean (h.elim absent errWrongType body) := by
  cases h with
  | absent => exact habsent
  | wrong => exact clean_errWrongType
  | value a => exact hbody a

theorem clean_readAs {absent : RespValue} {body : α → RespValue} (habsent : Clean absent)
    (hbody : ∀ a, Clean (body a)) : Clean (readAs E S topic typ cast absent body) := by
  rw [readAs]
  split
  · have h : Plain (ascii "NOPERM no permission to read topic") := plain_ascii rfl rfl
    exact h
  · split
    · exact clean_error plain_notMapped
    · exact clean_elim habsent hbody

theorem plain_publishMessage {payload err : Bytes} (h : publishMessage E S topic payload = .error err) : Plain err := by
  rw [publishMessage] at h
  split at h
  · next e _ =>
    cases h
    refine plain_err ⟨?_, ?_⟩
    · intro hmem
      obtain ⟨b, -, hb⟩ := mem_map.mp hmem
      split at hb
      · exact absurd hb (by decide)
      · next hne => exact hne (.inl hb)
    · intro hmem
      obtain ⟨b, -, hb⟩ := mem_map.mp hmem
      split at hb
      · exact absurd hb (by decide)
      · next hne => exact hne (.inr hb)
  · cases h

theorem clean_finish {p : Option Json × RespValue} (h : Clean p.2) : Clean (finish E S topic typ p).2 := by
  obtain ⟨new, reply⟩ := p
  cases new with
  | none => exact h
  | some v =>
    rw [finish]
    split
    · next err herr => exact clean_error (plain_publishMessage herr)
    · exact h

theorem plain_validateWrite (hgroup : ∀ g, E.group = some g → Plain g) (hcmd : Plain cmd) {err : Bytes}
    (h : validateWrite E cmd topic = some err) : Plain err := by
  rw [validateWrite] at h
  split at h
  · cases h
    exact plain_ascii rfl rfl
  · split at h
    · cases h
      exact (plain_append).mpr ⟨(plain_append).mpr ⟨plain_ascii rfl rfl, plain_toLower hcmd⟩, plain_ascii rfl rfl⟩
    · split at h
      · cases h
        exact plain_notMapped
      · next g hg =>
        split at h
        · cases h
          exact plain_ascii rfl rfl
        · split at h
          · cases h
            exact plain_readOnly (hgroup g hg)
          · split at h
            · cases h
              exact plain_ascii rfl rfl
            · cases h

theorem clean_writeAs (hgroup : ∀ g, E.group = some g → Plain g) (hcmd : Plain cmd)
    {absent : Option Json × RespValue} {body : α → Option Json × RespValue} (habsent : Clean absent.2)
    (hbody : ∀ a, Clean (body a).2) : Clean (writeAs E S cmd topic typ cast absent body).2 := by
  rw [writeAs]
  split
  · next err herr => exact clean_error (plain_validateWrite hgroup hcmd herr)
  · refine clean_finish ?_
    cases readStored E.floats S topic typ cast with
    | absent => exact habsent
    | wrong => exact clean_errWrongType
    | value a => exact hbody a

end Shared

section Structs

variable {E : Access} {S : Store} (args : List Bytes)

section

variable (hgroup : ∀ g, E.group = some g → Plain g)
include hgroup

private theorem clean_handleHset : Clean (handleHset E S args).2 := by
  rw [handleHset]
  split
  · exact clean_wrongNumber (plain_ascii rfl rfl)
  · exact clean_writeAs hgroup (plain_ascii rfl rfl) (clean_integer _) fun a => clean_integer _

private theorem clean_handleHdel : Clean (handleHdel E S args).2 := by
  rw [handleHdel]
  split
  · exact clean_wrongNumber (plain_ascii rfl rfl)
  · exact clean_writeAs hgroup (plain_ascii rfl rfl) (clean_integer _) fun a => clean_integer _

private theorem clean_handleSadd : Clean (handleSadd E S args).2 := by
  rw [handleSadd]
  split
  · exact clean_wrongNumber (plain_ascii rfl rfl)
  · exact clean_writeAs hgroup (plain_ascii rfl rfl) (clean_integer _) fun a => clean_integer _

private theorem clean_handleSrem : Clean (handleSrem E S args).2 := by
  rw [handleSrem]
  split
  · exact clean_wrongNumber (plain_ascii rfl rfl)
  · exact clean_writeAs hgroup (plain_ascii rfl rfl) (clean_integer _) fun a => clean_integer _

theorem clean_handleListPush (hname : Plain (args.headD []))
    (isLeft : Bool) : Clean (handleListPush E S args isLeft).2 := by
  rw [handleListPush]
  split
  · exact clean_wrongNumber (plain_toLower hname)
  · exact clean_writeAs hgroup (plain_toLower hname) (clean_integer _) fun a => clean_integer _

theorem clean_handleListPop (hname : Plain (args.headD []))
    (isLeft : Bool) : Clean (handleListPop E S args isLeft).2 := by
  rw [handleListPop]
  split
  · exact clean_wrongNumber (plain_toLower hname)
  · refine clean_writeAs hgroup (plain_toLower hname) (clean_bulk _) fun a => ?_
    dsimp only
    split
    · exact clean_bulk _
    · split
      · exact clean_bulk _
      · exact clean_bulk _

end

private theorem clean_handleHget : Clean (handleHget E S args) := by
  rw [handleHget]
  refine clean_checked (plain_ascii rfl rfl) ?_
  refine clean_readAs (clean_bulk _) fun m => ?_
  split
  · exact clean_bulk _
  · exact clean_bulk _

private theorem clean_handleHgetall : Clean (handleHgetall E S args) := by
  rw [handleHgetall]
  exact clean_checked (plain_ascii rfl rfl) (clean_readAs clean_nullArray fun m => clean_bulks _)

private theorem clean_handleHlen : Clean (handleHlen E S args) := by
  rw [handleHlen]
  exact clean_checked (plain_ascii rfl rfl) (clean_readAs (clean_integer _) fun m => clean_integer _)

private theorem clean_handleHkeys : Clean (handleHkeys E S args) := by
  rw [handleHkeys]
  exact clean_checked (plain_ascii rfl rfl) (clean_readAs clean_nullArray fun m => clean_bulks _)

private theorem clean_handleHvals : Clean (handleHvals E S args) := by
  rw [handleHvals]
  exact clean_checked (plain_ascii rfl rfl) (clean_readAs clean_nullArray fun m => clean_bulks _)

private theorem clean_handleSmembers : Clean (handleSmembers E S args) := by
  rw [handleSmembers]
  exact clean_checked (plain_ascii rfl rfl) (clean_readAs clean_nullArray fun m => clean_bulks _)

private theorem clean_handleSismember : Clean (handleSismember E S args) := by
  rw [handleSismember]
  exact clean_checked (plain_ascii rfl rfl) (clean_readAs (clean_integer _) fun m => clean_integer _)

private theorem clean_handleScard : Clean (handleScard E S args) := by
  rw [handleScard]
  exact clean_checked (plain_ascii rfl rfl) (clean_readAs (clean_integer _) fun m => clean_integer _)

private theorem clean_handleLrange : Clean (handleLrange E S args) := by
  rw [handleLrange]
  refine clean_checked (plain_ascii rfl rfl) ?_
  split
  · exact clean_readAs clean_nullArray fun m => clean_bulks _
  · exact clean_notAnInteger

private theorem clean_handleLlen : Clean (handleLlen E S args) := by
  rw [handleLlen]
  exact clean_checked (plain_ascii rfl rfl) (clean_readAs (clean_integer _) fun m => clean_integer _)

private theorem clean_handleLindex : Clean (handleLindex E S args) := by
  rw [handleLindex]
  refine clean_checked (plain_ascii rfl rfl) ?_
  split
  · exact clean_notAnInteger
  · refine clean_readAs (clean_bulk _) fun m => ?_
    dsimp only
    split <;> split <;> exact clean_bulk _

end Structs

section Worlds

variable {W : World} (args : List Bytes)

theorem clean_ok : Clean ok := by
  have h : Plain (ascii "OK") := plain_ascii rfl rfl
  exact h

theorem clean_wrongPass : Clean wrongPass := by
  have h : Plain (ascii "WRONGPASS invalid username-password pair or user is disabled.") := plain_ascii rfl rfl
  exact h

theorem clean_writeHello : Clean (writeHello W) := by
  simp only [writeHello, Clean, CleanItems, bulk, and_self]

private theorem clean_handleAuth : Clean (handleAuth W args) := by
  rw [handleAuth]
  refine clean_checked (plain_ascii rfl rfl) ?_
  dsimp only
  split <;> split <;> first | exact clean_ok | exact clean_wrongPass

private theorem clean_handleHello : Clean (handleHello W args) := by
  rw [handleHello]
  split
  · have h : Plain (ascii "NOPROTO sorry, this protocol version is not supported.") := plain_ascii rfl rfl
    exact h
  · split
    · exact clean_writeHello
    · split
      · split
        · exact clean_writeHello
        · exact clean_wrongPass
      · exact clean_writeHello

private theorem clean_handlePing : Clean (handlePing args) := by
  rw [handlePing]
  refine clean_checked (plain_ascii rfl rfl) ?_
  split
  · exact clean_bulk _
  · have h : Plain (ascii "PONG") := plain_ascii rfl rfl
    exact h

private theorem clean_handleEcho : Clean (handleEcho args) := by
  rw [handleEcho]
  exact clean_checked (plain_ascii rfl rfl) (clean_bulk _)

private theorem clean_handleSelect : Clean (handleSelect W args) := by
  have hindex : Clean (.error (ascii "ERR invalid DB index")) := by
    have h : Plain (ascii "ERR invalid DB index") := plain_ascii rfl rfl
    exact h
  rw [handleSelect]
  refine clean_checked (plain_ascii rfl rfl) ?_
  split
  · exact hindex
  · split
    · exact hindex
    · split
      · have h : Plain (ascii "ERR DB index is not mapped to an archive group") := plain_ascii rfl rfl
        exact h
      · exact clean_ok

private theorem clean_handleClient : Clean (handleClient W args) := by
  rw [handleClient]
  refine clean_checked (plain_ascii rfl rfl) ?_
  dsimp only
  split
  · exact clean_ok
  · split
    · split
      · exact clean_bulk _
      · exact clean_bulk _
    · split
      · exact clean_ok
      · split
        · exact clean_integer _
        · have h : Plain (ascii "ERR unsupported CLIENT subcommand") := plain_ascii rfl rfl
          exact h

private theorem clean_handleCommand : Clean (handleCommand args) := by
  rw [handleCommand]
  split
  · exact clean_integer _
  · split
    · exact clean_arrayOf _ fun _ => none
    · exact clean_nullArray

theorem clean_noPermRead : Clean noPermRead := by
  have h : Plain (ascii "NOPERM no permission to read topic") := plain_ascii rfl rfl
  exact h

theorem clean_noPermReads : Clean noPermReads := by
  have h : Plain (ascii "NOPERM no permission to read one or more topics") := plain_ascii rfl rfl
  exact h

variable {topics : List Bytes} {answer : RespValue}

theorem clean_readingAll {denied : RespValue} (hdenied : Clean denied)
    (hanswer : Clean answer) : Clean (readingAll W topics denied answer) := by
  rw [readingAll]
  split
  · exact hdenied
  · split
    · exact clean_error plain_notMapped
    · exact hanswer

private theorem clean_handleGet : Clean (handleGet W args) := by
  rw [handleGet]
  exact clean_checked (plain_ascii rfl rfl) (clean_readingAll clean_noPermRead (clean_bulk _))

theorem clean_handleGetRange (hname : Plain (args.headD [])) : Clean (handleGetRange W args) := by
  rw [handleGetRange]
  refine clean_checked (plain_toLower hname) ?_
  split
  · exact clean_readingAll clean_noPermRead (clean_bulk _)
  · exact clean_notAnInteger

private theorem clean_handleMget : Clean (handleMget W args) := by
  rw [handleMget]
  exact clean_checked (plain_ascii rfl rfl) (clean_readingAll clean_noPermReads (clean_arrayOf _ fun t => W.store t))

variable {err : Bytes}

theorem plain_validateGroup (hW : W.Quiet) {topic : Bytes} {isPublish : Bool}
    (h : validateGroup W topic isPublish = some err) : Plain err := by
  rw [validateGroup] at h
  split at h
  · split at h
    · cases h
      exact plain_notMapped
    · split at h
      · cases h
        exact plain_ascii rfl rfl
      · cases h
  · next g hg =>
    split at h
    · cases h
      exact plain_ascii rfl rfl
    · split at h
      · cases h
        exact plain_readOnly (hW.group g hg)
      · split at h
        · cases h
          exact plain_ascii rfl rfl
        · cases h

theorem plain_validateValue (hW : W.Quiet) {topic : Bytes} (h : validateValue W topic = .error err) : Plain err := by
  rw [validateValue] at h
  split at h
  · cases h
    exact plain_ascii rfl rfl
  · split at h
    · split at h
      · cases h
        exact plain_ascii rfl rfl
      · cases h
    · split at h
      · next e he =>
        cases h
        exact plain_validateGroup hW he
      · cases h

theorem plain_publishErr {topic payload : Bytes} (h : publishErr W topic payload = some err) : Plain err := by
  rw [publishErr] at h
  split at h
  · next e he =>
    cases h
    exact plain_publishMessage he
  · cases h

theorem clean_orOk {o : Option Bytes} (h : ∀ e, o = some e → Plain e) : Clean (orOk o) := by
  cases o with
  | none => exact clean_ok
  | some e => exact h e rfl

private theorem clean_handleSet (hW : W.Quiet) : Clean (handleSet W args) := by
  rw [handleSet]
  refine clean_checked (plain_ascii rfl rfl) ?_
  split
  · next err herr => exact clean_error (plain_validateValue hW herr)
  · exact clean_orOk fun e he => plain_publishErr he

private theorem mapM_error {α β : Type} {f : α → Except Bytes β} {l : List α} (h : l.mapM f = .error err) :
    ∃ a ∈ l, f a = .error err := by
  induction l with
  | nil => cases h
  | cons a l ih =>
    rw [mapM_cons] at h
    cases ha : f a with
    | error e =>
      rw [ha] at h
      cases h
      exact ⟨a, mem_cons_self, ha⟩
    | ok b =>
      rw [ha] at h
      cases hl : l.mapM f with
      | error e =>
        rw [hl] at h
        cases h
        obtain ⟨c, hc, hfc⟩ := ih hl
        exact ⟨c, mem_cons_of_mem a hc, hfc⟩
      | ok bs =>
        rw [hl] at h
        cases h

private theorem clean_handleMset (hW : W.Quiet) : Clean (handleMset W args) := by
  rw [handleMset]
  refine clean_checked (plain_ascii rfl rfl) ?_
  split
  · next err herr =>
    obtain ⟨p, -, hp⟩ := mapM_error herr
    cases hv : validateValue W p.1 with
    | error e =>
      rw [hv] at hp
      cases hp
      exact clean_error (plain_validateValue hW hv)
    | ok t =>
      rw [hv] at hp
      cases hp
  · refine clean_orOk fun e he => ?_
    obtain ⟨w, -, hw⟩ := exists_of_findSome?_eq_some he
    exact plain_publishErr hw

theorem clean_deleted (hW : W.Quiet) (count : ℕ) : Clean (deleted W count) := by
  rw [deleted]
  split
  · next err herr => exact clean_error (plain_err (hW.del err herr))
  · exact clean_integer _

theorem clean_deleting (hW : W.Quiet) {cmd : String} {denied : RespValue}
    (hcmd : Clean (nativeError cmd)) (hdenied : Clean denied) (hanswer : Clean answer) :
    Clean (deleting W cmd topics denied answer) := by
  rw [deleting]
  split
  · exact hcmd
  · split
    · exact hdenied
    · split
      · exact clean_error plain_notMapped
      · next g hg =>
        split
        · exact clean_error (plain_readOnly (hW.group g hg))
        · split
          · exact clean_integer _
          · exact hanswer

theorem clean_nativeError {cmd : String} (h : Plain (ascii cmd)) : Clean (nativeError cmd) := by
  refine clean_error ?_
  rw [ascii_append, ascii_append]
  exact (plain_append).mpr ⟨(plain_append).mpr ⟨plain_ascii rfl rfl, h⟩, plain_ascii rfl rfl⟩

private theorem clean_handleDel (hW : W.Quiet) : Clean (handleDel W args) := by
  rw [handleDel]
  refine clean_checked (plain_ascii rfl rfl) ?_
  refine clean_deleting hW ?_ ?_ (clean_deleted hW _)
  · exact clean_nativeError (plain_ascii rfl rfl)
  · have h : Plain (ascii "NOPERM no permission to delete one or more topics") := plain_ascii rfl rfl
    exact h

private theorem clean_handleExists : Clean (handleExists W args) := by
  rw [handleExists]
  exact clean_checked (plain_ascii rfl rfl) (clean_readingAll clean_noPermReads (clean_integer _))

theorem clean_handleTtl (hname : Plain (args.headD [])) : Clean (handleTtl W args) := by
  rw [handleTtl]
  exact clean_checked (plain_toLower hname) (clean_readingAll clean_noPermRead (clean_integer _))

private theorem clean_page : Clean (.array [bulk (ascii "0"), bulks topics]) :=
  ⟨trivial, clean_bulks topics, trivial⟩

theorem clean_emptyPage : Clean (.array [bulk (ascii "0"), .nullArray]) := ⟨trivial, trivial, trivial⟩

/-- No topic that the store finds for a pattern makes its post filter panic. -/
def Tested (W : World) (pattern : Bytes) : Prop :=
  ∀ f ∈ (redisPatternToMqtt W.compile pattern).2,
    ∀ t ∈ (W.findMatchingTopics (redisPatternToMqtt W.compile pattern).1).1, (f t).isSome

theorem collectTopics_isSome {postFilter : Option (Bytes → Option Bool)} {ts : List Bytes}
    (h : ∀ f ∈ postFilter, ∀ t ∈ ts, (f t).isSome) (topics : List Bytes) :
    (collectTopics W postFilter topics ts).isSome := by
  induction ts generalizing topics with
  | nil => rfl
  | cons t ts ih =>
    have hpasses : ∃ passes, postFilter.elim (some true) (fun f => f t) = some passes := by
      cases postFilter with
      | none => exact ⟨true, rfl⟩
      | some f => exact Option.isSome_iff_exists.mp (h f rfl t mem_cons_self)
    obtain ⟨passes, hpasses⟩ := hpasses
    rw [collectTopics, hpasses]
    rw [Option.bind_eq_bind, Option.bind_some]
    generalize (if (passes && W.canRead t) = true then topics ++ [t] else topics) = topics
    dsimp only
    split
    · exact ih (fun f hf t ht => h f hf t (mem_cons_of_mem _ ht)) topics
    · rfl

theorem clean_findTopics (hW : W.Quiet) {pattern : Bytes} (h : Tested W pattern) {page : List Bytes → RespValue}
    (hpage : ∀ topics, Clean (page topics)) : ∃ v, findTopics W pattern page = some v ∧ Clean v := by
  obtain ⟨topics, htopics⟩ := Option.isSome_iff_exists.mp (collectTopics_isSome h [])
  rw [findTopics]
  dsimp only
  rw [htopics, Option.map_some]
  refine ⟨_, rfl, ?_⟩
  split
  · next err herr => exact clean_error (plain_err (hW.find _ err herr))
  · exact hpage topics

theorem clean_handleScan (hW : W.Quiet) (h : Tested W (matchOf (args.drop 2))) :
    ∃ v, handleScan W args = some v ∧ Clean v := by
  rw [handleScan]
  split
  · exact ⟨_, rfl, clean_error plain_notMapped⟩
  · split
    · exact ⟨_, rfl, clean_emptyPage⟩
    · exact clean_findTopics hW h fun topics => clean_page

theorem clean_handleKeys (hW : W.Quiet) (h : Tested W (args.getD 1 [])) :
    ∃ v, handleKeys W args = some v ∧ Clean v := by
  rw [handleKeys]
  split
  · exact ⟨_, rfl, clean_wrongNumber (plain_ascii rfl rfl)⟩
  · split
    · exact ⟨_, rfl, clean_error plain_notMapped⟩
    · split
      · exact ⟨_, rfl, clean_nullArray⟩
      · exact clean_findTopics hW h clean_bulks

private theorem clean_handleType (htype : Plain (typeOf W (topicOf args))) : Clean (handleType W args) := by
  rw [handleType]
  exact clean_checked (plain_ascii rfl rfl) (clean_readingAll clean_noPermRead htype)

private theorem clean_handlePublish (hW : W.Quiet) : Clean (handlePublish W args) := by
  rw [handlePublish]
  refine clean_checked (plain_ascii rfl rfl) ?_
  split
  · have h : Plain wildcardError := plain_ascii rfl rfl
    exact h
  · split
    · next err herr => exact clean_error (plain_validateGroup hW herr)
    · split
      · next err herr => exact clean_error (plain_publishErr herr)
      · exact clean_integer _

private theorem clean_handleHmget : Clean (handleHmget W args) := by
  rw [handleHmget]
  exact clean_checked (plain_ascii rfl rfl)
    (clean_readAs (clean_arrayOf _ fun _ => none) fun m => clean_arrayOf _ fun f => (m.lookup f).map (sprint W.floats))

private theorem clean_handleHexists : Clean (handleHexists W args) := by
  rw [handleHexists]
  exact clean_checked (plain_ascii rfl rfl) (clean_readAs (clean_integer _) fun m => clean_integer _)

theorem clean_zaddBody (hW : W.Quiet) (pairs : List (Bytes × List Char)) (m : FMap Bytes Json) :
    Clean (zaddBody W pairs m).2 := by
  rw [zaddBody]
  dsimp only
  split
  · next err herr =>
    obtain ⟨p, -, hp⟩ := exists_of_findSome?_eq_some herr
    exact clean_error (plain_err (hW.marshal _ err hp))
  · exact clean_integer _

private theorem clean_handleZadd (hW : W.Quiet) : Clean (handleZadd W args) := by
  rw [handleZadd]
  refine clean_checked (plain_ascii rfl rfl) ?_
  split
  · have h : Plain (ascii "ERR value is not a valid float") := plain_ascii rfl rfl
    exact h
  · exact clean_writeAs hW.group (plain_ascii rfl rfl) (clean_zaddBody hW _ _) fun m => clean_zaddBody hW _ m

private theorem clean_handleZrange : Clean (handleZrange W args) := by
  rw [handleZrange]
  refine clean_checked (plain_ascii rfl rfl) ?_
  split
  · split
    · have h : Plain (ascii "ERR syntax error") := plain_ascii rfl rfl
      exact h
    · refine clean_readAs clean_nullArray fun m => ?_
      dsimp only
      split
      · exact clean_bulks _
      · exact clean_bulks _
  · exact clean_notAnInteger

private theorem clean_handleZrem (hW : W.Quiet) : Clean (handleZrem W args) := by
  rw [handleZrem]
  exact clean_checked (plain_ascii rfl rfl)
    (clean_writeAs hW.group (plain_ascii rfl rfl) (clean_integer _) fun m => clean_integer _)

private theorem clean_handleZscore : Clean (handleZscore W args) := by
  rw [handleZscore]
  refine clean_checked (plain_ascii rfl rfl) ?_
  refine clean_readAs (clean_bulk _) fun m => ?_
  split
  · exact clean_bulk _
  · exact clean_bulk _

private theorem clean_handleZcard : Clean (handleZcard W args) := by
  rw [handleZcard]
  exact clean_checked (plain_ascii rfl rfl) (clean_readAs (clean_integer _) fun m => clean_integer _)

theorem clean_notRoot : Clean notRoot := by
  have h : Plain (ascii "ERR only root JSON path '$' or '.' is supported") := plain_ascii rfl rfl
  exact h

private theorem clean_handleJsonSet (hW : W.Quiet) : Clean (handleJsonSet W args) := by
  rw [handleJsonSet]
  refine clean_checked (plain_ascii rfl rfl) ?_
  split
  · exact clean_notRoot
  · split
    · have h : Plain (ascii "ERR invalid JSON") := plain_ascii rfl rfl
      exact h
    · split
      · next err herr => exact clean_error (plain_validateWrite hW.group (plain_ascii rfl rfl) herr)
      · exact clean_finish (clean_bulk _)

theorem clean_jsonArgs {cmd : Bytes} (hcmd : Plain cmd) (h : Clean answer) :
    Clean (jsonArgs cmd args answer) := by
  rw [jsonArgs]
  split
  · exact clean_wrongNumber hcmd
  · split
    · exact clean_notRoot
    · exact h

private theorem clean_handleJsonGet : Clean (handleJsonGet W args) :=
  clean_jsonArgs args (plain_ascii rfl rfl) (clean_readAs (clean_bulk _) fun _ => clean_bulk _)

private theorem clean_handleJsonType : Clean (handleJsonType W args) :=
  clean_jsonArgs args (plain_ascii rfl rfl) (clean_readAs (clean_bulk _) fun _ => clean_bulk _)

private theorem clean_handleJsonDel (hW : W.Quiet) : Clean (handleJsonDel W args) := by
  refine clean_jsonArgs args (plain_ascii rfl rfl) (clean_deleting hW ?_ ?_ ?_)
  · exact clean_nativeError (plain_ascii rfl rfl)
  · have h : Plain (ascii "NOPERM no permission to delete topic") := plain_ascii rfl rfl
    exact h
  · exact clean_elim (clean_integer _) fun _ => clean_deleted hW 1

theorem clean_handlers (hW : W.Quiet) (hname : Plain (args.headD [])) :
    ∀ h ∈ handlers, (h.1 = "TYPE" → Plain (typeOf W (topicOf args))) → Clean (h.2 W args) := by
  simp only [handlers, forall_mem_cons]
  refine ⟨fun _ => clean_handleAuth args,
    fun _ => clean_handleHello args,
    fun _ => clean_handlePing args,
    fun _ => clean_handleEcho args,
    fun _ => clean_handleSelect args,
    fun _ => clean_handleClient args,
    fun _ => clean_handleCommand args,
    fun _ => clean_bulk _,
    fun _ => clean_handleGet args,
    fun _ => clean_handleGetRange args hname,
    fun _ => clean_handleGetRange args hname,
    fun _ => clean_handleMget args,
    fun _ => clean_handleSet args hW,
    fun _ => clean_handleMset args hW,
    fun _ => clean_handleHset args hW.group,
    fun _ => clean_handleHget args,
    fun _ => clean_handleHmget args,
    fun _ => clean_handleHgetall args,
    fun _ => clean_handleHdel args hW.group,
    fun _ => clean_handleHexists args,
    fun _ => clean_handleHlen args,
    fun _ => clean_handleHkeys args,
    fun _ => clean_handleHvals args,
    fun _ => clean_handleSadd args hW.group,
    fun _ => clean_handleSrem args hW.group,
    fun _ => clean_handleSmembers args,
    fun _ => clean_handleSismember args,
    fun _ => clean_handleScard args,
    fun _ => clean_handleListPush args hW.group hname true,
    fun _ => clean_handleListPush args hW.group hname false,
    fun _ => clean_handleListPop args hW.group hname true,
    fun _ => clean_handleListPop args hW.group hname false,
    fun _ => clean_handleLrange args,
    fun _ => clean_handleLlen args,
    fun _ => clean_handleLindex args,
    fun _ => clean_handleZadd args hW,
    fun _ => clean_handleZrange args,
    fun _ => clean_handleZrem args hW,
    fun _ => clean_handleZscore args,
    fun _ => clean_handleZcard args,
    fun _ => clean_handleJsonSet args hW,
    fun _ => clean_handleJsonGet args,
    fun _ => clean_handleJsonDel args hW,
    fun _ => clean_handleJsonType args,
    fun _ => clean_handleDel args hW,
    fun _ => clean_handleExists args,
    fun _ => clean_handleTtl args hname,
    fun _ => clean_handleTtl args hname,
    fun _ => clean_handlePublish args hW,
    fun htype => clean_handleType args (htype trivial), ?_⟩
  intro h hh
  cases hh

theorem clean_respond (hW : W.Quiet) (hname : Plain (args.headD []))
    (htype : toUpper (args.headD []) = ascii "TYPE" → Plain (typeOf W (topicOf args))) : Clean (respond W args) := by
  rw [respond]
  split
  · next h hh =>
    refine clean_handlers args hW hname h (mem_of_find?_eq_some hh) fun hT => htype ?_
    have heq := List.find?_some hh
    rw [decide_eq_true_eq] at heq
    rw [heq, hT]
  · exact clean_error
      ((plain_append).mpr ⟨(plain_append).mpr ⟨plain_ascii rfl rfl, hW.upper _ hname⟩, plain_ascii rfl rfl⟩)

end Worlds

end MonsterMQ.Redis
