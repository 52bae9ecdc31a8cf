import MonsterMQ.PacketSizeLimit
import MonsterMQ.NestedMaps
import Mathlib.Logic.Function.Basic

/-!
# Topic aliases

The writer of `internal/mqtt/writer.go` offers the client an alias for a topic along with the
first PUBLISH on it and sends the alias alone from then on. The table of the writer and the one
a client builds from the packets it reads stay inverse to each other.
-/

namespace MonsterMQ.Mqtt

open LittleEndian FiniteMaps List

/-- What the writer reads of a client: its CONNECT, and whether it wants problem information. -/
structure ClientLimits where
  protocolVersion : UInt8
  topicAliasMaximum : UInt16
  maximumPacketSize : UInt32
  disallowProb : Bool

structure Outgoing where
  packet : Packets.Packet
  created : ℤ
  expiry : ℤ

def Outgoing.prepare (l : ClientLimits) (now : ℤ) (o : Outgoing) : Packets.Packet :=
  let interval :=
    if o.expiry > 0 then UInt32.ofNat (max (o.expiry - now) 1).toNat
    else o.packet.properties.messageExpiryInterval
  { o.packet with
    protocolVersion := l.protocolVersion
    properties := { o.packet.properties with messageExpiryInterval := interval }
    mods :=
      { maxSize := if o.packet.mods.maxSize = 0 then l.maximumPacketSize else o.packet.mods.maxSize
        disallowProblemInfo := l.disallowProb || o.packet.mods.disallowProblemInfo
        allowResponseInfo := true } }

structure AliasWriter where
  aliasMax : UInt16
  aliases : FMap Bytes UInt16

inductive AliasUse where
  | plain
  | known (number : UInt16)
  | offered (number : UInt16)

@[grind =] def AliasWriter.applyAlias (w : AliasWriter) (topic : Bytes) (version : UInt8) : AliasUse :=
  if w.aliasMax = 0 ∨ topic = [] ∨ version < 5 then .plain
  else
    match w.aliases.lookup topic with
    | some number => .known number
    | none =>
      if size w.aliases ≥ w.aliasMax.toNat then .plain
      else .offered (UInt16.ofNat (size w.aliases + 1))

def AliasUse.topic : AliasUse → Bytes → Bytes
  | .known _, _ => []
  | _, topic => topic

def AliasUse.number : AliasUse → UInt16
  | .plain => 0
  | .known number => number
  | .offered number => number

def AliasUse.flag : AliasUse → Bool
  | .plain => false
  | _ => true

/-- The packet on the wire; an alias that it had before is overwritten. -/
def AliasUse.apply (u : AliasUse) (pk : Packets.Packet) : Packets.Packet :=
  { pk with
    topicName := u.topic pk.topicName
    properties := { pk.properties with topicAlias := u.number, topicAliasFlag := u.flag } }

/-- `w.aliases[aliasTopic] = newAlias`, once the packet is known to be sent. -/
def AliasWriter.register (w : AliasWriter) (topic : Bytes) : AliasUse → AliasWriter
  | .offered number => { w with aliases := w.aliases.insert topic number }
  | _ => w

def AliasWriter.aliasUse (w : AliasWriter) (l : ClientLimits) (o : Outgoing) : AliasUse :=
  w.applyAlias o.packet.topicName l.protocolVersion

def AliasWriter.wireCopy (w : AliasWriter) (l : ClientLimits) (now : ℤ) (o : Outgoing) : Packets.Packet :=
  (w.aliasUse l o).apply (o.prepare l now)

/-- `encodeOne` of a PUBLISH: what becomes of the packet, and the table afterwards. -/
def AliasWriter.encodeOne (w : AliasWriter) (l : ClientLimits) (now : ℤ) (o : Outgoing) :
    Packets.WriteResult × AliasWriter :=
  match (w.wireCopy l now o).encodeOne with
  | .frame bytes => (.frame bytes, w.register o.packet.topicName (w.aliasUse l o))
  | result => (result, w)

structure Written where
  handed : Bytes
  pk : Packets.Packet

structure AliasLink where
  writer : AliasWriter
  buf : List Written
  wire : List Written
  failed : Bool

def AliasLink.new : AliasLink := ⟨⟨0, ∅⟩, [], [], false⟩

inductive WriterEvent where
  | connack
  | publish (now : ℤ) (o : Outgoing)
  /-- `flush`; a write that fails has sent some packets. -/
  | flush (fails : Option ℕ)
  /-- The writer stops, after a DISCONNECT or for a control packet that is too large. -/
  | stop

def AliasLink.step (l : ClientLimits) (k : AliasLink) (e : WriterEvent) : AliasLink :=
  if k.failed then k
  else
    match e with
    | .connack => { k with
      writer := { k.writer with
        aliasMax := if l.protocolVersion = 5 then l.topicAliasMaximum else k.writer.aliasMax } }
    | .publish now o =>
      match k.writer.encodeOne l now o with
      | (.frame _, writer) => { k with
        writer := writer
        buf := k.buf ++ [⟨o.packet.topicName, k.writer.wireCopy l now o⟩] }
      | (_, writer) => { k with writer := writer }
    | .flush none => { k with wire := k.wire ++ k.buf, buf := [] }
    | .flush (some n) => { k with wire := k.wire ++ k.buf.take n, buf := [], failed := true }
    | .stop => { k with failed := true }

def AliasLink.run (l : ClientLimits) (events : List WriterEvent) : AliasLink :=
  events.foldl (AliasLink.step l) .new

def carriedAlias (pk : Packets.Packet) : Option UInt16 :=
  if pk.protocolVersion = 5 ∧ pk.properties.written pk.mods 0 .topicAlias = true then
    some pk.properties.topicAlias
  else none

abbrev ClientTable := UInt16 → Option Bytes

/-- A topic that comes with an alias is what the alias stands for from then on. -/
@[grind =] def ClientTable.receive (t : ClientTable) (pk : Packets.Packet) : ClientTable :=
  match carriedAlias pk with
  | some number => if pk.topicName = [] then t else Function.update t number (some pk.topicName)
  | none => t

@[grind =] def ClientTable.resolve (t : ClientTable) (pk : Packets.Packet) : Option Bytes :=
  match carriedAlias pk with
  | some number => if pk.topicName = [] then t number else some pk.topicName
  | none => some pk.topicName

@[grind =] def clientTable (read : List Written) : ClientTable :=
  read.foldl (fun t x => t.receive x.pk) fun _ => none

structure Understands (max : UInt16) (read : List Written) (x : Written) : Prop where
  resolved : (clientTable read).resolve x.pk = some x.handed
  range : ∀ number, carriedAlias x.pk = some number → 1 ≤ number.toNat ∧ number.toNat ≤ max.toNat
  /-- An alias alone was introduced before. -/
  introduced : ∀ number, carriedAlias x.pk = some number → x.pk.topicName = [] →
    ∃ y ∈ read, carriedAlias y.pk = some number ∧ y.pk.topicName = x.handed ∧ y.pk.topicName ≠ []
  /-- No alias is bound again. -/
  bound : ∀ number, carriedAlias x.pk = some number → ∀ y ∈ read, carriedAlias y.pk = some number →
    y.handed = x.handed ∧ x.pk.topicName = []

/-- Every packet is understood by the client that has read those before it. -/
def Transparent (max : UInt16) (wire : List Written) : Prop :=
  ∀ read x rest, wire = read ++ x :: rest → Understands max read x

theorem transparent_append {max : UInt16} {sent : List Written} {x : Written} (h : Transparent max sent)
    (hx : Understands max sent x) : Transparent max (sent ++ [x]) := by
  intro read y rest heq
  rcases eq_nil_or_concat rest with rfl | ⟨rest, z, rfl⟩
  · obtain ⟨rfl, hxy⟩ := append_inj' heq rfl
    rw [← (List.cons.inj hxy).1]
    exact hx
  · rw [concat_eq_append, ← cons_append, ← append_assoc] at heq
    obtain ⟨hsent, -⟩ := append_inj' heq rfl
    exact h read y rest hsent

theorem transparent_of_append {max : UInt16} {sent more : List Written} (h : Transparent max (sent ++ more)) :
    Transparent max sent := by
  intro read x rest heq
  apply h read x (rest ++ more)
  rw [heq, append_assoc, cons_append]

theorem clientTable_append (sent : List Written) (x : Written) :
    clientTable (sent ++ [x]) = (clientTable sent).receive x.pk := by
  rw [clientTable, foldl_append]
  rfl

theorem applyAlias_cases (w : AliasWriter) (topic : Bytes) (version : UInt8) :
    w.applyAlias topic version = .plain ∨
      (w.aliasMax ≠ 0 ∧ topic ≠ [] ∧ ∃ n, w.applyAlias topic version = .known n ∧ w.aliases.lookup topic = some n) ∨
      (w.aliasMax ≠ 0 ∧ topic ≠ [] ∧ w.aliases.lookup topic = none ∧ size w.aliases < w.aliasMax.toNat ∧
        w.applyAlias topic version = .offered (UInt16.ofNat (size w.aliases + 1))) := by
  rw [AliasWriter.applyAlias]
  split
  · exact .inl rfl
  · rename_i hon
    rw [not_or, not_or] at hon
    split
    · rename_i n hn
      exact .inr (.inl ⟨hon.1, hon.2.1, n, rfl, hn⟩)
    · rename_i hnone
      split
      · exact .inl rfl
      · rename_i hroom
        exact .inr (.inr ⟨hon.1, hon.2.1, hnone, not_le.mp hroom, rfl⟩)

theorem carriedAlias_wireCopy (w : AliasWriter) (l : ClientLimits) (now : ℤ) (o : Outgoing) :
    carriedAlias (w.wireCopy l now o) =
      if l.protocolVersion = 5 ∧ ((w.aliasUse l o).flag && decide ((w.aliasUse l o).number > 0)) = true then
        some (w.aliasUse l o).number
      else none := rfl

theorem topicName_wireCopy (w : AliasWriter) (l : ClientLimits) (now : ℤ) (o : Outgoing) :
    (w.wireCopy l now o).topicName = (w.aliasUse l o).topic o.packet.topicName := rfl

/-- The table of the writer, and that of a client that has read what was encoded so far. -/
structure Agrees (l : ClientLimits) (w : AliasWriter) (sent : List Written) : Prop where
  table : ∀ n t, clientTable sent n = some t ↔ w.aliases.lookup t = some n
  range : ∀ t n, w.aliases.lookup t = some n → t ≠ [] ∧ 1 ≤ n.toNat ∧ n.toNat ≤ size w.aliases
  room : size w.aliases ≤ l.topicAliasMaximum.toNat
  limit : w.aliasMax ≠ 0 → w.aliasMax = l.topicAliasMaximum ∧ l.protocolVersion = 5
  introduced : ∀ t n, w.aliases.lookup t = some n →
    ∃ y ∈ sent, carriedAlias y.pk = some n ∧ y.pk.topicName = t
  carried : ∀ y ∈ sent, ∀ n, carriedAlias y.pk = some n → w.aliases.lookup y.handed = some n
  transparent : Transparent l.topicAliasMaximum sent

theorem agrees_new (l : ClientLimits) : Agrees l ⟨0, ∅⟩ [] where
  table n t := by simp [clientTable]
  range t n h := by simp at h
  room := Nat.zero_le _
  limit h := absurd rfl h
  introduced t n h := by simp at h
  carried y h := by cases h
  transparent read x rest h := by simp at h

section Publish

variable {l : ClientLimits} {w : AliasWriter} {sent : List Written} {now : ℤ} {o : Outgoing}

theorem agrees_plain (h : Agrees l w sent) (hplain : w.aliasUse l o = .plain) :
    Agrees l w (sent ++ [⟨o.packet.topicName, w.wireCopy l now o⟩]) := by
  have hnone : carriedAlias (w.wireCopy l now o) = none := by
    rw [carriedAlias_wireCopy, hplain]
    exact if_neg (fun hc => absurd hc.2 Bool.false_ne_true)
  have htopic : (w.wireCopy l now o).topicName = o.packet.topicName := by
    rw [topicName_wireCopy, hplain]
    rfl
  have htable : clientTable (sent ++ [⟨o.packet.topicName, w.wireCopy l now o⟩]) = clientTable sent := by
    rw [clientTable_append, ClientTable.receive, hnone]
  refine { h with table := ?_, introduced := ?_, carried := ?_, transparent := ?_ }
  · rw [htable]
    exact h.table
  · intro t n hn
    obtain ⟨y, hy, hc⟩ := h.introduced t n hn
    exact ⟨y, mem_append_left _ hy, hc⟩
  · intro y hy n hn
    rcases mem_append.mp hy with hy | hy
    · exact h.carried y hy n hn
    · rw [mem_singleton.mp hy, hnone] at hn
      cases hn
  · apply transparent_append h.transparent
    refine ⟨?_, ?_, ?_, ?_⟩
    · rw [ClientTable.resolve, hnone, htopic]
    all_goals
      intro n hn
      rw [hnone] at hn
      cases hn

theorem agrees_known (h : Agrees l w sent) (hmax : w.aliasMax ≠ 0) {n : UInt16}
    (hknown : w.aliasUse l o = .known n) (hn : w.aliases.lookup o.packet.topicName = some n) :
    Agrees l w (sent ++ [⟨o.packet.topicName, w.wireCopy l now o⟩]) := by
  obtain ⟨hne, hpos, hle⟩ := h.range _ n hn
  have hcarried : carriedAlias (w.wireCopy l now o) = some n := by
    have hgt : decide (n > 0) = true := decide_eq_true (UInt16.lt_iff_toNat_lt.mpr hpos)
    rw [carriedAlias_wireCopy, hknown]
    exact if_pos ⟨(h.limit hmax).2, hgt⟩
  have htopic : (w.wireCopy l now o).topicName = [] := by
    rw [topicName_wireCopy, hknown]
    rfl
  have htable : clientTable (sent ++ [⟨o.packet.topicName, w.wireCopy l now o⟩]) = clientTable sent := by
    rw [clientTable_append, ClientTable.receive, hcarried]
    exact if_pos htopic
  refine { h with table := ?_, introduced := ?_, carried := ?_, transparent := ?_ }
  · rw [htable]
    exact h.table
  · intro t m hm
    obtain ⟨y, hy, hc⟩ := h.introduced t m hm
    exact ⟨y, mem_append_left _ hy, hc⟩
  · intro y hy m hm
    rcases mem_append.mp hy with hy | hy
    · exact h.carried y hy m hm
    · rw [mem_singleton.mp hy] at hm ⊢
      rw [hcarried] at hm
      rw [← Option.some.inj hm]
      exact hn
  · apply transparent_append h.transparent
    refine ⟨?_, ?_, ?_, ?_⟩
    · rw [ClientTable.resolve, hcarried]
      dsimp only
      rw [if_pos htopic]
      exact (h.table n _).mpr hn
    · intro m hm
      rw [hcarried] at hm
      rw [← Option.some.inj hm]
      exact ⟨hpos, hle.trans h.room⟩
    · intro m hm _
      rw [hcarried] at hm
      rw [← Option.some.inj hm]
      obtain ⟨y, hy, hc, hyt⟩ := h.introduced _ n hn
      exact ⟨y, hy, hc, hyt, hyt ▸ hne⟩
    · intro m hm y hy hc
      have hlookup := h.carried y hy m hc
      rw [hcarried] at hm
      rw [← Option.some.inj hm] at hlookup
      have hboth := ((h.table n _).mpr hlookup).symm.trans ((h.table n _).mpr hn)
      exact ⟨Option.some.inj hboth, htopic⟩

theorem size_insert_new {m : FMap Bytes UInt16} {t : Bytes} {n : UInt16} (h : m.lookup t = none) :
    size (m.insert t n) = size m + 1 := by
  have hcount := count_insert (fun _ => true) m t n
  rw [← size_eq_count, ← size_eq_count, h] at hcount
  simpa using hcount

theorem agrees_offered (h : Agrees l w sent) (hmax : w.aliasMax ≠ 0) (hne : o.packet.topicName ≠ [])
    (hnone : w.aliases.lookup o.packet.topicName = none) (hroom : size w.aliases < w.aliasMax.toNat)
    (hoffered : w.aliasUse l o = .offered (UInt16.ofNat (size w.aliases + 1))) :
    Agrees l (w.register o.packet.topicName (w.aliasUse l o))
      (sent ++ [⟨o.packet.topicName, w.wireCopy l now o⟩]) := by
  obtain ⟨hlimit, hversion⟩ := h.limit hmax
  have hbound := w.aliasMax.toNat_lt
  have hnat : (UInt16.ofNat (size w.aliases + 1)).toNat = size w.aliases + 1 :=
    UInt16.toNat_ofNat_of_lt' (by
      change size w.aliases + 1 < 65536
      omega)
  generalize UInt16.ofNat (size w.aliases + 1) = n at hnat hoffered
  have hcarried : carriedAlias (w.wireCopy l now o) = some n := by
    have hgt : decide (n > 0) = true := decide_eq_true (UInt16.lt_iff_toNat_lt.mpr (by
      rw [hnat]
      exact Nat.succ_pos _))
    rw [carriedAlias_wireCopy, hoffered]
    exact if_pos ⟨hversion, hgt⟩
  have htopic : (w.wireCopy l now o).topicName = o.packet.topicName := by
    rw [topicName_wireCopy, hoffered]
    rfl
  have hfree : ∀ t, w.aliases.lookup t ≠ some n := by
    intro t ht
    have hle := (h.range t n ht).2.2
    omega
  rw [hoffered]
  change Agrees l { w with aliases := w.aliases.insert o.packet.topicName n } _
  have htable : clientTable (sent ++ [⟨o.packet.topicName, w.wireCopy l now o⟩]) =
      Function.update (clientTable sent) n (some o.packet.topicName) := by
    rw [clientTable_append, ClientTable.receive, hcarried]
    dsimp only
    rw [htopic, if_neg hne]
  have hlookup : ∀ t, (w.aliases.insert o.packet.topicName n).lookup t =
      if t = o.packet.topicName then some n else w.aliases.lookup t :=
    fun t => lookup_insert_if w.aliases o.packet.topicName t n
  have hold : ∀ {t m}, w.aliases.lookup t = some m →
      (w.aliases.insert o.packet.topicName n).lookup t = some m := by
    intro t m hm
    rw [hlookup, if_neg, hm]
    rintro rfl
    rw [hnone] at hm
    cases hm
  refine ⟨?_, ?_, ?_, h.limit, ?_, ?_, ?_⟩
  · intro m t
    rw [htable, hlookup]
    by_cases hm : m = n
    · subst hm
      rw [Function.update_self]
      by_cases ht : t = o.packet.topicName
      · simp [ht]
      · have hne' : o.packet.topicName ≠ t := Ne.symm ht
        simp [ht, hne', hfree t]
    · rw [Function.update_of_ne hm, h.table]
      by_cases ht : t = o.packet.topicName
      · have hne' : n ≠ m := Ne.symm hm
        rw [ht, hnone]
        simp [hne']
      · simp [ht]
  · intro t m hm
    rw [hlookup] at hm
    rw [size_insert_new hnone]
    split at hm
    · rename_i ht
      rw [← Option.some.inj hm, ht, hnat]
      exact ⟨hne, Nat.succ_pos _, le_refl _⟩
    · obtain ⟨hne, hpos, hle⟩ := h.range t m hm
      exact ⟨hne, hpos, hle.trans (Nat.le_succ _)⟩
  · change size (w.aliases.insert o.packet.topicName n) ≤ _
    rw [size_insert_new hnone, ← hlimit]
    exact hroom
  · intro t m hm
    rw [hlookup] at hm
    split at hm
    · rename_i ht
      refine ⟨_, mem_append_right _ (mem_singleton.mpr rfl), ?_, htopic.trans ht.symm⟩
      rw [← Option.some.inj hm]
      exact hcarried
    · obtain ⟨y, hy, hc⟩ := h.introduced t m hm
      exact ⟨y, mem_append_left _ hy, hc⟩
  · intro y hy m hm
    rcases mem_append.mp hy with hy | hy
    · exact hold (h.carried y hy m hm)
    · rw [mem_singleton.mp hy] at hm ⊢
      rw [hcarried] at hm
      rw [hlookup, if_pos rfl, hm]
  · apply transparent_append h.transparent
    refine ⟨?_, ?_, ?_, ?_⟩
    · rw [ClientTable.resolve, hcarried]
      dsimp only
      rw [htopic, if_neg hne]
    · intro m hm
      rw [hcarried] at hm
      rw [← Option.some.inj hm, hnat, ← hlimit]
      exact ⟨Nat.succ_pos _, hroom⟩
    · intro m _ hnil
      exact absurd (htopic.symm.trans hnil) hne
    · intro m hm y hy hc
      rw [hcarried] at hm
      rw [← Option.some.inj hm] at hc
      exact absurd (h.carried y hy n hc) (hfree _)

/-- A PUBLISH that is encoded keeps the tables in agreement; one that is dropped changes none. -/
theorem agrees_publish (h : Agrees l w sent) (now : ℤ) (o : Outgoing) :
    Agrees l (w.register o.packet.topicName (w.aliasUse l o))
      (sent ++ [⟨o.packet.topicName, w.wireCopy l now o⟩]) := by
  rcases applyAlias_cases w o.packet.topicName l.protocolVersion with
    hplain | ⟨hmax, -, n, hknown, hn⟩ | ⟨hmax, hne, hnone, hroom, hoffered⟩
  · have huse : w.aliasUse l o = .plain := hplain
    rw [huse]
    exact agrees_plain h huse
  · have huse : w.aliasUse l o = .known n := hknown
    rw [huse]
    exact agrees_known h hmax huse hn
  · exact agrees_offered h hmax hne hnone hroom hoffered

end Publish

/-- What was sent is what the tables agree on, or the connection has failed. -/
structure AliasLink.Sound (l : ClientLimits) (k : AliasLink) : Prop where
  agrees : k.failed = false → Agrees l k.writer (k.wire ++ k.buf)
  transparent : Transparent l.topicAliasMaximum k.wire

theorem sound_new (l : ClientLimits) : AliasLink.new.Sound l :=
  ⟨fun _ => agrees_new l, (agrees_new l).transparent⟩

theorem agrees_connack {l : ClientLimits} {w : AliasWriter} {sent : List Written} (h : Agrees l w sent) :
    Agrees l { w with aliasMax := if l.protocolVersion = 5 then l.topicAliasMaximum else w.aliasMax } sent := by
  refine { h with limit := ?_ }
  intro hmax
  dsimp only at hmax ⊢
  split
  · rename_i hv
    exact ⟨rfl, hv⟩
  · rename_i hv
    rw [if_neg hv] at hmax
    exact h.limit hmax

theorem sound_step {l : ClientLimits} {k : AliasLink} (h : k.Sound l) (e : WriterEvent) :
    (k.step l e).Sound l := by
  unfold AliasLink.step
  split
  · exact h
  · rename_i hfailed
    have hagrees := h.agrees (Bool.eq_false_iff.mpr hfailed)
    cases e with
    | connack => exact ⟨fun _ => agrees_connack hagrees, h.transparent⟩
    | publish now o =>
      have hnext := agrees_publish hagrees now o
      dsimp only
      rw [AliasWriter.encodeOne]
      cases (k.writer.wireCopy l now o).encodeOne with
      | frame bytes =>
        refine ⟨fun _ => ?_, h.transparent⟩
        rw [append_assoc] at hnext
        exact hnext
      | failed | tooLarge => exact ⟨fun _ => hagrees, h.transparent⟩
    | flush fails =>
      cases fails with
      | none =>
        refine ⟨fun _ => ?_, hagrees.transparent⟩
        dsimp only
        rw [append_nil]
        exact hagrees
      | some n =>
        refine ⟨fun hf => absurd hf (by simp), ?_⟩
        have hall := hagrees.transparent
        rw [← take_append_drop n k.buf, ← append_assoc] at hall
        exact transparent_of_append hall
    | stop => exact ⟨fun hf => absurd hf (by simp), h.transparent⟩

/-- Whatever is published, dropped or lost with the connection, the client understands each
packet that it reads. -/
theorem run_transparent (l : ClientLimits) (events : List WriterEvent) :
    Transparent l.topicAliasMaximum (AliasLink.run l events).wire := by
  have hgo : ∀ k : AliasLink, k.Sound l → (events.foldl (AliasLink.step l) k).Sound l := by
    induction events with
    | nil => exact fun k hk => hk
    | cons e events ih => exact fun k hk => ih _ (sound_step hk e)
  exact (hgo _ (sound_new l)).transparent

end MonsterMQ.Mqtt
