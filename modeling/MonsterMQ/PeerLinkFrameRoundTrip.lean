import MonsterMQ.PeerLinkFrame

/-!
# Frames round-trip

Every body is decoded to the frame it was encoded from, and bytes after its fields are
ignored, except after the entries of an interest frame, where they are an error.
-/

namespace MonsterMQ.PeerLink

open LittleEndian List

namespace Dec

theorem read_append {α : Type} {n : ℕ} {f : Bytes → α} {zero : α} {v : Bytes} (h : v.length = n)
    (rest : Bytes) : read n f zero ⟨v ++ rest, false⟩ = (f v, ⟨rest, false⟩) := by
  have htake : take ⟨v ++ rest, false⟩ n = (some v, ⟨rest, false⟩) := by
    unfold take
    rw [if_neg (by simp [h]), take_left' h, drop_left' h]
  rw [read, htake]

@[simp] theorem u8_cons (b : UInt8) (rest : Bytes) : u8 ⟨b :: rest, false⟩ = (b, ⟨rest, false⟩) :=
  read_append (v := [b]) rfl rest

@[simp] theorem u16_put16 (v : UInt16) (rest : Bytes) :
    u16 ⟨put16 v ++ rest, false⟩ = (v, ⟨rest, false⟩) := by
  rw [u16, read_append (put16_length v)]
  have := get16_put16_append v []
  rw [append_nil] at this
  rw [this]

@[simp] theorem u32_put32 (v : UInt32) (rest : Bytes) :
    u32 ⟨put32 v ++ rest, false⟩ = (v, ⟨rest, false⟩) := by
  rw [u32, read_append (put32_length v)]
  have := get32_put32_append v []
  rw [append_nil] at this
  rw [this]

@[simp] theorem u64_put64 (v : UInt64) (rest : Bytes) :
    u64 ⟨put64 v ++ rest, false⟩ = (v, ⟨rest, false⟩) := by
  rw [u64, read_append (put64_length v)]
  have := get64_put64_append v []
  rw [append_nil] at this
  rw [this]

@[simp] theorem arr32_append (a : Bytes32) (rest : Bytes) :
    arr32 ⟨a.bytes ++ rest, false⟩ = (a, ⟨rest, false⟩) := by
  rw [arr32, read_append a.length_eq, dif_pos a.length_eq]

theorem str8_append {s : Bytes} (h : s.length ≤ 255) (rest : Bytes) :
    str8 ⟨appendStr8 s ++ rest, false⟩ = (s, ⟨rest, false⟩) := by
  have hn : (UInt8.ofNat s.length).toNat = s.length := by
    rw [UInt8.toNat_ofNat', Nat.mod_eq_of_lt (by omega)]
  simp only [str8, appendStr8, truncUTF8, if_pos h, cons_append, u8_cons]
  rw [read_append hn.symm]
  rfl

theorem str16_append {s : Bytes} (h : s.length ≤ 65535) (rest : Bytes) :
    str16 ⟨appendStr16 s ++ rest, false⟩ = (s, ⟨rest, false⟩) := by
  have hn : (UInt16.ofNat s.length).toNat = s.length := toNat_ofNat16 (by omega)
  simp only [str16, appendStr16, truncUTF8, if_pos h, append_assoc, u16_put16]
  rw [read_append hn.symm]
  rfl

theorem brokerInfo_append {typ version : Bytes} (ht : typ.length ≤ 255) (hv : version.length ≤ 255)
    (rest : Bytes) : brokerInfo ⟨appendStr8 typ ++ (appendStr8 version ++ rest), false⟩ =
      ((typ, version), ⟨rest, false⟩) := by
  unfold brokerInfo
  rw [if_neg (by simp [appendStr8])]
  simp only [str8_append ht, str8_append hv]

@[simp] theorem result_ok {α : Type} (b : Bytes) (m : α) : result ⟨b, false⟩ m = .ok m := rfl

end Dec

theorem ServerHello.decode_body (m : ServerHello) (extra : Bytes) :
    ServerHello.decode (m.body ++ extra) = .ok m := by
  simp [ServerHello.decode, ServerHello.body]

structure Hello.Fits (m : Hello) : Prop where
  consumerNodeID : m.consumerNodeID.length ≤ 255
  expectedSourceNodeID : m.expectedSourceNodeID.length ≤ 255
  topicRoot : m.topicRoot.length ≤ 65535
  oaSystem : m.oaSystem.length ≤ 255
  brokerType : m.brokerType.length ≤ 255
  brokerVersion : m.brokerVersion.length ≤ 255

theorem Hello.decode_body {m : Hello} (h : m.Fits) (extra : Bytes) :
    Hello.decode (m.body ++ extra) = .ok m := by
  simp [Hello.decode, Hello.body, Dec.str8_append h.consumerNodeID,
    Dec.str8_append h.expectedSourceNodeID, Dec.str16_append h.topicRoot, Dec.str8_append h.oaSystem,
    Dec.brokerInfo_append h.brokerType h.brokerVersion]

structure HelloOK.Fits (m : HelloOK) : Prop where
  sourceNodeID : m.sourceNodeID.length ≤ 255
  topicRoot : m.topicRoot.length ≤ 65535
  oaSystem : m.oaSystem.length ≤ 255
  brokerType : m.brokerType.length ≤ 255
  brokerVersion : m.brokerVersion.length ≤ 255

theorem HelloOK.decode_body {m : HelloOK} (h : m.Fits) (extra : Bytes) :
    HelloOK.decode (m.body ++ extra) = .ok m := by
  simp [HelloOK.decode, HelloOK.body, Dec.str8_append h.sourceNodeID, Dec.str16_append h.topicRoot,
    Dec.str8_append h.oaSystem, Dec.brokerInfo_append h.brokerType h.brokerVersion]

theorem GoAway.decode_body {m : GoAway} (h : m.reason.length ≤ 65535) (extra : Bytes) :
    GoAway.decode (m.body ++ extra) = .ok m := by
  simp [GoAway.decode, GoAway.body, Dec.str16_append h]

theorem Fetch.decode_body (m : Fetch) (extra : Bytes) : Fetch.decode (m.body ++ extra) = .ok m := by
  simp [Fetch.decode, Fetch.body]

theorem decodeWord_put64 (word : UInt64) (extra : Bytes) : decodeWord (put64 word ++ extra) = .ok word := by
  simp [decodeWord]

theorem BatchHeader.put_length (h : BatchHeader) : h.put.length = batchHeaderLen := by
  simp [BatchHeader.put, BatchHeader.putCovered, batchHeaderLen]

theorem BatchHeader.parse_put (h : BatchHeader) (rest : Bytes) : BatchHeader.parse (h.put ++ rest) = h := by
  simp [BatchHeader.parse, BatchHeader.put, BatchHeader.putCovered, drop_append,
    drop_of_length_le]

theorem appendSparseTable_length (span : UInt32) (deltas : List UInt32) :
    (appendSparseTable span deltas).length = sparseTableLen deltas.length := by
  have hdeltas : (deltas.flatMap put32).length = 4 * deltas.length := by
    induction deltas with
    | nil => rfl
    | cons d ds ih =>
      rw [flatMap_cons, length_append, put32_length, ih, length_cons]
      omega
  rw [appendSparseTable, length_append, put32_length, hdeltas, sparseTableLen]

/-- The `i`-th delta of a table. -/
theorem get32_deltas {deltas : List UInt32} {i : ℕ} (hi : i < deltas.length) :
    get32 ((deltas.flatMap put32).drop (4 * i)) = deltas[i] := by
  induction deltas generalizing i with
  | nil => cases hi
  | cons d ds ih =>
    cases i with
    | zero => simp
    | succ i =>
      rw [flatMap_cons, show 4 * (i + 1) = 4 + 4 * i by ring, ← drop_drop,
        drop_left' (put32_length d)]
      exact ih (by simpa using hi)

/-- Strictly increasing deltas below `span` are at most `span` many. -/
theorem length_le_of_increasing {deltas : List UInt32} {lo span : ℕ}
    (hsorted : deltas.Pairwise (· < ·)) (hlo : ∀ d ∈ deltas, lo ≤ d.toNat)
    (hlt : ∀ d ∈ deltas, d.toNat < span) (hle : lo ≤ span) : deltas.length + lo ≤ span := by
  induction deltas generalizing lo with
  | nil => simpa using hle
  | cons d ds ih =>
    obtain ⟨hd, hds⟩ := pairwise_cons.mp hsorted
    have h1 := hlo d mem_cons_self
    have h2 := hlt d mem_cons_self
    have := ih hds (fun e he => Nat.succ_le_of_lt (UInt32.lt_iff_toNat_lt.mp (hd e he)))
      (fun e he => hlt e (mem_cons_of_mem _ he)) h2
    rw [length_cons]
    omega

structure TableOf (table : Bytes) (span : UInt32) (deltas : List UInt32) : Prop where
  eq : table = appendSparseTable span deltas
  pos : 0 < span.toNat
  sorted : deltas.Pairwise (· < ·)
  lt : ∀ d ∈ deltas, d < span

structure BatchFrame.Fits (m : BatchFrame) : Prop where
  recordsBytes : m.header.recordsBytes.toNat = m.records.length
  count : m.header.count.toNat * minRecordFrame ≤ m.records.length
  sparse : m.header.isSparse = m.sparse.isSome
  table : ∀ table, m.sparse = some table →
    ∃ span deltas, TableOf table span deltas ∧ deltas.length = m.header.count.toNat

namespace BatchFrame

variable {m : BatchFrame} {table : Bytes} {span : UInt32} {deltas : List UInt32}

section

variable (hs : m.sparse = some table)
include hs

theorem span_eq (ht : TableOf table span deltas) : m.span = span := by
  simp only [BatchFrame.span, hs, ht.eq, appendSparseTable, get32_put32_append]

private theorem delta_eq (ht : TableOf table span deltas) {i : ℕ}
    (hi : i < deltas.length) : m.delta i = deltas[i] := by
  simp only [BatchFrame.delta, hs, ht.eq, appendSparseTable]
  rw [← drop_drop, drop_left' (put32_length span)]
  exact get32_deltas hi

theorem checkDeltas_eq (ht : TableOf table span deltas) {n i : ℕ} {prev : ℤ} (hn : i + n = deltas.length)
    (hprev : ∀ (j : ℕ) (hj : j < deltas.length), i ≤ j → prev < (deltas[j].toNat : ℤ)) :
    m.checkDeltas prev i n = true := by
  induction n generalizing i prev with
  | zero => rfl
  | succ n ih =>
    have hi : i < deltas.length := by omega
    have hlt : deltas[i].toNat < span.toNat := UInt32.lt_iff_toNat_lt.mp (ht.lt _ (getElem_mem hi))
    have h1 := hprev i hi le_rfl
    simp only [checkDeltas, delta_eq hs ht hi, span_eq hs ht]
    rw [if_neg (by omega)]
    refine ih (by omega) ?_
    intro j hj hij
    have := pairwise_iff_getElem.mp ht.sorted i j hi hj (by omega)
    exact_mod_cast UInt32.lt_iff_toNat_lt.mp this

private theorem checkSparse_eq (ht : TableOf table span deltas)
    (hcount : deltas.length = m.header.count.toNat) : m.checkSparse = .ok m := by
  have hle : deltas.length + 0 ≤ span.toNat :=
    length_le_of_increasing ht.sorted (fun _ _ => Nat.zero_le _)
      (fun d hd => UInt32.lt_iff_toNat_lt.mp (ht.lt d hd)) (Nat.zero_le _)
  have hpos := ht.pos
  have hdeltas : m.checkDeltas (-1) 0 m.header.count.toNat = true :=
    checkDeltas_eq hs ht (by omega) (fun j hj _ => by omega)
  unfold checkSparse
  rw [span_eq hs ht, if_neg, if_pos hdeltas]
  rintro (h0 | hlt)
  · rw [h0] at hpos
    exact absurd hpos (by decide)
  · have := UInt32.lt_iff_toNat_lt.mp hlt
    omega

end

theorem decode_body (h : m.Fits) (extra : Bytes) :
    decode (m.body ++ extra) = .ok { m with raw := some m.header.put } := by
  have hparse : BatchHeader.parse (m.body ++ extra) = m.header := by
    rw [body, append_assoc, append_assoc]
    exact BatchHeader.parse_put _ _
  have hhead := BatchHeader.put_length m.header
  have hrec := h.recordsBytes
  have hcount := h.count
  have htake : (m.body ++ extra).take batchHeaderLen = m.header.put := by
    rw [body, append_assoc, append_assoc, take_left' hhead]
  cases hs : m.sparse with
  | none =>
    have hflag : m.header.isSparse = false := by rw [h.sparse, hs]; rfl
    have hbody : m.body = m.header.put ++ m.records := by simp [body, hs]
    have hlen : (m.body ++ extra).length = batchHeaderLen + m.records.length + extra.length := by
      simp [hbody, hhead]
      omega
    have hdrop : (m.body ++ extra).drop batchHeaderLen = m.records ++ extra := by
      rw [hbody, append_assoc, drop_left' hhead]
    unfold decode
    simp only [hparse, hflag, Bool.false_and, Bool.false_eq_true, if_false, hlen, hdrop, htake, hrec,
      Option.isSome_none]
    rw [if_neg (by omega), if_neg (by omega), if_neg (by omega), take_left]
  | some table =>
    have hflag : m.header.isSparse = true := by rw [h.sparse, hs]; rfl
    obtain ⟨span, deltas, ht, hdeltas⟩ := h.table table hs
    have htable : table.length = sparseTableLen m.header.count.toNat := by
      rw [ht.eq, appendSparseTable_length, hdeltas]
    have hbody : m.body = m.header.put ++ (table ++ m.records) := by simp [body, hs]
    have hlen : (m.body ++ extra).length =
        batchHeaderLen + sparseTableLen m.header.count.toNat + m.records.length + extra.length := by
      simp [hbody, hhead, htable]
      omega
    have hdrop : (m.body ++ extra).drop batchHeaderLen = table ++ (m.records ++ extra) := by
      rw [hbody, append_assoc, drop_left' hhead, append_assoc]
    have hdrop2 : (m.body ++ extra).drop (batchHeaderLen + sparseTableLen m.header.count.toNat) =
        m.records ++ extra := by
      rw [← drop_drop, hdrop, drop_left' htable]
    have hm : ({ m with raw := some m.header.put } : BatchFrame) =
        ⟨m.header, m.records, some table, some m.header.put⟩ := by rw [← hs]
    have hcheck := checkSparse_eq (m := { m with raw := some m.header.put }) hs ht hdeltas
    unfold decode
    simp only [hparse, hflag, Bool.true_and, if_true, decide_eq_true_eq, hlen, hdrop, hdrop2, htake,
      hrec, Option.isSome_some, take_left' htable, take_left]
    rw [if_neg (by omega), if_neg (by omega), if_neg (by omega), if_neg (by omega), ← hm, hcheck]

end BatchFrame

structure EntriesFit (es : List InterestEntry) : Prop where
  filter : ∀ e ∈ es, e.filter.length ≤ 65535
  count : es.length < 2 ^ 32

theorem appendStr16_length {s : Bytes} (h : s.length ≤ 65535) : (appendStr16 s).length = 2 + s.length := by
  simp [appendStr16, truncUTF8, h]

theorem InterestEntry.bytes_length {e : InterestEntry} (h : e.filter.length ≤ 65535) :
    e.bytes.length = interestEntryOverhead + e.filter.length := by
  simp [InterestEntry.bytes, appendStr16_length h, interestEntryOverhead]
  omega

private theorem entries_length_le {es : List InterestEntry} (h : ∀ e ∈ es, e.filter.length ≤ 65535) :
    es.length * interestEntryOverhead ≤ (es.flatMap InterestEntry.bytes).length := by
  induction es with
  | nil => simp
  | cons e es ih =>
    have h1 := ih (fun e' he => h e' (mem_cons_of_mem _ he))
    have h2 := InterestEntry.bytes_length (h e mem_cons_self)
    rw [flatMap_cons, length_append, length_cons, Nat.add_mul]
    omega

private theorem interestLoop_entries {es : List InterestEntry} (h : ∀ e ∈ es, e.filter.length ≤ 65535)
    (rest : Bytes) :
    interestLoop ⟨es.flatMap InterestEntry.bytes ++ rest, false⟩ es.length = .ok (es, ⟨rest, false⟩) := by
  induction es with
  | nil => rfl
  | cons e es ih =>
    have hstr := Dec.str16_append (h e mem_cons_self) (es.flatMap InterestEntry.bytes ++ rest)
    simp only [flatMap_cons, InterestEntry.bytes, length_cons, interestLoop,
      append_assoc, cons_append, nil_append, Dec.u8_cons, Dec.u32_put32, hstr, Bool.false_eq_true,
      if_false]
    rw [ih (fun e' he => h e' (mem_cons_of_mem _ he))]

theorem decodeInterestEntries_append {es : List InterestEntry} (h : EntriesFit es) (extra : Bytes) :
    decodeInterestEntries ⟨appendInterestEntries es ++ extra, false⟩ =
      if extra = [] then .ok es else .error .interestCount := by
  have hn : (UInt32.ofNat es.length).toNat = es.length := toNat_ofNat32 h.count
  have hlen := entries_length_le h.filter
  have hcount : ¬ es.length * interestEntryOverhead > (es.flatMap InterestEntry.bytes ++ extra).length := by
    rw [length_append]
    omega
  simp only [decodeInterestEntries, appendInterestEntries, append_assoc, Dec.u32_put32, hn,
    Bool.false_eq_true, if_false]
  rw [if_neg hcount, interestLoop_entries h.filter]
  by_cases hextra : extra = []
  · simp [hextra]
  · simp [hextra]

theorem InterestSnapshot.decode_body {m : InterestSnapshot} (h : EntriesFit m.entries) (extra : Bytes) :
    InterestSnapshot.decode (m.body ++ extra) =
      if extra = [] then .ok m else .error .interestCount := by
  simp only [InterestSnapshot.decode, InterestSnapshot.body, append_assoc, cons_append,
    nil_append, Dec.u32_put32, Dec.u8_cons, decodeInterestEntries_append h]
  split <;> rfl

theorem InterestDelta.decode_body {m : InterestDelta} (h : EntriesFit m.entries) (extra : Bytes) :
    InterestDelta.decode (m.body ++ extra) =
      if extra = [] then .ok m else .error .interestCount := by
  simp only [InterestDelta.decode, InterestDelta.body, append_assoc, Dec.u32_put32,
    decodeInterestEntries_append h]
  split <;> rfl

namespace Frame

/-- The strings of the frame fit their length fields, and a batch describes itself. -/
def Fits : Frame → Prop
  | .hello m => m.Fits
  | .helloOK m => m.Fits
  | .goAway m => m.reason.length ≤ 65535
  | .batch m => m.Fits
  | .interestSnapshot m => EntriesFit m.entries
  | .interestDelta m => EntriesFit m.entries
  | _ => True

def isInterest : Frame → Bool
  | .interestSnapshot _ => true
  | .interestDelta _ => true
  | _ => false

/-- A decoded batch remembers its header bytes; every other field is that of the frame. -/
def received : Frame → Frame
  | .batch m => .batch { m with raw := some m.header.put }
  | f => f

end Frame

@[grind =] def Frame.decodeAs (f : Frame) (body : Bytes) : Except FrameError Frame :=
  match f with
  | .serverHello _ => (ServerHello.decode body).map .serverHello
  | .hello _ => (Hello.decode body).map .hello
  | .helloOK _ => (HelloOK.decode body).map .helloOK
  | .goAway _ => (GoAway.decode body).map .goAway
  | .fetch _ => (Fetch.decode body).map .fetch
  | .batch _ => (BatchFrame.decode body).map .batch
  | .commit _ => (decodeWord body).map .commit
  | .ping _ => (decodeWord body).map .ping
  | .pong _ => (decodeWord body).map .pong
  | .interestSnapshot _ => (InterestSnapshot.decode body).map .interestSnapshot
  | .interestDelta _ => (InterestDelta.decode body).map .interestDelta

private theorem decodeFrame_type (f : Frame) (body : Bytes) : decodeFrame f.type body = f.decodeAs body := by
  cases f <;>
    simp [decodeFrame, Frame.type, Frame.decodeAs, frameServerHello, frameHello, frameHelloOK,
      frameGoAway, frameFetch, frameBatch, frameCommit, framePing, framePong, frameInterestSnapshot,
      frameInterestDelta]

/-- Bytes after the fields are ignored, and rejected after the entries of an interest
frame. -/
theorem decodeFrame_body {f : Frame} (h : f.Fits) (extra : Bytes) : decodeFrame f.type (f.body ++ extra) =
      if f.isInterest = true ∧ extra ≠ [] then .error .interestCount else .ok f.received := by
  rw [decodeFrame_type]
  cases f with
  | serverHello m => simp [Frame.decodeAs, Frame.body, ServerHello.decode_body, Frame.isInterest,
      Frame.received, Except.map]
  | hello m => simp [Frame.decodeAs, Frame.body, Hello.decode_body h, Frame.isInterest,
      Frame.received, Except.map]
  | helloOK m => simp [Frame.decodeAs, Frame.body, HelloOK.decode_body h, Frame.isInterest,
      Frame.received, Except.map]
  | goAway m => simp [Frame.decodeAs, Frame.body, GoAway.decode_body h, Frame.isInterest,
      Frame.received, Except.map]
  | fetch m => simp [Frame.decodeAs, Frame.body, Fetch.decode_body, Frame.isInterest,
      Frame.received, Except.map]
  | batch m => simp [Frame.decodeAs, Frame.body, BatchFrame.decode_body h, Frame.isInterest,
      Frame.received, Except.map]
  | commit word | ping token | pong token => simp [Frame.decodeAs, Frame.body, decodeWord_put64, Frame.isInterest,
      Frame.received, Except.map]
  | interestSnapshot m =>
    by_cases hextra : extra = []
    · rw [Frame.decodeAs, Frame.body, InterestSnapshot.decode_body h, if_pos hextra, if_neg (by simp [hextra])]
      rfl
    · simp [Frame.decodeAs, Frame.body, InterestSnapshot.decode_body h, hextra, Frame.isInterest,
        Except.map]
  | interestDelta m =>
    by_cases hextra : extra = []
    · rw [Frame.decodeAs, Frame.body, InterestDelta.decode_body h, if_pos hextra, if_neg (by simp [hextra])]
      rfl
    · simp [Frame.decodeAs, Frame.body, InterestDelta.decode_body h, hextra, Frame.isInterest,
        Except.map]

theorem readBody_append (body rest : Bytes) : readBody body.length (body ++ rest) = .ok (body, rest) := by
  induction hn : body.length using Nat.strong_induction_on generalizing body with
  | _ n ih =>
    rw [readBody]
    split
    · rename_i h0
      have : body = [] := length_eq_zero_iff.mp (hn.trans h0)
      simp [this]
    · rename_i h0
      have hc : min n readChunk ≤ body.length := by omega
      have hpos : 0 < min n readChunk := by
        simp only [readChunk]
        omega
      simp only
      rw [if_neg (by rw [length_append]; omega), drop_append_of_le_length hc,
        take_append_of_le_length hc]
      have hrec := ih (n - min n readChunk) (by omega) (body.drop (min n readChunk))
        (by rw [length_drop, hn])
      rw [hrec]
      simp only [take_append_drop]

/-- The length field covers the type byte and the body, and the cap of the reader
allows it. -/
def FrameFits (max : UInt32) (body : Bytes) : Prop := 1 + body.length ≤ max.toNat
deriving Decidable

theorem readFrame_wrapFrame {max : UInt32} {t : FrameType} {body : Bytes} (h : FrameFits max body)
    (rest : Bytes) : readFrame max (wrapFrame t body ++ rest) = .ok (t, body, rest) := by
  have hmax := max.toNat_lt
  unfold FrameFits at h
  have hn : (UInt32.ofNat (1 + body.length)).toNat = 1 + body.length := toNat_ofNat32 (by omega)
  have hheader : readHeader max (wrapFrame t body ++ rest) = .ok (t, body.length, body ++ rest) := by
    have hget : get32 (wrapFrame t body ++ rest) = UInt32.ofNat (1 + body.length) := by
      simp [wrapFrame]
    have hlen : (wrapFrame t body ++ rest).length = 5 + body.length + rest.length := by
      simp [wrapFrame]
      omega
    have ht : (wrapFrame t body ++ rest).getD 4 0 = t := by
      simp [wrapFrame]
    have hdrop : (wrapFrame t body ++ rest).drop 5 = body ++ rest := by
      rw [wrapFrame, append_assoc]
      exact drop_left' (by simp)
    unfold readHeader
    simp only [hget, hlen, ht, hdrop, hn, frameHeaderLen]
    rw [if_neg (by omega), if_neg (by omega), if_neg, if_neg]
    · congr 3
      omega
    · intro hgt
      have := UInt32.lt_iff_toNat_lt.mp hgt
      omega
    · intro h0
      rw [h0] at hn
      have : (0 : UInt32).toNat = 0 := rfl
      omega
  rw [readFrame, hheader]
  simp only [readBody_append]

theorem readFrames_append {max : UInt32} {fs : List Frame} (h : ∀ f ∈ fs, f.Fits ∧ FrameFits max f.body)
    (rest : Bytes) : readFrames max fs.length (fs.flatMap appendFrame ++ rest) =
      .ok (fs.map Frame.received, rest) := by
  induction fs with
  | nil => rfl
  | cons f fs ih =>
    obtain ⟨hfits, hmax⟩ := h f mem_cons_self
    have hdecode := decodeFrame_body hfits []
    rw [append_nil, if_neg (by simp)] at hdecode
    rw [flatMap_cons, append_assoc, length_cons, readFrames, appendFrame,
      readFrame_wrapFrame hmax]
    simp only [hdecode]
    rw [ih (fun f' hf => h f' (mem_cons_of_mem _ hf))]
    rfl

private theorem crcUpdate_append (crc : UInt32) (a b : Bytes) :
    crcUpdate (crcUpdate crc a) b = crcUpdate crc (a ++ b) := by
  simp [crcUpdate, foldl_append]

private theorem crcUpdate_nil (crc : UInt32) : crcUpdate crc [] = crc := by
  simp [crcUpdate]

private theorem foldl_crcUpdate (crc : UInt32) (records : List Bytes) :
    records.foldl crcUpdate crc = crcUpdate crc records.flatten := by
  induction records generalizing crc with
  | nil => exact (crcUpdate_nil crc).symm
  | cons r rs ih => rw [foldl_cons, ih, crcUpdate_append, flatten_cons]

/-- The check value of CRC-32C. -/
example : crcUpdate 0 [49, 50, 51, 52, 53, 54, 55, 56, 57] = 0xE3069283 := by
  decide +kernel

theorem BatchHeader.putCovered_length (h : BatchHeader) : h.putCovered.length = batchCRCCovered := by
  simp [BatchHeader.putCovered, batchCRCCovered, batchHeaderLen]

namespace BatchFrame

variable {m : BatchFrame}

theorem body_length (h : m.Fits) : m.body.length = batchHeaderLen +
    (if m.header.isSparse then sparseTableLen m.header.count.toNat else 0) +
      m.header.recordsBytes.toNat := by
  rw [body, length_append, length_append, BatchHeader.put_length, h.recordsBytes]
  cases hs : m.sparse with
  | none => simp [h.sparse, hs]
  | some table =>
    obtain ⟨span, deltas, ht, hdeltas⟩ := h.table table hs
    simp [h.sparse, hs, ht.eq, appendSparseTable_length, hdeltas]

theorem encodeBatchPrefix_append (h : m.Fits) (hlen : 1 + m.body.length < 2 ^ 32) :
    encodeBatchPrefix m.header ++ m.sparse.getD [] ++ m.records = appendFrame (.batch m) := by
  have hword : UInt32.ofNat (1 + batchHeaderLen) + m.header.sparseLen + m.header.recordsBytes =
      UInt32.ofNat (1 + m.body.length) := by
    have hbody := body_length h
    rw [← UInt32.toNat_inj, UInt32.toNat_add, UInt32.toNat_add, toNat_ofNat32 hlen,
      toNat_ofNat32 (by decide)]
    unfold BatchHeader.sparseLen
    split
    · rename_i hflag
      rw [if_pos hflag] at hbody
      rw [toNat_ofNat32 (by omega)]
      omega
    · rename_i hflag
      rw [if_neg hflag] at hbody
      have : (0 : UInt32).toNat = 0 := rfl
      omega
  rw [encodeBatchPrefix, hword, appendFrame, wrapFrame, Frame.type, Frame.body, body]
  simp only [append_assoc]

/-- The header with the CRC that the serve path stores. -/
def crcHeader (h : BatchHeader) (sparse : Bytes) (records : List Bytes) : BatchHeader :=
  { h with crc32c := batchCRC (encodeBatchPrefix h) sparse records }

private theorem drop_encodeBatchPrefix (h : BatchHeader) :
    ((encodeBatchPrefix h).drop frameHeaderLen).take batchCRCCovered = h.putCovered := by
  have hdrop : (encodeBatchPrefix h).drop frameHeaderLen = h.put :=
    drop_left' (by simp [frameHeaderLen])
  rw [hdrop, BatchHeader.put, take_left' (BatchHeader.putCovered_length h)]

private theorem setBatchCRC_eq (h : BatchHeader) (sparse : Bytes) (records : List Bytes) :
    setBatchCRC (encodeBatchPrefix h) sparse records =
      encodeBatchPrefix (crcHeader h sparse records) := by
  have htake : (encodeBatchPrefix h).take (batchPrefixLen - 4) =
      put32 (UInt32.ofNat (1 + batchHeaderLen) + h.sparseLen + h.recordsBytes) ++ [frameBatch] ++
        h.putCovered := by
    rw [encodeBatchPrefix, BatchHeader.put, ← append_assoc]
    exact take_left' (by
      simp [BatchHeader.putCovered_length, batchPrefixLen, frameHeaderLen, batchHeaderLen,
        batchCRCCovered])
  rw [setBatchCRC, htake, encodeBatchPrefix, BatchHeader.put, append_assoc, append_assoc]
  rfl

variable {records : List Bytes}

variable {h : BatchHeader} {sparse : Option Bytes}

theorem crcValid_received :
    (BatchFrame.mk (crcHeader h (sparse.getD []) records) records.flatten sparse
      (some (crcHeader h (sparse.getD []) records).put)).crcValid = true := by
  have hcovered : (crcHeader h (sparse.getD []) records).put.take batchCRCCovered = h.putCovered := by
    rw [BatchHeader.put, take_left' (BatchHeader.putCovered_length _)]
    rfl
  have hcrc : (BatchFrame.mk (crcHeader h (sparse.getD []) records) records.flatten sparse
      (some (crcHeader h (sparse.getD []) records).put)).computeCRC =
        batchCRC (encodeBatchPrefix h) (sparse.getD []) records := by
    simp only [computeCRC, Option.getD_some, hcovered, batchCRC, drop_encodeBatchPrefix,
      foldl_crcUpdate]
  unfold crcValid
  rw [hcrc]
  simp [crcHeader]

def withCRC (h : BatchHeader) (sparse : Option Bytes) (records : List Bytes) : BatchFrame :=
  ⟨crcHeader h (sparse.getD []) records, records.flatten, sparse, none⟩

theorem withCRC_fits
    (hfits : (BatchFrame.mk h records.flatten sparse none).Fits) : (withCRC h sparse records).Fits :=
  ⟨hfits.1, hfits.2, hfits.3, hfits.4⟩

private theorem withCRC_length
    (hfits : (BatchFrame.mk h records.flatten sparse none).Fits) :
    (withCRC h sparse records).body.length = (BatchFrame.mk h records.flatten sparse none).body.length := by
  rw [body_length (withCRC_fits hfits), body_length hfits]
  rfl

private theorem setBatchCRC_append
    (hfits : (BatchFrame.mk h records.flatten sparse none).Fits)
    (hlen : 1 + (BatchFrame.mk h records.flatten sparse none).body.length < 2 ^ 32) :
    setBatchCRC (encodeBatchPrefix h) (sparse.getD []) records ++ sparse.getD [] ++ records.flatten =
      appendFrame (.batch (withCRC h sparse records)) := by
  rw [← withCRC_length hfits] at hlen
  rw [← encodeBatchPrefix_append (withCRC_fits hfits) hlen, setBatchCRC_eq]
  rfl

end BatchFrame

/-- A stream of frames is split back into them. The serve path writes the same bytes as
`Batch.AppendFrame`, also with a CRC, which the receiver then finds valid. Bytes after
the fields change nothing, and make an interest frame invalid. -/
theorem frames_round_trip : (∀ (max : UInt32) (fs : List Frame) (rest : Bytes),
      (∀ f ∈ fs, f.Fits ∧ FrameFits max f.body) →
        readFrames max fs.length (fs.flatMap appendFrame ++ rest) = .ok (fs.map Frame.received, rest)) ∧
      (∀ m : BatchFrame, m.Fits → 1 + m.body.length < 2 ^ 32 →
        encodeBatchPrefix m.header ++ m.sparse.getD [] ++ m.records = appendFrame (.batch m)) ∧
      (∀ (h : BatchHeader) (sparse : Option Bytes) (records : List Bytes),
        (BatchFrame.mk h records.flatten sparse none).Fits →
        1 + (BatchFrame.mk h records.flatten sparse none).body.length < 2 ^ 32 →
          ∃ m : BatchFrame, m.header = { h with
              crc32c := batchCRC (encodeBatchPrefix h) (sparse.getD []) records } ∧
            m.records = records.flatten ∧ m.sparse = sparse ∧
            setBatchCRC (encodeBatchPrefix h) (sparse.getD []) records ++ sparse.getD [] ++
              records.flatten = appendFrame (.batch m) ∧
            (∀ extra, BatchFrame.decode (m.body ++ extra) = .ok { m with raw := some m.header.put }) ∧
            BatchFrame.crcValid { m with raw := some m.header.put } = true) ∧
      (∀ (f : Frame) (extra : Bytes), f.Fits → decodeFrame f.type (f.body ++ extra) =
        if f.isInterest = true ∧ extra ≠ [] then .error .interestCount else .ok f.received) := by
  refine ⟨?_, ?_, ?_, ?_⟩
  · intro max fs rest h
    exact readFrames_append h rest
  · intro m h hlen
    exact BatchFrame.encodeBatchPrefix_append h hlen
  · intro h sparse records hfits hlen
    exact ⟨BatchFrame.withCRC h sparse records, rfl, rfl, rfl, BatchFrame.setBatchCRC_append hfits hlen,
      fun extra => BatchFrame.decode_body (BatchFrame.withCRC_fits hfits) extra,
      BatchFrame.crcValid_received⟩
  · intro f extra h
    exact decodeFrame_body h extra

/-- A sparse batch with two records at deltas 0 and 2 of a span of 4. -/
def sampleBatch : BatchFrame where
  header := ⟨1, batchFlagSparse, 0, 10, 2, 8, 1, 14, 0, 5, -3, 0⟩
  records := [0, 0, 0, 0, 0, 0, 0, 0]
  sparse := some (appendSparseTable 4 [0, 2])
  raw := none

private theorem sampleBatch_fits : sampleBatch.Fits := by
  refine ⟨rfl, by decide, by decide, ?_⟩
  intro table htable
  cases htable
  have hlt : ∀ d ∈ ([0, 2] : List UInt32), d < 4 := by
    intro d hd
    rcases mem_cons.mp hd with rfl | hd
    · decide
    · rw [mem_singleton.mp hd]
      decide
  exact ⟨4, [0, 2], ⟨rfl, by decide, by decide, hlt⟩, rfl⟩

theorem frames_round_trip_sample :
    readFrames 4096 2 (appendFrame (.ping 7) ++ (appendFrame (.batch sampleBatch) ++ [])) =
      .ok ([.ping 7, .batch { sampleBatch with raw := some sampleBatch.header.put }], []) := by
  have h := frames_round_trip.1 4096 [.ping 7, .batch sampleBatch] [] (by
    intro f hf
    simp only [mem_cons, not_mem_nil, or_false] at hf
    rcases hf with rfl | rfl
    · exact ⟨trivial, by decide⟩
    · exact ⟨sampleBatch_fits, by decide⟩)
  rw [flatMap_cons, flatMap_cons, flatMap_nil, append_assoc, append_assoc] at h
  exact h

/-- A sparse batch without records over no offsets at all. -/
def emptySpan : BatchFrame where
  header := ⟨1, batchFlagSparse, 0, 10, 0, 0, 1, 10, 0, 5, 0, 0⟩
  records := []
  sparse := some (appendSparseTable 0 [])
  raw := none

/-- The receiver refuses a span of zero. -/
theorem emptySpan_rejected : (emptySpan.header.count = 0 ∧ emptySpan.header.recordsBytes = 0) ∧
    decodeFrame frameBatch emptySpan.body = .error .batchSparse := by
  decide

end MonsterMQ.PeerLink
