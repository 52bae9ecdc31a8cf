import MonsterMQ.NatsSubjects
import MonsterMQ.RedisFrames

/-!
# Messages on the wire

`writeSubBatch` and `deliverMsgRaw` write the words of a `MSG` or `HMSG` line as they are. A frame is read
back exactly when no topic or name in its line has a blank or a line break.
-/

namespace MonsterMQ.Nats

open LittleEndian Auth DecimalText List
open Redis (crlf signed counted fields)

structure UserProperty where
  key : Bytes
  value : Bytes
  deriving DecidableEq, Repr

structure Message where
  topicName : Bytes
  responseTopic : Bytes
  userProperties : List UserProperty
  payload : Bytes
  deriving DecidableEq, Repr

def blankBreaks (s : Bytes) : Bytes := s.map fun b => if b = 0x0d ∨ b = 0x0a then 0x20 else b

def headerLine (p : UserProperty) : Bytes :=
  ((blankBreaks p.key).map fun b => if b = 0x3a then 0x5f else b) ++ ascii ": " ++ blankBreaks p.value ++ crlf

/-- The properties with the last value of each key, in the order in which the keys first appear. -/
def mergeProperties : List UserProperty → List UserProperty
  | [] => []
  | p :: ps =>
    let value := ((ps.filter fun q => q.key = p.key).getLast?.getD p).value
    ⟨p.key, value⟩ :: (mergeProperties ps).filter fun q => q.key ≠ p.key

/-- `formatHeaders` and `formatHeadersMap`, for properties without repeated keys. -/
def headerBlock (status : Bytes) (props : List UserProperty) : Bytes :=
  ascii "NATS/1.0" ++ (if status = [] then [] else ascii " " ++ status) ++ crlf ++ props.flatMap headerLine ++ crlf

def formatHeaders (status : Bytes) (props : List UserProperty) : Bytes := headerBlock status (mergeProperties props)

def address (subject sid replyTo : Bytes) : Bytes :=
  subject ++ ascii " " ++ sid ++ ascii " " ++ (if replyTo = [] then [] else replyTo ++ ascii " ")

def writeNatsMsgFrame (subject sid replyTo headers payload : Bytes) : Bytes :=
  if headers = [] then
    ascii "MSG " ++ address subject sid replyTo ++ decimal payload.length ++ crlf ++ payload ++ crlf
  else
    ascii "HMSG " ++ address subject sid replyTo ++ decimal headers.length ++ ascii " " ++
      decimal (headers.length + payload.length) ++ crlf ++ headers ++ payload ++ crlf

def deliverMsgRaw (headersEnabled : Bool) (subject sid replyTo headers payload : Bytes) : Bytes :=
  writeNatsMsgFrame subject sid replyTo (if headersEnabled then headers else []) payload

def subSid (args : Bytes) : Option Bytes := if (fields args).length < 2 then none else (fields args).getLast?

structure Bucket where
  name : Bytes
  valid : name ≠ [] ∧ ∀ b ∈ name, 0x61 ≤ b ∧ b ≤ 0x7a ∨ 0x41 ≤ b ∧ b ≤ 0x5a ∨ isDigit b = true ∨ b = 0x5f ∨ b = 0x2d

/-- What is delivered: a message to a subscription, or to a consumer of a bucket with its numbers. -/
inductive Delivery where
  | sub (msg : Message) (headersEnabled : Bool)
  | consumer (bucket : Bucket) (name : Bytes) (streamSeq deliveredSeq nanos pending : ℤ) (headersOnly : Bool)
    (msg : Message) (headersEnabled : Bool)

@[grind =] def optional (s : Bytes) : Option Bytes := if s = [] then none else some s

structure Frame where
  subject : Bytes
  sid : Bytes
  reply : Option Bytes
  headers : Option Bytes
  payload : Bytes
  deriving DecidableEq, Repr

namespace Delivery

def subject : Delivery → Bytes
  | .sub msg _ => topicToSubject msg.topicName
  | .consumer bucket _ _ _ _ _ _ msg _ =>
    ascii "$KV." ++ bucket.name ++ ascii "." ++ topicToSubject msg.topicName

def replyTo : Delivery → Bytes
  | .sub msg _ => topicToSubject msg.responseTopic
  | .consumer bucket name streamSeq deliveredSeq nanos pending _ _ _ =>
    ascii "$JS.ACK.KV_" ++ bucket.name ++ ascii "." ++ name ++ ascii ".1." ++ signed streamSeq ++ ascii "." ++
      signed deliveredSeq ++ ascii "." ++ signed nanos ++ ascii "." ++ signed pending

/-- The header block; that of `deliverConsumerMsg` stands for a deletion or for the size of the value. -/
def block : Delivery → Bytes
  | .sub msg headersEnabled =>
    if headersEnabled = true ∧ msg.userProperties ≠ [] then formatHeaders [] msg.userProperties else []
  | .consumer _ _ _ _ _ _ headersOnly msg _ =>
    if msg.payload = [] then headerBlock [] [⟨ascii "KV-Operation", ascii "DEL"⟩]
    else if headersOnly then headerBlock [] [⟨ascii "Nats-Msg-Size", decimal msg.payload.length⟩]
    else []

def payload : Delivery → Bytes
  | .sub msg _ => msg.payload
  | .consumer _ _ _ _ _ _ headersOnly msg _ => if headersOnly then [] else msg.payload

def bytes (d : Delivery) (sid : Bytes) : Bytes :=
  match d with
  | .sub _ _ => writeNatsMsgFrame d.subject sid d.replyTo d.block d.payload
  | .consumer _ _ _ _ _ _ _ _ headersEnabled =>
    deliverMsgRaw headersEnabled d.subject sid d.replyTo d.block d.payload

def headers : Delivery → Bytes
  | .sub msg headersEnabled => block (.sub msg headersEnabled)
  | .consumer bucket name streamSeq deliveredSeq nanos pending headersOnly msg headersEnabled =>
    if headersEnabled then
      block (.consumer bucket name streamSeq deliveredSeq nanos pending headersOnly msg headersEnabled)
    else []

def frame (d : Delivery) (sid : Bytes) : Frame :=
  ⟨d.subject, sid, optional d.replyTo, optional d.headers, d.payload⟩

end Delivery

@[grind =] def isBlank (b : UInt8) : Bool := b = 0x20 || b = 0x09 || b = 0x0d

@[grind =] def wordsFrom (word : Bytes) : Bytes → List Bytes
  | [] => if word = [] then [] else [word]
  | b :: s =>
    if isBlank b then (if word = [] then wordsFrom [] s else word :: wordsFrom [] s)
    else wordsFrom (word ++ [b]) s

@[grind =] def controlLine : Bytes → Option (Bytes × Bytes)
  | [] => none
  | b :: s => if b = 0x0a then some ([], s) else (controlLine s).map fun p => (b :: p.1, p.2)

@[grind =]
def body (subject sid : Bytes) (reply : Option Bytes) (hdr : Option Bytes) (size s : Bytes) : Option (Frame × Bytes) :=
  match number size with
  | none => none
  | some n =>
    match counted n s with
    | none => none
    | some (b, rest) =>
      match hdr with
      | none => some (⟨subject, sid, reply, none, b⟩, rest)
      | some h =>
        match number h with
        | none => none
        | some k => if k ≤ n then some (⟨subject, sid, reply, some (b.take k), b.drop k⟩, rest) else none

@[grind =] def readFrame (s : Bytes) : Option (Frame × Bytes) :=
  match controlLine s with
  | none => none
  | some (l, s) =>
    match wordsFrom [] l with
    | [op, subject, sid, size] => if op = ascii "MSG" then body subject sid none none size s else none
    | [op, subject, sid, w, size] =>
      if op = ascii "MSG" then body subject sid (some w) none size s
      else if op = ascii "HMSG" then body subject sid none (some w) size s
      else none
    | [op, subject, sid, reply, hdr, size] =>
      if op = ascii "HMSG" then body subject sid (some reply) (some hdr) size s else none
    | _ => none

def ReadsAs (bytes : Bytes) (f : Frame) : Prop := ∀ rest, readFrame (bytes ++ rest) = some (f, rest)

@[grind =] def Word (s : Bytes) : Prop := 0x20 ∉ s ∧ 0x09 ∉ s ∧ 0x0d ∉ s ∧ 0x0a ∉ s
deriving Decidable

/-- A topic without the bytes that the conversion leaves and that end a word or a line. -/
def Unbroken (s : Bytes) : Prop := 0x09 ∉ s ∧ 0x0d ∉ s ∧ 0x0a ∉ s

/-- The topics, and the name of the consumer, have nothing in them that breaks the line. -/
def Delivery.Harmless : Delivery → Prop
  | .sub msg _ => msg.topicName ≠ [] ∧ Unbroken msg.topicName ∧ Unbroken msg.responseTopic
  | .consumer _ name _ _ _ _ _ msg _ => Unbroken msg.topicName ∧ Word name

theorem wordsFrom_word {word f : Bytes} (h : Word f) (s : Bytes) :
    wordsFrom word (f ++ s) = wordsFrom (word ++ f) s := by
  induction f generalizing word with
  | nil => rw [nil_append, append_nil]
  | cons b f ih =>
    have hb : isBlank b = false := by
      simp only [isBlank, Bool.or_eq_false_iff, decide_eq_false_iff_not]
      refine ⟨⟨?_, ?_⟩, ?_⟩
      · rintro rfl
        exact h.1 mem_cons_self
      · rintro rfl
        exact h.2.1 mem_cons_self
      · rintro rfl
        exact h.2.2.1 mem_cons_self
    have hf : Word f := ⟨fun hm => h.1 (mem_cons_of_mem _ hm), fun hm => h.2.1 (mem_cons_of_mem _ hm),
      fun hm => h.2.2.1 (mem_cons_of_mem _ hm), fun hm => h.2.2.2 (mem_cons_of_mem _ hm)⟩
    rw [cons_append, wordsFrom, hb, if_neg Bool.false_ne_true, ih hf, append_assoc]
    rfl

theorem wordsFrom_blank {f : Bytes} (hne : f ≠ []) (h : Word f) {b : UInt8} (hb : isBlank b = true) (s : Bytes) :
    wordsFrom [] (f ++ b :: s) = f :: wordsFrom [] s := by
  rw [wordsFrom_word h, nil_append, wordsFrom, hb, if_pos rfl, if_neg hne]

@[grind =] def spaced (ws : List Bytes) : Bytes := ws.flatMap fun w => w ++ [0x20]

private theorem wordsFrom_spaced {ws : List Bytes} (h : ∀ w ∈ ws, w ≠ [] ∧ Word w) (s : Bytes) :
    wordsFrom [] (spaced ws ++ s) = ws ++ wordsFrom [] s := by
  induction ws with
  | nil => rfl
  | cons w ws ih =>
    obtain ⟨hne, hw⟩ := h w mem_cons_self
    rw [spaced, flatMap_cons, append_assoc, append_assoc, singleton_append,
      wordsFrom_blank hne hw rfl]
    exact congrArg (w :: ·) (ih fun w' hw' => h w' (mem_cons_of_mem _ hw'))

theorem controlLine_lf {l : Bytes} (h : 0x0a ∉ l) (s : Bytes) : controlLine (l ++ 0x0a :: s) = some (l, s) := by
  induction l with
  | nil => rfl
  | cons b l ih =>
    have hb : b ≠ 0x0a := fun heq => h (by rw [heq]; exact mem_cons_self)
    rw [cons_append, controlLine, if_neg hb, ih fun hm => h (mem_cons_of_mem _ hm), Option.map_some]

variable {s sid subject : Bytes}

private theorem not_lf_of_controlLine {l rest : Bytes} (h : controlLine s = some (l, rest)) : 0x0a ∉ l := by
  induction s generalizing l with
  | nil => cases h
  | cons b s ih =>
    rw [controlLine] at h
    split at h
    · cases h
      exact not_mem_nil
    · next hb =>
      obtain ⟨⟨l', rest'⟩, hl, heq⟩ := Option.map_eq_some_iff.mp h
      cases heq
      intro hm
      rcases mem_cons.mp hm with hm | hm
      · exact hb hm.symm
      · exact ih hl hm

theorem word_of_mem_wordsFrom {word w : Bytes} (hword : Word word) (hs : 0x0a ∉ s) (h : w ∈ wordsFrom word s) :
    w ≠ [] ∧ Word w := by
  induction s generalizing word with
  | nil =>
    rw [wordsFrom] at h
    split at h
    · cases h
    · next hne =>
      rw [mem_singleton.mp h]
      exact ⟨hne, hword⟩
  | cons b s ih =>
    have hrest : 0x0a ∉ s := fun hm => hs (mem_cons_of_mem _ hm)
    have hempty : Word [] := ⟨not_mem_nil, not_mem_nil, not_mem_nil, not_mem_nil⟩
    rw [wordsFrom] at h
    split at h
    · split at h
      · exact ih hempty hrest h
      · next hne =>
        rcases mem_cons.mp h with rfl | h
        · exact ⟨hne, hword⟩
        · exact ih hempty hrest h
    · next hb =>
      refine ih ?_ hrest h
      simp only [isBlank, Bool.or_eq_true, decide_eq_true_eq, not_or] at hb
      obtain ⟨⟨hsp, htab⟩, hcr⟩ := hb
      have hlf : b ≠ 0x0a := fun heq => hs (by rw [heq]; exact mem_cons_self)
      simp only [Word, mem_append, mem_singleton, not_or]
      exact ⟨⟨hword.1, fun heq => hsp heq.symm⟩, ⟨hword.2.1, fun heq => htab heq.symm⟩,
        ⟨hword.2.2.1, fun heq => hcr heq.symm⟩, ⟨hword.2.2.2, fun heq => hlf heq.symm⟩⟩

theorem word_of_mem_fieldsFrom {word w : Bytes} {skip : ℕ} (hword : Word word)
    (h : w ∈ Redis.fieldsFrom word skip s) : w ≠ [] ∧ Word w := by
  induction s generalizing word skip with
  | nil =>
    cases skip <;> (
      rw [Redis.fieldsFrom] at h
      split at h
      · cases h
      · next hne =>
        rw [mem_singleton.mp h]
        exact ⟨hne, hword⟩)
  | cons b s ih =>
    have hempty : Word [] := ⟨not_mem_nil, not_mem_nil, not_mem_nil, not_mem_nil⟩
    cases skip with
    | succ skip => exact ih hword h
    | zero =>
      rw [Redis.fieldsFrom] at h
      split at h
      · next hlen =>
        refine ih ?_ h
        have hb : b ∉ ([0x20, 0x09, 0x0a, 0x0b, 0x0c, 0x0d] : Bytes) := by
          intro hm
          rw [Redis.spaceLen, if_pos hm] at hlen
          cases hlen
        simp only [mem_cons, not_mem_nil, or_false, not_or] at hb
        simp only [Word, mem_append, mem_singleton, not_or]
        exact ⟨⟨hword.1, fun heq => hb.1 heq.symm⟩, ⟨hword.2.1, fun heq => hb.2.1 heq.symm⟩,
          ⟨hword.2.2.1, fun heq => hb.2.2.2.2.2 heq.symm⟩, ⟨hword.2.2.2, fun heq => hb.2.2.1 heq.symm⟩⟩
      · split at h
        · exact ih hempty h
        · next hne =>
          rcases mem_cons.mp h with rfl | h
          · exact ⟨hne, hword⟩
          · exact ih hempty h

private theorem word_of_subSid {args : Bytes} (h : subSid args = some sid) : sid ≠ [] ∧ Word sid := by
  rw [subSid] at h
  split at h
  · cases h
  · exact word_of_mem_fieldsFrom ⟨not_mem_nil, not_mem_nil, not_mem_nil, not_mem_nil⟩
      (mem_of_getLast? h)

theorem word_append {t : Bytes} : Word (s ++ t) ↔ Word s ∧ Word t := by
  simp only [Word, mem_append, not_or]
  tauto

private theorem word_digits (h : ∀ b ∈ s, isDigit b = true) : Word s :=
  ⟨fun hb => absurd (h _ hb) (by decide), fun hb => absurd (h _ hb) (by decide), fun hb => absurd (h _ hb) (by decide),
    fun hb => absurd (h _ hb) (by decide)⟩

theorem word_decimal (n : ℕ) : Word (decimal n) := word_digits fun _ hb => isDigit_of_mem_decimal hb

theorem controlLine_words {ws : List Bytes} {size : Bytes} (hws : ∀ w ∈ ws, w ≠ [] ∧ Word w) (hne : size ≠ [])
    (hsize : Word size) (s : Bytes) :
    ∃ l, controlLine (spaced ws ++ (size ++ (crlf ++ s))) = some (l, s) ∧ wordsFrom [] l = ws ++ [size] := by
  have hlf : 0x0a ∉ spaced ws := by
    intro hm
    obtain ⟨w, hw, hm⟩ := mem_flatMap.mp hm
    rcases mem_append.mp hm with hm | hm
    · exact (hws w hw).2.2.2.2 hm
    · exact absurd (mem_singleton.mp hm) (by decide)
  refine ⟨spaced ws ++ (size ++ [0x0d]), ?_, ?_⟩
  · have hline : 0x0a ∉ spaced ws ++ (size ++ [0x0d]) := by
      intro hm
      rcases mem_append.mp hm with hm | hm
      · exact hlf hm
      · rcases mem_append.mp hm with hm | hm
        · exact hsize.2.2.2 hm
        · exact absurd (mem_singleton.mp hm) (by decide)
    have hbytes : spaced ws ++ (size ++ (crlf ++ s)) = (spaced ws ++ (size ++ [0x0d])) ++ 0x0a :: s := by
      rw [append_assoc, append_assoc]
      rfl
    rw [hbytes, controlLine_lf hline]
  · rw [wordsFrom_spaced hws, wordsFrom_blank hne hsize rfl]
    rfl

@[grind =] def addressWords (op subject sid replyTo : Bytes) : List Bytes :=
  if replyTo = [] then [op, subject, sid] else [op, subject, sid, replyTo]

theorem spaced_addressWords (op subject sid replyTo : Bytes) :
    spaced (addressWords op subject sid replyTo) = op ++ ascii " " ++ address subject sid replyTo := by
  have hspace : ascii " " = [0x20] := rfl
  rw [addressWords, address, hspace]
  split
  · simp [spaced]
  · simp [spaced]

theorem mem_addressWords {op replyTo : Bytes} (hop : op ≠ [] ∧ Word op)
    (hsubject : subject ≠ [] ∧ Word subject) (hsid : sid ≠ [] ∧ Word sid) (hreply : Word replyTo) :
    ∀ w ∈ addressWords op subject sid replyTo, w ≠ [] ∧ Word w := by
  intro w hw
  rw [addressWords] at hw
  split at hw
  · simp only [mem_cons, not_mem_nil, or_false] at hw
    rcases hw with rfl | rfl | rfl
    · exact hop
    · exact hsubject
    · exact hsid
  · next hne =>
    simp only [mem_cons, not_mem_nil, or_false] at hw
    rcases hw with rfl | rfl | rfl | rfl
    · exact hop
    · exact hsubject
    · exact hsid
    · exact ⟨hne, hreply⟩

variable {reply : Option Bytes}

theorem body_msg (payload rest : Bytes) :
    body subject sid reply none (decimal payload.length) (payload ++ (crlf ++ rest)) =
      some (⟨subject, sid, reply, none, payload⟩, rest) := by
  rw [body, number_decimal]
  dsimp only
  rw [Redis.counted_crlf]

theorem body_hmsg (headers payload rest : Bytes) :
    body subject sid reply (some (decimal headers.length)) (decimal (headers.length + payload.length))
      ((headers ++ payload) ++ (crlf ++ rest)) = some (⟨subject, sid, reply, some headers, payload⟩, rest) := by
  rw [body, number_decimal]
  dsimp only
  rw [← length_append, Redis.counted_crlf]
  dsimp only
  rw [number_decimal]
  dsimp only
  rw [if_pos (by rw [length_append]; exact Nat.le_add_right _ _), take_left, drop_left]

theorem readsAs_writeNatsMsgFrame {replyTo : Bytes} (hsubject : subject ≠ [] ∧ Word subject)
    (hsid : sid ≠ [] ∧ Word sid) (hreply : Word replyTo) (headers payload : Bytes) :
    ReadsAs (writeNatsMsgFrame subject sid replyTo headers payload)
      ⟨subject, sid, optional replyTo, optional headers, payload⟩ := by
  intro rest
  rw [writeNatsMsgFrame, optional, optional]
  by_cases hheaders : headers = []
  · rw [if_pos hheaders, if_pos hheaders]
    have hbytes :
        ascii "MSG " ++ address subject sid replyTo ++ decimal payload.length ++ crlf ++ payload ++ crlf ++ rest =
        spaced (addressWords (ascii "MSG") subject sid replyTo) ++
          (decimal payload.length ++ (crlf ++ (payload ++ (crlf ++ rest)))) := by
      rw [spaced_addressWords]
      simp only [append_assoc]
      rfl
    have hop : ascii "MSG" ≠ [] ∧ Word (ascii "MSG") := ⟨by decide, by decide⟩
    obtain ⟨l, hl, hwords⟩ :=
      controlLine_words (mem_addressWords hop hsubject hsid hreply) (decimal_ne_nil payload.length)
      (word_decimal _) (payload ++ (crlf ++ rest))
    rw [hbytes, readFrame, hl]
    dsimp only
    rw [hwords, addressWords]
    by_cases hr : replyTo = []
    · rw [if_pos hr, if_pos hr]
      exact body_msg payload rest
    · rw [if_neg hr, if_neg hr]
      exact body_msg payload rest
  · rw [if_neg hheaders, if_neg hheaders]
    have hbytes : ascii "HMSG " ++ address subject sid replyTo ++ decimal headers.length ++ ascii " " ++
          decimal (headers.length + payload.length) ++ crlf ++ headers ++ payload ++ crlf ++ rest =
        spaced (addressWords (ascii "HMSG") subject sid replyTo ++ [decimal headers.length]) ++
          (decimal (headers.length + payload.length) ++ (crlf ++ ((headers ++ payload) ++ (crlf ++ rest)))) := by
      rw [spaced, flatMap_append, ← spaced, spaced_addressWords]
      simp only [append_assoc, flatMap_cons, flatMap_nil, append_nil]
      rfl
    have hall : ∀ w ∈ addressWords (ascii "HMSG") subject sid replyTo ++ [decimal headers.length], w ≠ [] ∧ Word w := by
      intro w hw
      rcases mem_append.mp hw with hw | hw
      · exact mem_addressWords ⟨by decide, by decide⟩ hsubject hsid hreply w hw
      · rw [mem_singleton.mp hw]
        exact ⟨decimal_ne_nil _, word_decimal _⟩
    obtain ⟨l, hl, hwords⟩ := controlLine_words hall (decimal_ne_nil (headers.length + payload.length)) (word_decimal _)
      ((headers ++ payload) ++ (crlf ++ rest))
    rw [hbytes, readFrame, hl]
    dsimp only
    rw [hwords, addressWords]
    by_cases hr : replyTo = []
    · rw [if_pos hr, if_pos hr]
      exact body_hmsg headers payload rest
    · rw [if_neg hr, if_neg hr]
      exact body_hmsg headers payload rest

theorem frame_of_body {size rest : Bytes} {hdr : Option Bytes} {f : Frame}
    (h : body subject sid reply hdr size s = some (f, rest)) : f.subject = subject ∧ f.reply = reply := by
  rw [body] at h
  split at h
  · cases h
  · split at h
    · cases h
    · split at h
      · cases h
        exact ⟨rfl, rfl⟩
      · split at h
        · cases h
        · split at h
          · cases h
            exact ⟨rfl, rfl⟩
          · cases h

theorem word_of_readFrame {rest : Bytes} {f : Frame} (h : readFrame s = some (f, rest)) :
    (f.subject ≠ [] ∧ Word f.subject) ∧ ∀ r, f.reply = some r → Word r := by
  rw [readFrame] at h
  split at h
  · cases h
  · next l s' hl =>
    have hwords : ∀ w ∈ wordsFrom [] l, w ≠ [] ∧ Word w := fun w hw =>
      word_of_mem_wordsFrom ⟨not_mem_nil, not_mem_nil, not_mem_nil, not_mem_nil⟩
        (not_lf_of_controlLine hl) hw
    split at h
    · next op subject sid size heq =>
      rw [heq] at hwords
      split at h
      · obtain ⟨hsubject, hreply⟩ := frame_of_body h
        rw [hsubject, hreply]
        exact ⟨hwords subject (by simp), fun r hr => by cases hr⟩
      · cases h
    · next op subject sid w size heq =>
      rw [heq] at hwords
      split at h
      · obtain ⟨hsubject, hreply⟩ := frame_of_body h
        rw [hsubject, hreply]
        refine ⟨hwords subject (by simp), fun r hr => ?_⟩
        cases hr
        exact (hwords w (by simp)).2
      · split at h
        · obtain ⟨hsubject, hreply⟩ := frame_of_body h
          rw [hsubject, hreply]
          exact ⟨hwords subject (by simp), fun r hr => by cases hr⟩
        · cases h
    · next op subject sid reply hdr size heq =>
      rw [heq] at hwords
      split at h
      · obtain ⟨hsubject, hreply⟩ := frame_of_body h
        rw [hsubject, hreply]
        refine ⟨hwords subject (by simp), fun r hr => ?_⟩
        cases hr
        exact (hwords reply (by simp)).2
      · cases h
    · cases h

private theorem topicByteToSubject_ne_blank (b : UInt8) : topicByteToSubject b ≠ 0x20 := by
  rw [topicByteToSubject]
  split_ifs with h1 h2 h3 h4
  · decide
  · decide
  · decide
  · decide
  · exact h4

theorem topicByteToSubject_eq {b c : UInt8} (hc : c = 0x09 ∨ c = 0x0d ∨ c = 0x0a) (h : topicByteToSubject b = c) :
    b = c := by
  rw [topicByteToSubject] at h
  split_ifs at h
  all_goals
    first
    | exact h
    | (subst h; rcases hc with hc | hc | hc <;> exact absurd hc (by decide))

theorem word_topicToSubject {topic : Bytes} : Word (topicToSubject topic) ↔ Unbroken topic := by
  have hmem : ∀ c : UInt8, c = 0x09 ∨ c = 0x0d ∨ c = 0x0a → (c ∈ topicToSubject topic ↔ c ∈ topic) := by
    intro c hc
    rw [topicToSubject, mem_map]
    constructor
    · rintro ⟨b, hb, heq⟩
      rw [← topicByteToSubject_eq hc heq]
      exact hb
    · intro hb
      refine ⟨c, hb, ?_⟩
      rcases hc with rfl | rfl | rfl <;> rfl
  have hblank : 0x20 ∉ topicToSubject topic := by
    intro hm
    obtain ⟨b, -, heq⟩ := mem_map.mp hm
    exact topicByteToSubject_ne_blank b heq
  rw [Word, Unbroken, hmem 0x09 (.inl rfl), hmem 0x0d (.inr (.inl rfl)), hmem 0x0a (.inr (.inr rfl))]
  exact ⟨fun h => h.2, fun h => ⟨hblank, h⟩⟩

private theorem word_signed (n : ℤ) : Word (signed n) := by
  rw [signed]
  split
  · exact (word_append).mpr ⟨by decide, by rw [Redis.decimal_eq]; exact word_decimal _⟩
  · rw [Redis.decimal_eq]
    exact word_decimal _

private theorem word_bucket (bucket : Bucket) : Word bucket.name := by
  have hbyte : ∀ b : UInt8, b = 0x20 ∨ b = 0x09 ∨ b = 0x0d ∨ b = 0x0a → b ∉ bucket.name := by
    intro b hb hm
    have hvalid := bucket.valid.2 b hm
    rcases hb with rfl | rfl | rfl | rfl <;> revert hvalid <;> decide
  exact ⟨hbyte _ (.inl rfl), hbyte _ (.inr (.inl rfl)), hbyte _ (.inr (.inr (.inl rfl))),
    hbyte _ (.inr (.inr (.inr rfl)))⟩

namespace Delivery

theorem bytes_eq (d : Delivery) (sid : Bytes) :
    d.bytes sid = writeNatsMsgFrame d.subject sid d.replyTo d.headers d.payload := by
  cases d with
  | sub msg headersEnabled => rfl
  | consumer => rfl

theorem harmless_iff (d : Delivery) : d.Harmless ↔ (d.subject ≠ [] ∧ Word d.subject) ∧ Word d.replyTo := by
  cases d with
  | sub msg headersEnabled =>
    rw [Harmless, subject, replyTo, word_topicToSubject, word_topicToSubject, topicToSubject, ne_eq, ne_eq,
      map_eq_nil_iff]
    exact and_assoc.symm
  | consumer bucket name streamSeq deliveredSeq nanos pending headersOnly msg headersEnabled =>
    have hkv : Word (ascii "$KV.") := by decide
    have hack : Word (ascii "$JS.ACK.KV_") := by decide
    have hone : Word (ascii ".1.") := by decide
    have hdot : Word (ascii ".") := by decide
    have hbucket := word_bucket bucket
    have hnumber := word_signed
    have hne : ascii "$KV." ++ bucket.name ++ ascii "." ++ topicToSubject msg.topicName ≠ [] := by
      simp [ascii]
    simp only [Harmless, subject, replyTo, word_append, word_topicToSubject, hkv, hack, hone, hdot, hbucket, hnumber,
      true_and, and_true, ne_eq, hne, not_false_eq_true]

/-- A delivery is one frame with its subject, sid, reply subject, headers and payload, and nothing of it is
left for the next frame, exactly when it is harmless. -/
theorem readsAs_iff_harmless (d : Delivery) (args sid : Bytes) (hsid : subSid args = some sid) :
    ReadsAs (d.bytes sid) (d.frame sid) ↔ d.Harmless := by
  rw [harmless_iff, bytes_eq]
  constructor
  · intro h
    obtain ⟨hsubject, hreply⟩ := word_of_readFrame (h [])
    refine ⟨hsubject, ?_⟩
    change ∀ r, optional d.replyTo = some r → Word r at hreply
    rw [optional] at hreply
    split at hreply
    · next hnil =>
      rw [hnil]
      decide
    · exact hreply _ rfl
  · rintro ⟨hsubject, hreply⟩
    exact readsAs_writeNatsMsgFrame hsubject (word_of_subSid hsid) hreply d.headers d.payload

/-- A reading of a sensor, with a property and a line break in its payload. -/
def reading : Delivery :=
  .sub ⟨ascii "plant/line 1", [], [⟨ascii "unit", ascii "a\r\nb"⟩], ascii "1\r\nMSG x 1 0\r\n"⟩ true

theorem reading_readsAs : subSid (ascii "plant.> 7") = some (ascii "7") ∧
    ReadsAs (reading.bytes (ascii "7")) (reading.frame (ascii "7")) := by
  have hsid : subSid (ascii "plant.> 7") = some (ascii "7") := by decide
  refine ⟨hsid, (readsAs_iff_harmless reading (ascii "plant.> 7") (ascii "7") hsid).mpr ?_⟩
  exact ⟨by decide, ⟨by decide, by decide, by decide⟩, ⟨by decide, by decide, by decide⟩⟩

/-- A topic with line breaks, which goes on as a message of its own. -/
def injected : Delivery := .sub ⟨ascii "a\t7\t0\r\n\r\nMSG\tb\t7", [], [], ascii "x"⟩ false

/-- What is behind the first frame that the client reads of it. -/
def injectedRest : Bytes := ascii "MSG\tb\t7 7 1\r\nx\r\n"

/-- For one message the client reads two: an empty one for `a` and one for `b`. -/
theorem injected_not_readsAs : subSid (ascii "> 7") = some (ascii "7") ∧
    readFrame (injected.bytes (ascii "7")) = some (⟨ascii "a", ascii "7", none, none, []⟩, injectedRest) ∧
    readFrame injectedRest = some (⟨ascii "b", ascii "7", some (ascii "7"), none, ascii "x"⟩, []) ∧
    ¬ ReadsAs (injected.bytes (ascii "7")) (injected.frame (ascii "7")) := by
  have hsid : subSid (ascii "> 7") = some (ascii "7") := by decide
  refine ⟨hsid, by decide, by decide, fun h => ?_⟩
  have hword := (word_of_readFrame (h [])).1.2
  exact absurd hword (by decide)

end Delivery

end MonsterMQ.Nats
