import MonsterMQ.BufferedReads
import MonsterMQ.RedisFrames

/-!
# Reading commands from a connection

`resp.go` again, on the buffered reader of a connection: the bytes arrive in any pieces, a line is read
from the buffer when it ends there and byte by byte otherwise. What is read is what `readCommand` reads
from the bytes in one piece.
-/

namespace MonsterMQ.Redis

open LittleEndian Auth BufferedReads

theorem readerSize_pos : 0 < readerSize := by decide

abbrev ConnReader := BufReader readerSize

abbrev ConnRead (α : Type) := Except ReadError (α × ConnReader)

def flat {α : Type} (r : Except ReadError (α × ConnReader)) : Except ReadError (α × Bytes) :=
  r.map fun p => (p.1, p.2.stream)

def protocolError (msg : String) : ReadError := .protocol (ascii ("ERR Protocol error: " ++ msg))

namespace ConnReader

def byte (b : ConnReader) : ConnRead UInt8 := (b.readByte readerSize_pos).elim (.error .io) .ok

theorem byte_length {b b' : ConnReader} {x : UInt8} (h : byte b = .ok (x, b')) :
    b'.stream.length < b.stream.length := by
  rw [byte] at h
  have hstream := BufReader.readByte_stream readerSize_pos b
  cases hread : b.readByte readerSize_pos with
  | none =>
    rw [hread] at h
    cases h
  | some p =>
    rw [hread] at h hstream
    cases h
    cases hs : b.stream with
    | nil =>
      rw [hs] at hstream
      cases hstream
    | cons y s =>
      rw [hs] at hstream
      cases hstream
      exact Nat.lt_succ_self _

def readOn (maxLen : ℕ) (buf : Bytes) (b : ConnReader) : ConnRead Bytes :=
  if buf.length > maxLen then .error (protocolError "too big inline request")
  else match h : byte b with
    | .error e => .error e
    | .ok (x, b₁) =>
      if x = 0x0d then
        match h' : byte b₁ with
        | .error e => .error e
        | .ok (next, b₂) =>
          if next = 0x0a then
            if buf.length > maxLen then .error (protocolError "too big inline request") else .ok (buf, b₂)
          else readOn maxLen (buf ++ [x, next]) b₂
      else readOn maxLen (buf ++ [x]) b₁
termination_by b.stream.length
decreasing_by
  · exact Nat.lt_trans (byte_length h') (byte_length h)
  · exact byte_length h

def readLine (maxLen : ℕ) (b : ConnReader) : ConnRead Bytes :=
  let (slice, stop, b) := b.readSlice 0x0a
  if stop = .delim ∧ 2 ≤ slice.length ∧ slice[slice.length - 2]? = some 0x0d then
    let res := slice.take (slice.length - 2)
    if res.length > maxLen then .error (protocolError "too big inline request") else .ok (res, b)
  else if stop = .eof then .error .io
  else readOn maxLen slice b

def readBulk (effectiveMaxBulk : ℤ) (b : ConnReader) : Except ReadError (Bytes × ConnReader) := do
  let (firstByte, b) ← byte b
  if firstByte ≠ 0x24 then
    .error (.protocol (ascii "ERR Protocol error: expected '$', got '" ++ charOf firstByte ++ ascii "'"))
  else
    let (lenLine, b) ← readLine 65536 b
    match atoi lenLine with
    | none => .error (protocolError "invalid bulk length")
    | some bulkLen =>
      if bulkLen < 0 ∨ bulkLen > effectiveMaxBulk then .error (protocolError "invalid bulk length")
      else
        let (data, b) ← (b.readFull bulkLen.toNat).elim (.error .io) .ok
        let (cr, b) ← byte b
        let (lf, b) ← byte b
        if cr ≠ 0x0d ∨ lf ≠ 0x0a then .error (protocolError "invalid bulk length") else .ok (data, b)

def readBulks (effectiveMaxBulk : ℤ) : ℕ → ConnReader → Except ReadError (List Bytes × ConnReader)
  | 0, b => .ok ([], b)
  | n + 1, b => do
    let (data, b) ← readBulk effectiveMaxBulk b
    let (args, b) ← readBulks effectiveMaxBulk n b
    return (data :: args, b)

def readMultibulk (maxMsgSize : ℤ) (b : ConnReader) : Except ReadError (List Bytes × ConnReader) := do
  let (line, b) ← readLine 65536 b
  if line.head? ≠ some 0x2a then .error (protocolError "invalid multibulk length")
  else match atoi (line.drop 1) with
    | none => .error (protocolError "invalid multibulk length")
    | some count =>
      if count < 0 ∨ count > 1048576 then .error (protocolError "invalid multibulk length")
      else readBulks (if maxMsgSize ≤ 0 then 512 * 1024 * 1024 else maxMsgSize) count.toNat b

def readInline (b : ConnReader) : Except ReadError (List Bytes × ConnReader) := do
  let (line, b) ← readLine 65536 b
  return (fields line, b)

def readCommand (maxMsgSize : ℤ) (b : ConnReader) : ConnRead (List Bytes) :=
  match b.peek readerSize_pos with
  | none => .error .io
  | some (leadByte, b) => if leadByte = 0x2a then readMultibulk maxMsgSize b else readInline b

end ConnReader

section Flat

variable {α β : Type}

theorem flat_bind {x : Except ReadError (α × ConnReader)} {y : Except ReadError (α × Bytes)} (hx : flat x = y)
    {f : α × ConnReader → Except ReadError (β × ConnReader)} {g : α × Bytes → Except ReadError (β × Bytes)}
    (hfg : ∀ a b, flat (f (a, b)) = g (a, b.stream)) : flat (x >>= f) = y >>= g := by
  subst hx
  cases x with
  | error e => rfl
  | ok p => exact hfg p.1 p.2

theorem flat_error {x : Except ReadError (α × ConnReader)} {e : ReadError} (h : flat x = .error e) : x = .error e := by
  cases x with
  | error e' =>
    cases h
    rfl
  | ok p => cases h

theorem byte_flat (b : ConnReader) : flat b.byte = match b.stream with
    | [] => .error .io
    | x :: s => .ok (x, s) := by
  have h := BufReader.readByte_stream readerSize_pos b
  rw [ConnReader.byte]
  cases hs : b.stream with
  | nil =>
    rw [hs] at h
    rw [Option.map_eq_none_iff.mp h]
    rfl
  | cons x s =>
    rw [hs] at h
    obtain ⟨p, hp, heq⟩ := Option.map_eq_some_iff.mp h
    rw [hp]
    cases heq
    rfl

theorem byte_nil {b : ConnReader} (h : b.stream = []) : b.byte = .error .io := by
  apply flat_error
  rw [byte_flat b, h]

theorem byte_cons {b : ConnReader} {x : UInt8} {s : Bytes} (h : b.stream = x :: s) :
    ∃ b' : ConnReader, b.byte = .ok (x, b') ∧ b'.stream = s := by
  have hflat := byte_flat b
  rw [h] at hflat
  cases hb : b.byte with
  | error e =>
    rw [hb] at hflat
    cases hflat
  | ok p =>
    rw [hb] at hflat
    cases hflat
    exact ⟨p.2, rfl, rfl⟩

theorem readOn_big {maxLen : ℕ} {buf : Bytes} (h : buf.length > maxLen) (b : ConnReader) :
    ConnReader.readOn maxLen buf b = .error (protocolError "too big inline request") := by
  rw [ConnReader.readOn, if_pos h]

theorem readOn_end {maxLen : ℕ} {buf : Bytes} (hbuf : ¬ buf.length > maxLen) {b : ConnReader}
    (h : b.byte = .error .io) : ConnReader.readOn maxLen buf b = .error .io := by
  rw [ConnReader.readOn, if_neg hbuf]
  split
  · next heq =>
    rw [h] at heq
    cases heq
    rfl
  · next heq =>
    rw [h] at heq
    cases heq

theorem readOn_byte {maxLen : ℕ} {buf : Bytes} (hbuf : ¬ buf.length > maxLen) {b b₁ : ConnReader} {x : UInt8}
    (h : b.byte = .ok (x, b₁)) : ConnReader.readOn maxLen buf b =
      if x = 0x0d then
        match b₁.byte with
        | .error e => .error e
        | .ok (next, b₂) =>
          if next = 0x0a then .ok (buf, b₂) else ConnReader.readOn maxLen (buf ++ [x, next]) b₂
      else ConnReader.readOn maxLen (buf ++ [x]) b₁ := by
  rw [ConnReader.readOn, if_neg hbuf]
  split
  · next heq =>
    rw [h] at heq
    cases heq
  · next heq =>
    rw [h] at heq
    cases heq
    split
    · split
      · next heq => rw [heq]
      · next heq =>
        rw [heq]
    · rfl

theorem readOn_flat (maxLen : ℕ) (buf : Bytes) (b : ConnReader) :
    flat (ConnReader.readOn maxLen buf b) = readOn maxLen buf b.stream := by
  induction hn : b.stream.length using Nat.strong_induction_on generalizing buf b with
  | _ n ih =>
    by_cases hbuf : buf.length > maxLen
    · rw [readOn_big hbuf]
      cases hs : b.stream with
      | nil => rw [readOn, if_pos hbuf]; rfl
      | cons x s =>
        cases s with
        | nil | cons y s => rw [readOn, if_pos hbuf]; rfl
    cases hs : b.stream with
    | nil =>
      rw [readOn_end hbuf (byte_nil hs), readOn, if_neg hbuf]
      rfl
    | cons x s =>
      obtain ⟨b₁, hb₁, hs₁⟩ := byte_cons hs
      rw [hs] at hn
      rw [readOn_byte hbuf hb₁]
      cases s with
      | nil =>
        rw [readOn, if_neg hbuf]
        by_cases hx : x = 0x0d
        · rw [if_pos hx, if_pos hx, byte_nil hs₁]
          rfl
        · rw [if_neg hx, if_neg hx]
          by_cases hmore : (buf ++ [x]).length > maxLen
          · rw [readOn_big hmore, if_pos hmore]
            rfl
          · rw [readOn_end hmore (byte_nil hs₁), if_neg hmore]
            rfl
      | cons y s =>
        rw [readOn, if_neg hbuf]
        by_cases hx : x = 0x0d
        · rw [if_pos hx, if_pos hx]
          obtain ⟨b₂, hb₂, hs₂⟩ := byte_cons hs₁
          rw [hb₂]
          dsimp only
          by_cases hy : y = 0x0a
          · rw [if_pos hy, if_pos hy, ← hs₂]
            rfl
          · rw [if_neg hy, if_neg hy, ih s.length (by simp only [← hn, List.length_cons]; omega) _ b₂
              (by rw [hs₂]), hs₂]
        · rw [if_neg hx, if_neg hx,
            ih (y :: s).length (by simp only [← hn, List.length_cons]; omega) _ b₁ (by rw [hs₁]), hs₁]

theorem readLine_flat (maxLen : ℕ) (b : ConnReader) :
    flat (ConnReader.readLine maxLen b) = readLine maxLen b.stream := by
  rw [ConnReader.readLine, readLine, readSlice, ← BufReader.readSlice_stream]
  dsimp only
  split_ifs
  · rfl
  · rfl
  · rfl
  · exact readOn_flat _ _ _

theorem readFull_flat (n : ℕ) (b : ConnReader) : flat ((b.readFull n).elim (.error .io) .ok) =
      if b.stream.length < n then .error .io else .ok (b.stream.take n, b.stream.drop n) := by
  have h := BufReader.readFull_stream n b
  by_cases hn : n ≤ b.stream.length
  · rw [if_pos hn] at h
    obtain ⟨p, hp, heq⟩ := Option.map_eq_some_iff.mp h
    rw [hp, if_neg (by omega), ← heq]
    rfl
  · rw [if_neg hn] at h
    rw [Option.map_eq_none_iff.mp h, if_pos (by omega)]
    rfl

def bulkEnd (p : Bytes × Bytes) : Read Bytes :=
  match p.2 with
  | cr :: lf :: rest => if cr ≠ 0x0d ∨ lf ≠ 0x0a then errProtocol "invalid bulk length" else .ok (p.1, rest)
  | _ => .error .io

theorem readBulk_flat (effectiveMaxBulk : ℤ) (b : ConnReader) :
    flat (ConnReader.readBulk effectiveMaxBulk b) = readBulk effectiveMaxBulk b.stream := by
  rw [ConnReader.readBulk]
  cases hs : b.stream with
  | nil =>
    rw [byte_nil hs]
    rfl
  | cons firstByte s =>
    obtain ⟨b₁, hb₁, hs₁⟩ := byte_cons hs
    rw [hb₁, readBulk]
    dsimp only [bind, Except.bind]
    by_cases hdollar : firstByte ≠ 0x24
    · rw [if_pos hdollar, if_pos hdollar]
      rfl
    rw [if_neg hdollar, if_neg hdollar, ← hs₁]
    refine flat_bind (readLine_flat 65536 b₁) ?_
    intro lenLine b₂
    dsimp only
    cases atoi lenLine with
    | none => rfl
    | some bulkLen =>
      dsimp only
      by_cases hrange : bulkLen < 0 ∨ bulkLen > effectiveMaxBulk
      · rw [if_pos hrange, if_pos hrange]
        rfl
      rw [if_neg hrange, if_neg hrange]
      by_cases hlen : b₂.stream.length < bulkLen.toNat
      · have hfull := readFull_flat bulkLen.toNat b₂
        rw [if_pos hlen] at hfull ⊢
        rw [flat_error hfull]
        rfl
      have hfull := readFull_flat bulkLen.toNat b₂
      rw [if_neg hlen] at hfull ⊢
      refine (flat_bind hfull (g := bulkEnd) ?_).trans rfl
      intro data b₃
      dsimp only
      cases hs₃ : b₃.stream with
      | nil =>
        rw [byte_nil hs₃]
        rfl
      | cons cr s =>
        obtain ⟨b₄, hb₄, hs₄⟩ := byte_cons hs₃
        rw [hb₄]
        dsimp only [bind, Except.bind]
        cases s with
        | nil =>
          rw [byte_nil hs₄]
          rfl
        | cons lf s =>
          obtain ⟨b₅, hb₅, hs₅⟩ := byte_cons hs₄
          rw [hb₅, ← hs₅]
          dsimp only [bulkEnd]
          split
          · rfl
          · rfl

private theorem readBulks_flat (effectiveMaxBulk : ℤ) (n : ℕ) (b : ConnReader) :
    flat (ConnReader.readBulks effectiveMaxBulk n b) = readBulks effectiveMaxBulk n b.stream := by
  induction n generalizing b with
  | zero => rfl
  | succ n ih =>
    refine flat_bind (readBulk_flat effectiveMaxBulk b) ?_
    intro data b₁
    refine flat_bind (ih b₁) ?_
    intro args b₂
    rfl

private theorem readMultibulk_flat (maxMsgSize : ℤ) (b : ConnReader) :
    flat (ConnReader.readMultibulk maxMsgSize b) = readMultibulk maxMsgSize b.stream := by
  refine flat_bind (readLine_flat 65536 b) ?_
  intro line b₁
  dsimp only
  by_cases hstar : line.head? ≠ some 0x2a
  · rw [if_pos hstar, if_pos hstar]
    rfl
  rw [if_neg hstar, if_neg hstar]
  cases atoi (line.drop 1) with
  | none => rfl
  | some count =>
    dsimp only
    split
    · rfl
    · exact readBulks_flat _ _ b₁

theorem readCommand_flat (maxMsgSize : ℤ) (b : ConnReader) :
    flat (ConnReader.readCommand maxMsgSize b) = readCommand maxMsgSize b.stream := by
  have hpeek := BufReader.peek_stream readerSize_pos b
  rw [ConnReader.readCommand]
  cases hs : b.stream with
  | nil =>
    rw [hs] at hpeek
    rw [Option.map_eq_none_iff.mp hpeek]
    rfl
  | cons leadByte s =>
    rw [hs] at hpeek
    obtain ⟨p, hp, heq⟩ := Option.map_eq_some_iff.mp hpeek
    obtain ⟨x, b₁⟩ := p
    simp only [Prod.mk.injEq] at heq
    rw [hp, heq.1, readCommand, ← heq.2]
    dsimp only
    split
    · exact readMultibulk_flat maxMsgSize b₁
    · refine flat_bind (readLine_flat 65536 b₁) ?_
      intro line b₂
      rfl

end Flat

end MonsterMQ.Redis
