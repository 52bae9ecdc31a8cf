import MonsterMQ.LittleEndian

/-!
# A buffered reader

The reader of `bufio` with a buffer of fixed size over a connection that delivers its bytes in any pieces.
What its operations return depends only on the bytes that are to come, not on how they are split.
-/

namespace MonsterMQ.BufferedReads

open LittleEndian List

/-- The bytes in the buffer that are not read yet, and what the connection will deliver. -/
structure BufReader (size : ℕ) where
  buffered : Bytes
  conn : List Bytes
  fits : buffered.length ≤ size

namespace BufReader

variable {size : ℕ}

def stream (b : BufReader size) : Bytes := b.buffered ++ b.conn.flatten

/-- How much the connection can still deliver, in bytes and pieces. -/
def pending (b : BufReader size) : ℕ := b.conn.flatten.length + b.conn.length

private theorem fill_fits (b : BufReader size) (c : Bytes) :
    (b.buffered ++ c.take (size - b.buffered.length)).length ≤ size := by
  have := b.fits
  rw [length_append, length_take]
  omega

/-- One read of the connection into the free part of the buffer; none at the end. -/
def fill (b : BufReader size) : Option (BufReader size) :=
  match b.conn with
  | [] => none
  | c :: cs =>
    let n := size - b.buffered.length
    some ⟨b.buffered ++ c.take n, if c.length ≤ n then cs else c.drop n :: cs, b.fill_fits c⟩

theorem fill_eq_none_iff {b : BufReader size} : b.fill = none ↔ b.conn = [] := by
  rw [fill]
  cases b.conn with
  | nil => simp
  | cons c cs => simp

theorem fill_stream {b b' : BufReader size} (h : b.fill = some b') : b'.stream = b.stream := by
  rw [fill] at h
  rw [stream, stream]
  cases hconn : b.conn with
  | nil =>
    rw [hconn] at h
    cases h
  | cons c cs =>
    rw [hconn] at h
    cases h
    dsimp only
    split
    · next hle => rw [take_of_length_le hle, flatten_cons, append_assoc]
    · rw [flatten_cons, flatten_cons, append_assoc, ← append_assoc (List.take _ c),
        take_append_drop]

theorem fill_pending {b b' : BufReader size} (hroom : b.buffered.length < size) (h : b.fill = some b') :
    b'.pending < b.pending := by
  rw [fill] at h
  rw [pending, pending]
  cases hconn : b.conn with
  | nil =>
    rw [hconn] at h
    cases h
  | cons c cs =>
    rw [hconn] at h
    cases h
    dsimp only
    split
    · rw [flatten_cons, length_append, length_cons]
      omega
    · simp only [flatten_cons, length_append, length_cons, length_drop]
      omega

def advance (b : BufReader size) (n : ℕ) : BufReader size :=
  ⟨b.buffered.drop n, b.conn, by have := b.fits; rw [length_drop]; omega⟩

theorem advance_stream (b : BufReader size) {n : ℕ} (h : n ≤ b.buffered.length) :
    (b.advance n).stream = b.stream.drop n := by
  rw [stream, advance, stream, drop_append_of_le_length h]

end BufReader

inductive SliceEnd where
  | delim
  | bufferFull
  | eof
  deriving DecidableEq, Repr

/-- `ReadSlice` on the bytes themselves: up to the delimiter, if it is among the first `size`. -/
def firstSlice (size : ℕ) (delim : UInt8) (s : Bytes) : Bytes × SliceEnd × Bytes :=
  match (s.take size).findIdx? (· = delim) with
  | some i => (s.take (i + 1), .delim, s.drop (i + 1))
  | none => if s.length < size then (s, .eof, []) else (s.take size, .bufferFull, s.drop size)

namespace BufReader

variable {size : ℕ}

def readSlice (delim : UInt8) (b : BufReader size) : Bytes × SliceEnd × BufReader size :=
  match b.buffered.findIdx? (· = delim) with
  | some i => (b.buffered.take (i + 1), .delim, b.advance (i + 1))
  | none =>
    if _ : size ≤ b.buffered.length then (b.buffered, .bufferFull, b.advance b.buffered.length)
    else match h : b.fill with
      | none => (b.buffered, .eof, b.advance b.buffered.length)
      | some b' => readSlice delim b'
termination_by b.pending
decreasing_by exact fill_pending (Nat.not_le.mp ‹_›) h

theorem findIdx?_lt {p : UInt8 → Bool} {s : Bytes} {i : ℕ} (h : s.findIdx? p = some i) : i < s.length :=
  (List.findIdx?_eq_some_iff_getElem.mp h).1

theorem findIdx?_stream {b : BufReader size} {p : UInt8 → Bool} {i : ℕ} (h : b.buffered.findIdx? p = some i) :
    (b.stream.take size).findIdx? p = some i := by
  rw [stream, take_append, take_of_length_le b.fits, List.findIdx?_append, h]
  rfl

section Slice

variable {delim : UInt8} {b : BufReader size}

private theorem readSlice_found {i : ℕ} (h : b.buffered.findIdx? (· = delim) = some i) :
    b.readSlice delim = (b.buffered.take (i + 1), .delim, b.advance (i + 1)) := by
  rw [readSlice, h]

section

variable (h : b.buffered.findIdx? (· = delim) = none)
include h

private theorem readSlice_full (hfull : size ≤ b.buffered.length) :
    b.readSlice delim = (b.buffered, .bufferFull, b.advance b.buffered.length) := by
  rw [readSlice, h]
  exact dif_pos hfull

private theorem readSlice_end (hroom : ¬ size ≤ b.buffered.length)
    (hend : b.fill = none) : b.readSlice delim = (b.buffered, .eof, b.advance b.buffered.length) := by
  rw [readSlice, h]
  dsimp only
  rw [dif_neg hroom]
  split
  · rfl
  · next heq =>
    rw [hend] at heq
    cases heq

private theorem readSlice_fill (hroom : ¬ size ≤ b.buffered.length)
    {b' : BufReader size} (hfill : b.fill = some b') : b.readSlice delim = b'.readSlice delim := by
  rw [readSlice, h]
  dsimp only
  rw [dif_neg hroom]
  split
  · next heq =>
    rw [hfill] at heq
    cases heq
  · next heq =>
    rw [hfill] at heq
    cases heq
    rfl

end

end Slice

/-- `ReadSlice` does not depend on the pieces. -/
theorem readSlice_stream (delim : UInt8) (b : BufReader size) :
    ((b.readSlice delim).1, (b.readSlice delim).2.1, (b.readSlice delim).2.2.stream) =
      firstSlice size delim b.stream := by
  induction b using readSlice.induct with
  | delim => exact delim
  | case1 b i hfind =>
    have hlt := findIdx?_lt hfind
    rw [readSlice_found hfind, firstSlice, findIdx?_stream hfind]
    dsimp only
    rw [advance_stream b (by omega), stream, take_append_of_le_length (by omega)]
  | case2 b hfind hfull =>
    have hlen : b.buffered.length = size := Nat.le_antisymm b.fits hfull
    have htake : b.stream.take size = b.buffered := by
      rw [stream, take_left' hlen]
    have hnot : ¬ b.stream.length < size := by
      rw [stream, length_append]
      omega
    rw [readSlice_full hfind hfull, firstSlice, htake, hfind]
    dsimp only
    rw [if_neg hnot, advance_stream b (Nat.le_refl _), hlen]
  | case3 b hfind hroom hend =>
    have hstream : b.stream = b.buffered := by
      rw [stream, (fill_eq_none_iff).mp hend, flatten_nil, append_nil]
    rw [readSlice_end hfind hroom hend, firstSlice, hstream, take_of_length_le b.fits, hfind]
    dsimp only
    rw [if_pos (Nat.not_le.mp hroom), advance_stream b (Nat.le_refl _), hstream, drop_length]
  | case4 b hfind hroom b' hfill ih => rw [readSlice_fill hfind hroom hfill, ih, fill_stream hfill]

def readByte (hsize : 0 < size) (b : BufReader size) : Option (UInt8 × BufReader size) :=
  match hb : b.buffered with
  | x :: _ => some (x, b.advance 1)
  | [] =>
    match h : b.fill with
    | none => none
    | some b' => readByte hsize b'
termination_by b.pending
decreasing_by exact fill_pending (by rw [hb]; exact hsize) h

theorem readByte_cons (hsize : 0 < size) {b : BufReader size} {x : UInt8} {s : Bytes} (h : b.buffered = x :: s) :
    b.readByte hsize = some (x, b.advance 1) := by
  rw [readByte]
  split
  · next heq =>
    rw [h] at heq
    cases heq
    rfl
  · next heq =>
    rw [h] at heq
    cases heq

theorem readByte_nil (hsize : 0 < size) {b : BufReader size} (h : b.buffered = []) :
    b.readByte hsize = b.fill.bind (readByte hsize) := by
  rw [readByte]
  split
  · next heq =>
    rw [h] at heq
    cases heq
  · split
    · next heq => rw [heq, Option.bind_none]
    · next heq => rw [heq, Option.bind_some]

def uncons (s : Bytes) : Option (UInt8 × Bytes) :=
  match s with
  | [] => none
  | x :: s => some (x, s)

theorem readByte_stream (hsize : 0 < size) (b : BufReader size) :
    (b.readByte hsize).map (fun p => (p.1, p.2.stream)) = uncons b.stream := by
  induction b using readByte.induct hsize with
  | case1 b x s hb =>
    rw [readByte_cons hsize hb, Option.map_some, advance_stream b (by rw [hb]; exact Nat.le_add_left 1 _), stream, hb]
    rfl
  | case2 b hb hend =>
    rw [readByte_nil hsize hb, hend, Option.bind_none, stream, hb, (fill_eq_none_iff).mp hend]
    rfl
  | case3 b hb b' hfill ih => rw [readByte_nil hsize hb, hfill, Option.bind_some, ih, fill_stream hfill]

def peek (hsize : 0 < size) (b : BufReader size) : Option (UInt8 × BufReader size) :=
  match hb : b.buffered with
  | x :: _ => some (x, b)
  | [] =>
    match h : b.fill with
    | none => none
    | some b' => peek hsize b'
termination_by b.pending
decreasing_by exact fill_pending (by rw [hb]; exact hsize) h

theorem peek_cons (hsize : 0 < size) {b : BufReader size} {x : UInt8} {s : Bytes} (h : b.buffered = x :: s) :
    b.peek hsize = some (x, b) := by
  rw [peek]
  split
  · next heq =>
    rw [h] at heq
    cases heq
    rfl
  · next heq =>
    rw [h] at heq
    cases heq

theorem peek_nil (hsize : 0 < size) {b : BufReader size} (h : b.buffered = []) :
    b.peek hsize = b.fill.bind (peek hsize) := by
  rw [peek]
  split
  · next heq =>
    rw [h] at heq
    cases heq
  · split
    · next heq => rw [heq, Option.bind_none]
    · next heq => rw [heq, Option.bind_some]

theorem peek_stream (hsize : 0 < size) (b : BufReader size) :
    (b.peek hsize).map (fun p => (p.1, p.2.stream)) = b.stream.head?.map (·, b.stream) := by
  induction b using peek.induct hsize with
  | case1 b x s hb =>
    rw [peek_cons hsize hb, Option.map_some, stream, hb]
    rfl
  | case2 b hb hend =>
    rw [peek_nil hsize hb, hend, Option.bind_none, stream, hb, (fill_eq_none_iff).mp hend]
    rfl
  | case3 b hb b' hfill ih => rw [peek_nil hsize hb, hfill, Option.bind_some, ih, fill_stream hfill]

/-- One `Read` of at most `n` bytes: from the buffer, or from the connection past an empty buffer when
`n` bytes would not fit into it. -/
def read (n : ℕ) (b : BufReader size) : Option (Bytes × BufReader size) :=
  if b.buffered ≠ [] then some (b.buffered.take n, b.advance n)
  else if size ≤ n then
    match b.conn with
    | [] => none
    | c :: cs => some (c.take n, ⟨b.buffered, if c.length ≤ n then cs else c.drop n :: cs, b.fits⟩)
  else b.fill.map fun b' => (b'.buffered.take n, b'.advance n)

theorem take_append_advance (b : BufReader size) (n : ℕ) :
    b.buffered.take n ++ (b.advance n).stream = b.stream := by
  rw [stream, advance, ← append_assoc, take_append_drop, stream]

/-- A read takes from the front of the stream, and after finitely many of them the stream has ended. -/
theorem read_spec {n : ℕ} (hn : 0 < n) {b b' : BufReader size} {d : Bytes} (h : b.read n = some (d, b')) :
    d ++ b'.stream = b.stream ∧ d.length ≤ n ∧ n - d.length + b'.pending < n + b.pending := by
  rw [read] at h
  split at h
  · next hne =>
    cases h
    refine ⟨take_append_advance b n, length_take_le n _, ?_⟩
    have hpos := length_pos_iff.mpr hne
    have hpending : (b.advance n).pending = b.pending := rfl
    rw [hpending, length_take]
    omega
  · next hnil =>
    have hnil : b.buffered = [] := not_not.mp hnil
    split at h
    · cases hconn : b.conn with
      | nil =>
        rw [hconn] at h
        cases h
      | cons c cs =>
        rw [hconn] at h
        cases h
        refine ⟨?_, length_take_le n _, ?_⟩
        · rw [stream, stream, hconn]
          dsimp only
          rw [hnil, nil_append, nil_append, flatten_cons]
          split
          · next hle => rw [take_of_length_le hle]
          · rw [flatten_cons, ← append_assoc, take_append_drop]
        · rw [pending, pending, hconn, length_take]
          dsimp only
          split
          · simp only [flatten_cons, length_append, length_cons]
            omega
          · simp only [flatten_cons, length_append, length_cons, length_drop]
            omega
    · next hsmall =>
      obtain ⟨b₁, hfill, heq⟩ := Option.map_eq_some_iff.mp h
      cases heq
      have hless := fill_pending (by rw [hnil, length_nil]; omega) hfill
      have hpending : (b₁.advance n).pending = b₁.pending := rfl
      refine ⟨?_, length_take_le n _, by omega⟩
      rw [take_append_advance, fill_stream hfill]

private theorem read_eq_none {n : ℕ} {b : BufReader size} (h : b.read n = none) : b.stream = [] := by
  rw [read] at h
  split at h
  · cases h
  · next hnil =>
    have hconn : b.conn = [] := by
      split at h
      · cases hconn : b.conn with
        | nil => rfl
        | cons c cs =>
          rw [hconn] at h
          cases h
      · exact (fill_eq_none_iff).mp (Option.map_eq_none_iff.mp h)
    rw [stream, not_not.mp hnil, hconn]
    rfl

def readFull (n : ℕ) (b : BufReader size) : Option (Bytes × BufReader size) :=
  if hn : 0 < n then
    match h : b.read n with
    | none => none
    | some (d, b') => (readFull (n - d.length) b').map fun p => (d ++ p.1, p.2)
  else some ([], b)
termination_by n + b.pending
decreasing_by exact (read_spec hn h).2.2

private theorem readFull_zero (b : BufReader size) : b.readFull 0 = some ([], b) := by
  rw [readFull]
  exact dif_neg (Nat.lt_irrefl 0)

private theorem readFull_pos {n : ℕ} (hn : 0 < n) (b : BufReader size) : b.readFull n =
    (b.read n).bind fun r => (readFull (n - r.1.length) r.2).map fun p => (r.1 ++ p.1, p.2) := by
  rw [readFull, dif_pos hn]
  split
  · next heq => rw [heq, Option.bind_none]
  · next heq => rw [heq, Option.bind_some]

/-- `io.ReadFull` gives the next `n` bytes, if there are so many. -/
theorem readFull_stream (n : ℕ) (b : BufReader size) : (b.readFull n).map (fun p => (p.1, p.2.stream)) =
      if n ≤ b.stream.length then some (b.stream.take n, b.stream.drop n) else none := by
  induction hk : n + b.pending using Nat.strong_induction_on generalizing n b with
  | _ k ih =>
    by_cases hn : 0 < n
    · rw [readFull_pos hn]
      cases hread : b.read n with
      | none =>
        rw [read_eq_none hread, if_neg (by rw [length_nil]; omega)]
        rfl
      | some r =>
        obtain ⟨d, b'⟩ := r
        obtain ⟨hstream, hlen, hless⟩ := read_spec hn hread
        have hrest := ih _ (by omega) (n - d.length) b' rfl
        rw [Option.bind_some, Option.map_map]
        have hsplit : (b'.readFull (n - d.length)).map ((fun p => (p.1, p.2.stream)) ∘ fun p => (d ++ p.1, p.2)) =
            ((b'.readFull (n - d.length)).map fun p => (p.1, p.2.stream)).map fun p => (d ++ p.1, p.2) := by
          rw [Option.map_map]
          rfl
        rw [hsplit, hrest, ← hstream, length_append]
        by_cases henough : n - d.length ≤ b'.stream.length
        · rw [if_pos henough, if_pos (by omega), Option.map_some, take_append, drop_append,
            take_of_length_le hlen, drop_of_length_le hlen, nil_append]
        · rw [if_neg henough, if_neg (by omega), Option.map_none]
    · have hzero : n = 0 := by omega
      rw [hzero, readFull_zero, if_pos (Nat.zero_le _)]
      rfl

end BufReader

end MonsterMQ.BufferedReads
