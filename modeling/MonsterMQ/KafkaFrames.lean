import MonsterMQ.KafkaRecords

/-!
# Frames of a record set

A batch and a legacy message begin alike: eight bytes of offset and four bytes of length. Here they become
one loop over frames, with a rule for what it reads and a rule for what was written.
-/

namespace MonsterMQ.Kafka

open LittleEndian CheckedReads

section Frames

variable {ε σ : Type}

@[grind =] def frameSize (set : Bytes) : ℤ := signed 32 (uint ((set.take 12).drop 8))

/-- The set begins with a frame that is all there and has at least `min` bytes. -/
@[grind =] def Complete (min : ℕ) (set : Bytes) : Prop :=
  12 + min ≤ set.length ∧ (min : ℤ) ≤ frameSize set ∧ 12 + frameSize set ≤ set.length
deriving Decidable

@[grind =] def frameBody (set : Bytes) : Bytes := (set.take (12 + (frameSize set).toNat)).drop 12

@[grind =] def afterFrame (set : Bytes) : Bytes := set.drop (12 + (frameSize set).toNat)

@[grind =] def readFrames (min : ℕ) (item : Bytes → σ → Read ε σ) : ℕ → Bytes → σ → Read ε σ
  | 0, _, _ => .error .diverges
  | fuel + 1, set, s =>
    if Complete min set then item (frameBody set) s >>= readFrames min item fuel (afterFrame set) else .ok s

/-- Every complete frame of the set has been read, each as `P` says. -/
inductive Framed (min : ℕ) (P : Bytes → σ → σ → Prop) : Bytes → σ → σ → Prop
  | stop {set : Bytes} {s : σ} (h : ¬ Complete min set) : Framed min P set s s
  | frame {set : Bytes} {s s₁ s₂ : σ} (h : Complete min set) (hbody : P (frameBody set) s s₁)
      (hrest : Framed min P (afterFrame set) s₁ s₂) : Framed min P set s s₂

theorem Complete.body_length {min : ℕ} {set : Bytes} (h : Complete min set) :
    (frameBody set).length = (frameSize set).toNat := by
  obtain ⟨-, hmin, hlen⟩ := h
  rw [frameBody, slice_length (by omega)]
  omega

theorem safe_readFrames {min : ℕ} {item : Bytes → σ → Read ε σ} {P : Bytes → σ → σ → Prop}
    (hitem : ∀ body s, min ≤ body.length → Safe (item body s) (P body s)) (fuel : ℕ) :
    ∀ set s, set.length < fuel → Safe (readFrames min item fuel set s) (Framed min P set s) := by
  induction fuel with
  | zero => exact fun set s h => absurd h (Nat.not_lt_zero _)
  | succ fuel ih =>
    intro set s hfuel
    rw [readFrames]
    split
    · rename_i hcomplete
      have hbody : min ≤ (frameBody set).length := by
        rw [hcomplete.body_length]
        have := hcomplete.2.1
        omega
      apply safe_bind (hitem _ s hbody)
      intro s₁ hs₁
      have hshort : (afterFrame set).length < fuel := by
        rw [afterFrame, List.length_drop]
        have := hcomplete.1
        omega
      exact safe_mono (ih _ s₁ hshort) fun s₂ hs₂ => .frame hcomplete hs₁ hs₂
    · rename_i hstop
      exact Framed.stop hstop

@[grind =]
def encodeFrame (offset : ℤ) (body : Bytes) : Bytes := putInt 8 offset ++ (putInt 4 body.length ++ body)

theorem encodeFrame_length (offset : ℤ) (body : Bytes) :
    (encodeFrame offset body).length = 12 + body.length := by
  rw [encodeFrame, List.length_append, List.length_append, putInt_length, putInt_length]
  omega

section Encoded

variable {min : ℕ} {offset : ℤ} {body : Bytes} (hsize : body.length < 2 ^ 31) (rest : Bytes)

include hsize

theorem frameSize_encode : frameSize (encodeFrame offset body ++ rest) = body.length := by
  have htake : ((encodeFrame offset body ++ rest).take 12).drop 8 = putInt 4 body.length := by
    have h12 : (encodeFrame offset body ++ rest).take 12 = putInt 8 offset ++ putInt 4 body.length := by
      rw [encodeFrame, ← List.append_assoc, List.append_assoc]
      exact List.take_left' (by rw [List.length_append, putInt_length, putInt_length])
    rw [h12]
    exact List.drop_left' (putInt_length 8 offset)
  rw [frameSize, htake, uint, get_putInt]
  exact signed_putInt (w := 4) (by decide) ⟨by omega, by omega⟩

theorem complete_encode (hmin : min ≤ body.length) : Complete min (encodeFrame offset body ++ rest) := by
  have hlen := encodeFrame_length offset body
  rw [Complete, frameSize_encode hsize, List.length_append]
  omega

theorem frameBody_encode : frameBody (encodeFrame offset body ++ rest) = body := by
  rw [frameBody, frameSize_encode hsize, Int.toNat_natCast, ← encodeFrame_length offset body,
    List.take_left, encodeFrame, ← List.append_assoc]
  exact List.drop_left' (by rw [List.length_append, putInt_length, putInt_length])

theorem afterFrame_encode : afterFrame (encodeFrame offset body ++ rest) = rest := by
  rw [afterFrame, frameSize_encode hsize, Int.toNat_natCast, ← encodeFrame_length offset body,
    List.drop_left]

theorem readFrames_encode {item : Bytes → σ → Read ε σ} (hmin : min ≤ body.length) (fuel : ℕ) (s : σ) :
    readFrames min item (fuel + 1) (encodeFrame offset body ++ rest) s =
      item body s >>= readFrames min item fuel rest := by
  rw [readFrames, if_pos (complete_encode hsize rest hmin), frameBody_encode hsize, afterFrame_encode hsize]

end Encoded

theorem readFrames_flatMap {min : ℕ} {item : Bytes → σ → Read ε σ} {β : Type} {offset : β → ℤ}
    {body : β → Bytes} {next : σ → β → σ} {l : List β} (hmin : ∀ b ∈ l, min ≤ (body b).length)
    (hsize : ∀ b ∈ l, (body b).length < 2 ^ 31) (hitem : ∀ b ∈ l, ∀ s, item (body b) s = .ok (next s b))
    {tail : Bytes} (htail : ¬ Complete min tail) : ∀ (fuel : ℕ) (s : σ), l.length < fuel →
    readFrames min item fuel (l.flatMap (fun b => encodeFrame (offset b) (body b)) ++ tail) s =
      .ok (l.foldl next s) := by
  induction l with
  | nil =>
    intro fuel s hfuel
    cases fuel with
    | zero => exact absurd hfuel (Nat.not_lt_zero _)
    | succ fuel =>
      rw [List.flatMap_nil, List.nil_append, readFrames, if_neg htail]
      rfl
  | cons b l ih =>
    intro fuel s hfuel
    cases fuel with
    | zero => exact absurd hfuel (Nat.not_lt_zero _)
    | succ fuel =>
      rw [List.flatMap_cons, List.append_assoc,
        readFrames_encode (hsize b List.mem_cons_self) _ (hmin b List.mem_cons_self),
        hitem b List.mem_cons_self]
      exact ih (fun b' hb' => hmin b' (List.mem_cons_of_mem _ hb'))
        (fun b' hb' => hsize b' (List.mem_cons_of_mem _ hb'))
        (fun b' hb' => hitem b' (List.mem_cons_of_mem _ hb')) fuel _ (by
          rw [List.length_cons] at hfuel
          omega)

end Frames

end MonsterMQ.Kafka
