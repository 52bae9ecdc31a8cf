import MonsterMQ.SystemClock
import Mathlib.Data.Nat.Bitwise

/-!
# Keepalive deadlines

The read deadline of a connection: set by `attachClient` when the connection is accepted and
moved by `Client.refreshDeadline` (`internal/mqtt/clients.go`) before every packet is read.
-/

namespace MonsterMQ.Keepalive

open SystemClock

/-- The deadline in force on the connection, and the second and keepalive it was set for. -/
structure Conn where
  deadline : Option ℕ
  lastDeadline : BitVec 64

def stamp (now : Instant) (keepalive : UInt16) : BitVec 64 :=
  (BitVec.ofNat 64 now.unix <<< 16) ||| BitVec.ofNat 64 keepalive.toNat

def attachClient (now : Instant) (connectTimeout : ℕ) : Conn := ⟨some (now.nanos + connectTimeout), 0⟩

@[grind =] def refreshDeadline (keepalive : UInt16) (c : Conn) (now : Instant) : Conn :=
  if keepalive = 0 then
    if c.lastDeadline ≠ -1 then ⟨none, -1⟩ else ⟨c.deadline, -1⟩
  else if c.lastDeadline = stamp now keepalive then c
  else
    -- the sum is taken in 16 bits before it becomes a duration
    ⟨some (now.nanos + (keepalive + keepalive / 2).toNat * second), stamp now keepalive⟩

/-- The deadline serves a client with this keepalive that was last heard at `now`: it lies after one
and a half times the keepalive, less one second; without a keepalive there is none. -/
def Serves (keepalive : UInt16) (now : Instant) : Option ℕ → Prop
  | none => keepalive = 0
  | some d => keepalive ≠ 0 ∧
      now.nanos + (keepalive.toNat + keepalive.toNat / 2) * second < d + second

/-- The deadline in force after every refresh serves the client. -/
def Kept (keepalive : UInt16) : Conn → List Instant → Prop
  | _, [] => True
  | c, now :: rest =>
    Serves keepalive now (refreshDeadline keepalive c now).deadline ∧
      Kept keepalive (refreshDeadline keepalive c now) rest

theorem stamp_toNat (now : Instant) (keepalive : UInt16) :
    (stamp now keepalive).toNat = now.unix * 65536 + keepalive.toNat := by
  have hk := keepalive.toNat_lt
  have hnow := now.lt_int64
  have hunix : now.unix < 2 ^ 34 := by
    rw [Instant.unix, second]
    omega
  have hfits : now.unix <<< 16 < 2 ^ 64 := by
    rw [Nat.shiftLeft_eq]
    omega
  have hshift : (BitVec.ofNat 64 now.unix <<< 16).toNat = now.unix <<< 16 := by
    have hmod : now.unix % 2 ^ 64 = now.unix := Nat.mod_eq_of_lt (by omega)
    rw [BitVec.toNat_shiftLeft, BitVec.toNat_ofNat, hmod, Nat.mod_eq_of_lt hfits]
  have hlow : (BitVec.ofNat 64 keepalive.toNat).toNat = keepalive.toNat := by
    rw [BitVec.toNat_ofNat, Nat.mod_eq_of_lt (by omega)]
  rw [stamp, BitVec.toNat_or, hshift, hlow, ← Nat.shiftLeft_add_eq_or_of_lt (by omega), Nat.shiftLeft_eq]

variable {keepalive : UInt16}

private theorem unix_eq_of_stamp {now now' : Instant}
    (h : stamp now keepalive = stamp now' keepalive) : now.unix = now'.unix := by
  have hnat := congrArg BitVec.toNat h
  rw [stamp_toNat, stamp_toNat] at hnat
  omega

theorem stamp_ne_zero {now : Instant} (h : keepalive ≠ 0) : (0 : BitVec 64) ≠ stamp now keepalive := by
  intro hzero
  have hnat := congrArg BitVec.toNat hzero
  rw [stamp_toNat] at hnat
  apply h
  apply UInt16.toNat_inj.mp
  have hz : (0 : BitVec 64).toNat = 0 := rfl
  have hz' : (0 : UInt16).toNat = 0 := rfl
  omega

private theorem toNat_half_more (keepalive : UInt16) : (keepalive + keepalive / 2).toNat =
      if keepalive.toNat ≤ 43690 then keepalive.toNat + keepalive.toNat / 2
      else keepalive.toNat + keepalive.toNat / 2 - 65536 := by
  have hk := keepalive.toNat_lt
  have htwo : (2 : UInt16).toNat = 2 := rfl
  rw [UInt16.toNat_add, UInt16.toNat_div, htwo]
  split <;> omega

/-- The stamp tells which second the deadline was computed in; a new connection has none. -/
inductive Stamped (keepalive : UInt16) : Conn → Prop
  | fresh (deadline : Option ℕ) : Stamped keepalive ⟨deadline, 0⟩
  | unbounded : keepalive = 0 → Stamped keepalive ⟨none, -1⟩
  | timed (t : Instant) : keepalive ≠ 0 →
      Stamped keepalive ⟨some (t.nanos + (keepalive + keepalive / 2).toNat * second), stamp t keepalive⟩

variable {c : Conn}

theorem refreshDeadline_zero (h : Stamped 0 c) (now : Instant) : refreshDeadline 0 c now = ⟨none, -1⟩ := by
  rw [refreshDeadline, if_pos rfl]
  cases h with
  | fresh deadline =>
    have hunset : (0 : BitVec 64) ≠ -1 := by decide
    exact if_pos hunset
  | unbounded => rw [if_neg (by simp)]
  | timed t hne => exact absurd rfl hne

theorem refreshDeadline_pos (hk : keepalive ≠ 0) (h : Stamped keepalive c) (now : Instant) :
    ∃ t : Instant, t.unix = now.unix ∧ refreshDeadline keepalive c now =
      ⟨some (t.nanos + (keepalive + keepalive / 2).toNat * second), stamp t keepalive⟩ := by
  rw [refreshDeadline, if_neg hk]
  cases h with
  | fresh deadline => exact ⟨now, rfl, if_neg (stamp_ne_zero hk)⟩
  | unbounded hzero => exact absurd hzero hk
  | timed t =>
    by_cases hsame : stamp t keepalive = stamp now keepalive
    · exact ⟨t, unix_eq_of_stamp hsame, if_pos hsame⟩
    · exact ⟨now, rfl, if_neg hsame⟩

private theorem refreshDeadline_stamped (h : Stamped keepalive c)
    (now : Instant) : Stamped keepalive (refreshDeadline keepalive c now) := by
  by_cases hk : keepalive = 0
  · subst hk
    rw [refreshDeadline_zero h]
    exact .unbounded rfl
  · obtain ⟨t, -, hset⟩ := refreshDeadline_pos hk h now
    rw [hset]
    exact .timed t hk

theorem serves_iff (h : Stamped keepalive c) (now : Instant) :
    Serves keepalive now (refreshDeadline keepalive c now).deadline ↔ keepalive.toNat ≤ 43690 := by
  by_cases hk : keepalive = 0
  · subst hk
    rw [refreshDeadline_zero h]
    exact iff_of_true rfl (Nat.zero_le _)
  · obtain ⟨t, hunix, hset⟩ := refreshDeadline_pos hk h now
    rw [hset, Serves, toNat_half_more]
    simp only [Instant.unix, second] at hunix ⊢
    have hsize := keepalive.toNat_lt
    constructor
    · rintro ⟨-, hlate⟩
      split at hlate
      · assumption
      · omega
    · intro hfit
      rw [if_pos hfit]
      refine ⟨hk, ?_⟩
      omega

/-- On every connection and for every sequence of reads, the deadline in force always serves the
client if and only if the keepalive is at most 43690. -/
theorem kept_iff (keepalive : UInt16) (accepted : Instant) (connectTimeout : ℕ) (arrivals : List Instant)
    (hany : arrivals ≠ []) :
    Kept keepalive (attachClient accepted connectTimeout) arrivals ↔ keepalive.toNat ≤ 43690 := by
  have hrun : ∀ (as : List Instant) (c : Conn), Stamped keepalive c → keepalive.toNat ≤ 43690 →
      Kept keepalive c as := by
    intro as
    induction as with
    | nil => exact fun _ _ _ => trivial
    | cons now rest ih =>
      intro c hc hfit
      exact ⟨(serves_iff hc now).mpr hfit, ih _ (refreshDeadline_stamped hc now) hfit⟩
  have hfresh : Stamped keepalive (attachClient accepted connectTimeout) := .fresh _
  constructor
  · intro hkept
    cases arrivals with
    | nil => exact absurd rfl hany
    | cons now rest => exact (serves_iff hfresh now).mp hkept.1
  · exact hrun arrivals _ hfresh

/-- A minute of keepalive, packets within one second and a minute apart. -/
theorem kept_minute :
    Kept 60 (attachClient ⟨0, by decide⟩ 10) [⟨1, by decide⟩, ⟨5, by decide⟩, ⟨60000000000, by decide⟩] :=
  (kept_iff 60 ⟨0, by decide⟩ 10 _ (by simp)).mpr (by decide)

/-- With the largest keepalive the deadline comes after 32766 seconds in place of 98302. -/
theorem not_kept_largest : refreshDeadline 65535 (attachClient ⟨0, by decide⟩ 10) ⟨1, by decide⟩ =
      ⟨some (1 + 32766 * second), stamp ⟨1, by decide⟩ 65535⟩ ∧
    ¬ Kept 65535 (attachClient ⟨0, by decide⟩ 10) [⟨1, by decide⟩] := by
  refine ⟨rfl, ?_⟩
  rintro ⟨⟨-, hlate⟩, -⟩
  revert hlate
  decide

end MonsterMQ.Keepalive
