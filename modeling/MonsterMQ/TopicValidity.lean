import MonsterMQ.TopicFilters
import Mathlib.Data.List.TakeWhile

/-!
# Valid filters and topic names, exactly

What `IsValidFilter` accepts, in the terms of the MQTT rules: plain filters, complete shared
subscriptions, and the names a client may publish to; and that `validFilter` of PeerLink
accepts the same plain filters.
-/

namespace MonsterMQ.Topics

open LittleEndian PeerLink Auth List

theorem splitLevel_append {l : Bytes} (h : slashByte ∉ l) (r : Bytes) :
    splitLevel (l ++ slashByte :: r) = (l, some r) := by
  have hall : ∀ b ∈ l, decide (b ≠ slashByte) = true := fun b hb =>
    decide_eq_true fun heq => h (heq ▸ hb)
  rw [splitLevel, dropWhile_append_of_pos hall, takeWhile_append_of_pos hall]
  simp

variable {s group plain : Bytes}

theorem splitLevel_whole (h : slashByte ∉ s) : splitLevel s = (s, none) := by
  have hall : ∀ b ∈ s, decide (b ≠ slashByte) = true := fun b hb =>
    decide_eq_true fun heq => h (heq ▸ hb)
  rw [splitLevel, dropWhile_eq_nil_iff.mpr hall]

theorem eq_of_upperByte {x : UInt8} (hx : x < 0x41) {c : UInt8} (h : upperByte c = x) : c = x := by
  rw [upperByte] at h
  split at h
  · rename_i hletter
    have hnat := congrArg UInt8.toNat h
    have hlow := UInt8.le_iff_toNat_le.mp hletter.1
    have hx' := UInt8.lt_iff_toNat_lt.mp hx
    rw [UInt8.toNat_sub_of_le _ _ (UInt8.le_iff_toNat_le.mpr (le_trans (by decide) hlow))] at hnat
    simp only [UInt8.reduceToNat] at hlow hx' hnat
    omega
  · exact h

theorem mem_of_equalFold {t : Bytes} (h : equalFold s t = true) {x : UInt8} (hx : x < 0x41)
    (hs : x ∈ s) : x ∈ t := by
  fun_induction equalFold s t with
  | case1 s => simp_all
  | case2 c t => cases hs
  | case3 c t r ih =>
    simp only [Bool.and_eq_true, decide_eq_true_eq] at h
    have hr : x ∈ r := by
      simp only [mem_cons] at hs
      rcases hs with rfl | rfl | hs
      · exact absurd hx (by decide)
      · exact absurd hx (by decide)
      · exact hs
    exact mem_cons_of_mem _ (ih h.2 hr)
  | case4 c t r ih =>
    simp only [Bool.and_eq_true, decide_eq_true_eq] at h
    have hr : x ∈ r := by
      simp only [mem_cons] at hs
      rcases hs with rfl | rfl | rfl | hs
      · exact absurd hx (by decide)
      · exact absurd hx (by decide)
      · exact absurd hx (by decide)
      · exact hs
    exact mem_cons_of_mem _ (ih h.2 hr)
  | case5 c t b r _ _ ih =>
    simp only [Bool.and_eq_true, decide_eq_true_eq] at h
    rcases mem_cons.mp hs with rfl | hs
    · have hc : c = x := by
        apply eq_of_upperByte hx
        rw [← h.1.2, upperByte, if_neg]
        rintro ⟨hle, -⟩
        have hle' := UInt8.le_iff_toNat_le.mp hle
        have hx' := UInt8.lt_iff_toNat_lt.mp hx
        simp only [UInt8.reduceToNat] at hle' hx'
        omega
      rw [hc]
      exact mem_cons_self
    · exact mem_cons_of_mem _ (ih h.2 hs)

private theorem length_le_of_equalFold {t : Bytes} (h : equalFold s t = true) : t.length ≤ s.length := by
  fun_induction equalFold s t with
  | case1 s => simp
  | case2 c t => cases h
  | case3 c t r ih =>
    have hr := ih (by simp_all)
    simp only [length_cons]
    omega
  | case4 c t r ih =>
    have hr := ih (by simp_all)
    simp only [length_cons]
    omega
  | case5 c t b r _ _ ih =>
    have hr := ih (by simp_all)
    simp only [length_cons]
    omega

theorem head_of_equalFold {t : Bytes} (h : equalFold s (dollarByte :: t) = true) :
    s.head? = some dollarByte := by
  have hupper : upperByte dollarByte = dollarByte := by decide
  rw [equalFold.eq_def] at h
  simp only at h
  split at h
  · cases h
  · simp only [hupper, Bool.and_eq_true, decide_eq_true_eq] at h
    exact absurd h.1 (by decide)
  · simp only [hupper, Bool.and_eq_true, decide_eq_true_eq] at h
    exact absurd h.1 (by decide)
  · simp only [hupper, Bool.and_eq_true, decide_eq_true_eq] at h
    rw [List.head?_cons, eq_of_upperByte (by decide) h.1.2]

theorem hashEnd_of_wholeLevels (h : WholeLevels (levels s)) : HashEnd s := by
  induction s with
  | nil =>
    intro pre suf hs
    simp at hs
  | cons b s ih =>
    rw [levels] at h
    split at h
    · rename_i hb
      rintro (_ | ⟨c, pre⟩) suf hs
      · obtain ⟨rfl, -⟩ := List.cons.inj hs
        exact absurd hb (by decide)
      · exact ih h.tail pre suf (List.cons.inj hs).2
    · rcases hls : levels s with _ | ⟨l, ls⟩
      · exact absurd hls (levels_ne_nil s)
      rw [hls] at h ih
      have halone : ∀ w : UInt8, (w ∈ b :: l → b :: l = [w]) → w ∉ l := by
        intro w hw hmem
        obtain ⟨-, rfl⟩ := List.cons.inj (hw (mem_cons_of_mem _ hmem))
        cases hmem
      have hplus : 0x2B ∉ l := halone _ (h.plus _ mem_cons_self)
      have hhash : 0x23 ∉ l := halone _ (h.hash _ mem_cons_self)
      have hrest : WholeLevels (l :: ls) := by
        refine ⟨⟨fun hl => absurd (hl ▸ mem_singleton.mpr rfl) hhash, h.hashLast.2⟩, ?_, ?_⟩
        · intro k hk hmem
          rcases mem_cons.mp hk with rfl | hk
          · exact absurd hmem hplus
          · exact h.plus k (mem_cons_of_mem _ hk) hmem
        · intro k hk hmem
          rcases mem_cons.mp hk with rfl | hk
          · exact absurd hmem hhash
          · exact h.hash k (mem_cons_of_mem _ hk) hmem
      rintro (_ | ⟨c, pre⟩) suf hs
      · obtain ⟨rfl, rfl⟩ := List.cons.inj hs
        have hl := h.hash _ mem_cons_self mem_cons_self
        have hempty : levels s = [[]] := by
          rw [hls, (List.cons.inj hl).2, h.hashLast.1 hl]
        exact levels_injective hempty
      · exact ih hrest pre suf (List.cons.inj hs).2

theorem idxOf_of_hashEnd (h : HashEnd s) : ¬ (s.idxOf 0x23 < s.length ∧ s.idxOf 0x23 ≠ s.length - 1) := by
  rintro ⟨hlt, hne⟩
  have hmem : (0x23 : UInt8) ∈ s := idxOf_lt_length_iff.mp hlt
  obtain ⟨pre, suf, hs, hpre⟩ := eq_append_cons_of_mem hmem
  have hsuf := h pre suf hs
  rw [hs, hsuf, idxOf_append_of_notMem hpre] at hne
  simp at hne

structure ShareParts (s group plain : Bytes) : Prop where
  cut : ∃ share, equalFold share sharePrefix = true ∧ s = share ++ slashByte :: (group ++ slashByte :: plain)
  group_ne : group ≠ []
  group_slash : slashByte ∉ group
  group_plus : 0x2B ∉ group
  group_hash : 0x23 ∉ group
  plain_ne : plain ≠ []

theorem slash_not_mem_of_share {share : Bytes} (h : equalFold share sharePrefix = true) :
    slashByte ∉ share := fun hmem => not_mem_ascii rfl rfl (mem_of_equalFold h (by decide) hmem)

private theorem plus_not_mem_of_share {share : Bytes} (h : equalFold share sharePrefix = true) :
    0x2B ∉ share := fun hmem => not_mem_ascii rfl rfl (mem_of_equalFold h (by decide) hmem)

private theorem hash_not_mem_of_share {share : Bytes} (h : equalFold share sharePrefix = true) :
    0x23 ∉ share := fun hmem => not_mem_ascii rfl rfl (mem_of_equalFold h (by decide) hmem)

/-- What the scanner asks of the share prefix, as it computes it. -/
@[grind =] def shareChecked (filter : Bytes) : Bool :=
  let (name, hasNext) := isolateParticle filter false
  if !hasNext && equalFold name sharePrefix then false
  else if hasNext && equalFold name sharePrefix &&
      (let (group, hasNext) := isolateParticle filter true
       !hasNext || group.isEmpty || group.contains 0x2B || group.contains 0x23 ||
         filter.length ≤ name.length + 1 + group.length + 1) then false
  else true

private theorem shareParts_cuts (h : ShareParts s group plain) : ∃ share, equalFold share sharePrefix = true ∧
      splitLevel s = (share, some (group ++ slashByte :: plain)) ∧
      splitLevel (group ++ slashByte :: plain) = (group, some plain) := by
  obtain ⟨share, hshare, rfl⟩ := h.cut
  exact ⟨share, hshare, splitLevel_append (slash_not_mem_of_share hshare) _,
    splitLevel_append h.group_slash plain⟩

theorem shareChecked_of_cuts {name : Bytes} (hname : slashByte ∉ name)
    (hgroup : slashByte ∉ group) (hshare : equalFold name sharePrefix = true) :
    shareChecked (name ++ slashByte :: (group ++ slashByte :: plain)) = true ↔
      group ≠ [] ∧ 0x2B ∉ group ∧ 0x23 ∉ group ∧ plain ≠ [] := by
  have hcut := splitLevel_append hname (group ++ slashByte :: plain)
  have hcut' := splitLevel_append hgroup plain
  have hlen : name.length + 1 + group.length + 1 <
      name.length + (group.length + (plain.length + 1) + 1) ↔ plain ≠ [] := by
    rw [ne_eq, ← length_eq_zero_iff]
    omega
  simp only [shareChecked, isolateParticle, hcut, hcut']
  simp [hshare, hlen, and_assoc]

theorem shareChecked_iff (s : Bytes) :
    shareChecked s = true ↔ (isSharedFilter s = true → ∃ group plain, ShareParts s group plain) := by
  by_cases hshared : isSharedFilter s = true
  · rw [forall_prop_of_true hshared]
    constructor
    · intro hchecked
      by_cases hslash : slashByte ∈ s
      · obtain ⟨name, rest, rfl, hname⟩ := eq_append_cons_of_mem hslash
        have hshare : equalFold name sharePrefix = true := by
          simpa [isSharedFilter, isolateParticle, splitLevel_append hname rest] using hshared
        by_cases hslash' : slashByte ∈ rest
        · obtain ⟨group, plain, rfl, hgroup⟩ := eq_append_cons_of_mem hslash'
          obtain ⟨hne, hplus, hhash, hplain⟩ := (shareChecked_of_cuts hname hgroup hshare).mp hchecked
          exact ⟨group, plain, ⟨⟨name, hshare, rfl⟩, hne, hgroup, hplus, hhash, hplain⟩⟩
        · simp [shareChecked, isolateParticle, splitLevel_append hname rest, splitLevel_whole hslash',
            hshare] at hchecked
      · simp only [isSharedFilter, isolateParticle, splitLevel_whole hslash] at hshared
        simp [shareChecked, isolateParticle, splitLevel_whole hslash, hshared] at hchecked
    · rintro ⟨group, plain, hp⟩
      obtain ⟨share, hshare, rfl⟩ := hp.cut
      exact (shareChecked_of_cuts (slash_not_mem_of_share hshare) hp.group_slash hshare).mpr
        ⟨hp.group_ne, hp.group_plus, hp.group_hash, hp.plain_ne⟩
  · have hname : equalFold (isolateParticle s false).1 sharePrefix = false := by
      simpa [isSharedFilter] using hshared
    simp [shareChecked, hname, hshared]

theorem filterShape_iff (s : Bytes) :
    filterShape s = true ↔ WholeLevels (levels s) ∧ shareChecked s = true := by
  constructor
  · intro h
    refine ⟨wholeLevels_of_filterShape h, ?_⟩
    simp only [filterShape] at h
    split at h
    · cases h
    split at h
    · cases h
    rename_i hfirst
    split at h
    · cases h
    rename_i hsecond
    simp only [shareChecked, if_neg hfirst, if_neg hsecond]
  · rintro ⟨hw, hshare⟩
    have hidx := idxOf_of_hashEnd (hashEnd_of_wholeLevels hw)
    have hwild : wildcardsWhole (levels s) = true :=
      (wildcardsWhole_iff).mpr fun l hl => ⟨hw.plus l hl, hw.hash l hl⟩
    simp only [shareChecked] at hshare
    split at hshare
    · cases hshare
    rename_i hfirst
    split at hshare
    · cases hshare
    rename_i hsecond
    have hhash : ¬ (decide (s.idxOf 0x23 < s.length) && decide (s.idxOf 0x23 ≠ s.length - 1)) = true := by
      simpa using hidx
    simp only [filterShape, if_neg hfirst, if_neg hsecond, if_neg hhash, hwild]

/-- A topic filter of MQTT: `+` only as a whole level, `#` only as the whole last one. -/
structure WellFormedFilter (s : Bytes) : Prop where
  nonempty : s ≠ []
  levels : WholeLevels (levels s)

/-- `$share/{group}/{filter}`, the prefix in any case. -/
def SharedSubscription (s : Bytes) : Prop :=
  ∃ group filter, ShareParts s group filter ∧ WellFormedFilter filter

/-- The name starts like the reserved tree of the server. -/
@[grind =] def SysName (s : Bytes) : Prop := equalFold (s.take sysPrefix.length) sysPrefix = true

structure PublishName (s : Bytes) : Prop where
  concrete : 0x2B ∉ s ∧ 0x23 ∉ s
  reserved : ¬ SysName s
  /-- A name under `$share` has a group and a rest. -/
  share : isSharedFilter s = true → ∃ group rest, ShareParts s group rest

theorem wholeLevels_cons {l : Bytes} {ls : List Bytes} (hplus : 0x2B ∉ l) (hhash : 0x23 ∉ l) :
    WholeLevels (l :: ls) ↔ WholeLevels ls := by
  constructor
  · exact fun h => h.tail
  · intro h
    have hne : l ≠ hashLevel := by
      rintro rfl
      exact hhash (mem_singleton.mpr rfl)
    refine ⟨⟨fun hl => absurd hl hne, h.hashLast⟩, ?_, ?_⟩
    · exact forall_mem_cons.mpr ⟨fun hmem => absurd hmem hplus, h.plus⟩
    · exact forall_mem_cons.mpr ⟨fun hmem => absurd hmem hhash, h.hash⟩

section

variable (h : ShareParts s group plain)
include h

theorem wholeLevels_of_parts : WholeLevels (levels s) ↔ WholeLevels (levels plain) := by
  obtain ⟨share, hshare, rfl⟩ := h.cut
  rw [levels_append_slash _ (slash_not_mem_of_share hshare), levels_append_slash _ h.group_slash,
    wholeLevels_cons (plus_not_mem_of_share hshare) (hash_not_mem_of_share hshare),
    wholeLevels_cons h.group_plus h.group_hash]

private theorem isShared_of_parts : isSharedFilter s = true := by
  obtain ⟨share, hshare, hcut, -⟩ := shareParts_cuts h
  simp [isSharedFilter, isolateParticle, hcut, hshare]

private theorem ne_nil_of_parts : s ≠ [] := by
  obtain ⟨share, -, rfl⟩ := h.cut
  simp

end

theorem isValidFilter_subscribe_iff (s : Bytes) : isValidFilter s false = true ↔
      (WellFormedFilter s ∧ isSharedFilter s = false) ∨ SharedSubscription s := by
  have hshape : isValidFilter s false = true ↔ s ≠ [] ∧ filterShape s = true := by
    simp [isValidFilter]
  rw [hshape, filterShape_iff, shareChecked_iff]
  constructor
  · rintro ⟨hne, hw, hshare⟩
    by_cases hs : isSharedFilter s = true
    · obtain ⟨group, plain, hp⟩ := hshare hs
      exact .inr ⟨group, plain, hp, hp.plain_ne, (wholeLevels_of_parts hp).mp hw⟩
    · exact .inl ⟨⟨hne, hw⟩, by simpa using hs⟩
  · rintro (⟨⟨hne, hw⟩, hs⟩ | ⟨group, plain, hp, hwf⟩)
    · exact ⟨hne, hw, fun hs' => absurd (hs.symm.trans hs') (by decide)⟩
    · exact ⟨ne_nil_of_parts hp, (wholeLevels_of_parts hp).mpr hwf.levels, fun _ => ⟨group, plain, hp⟩⟩

theorem wholeLevels_of_concrete (hplus : 0x2B ∉ s) (hhash : 0x23 ∉ s) : WholeLevels (levels s) := by
  have hp : ∀ l ∈ levels s, 0x2B ∉ l := fun l hl hmem => hplus (mem_of_mem_levels hl hmem)
  have hh : ∀ l ∈ levels s, 0x23 ∉ l := fun l hl hmem => hhash (mem_of_mem_levels hl hmem)
  have hend : HashEnd s := by
    rintro pre suf rfl
    exact absurd (mem_append_right _ mem_cons_self) hhash
  refine ⟨hashLast_levels hend, ?_, ?_⟩
  · exact fun l hl hmem => absurd hmem (hp l hl)
  · exact fun l hl hmem => absurd hmem (hh l hl)

theorem sharePrefix_eq : sharePrefix = dollarByte :: ascii "SHARE" := by
  rw [sharePrefix, ascii_eq rfl, ascii_eq rfl]
  rfl

private theorem sysPrefix_eq : sysPrefix = dollarByte :: ascii "SYS" := by
  rw [sysPrefix, ascii_eq rfl, ascii_eq rfl]
  rfl

private theorem head_of_sysName (h : SysName s) : s.head? = some dollarByte := by
  rw [SysName, sysPrefix_eq] at h
  have hhead := head_of_equalFold h
  cases s with
  | nil => simp at hhead
  | cons b s => exact hhead

private theorem head_of_shared (h : isSharedFilter s = true) : s.head? = some dollarByte := by
  by_cases hslash : slashByte ∈ s
  · obtain ⟨name, rest, rfl, hname⟩ := eq_append_cons_of_mem hslash
    have hshare : equalFold name sharePrefix = true := by
      simpa [isSharedFilter, isolateParticle, splitLevel_append hname rest] using h
    rw [sharePrefix_eq] at hshare
    rw [List.head?_append, head_of_equalFold hshare]
    rfl
  · simp only [isSharedFilter, isolateParticle, splitLevel_whole hslash] at h
    rw [sharePrefix_eq] at h
    exact head_of_equalFold h

theorem isValidFilter_publish_iff (s : Bytes) : isValidFilter s true = true ↔ PublishName s := by
  by_cases hwild : 0x2B ∈ s ∨ 0x23 ∈ s
  · have hfalse : isValidFilter s true = false := by
      simp [isValidFilter, hwild]
    rw [hfalse]
    refine iff_of_false (by decide) fun h => ?_
    rcases hwild with hp | hh
    · exact h.concrete.1 hp
    · exact h.concrete.2 hh
  · rw [not_or] at hwild
    by_cases hhead : s.head? = some dollarByte
    · have hne : s ≠ [] := by
        rintro rfl
        cases hhead
      have hlong : SysName s → sysPrefix.length ≤ s.length := by
        intro h
        have hlen := length_le_of_equalFold h
        rw [length_take] at hlen
        omega
      have hvalid : isValidFilter s true = true ↔ ¬ SysName s ∧ filterShape s = true := by
        by_cases hres : SysName s
        · have hsys : (decide (sysPrefix.length ≤ s.length) &&
              equalFold (s.take sysPrefix.length) sysPrefix) = true :=
            Bool.and_eq_true_iff.mpr ⟨decide_eq_true (hlong hres), hres⟩
          simp only [isValidFilter, hsys]
          simp [hwild.1, hwild.2, hne, hhead, hres]
        · have hsys : (decide (sysPrefix.length ≤ s.length) &&
              equalFold (s.take sysPrefix.length) sysPrefix) = false :=
            Bool.and_eq_false_iff.mpr (.inr (by simpa [SysName] using hres))
          simp only [isValidFilter, hsys]
          simp [hwild.1, hwild.2, hne, hhead, hres]
      rw [hvalid, filterShape_iff, shareChecked_iff]
      constructor
      · rintro ⟨hres, -, hshare⟩
        exact ⟨hwild, hres, hshare⟩
      · intro h
        exact ⟨h.reserved, wholeLevels_of_concrete hwild.1 hwild.2, h.share⟩
    · have hname : PublishName s :=
        ⟨hwild, fun h => hhead (head_of_sysName h), fun h => absurd (head_of_shared h) hhead⟩
      refine iff_of_true ?_ hname
      by_cases hslash : s = [] ∨ s.head? ≠ some slashByte
      · have hfirst : (s.isEmpty || (decide (s.head? ≠ some dollarByte) &&
            decide (s.head? ≠ some slashByte))) = true := by
          rcases hslash with h | h
          · simp [h]
          · simp [hhead, h]
        simp only [isValidFilter, hfirst]
        simp [hwild.1, hwild.2]
      · have hshape : filterShape s = true :=
          (filterShape_iff s).mpr ⟨wholeLevels_of_concrete hwild.1 hwild.2, (shareChecked_iff s).mpr hname.share⟩
        have hsys : (decide (sysPrefix.length ≤ s.length) &&
            equalFold (s.take sysPrefix.length) sysPrefix) = false := by
          rw [Bool.and_eq_false_iff]
          exact .inr (by simpa [SysName] using hname.reserved)
        simp only [isValidFilter, hsys, hshape]
        simp [hwild.1, hwild.2]

theorem validLevels_iff {ls : List Bytes} : validLevels ls = .ok () ↔ WholeLevels ls := by
  induction ls with
  | nil => exact iff_of_true rfl ⟨trivial, by simp, by simp⟩
  | cons l ls ih =>
    rw [validLevels]
    by_cases hhash : 0x23 ∈ l
    · by_cases hlast : l = hashLevel ∧ ls = []
      · obtain ⟨rfl, rfl⟩ := hlast
        refine iff_of_true (by decide) ⟨⟨fun _ => rfl, trivial⟩, ?_, ?_⟩
        · simp [hashLevel]
        · simp
      · have hbad : (l.contains 0x23 && (decide (l ≠ hashLevel) || !ls.isEmpty)) = true := by
          have hor : l ≠ hashLevel ∨ ls ≠ [] := by tauto
          simpa [hhash] using hor
        rw [if_pos hbad]
        refine iff_of_false (by simp) fun h => hlast ?_
        have hl := h.hash l mem_cons_self hhash
        exact ⟨hl, h.hashLast.1 hl⟩
    · rw [if_neg (by simp [hhash])]
      by_cases hplus : 0x2B ∈ l ∧ l ≠ plusLevel
      · rw [if_pos (by simpa using hplus)]
        exact iff_of_false (by simp) fun h => hplus.2 (h.plus l mem_cons_self hplus.1)
      · rw [if_neg (by simpa using hplus), ih]
        constructor
        · intro h
          have hne : l ≠ hashLevel := by
            rintro rfl
            exact hhash (mem_singleton.mpr rfl)
          refine ⟨⟨fun hl => absurd hl hne, h.hashLast⟩, ?_, ?_⟩
          · exact forall_mem_cons.mpr ⟨fun hmem => not_not.mp fun hl => hplus ⟨hmem, hl⟩, h.plus⟩
          · exact forall_mem_cons.mpr ⟨fun hmem => absurd hmem hhash, h.hash⟩
        · exact fun h => h.tail

private theorem validFilter_iff (s : Bytes) : validFilter s = .ok () ↔ WellFormedFilter s := by
  rw [validFilter]
  split
  · rename_i hs
    exact iff_of_false (by simp) fun h => h.nonempty hs
  · rename_i hs
    rw [validLevels_iff]
    exact ⟨fun h => ⟨hs, h⟩, fun h => h.levels⟩

/-- Exactly what is accepted: outside `$share`, the well-formed filters, and under it the complete
shared subscriptions; for publishing, the names without wildcards that are not reserved; and the
two validators agree on every filter that is not shared. -/
theorem isValidFilter_exact (s : Bytes) : (isValidFilter s false = true ↔
      (WellFormedFilter s ∧ isSharedFilter s = false) ∨ SharedSubscription s) ∧
    (isValidFilter s true = true ↔ PublishName s) ∧
    (isSharedFilter s = false → (validFilter s = .ok () ↔ isValidFilter s false = true)) := by
  refine ⟨isValidFilter_subscribe_iff s, isValidFilter_publish_iff s, fun hs => ?_⟩
  rw [validFilter_iff, isValidFilter_subscribe_iff]
  constructor
  · exact fun h => .inl ⟨h, hs⟩
  · rintro (⟨h, -⟩ | ⟨group, plain, hp, -⟩)
    · exact h
    · exact absurd (hs.symm.trans (isShared_of_parts hp)) (by decide)

theorem isValidFilter_exact_plus : isSharedFilter [0x61, slashByte, 0x2B] = false ∧
      (validFilter [0x61, slashByte, 0x2B] = .ok () ↔ isValidFilter [0x61, slashByte, 0x2B] false = true) :=
  have hplain : isSharedFilter [0x61, slashByte, 0x2B] = false := by decide
  ⟨hplain, (isValidFilter_exact [0x61, slashByte, 0x2B]).2.2 hplain⟩

/-- The share prefix alone is a level without wildcards, and is refused. -/
theorem share_alone_refused : ¬ (isValidFilter (ascii "$share") false = true ↔
      WellFormedFilter (ascii "$share") ∨ SharedSubscription (ascii "$share")) := by
  rw [ascii_eq rfl]
  intro h
  have hvalid := h.mpr (.inl ⟨by decide, wholeLevels_of_concrete (by decide) (by decide)⟩)
  revert hvalid
  decide

end MonsterMQ.Topics
