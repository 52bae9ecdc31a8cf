import MonsterMQ.PeerLinkInterestTracker

/-!
# What the tracker announces

Every operation of the tracker is a sequence of three kinds of moves: bookkeeping of the local holders, a
filter that becomes pending, and a flush.
-/

namespace MonsterMQ.PeerLink

open LittleEndian FiniteMaps List

def InterestEntry.stored (e : InterestEntry) : EntryClass := ⟨e.cls, InterestTable.expiryOf e⟩

@[grind =] def applyChange (m : FMap Bytes EntryClass) (e : InterestEntry) : FMap Bytes EntryClass :=
  if e.cls = interestNone then m.erase e.filter else m.insert e.filter e.stored

namespace InterestTracker

@[grind =] def announce (m : FMap Bytes InterestEntry) (e : InterestEntry) : FMap Bytes InterestEntry :=
  if e.cls = interestNone then m.erase e.filter else m.insert e.filter e

structure Counted (t : InterestTracker) : Prop where
  entries : ∀ f, f ∈ t.entries → t.accept f = true
  clients : ∀ client subs, t.clients.lookup client = some subs → ∀ k, k ∈ subs → t.accept k.filter = true

structure SameAnnounced (t t' : InterestTracker) : Prop where
  maxFilterBytes : t'.maxFilterBytes = t.maxFilterBytes
  announced : t'.announced = t.announced
  pending : t'.pending = t.pending
  gen : t'.gen = t.gen
  cursors : t'.cursors = t.cursors

inductive Moves : InterestTracker → InterestTracker → Prop where
  | refl (t : InterestTracker) : Moves t t
  | book {t u v : InterestTracker} (h : Moves t u) (same : SameAnnounced u v) (counted : v.Counted) :
      Moves t v
  | pend {t u : InterestTracker} (h : Moves t u) {f : Bytes} (accepted : u.accept f = true) :
      Moves t { u with pending := u.pending.insert f () }
  | flush {t u : InterestTracker} (h : Moves t u) (o : MapOrder) : Moves t (u.flushLocked o)

theorem flushLocked_maxFilterBytes (o : MapOrder) (t : InterestTracker) :
    (t.flushLocked o).maxFilterBytes = t.maxFilterBytes := by
  simp only [flushLocked]
  split
  · rfl
  · split
    · rfl
    · split <;> rfl

theorem flushLocked_holders (o : MapOrder) (t : InterestTracker) :
    (t.flushLocked o).entries = t.entries ∧ (t.flushLocked o).clients = t.clients := by
  simp only [flushLocked]
  split
  · exact ⟨rfl, rfl⟩
  · split
    · exact ⟨rfl, rfl⟩
    · split <;> exact ⟨rfl, rfl⟩

variable {t u : InterestTracker}

theorem Moves.maxFilterBytes (h : Moves t u) : u.maxFilterBytes = t.maxFilterBytes := by
  induction h with
  | refl => rfl
  | book _ same _ ih => rw [same.maxFilterBytes, ih]
  | pend _ _ ih => exact ih
  | flush _ o ih => rw [flushLocked_maxFilterBytes, ih]

theorem accept_congr (h : u.maxFilterBytes = t.maxFilterBytes) (f : Bytes) : u.accept f = t.accept f := by
  simp only [accept, h]

theorem Moves.accept (h : Moves t u) (f : Bytes) : u.accept f = t.accept f :=
  accept_congr h.maxFilterBytes f

theorem Counted.of_eq (h : t.Counted) (hmax : u.maxFilterBytes = t.maxFilterBytes)
    (hentries : u.entries = t.entries) (hclients : u.clients = t.clients) : u.Counted := by
  constructor
  · intro f hf
    rw [accept_congr hmax]
    exact h.entries f (hentries ▸ hf)
  · intro client subs hsubs k hk
    rw [accept_congr hmax]
    exact h.clients client subs (hclients ▸ hsubs) k hk

theorem Moves.counted (h : Moves t u) (ht : t.Counted) : u.Counted := by
  induction h with
  | refl => exact ht
  | book _ _ counted _ => exact counted
  | pend _ _ ih => exact ih.of_eq rfl rfl rfl
  | flush _ o ih =>
    obtain ⟨hentries, hclients⟩ := flushLocked_holders o _
    exact ih.of_eq (flushLocked_maxFilterBytes o _) hentries hclients

theorem Moves.keep {v : InterestTracker} (h : Moves t u) (ht : t.Counted) (same : SameAnnounced u v)
    (hentries : v.entries = u.entries) (hclients : v.clients = u.clients) : Moves t v :=
  h.book same ((h.counted ht).of_eq same.maxFilterBytes hentries hclients)

variable {subs : FMap ClientSubKey HoldClass}

theorem Moves.putSubs (h : Moves t u) (ht : t.Counted) (client : Bytes)
    (hsubs : ∀ k, k ∈ subs → t.accept k.filter = true) :
    Moves t { u with clients := u.clients.insert client subs } := by
  have hu := h.counted ht
  refine h.book ⟨rfl, rfl, rfl, rfl, rfl⟩ ⟨hu.entries, ?_⟩
  intro c ss hss k hk
  by_cases hc : c = client
  · subst hc
    rw [AList.lookup_insert, Option.some.injEq] at hss
    exact (accept_congr (t := t) h.maxFilterBytes k.filter).trans (hsubs k (hss ▸ hk))
  · rw [AList.lookup_insert_ne hc] at hss
    exact hu.clients c ss hss k hk

theorem Moves.eraseClient (h : Moves t u) (ht : t.Counted) (client : Bytes) :
    Moves t { u with clients := u.clients.erase client } := by
  have hu := h.counted ht
  refine h.book ⟨rfl, rfl, rfl, rfl, rfl⟩ ⟨hu.entries, ?_⟩
  intro c ss hss k hk
  by_cases hc : c = client
  · subst hc
    rw [AList.lookup_erase] at hss
    cases hss
  · rw [AList.lookup_erase_ne hc] at hss
    exact hu.clients c ss hss k hk

theorem Moves.subs_accepted (h : Moves t u) (ht : t.Counted) (client : Bytes) :
    ∀ k, k ∈ (u.clients.lookup client).getD ∅ → t.accept k.filter = true := by
  intro k hk
  cases hl : u.clients.lookup client with
  | none =>
    rw [hl] at hk
    exact absurd hk (AList.notMem_empty k)
  | some subs =>
    rw [hl] at hk
    rw [← h.accept]
    exact (h.counted ht).clients client subs hl k hk

variable {f : Bytes}

theorem Moves.mark (h : Moves t u) (o : MapOrder) (hf : u.accept f = true) : Moves t (u.markLocked o f) := by
  simp only [markLocked]
  split
  · exact h
  · split
    · exact (h.pend hf).flush o
    · exact h.pend hf

theorem Moves.add (h : Moves t u) (ht : t.Counted) (o : MapOrder)
    (hf : t.accept f = true) (hc : HoldClass) : Moves t (u.addLocked o f hc) := by
  have huf : u.accept f = true := by rw [h.accept, hf]
  simp only [addLocked]
  refine Moves.mark (h.book ?_ ?_) o huf
  · exact ⟨rfl, rfl, rfl, rfl, rfl⟩
  · refine ⟨?_, (h.counted ht).clients⟩
    intro g hg
    rcases (AList.mem_insert _).mp hg with rfl | hg
    · exact huf
    · exact (h.counted ht).entries g hg

theorem Moves.remove (h : Moves t u) (ht : t.Counted) (o : MapOrder) (f : Bytes)
    (hc : HoldClass) : Moves t (u.removeLocked o f hc) := by
  simp only [removeLocked]
  split
  · exact h
  · rename_i e he
    have huf : u.accept f = true :=
      (h.counted ht).entries f (AList.lookup_isSome.mp (by simp [he]))
    split
    · exact h
    · refine Moves.mark (h.book ?_ ?_) o huf
      · exact ⟨rfl, rfl, rfl, rfl, rfl⟩
      · refine ⟨?_, (h.counted ht).clients⟩
        intro g hg
        have hg' : g = f ∨ g ∈ u.entries := by
          simp only at hg
          split at hg
          · exact .inr (AList.mem_erase.mp hg).2
          · exact (AList.mem_insert _).mp hg
        rcases hg' with rfl | hg'
        · exact huf
        · exact (h.counted ht).entries g hg'

theorem Moves.foldl {α : Type} (step : InterestTracker → α → InterestTracker)
    (xs : List α) (hstep : ∀ a ∈ xs, ∀ v, Moves t v → Moves t (step v a)) (h : Moves t u) :
    Moves t (xs.foldl step u) := by
  induction xs generalizing u with
  | nil => exact h
  | cons a xs ih =>
    exact ih (fun b hb => hstep b (mem_cons_of_mem _ hb))
      (hstep a (mem_cons_self ..) u h)

private theorem inlineAdded_moves (ht : t.Counted) (o : MapOrder) (f : Bytes) (id : ℤ) :
    Moves t (t.inlineAdded o f id) := by
  simp only [inlineAdded]
  split
  · exact .refl t
  · rename_i hacc
    have hf : t.accept f = true := by simpa using hacc
    split
    · exact .refl t
    · refine Moves.add ?_ ht o hf .vol
      exact (Moves.refl t).keep ht ⟨rfl, rfl, rfl, rfl, rfl⟩ rfl rfl

variable {k : ClientSubKey}

theorem mem_insert_accepted
    (hk : t.accept k.filter = true) (hsubs : ∀ k, k ∈ subs → t.accept k.filter = true) (hc : HoldClass) :
    ∀ x, x ∈ subs.insert k hc → t.accept x.filter = true := by
  intro x hx
  rcases (AList.mem_insert _).mp hx with rfl | hx
  · exact hk
  · exact hsubs x hx

theorem Moves.forget (hu : Moves t u) (ht : t.Counted) (client : Bytes) (k : ClientSubKey) :
    Moves t (match u.restored.lookup client with
      | none => u
      | some r => { u with restored := u.restored.insert client (r.erase k) }) := by
  split
  · exact hu
  · exact hu.keep ht ⟨rfl, rfl, rfl, rfl, rfl⟩ rfl rfl

theorem clientAdded_moves (ht : t.Counted) (o : MapOrder) (client : Bytes)
    (hf : t.accept k.filter = true) (hc : HoldClass) : Moves t (t.clientAdded o client k hc) := by
  have hsubs := (Moves.refl t).subs_accepted ht client
  have hadd : ∀ u, Moves t u → Moves t ({ u with
      clients := u.clients.insert client (((t.clients.lookup client).getD ∅).insert k hc) }.addLocked o
        k.filter hc) :=
    fun u hu => Moves.add (hu.putSubs ht client (mem_insert_accepted hf hsubs hc)) ht o hf hc
  cases hl : ((t.clients.lookup client).getD ∅).lookup k with
  | none =>
    simp only [clientAdded, hl]
    exact (hadd t (.refl t)).forget ht client k
  | some old =>
    simp only [clientAdded, hl]
    exact (hadd _ ((Moves.refl t).remove ht o k.filter old)).forget ht client k

theorem subscriptionAdded_moves (ht : t.Counted) (o : MapOrder)
    (client f group : Bytes) (inline : Bool) (inlineID : ℤ) (hc : HoldClass) :
    Moves t (t.subscriptionAdded o client f group inline inlineID hc) := by
  simp only [subscriptionAdded]
  split
  · exact .refl t
  · split
    · exact inlineAdded_moves ht o f inlineID
    · split
      · exact .refl t
      · rename_i hacc
        have hf : t.accept f = true := by
          simp only [not_or, Bool.not_eq_true', Bool.not_eq_false] at hacc
          exact hacc.2
        exact clientAdded_moves ht o client hf hc

theorem Moves.putClient (h : Moves t u) (ht : t.Counted) (client : Bytes)
    (hsubs : ∀ k, k ∈ subs → t.accept k.filter = true) : Moves t (u.putClient client subs) := by
  simp only [InterestTracker.putClient]
  split
  · exact h.eraseClient ht client
  · exact h.putSubs ht client hsubs

theorem subscriptionRemoved_moves (ht : t.Counted) (o : MapOrder)
    (client f group : Bytes) (inline : Bool) (inlineID : ℤ) :
    Moves t (t.subscriptionRemoved o client f group inline inlineID) := by
  simp only [subscriptionRemoved]
  split
  · split
    · refine Moves.remove ?_ ht o f .vol
      exact (Moves.refl t).keep ht ⟨rfl, rfl, rfl, rfl, rfl⟩ rfl rfl
    · exact .refl t
  · split
    · exact .refl t
    · rename_i hc _
      have hsubs : ∀ k, k ∈ ((t.clients.lookup client).getD ∅).erase (⟨f, group⟩ : ClientSubKey) →
          t.accept k.filter = true :=
        fun k hk => (Moves.refl t).subs_accepted ht client k (AList.mem_erase.mp hk).2
      have hput := (Moves.refl t).putClient ht client hsubs
      split
      · exact hput.remove ht o f hc
      · refine Moves.remove ?_ ht o f hc
        exact hput.keep ht ⟨rfl, rfl, rfl, rfl, rfl⟩ rfl rfl

theorem filtersAdded_moves (ht : t.Counted) (o : MapOrder) (fs : List Bytes) :
    Moves t (t.filtersAdded o fs) := by
  refine Moves.foldl _ fs (fun f _ v hv => ?_) (.refl t)
  split
  · rename_i hacc
    rw [hv.accept] at hacc
    exact hv.add ht o hacc .vol
  · exact hv

theorem filtersRemoved_moves (ht : t.Counted) (o : MapOrder) (fs : List Bytes) :
    Moves t (t.filtersRemoved o fs) := by
  refine Moves.foldl _ fs (fun f _ v hv => ?_) (.refl t)
  split
  · exact hv.remove ht o f .vol
  · exact hv

theorem mem_insertAccepted (hc : HoldClass) (fs : List Bytes)
    {m : FMap Bytes HoldClass} (hm : ∀ f, f ∈ m → t.accept f = true) :
    ∀ f, f ∈ fs.foldl (fun m f => if t.accept f then m.insert f hc else m) m → t.accept f = true := by
  induction fs generalizing m with
  | nil => exact hm
  | cons f fs ih =>
    rw [foldl_cons]
    apply ih
    split
    · rename_i hacc
      intro g hg
      rcases (AList.mem_insert _).mp hg with rfl | hg
      · exact hacc
      · exact hm g hg
    · exact hm

private theorem providedClasses_accepted (t : InterestTracker) (vol per : List Bytes) :
    ∀ f, f ∈ t.providedClasses vol per → t.accept f = true :=
  mem_insertAccepted _ per (mem_insertAccepted _ vol (fun f hf => absurd hf (AList.notMem_empty f)))

theorem setProvided_moves (ht : t.Counted) (o : MapOrder) (source : Bytes)
    (vol per : List Bytes) : Moves t (t.setProvided o source vol per) := by
  have hremoved : Moves t (t.removeAll o (o.visit ((t.provided.lookup source).getD ∅).entries)) :=
    Moves.foldl _ _ (fun e _ v hv => hv.remove ht o e.1 e.2) (.refl t)
  have hadded : Moves t ((t.removeAll o (o.visit ((t.provided.lookup source).getD ∅).entries)).addAll o
      (o.visit (t.providedClasses vol per).entries)) := by
    refine Moves.foldl _ _ (fun e he v hv => ?_) hremoved
    have hmem : e.1 ∈ t.providedClasses vol per :=
      AList.mem_keys.mpr (mem_keys_of_mem (o.mem_visit.mp he))
    exact hv.add ht o (providedClasses_accepted t vol per e.1 hmem) e.2
  exact hadded.keep ht ⟨rfl, rfl, rfl, rfl, rfl⟩ rfl rfl

private theorem restoredKey_accepted (h : t.restoredKey f = some k) : t.accept k.filter = true := by
  simp only [restoredKey] at h
  split at h
  · split at h
    · cases h
    · split at h
      · cases h
        assumption
      · cases h
  · split at h
    · cases h
      assumption
    · cases h

private theorem restoreKey_moves (ht : t.Counted) (o : MapOrder) (client : Bytes)
    (hc : HoldClass) {ks : List ClientSubKey} (hks : ∀ k ∈ ks, t.accept k.filter = true)
    {s : InterestTracker × FMap ClientSubKey Unit} (hs : Moves t s.1) :
    Moves t (ks.foldl (restoreKey o client hc) s).1 := by
  induction ks generalizing s with
  | nil => exact hs
  | cons k ks ih =>
    rw [foldl_cons]
    apply ih (fun k hk => hks k (mem_cons_of_mem _ hk))
    simp only [restoreKey]
    split
    · exact hs
    · have hk := hks k (mem_cons_self ..)
      exact Moves.add (hs.putSubs ht client (mem_insert_accepted hk (hs.subs_accepted ht client) hc))
        ht o hk hc

theorem restore_moves (ht : t.Counted) (o : MapOrder) (client : Bytes)
    (fs : List Bytes) (hc : HoldClass) : Moves t (t.restore o client fs hc) := by
  simp only [restore]
  split
  · exact .refl t
  · split
    · exact .refl t
    · have hkeys : ∀ k ∈ fs.filterMap t.restoredKey, t.accept k.filter = true := by
        intro k hk
        obtain ⟨f, -, hf⟩ := mem_filterMap.mp hk
        exact restoredKey_accepted hf
      have hinit : Moves t (if client ∈ t.clients then t
          else { t with clients := t.clients.insert client ∅ }) := by
        split
        · exact .refl t
        · exact (Moves.refl t).putSubs ht client (fun k hk => absurd hk (AList.notMem_empty k))
      have hfold := restoreKey_moves ht o client hc hkeys (s := (_, ∅)) hinit
      exact hfold.keep ht ⟨rfl, rfl, rfl, rfl, rfl⟩ rfl rfl

theorem dropRestoredLocked_moves (ht : t.Counted) (o : MapOrder) (client : Bytes) :
    Moves t (t.dropRestoredLocked o client) := by
  simp only [dropRestoredLocked]
  split
  · exact .refl t
  · rename_i r _
    have hfold : Moves t ((o.visit r.keys).foldl (dropKey o client)
        { t with restored := t.restored.erase client }) := by
      refine Moves.foldl _ _ (fun k _ v hv => ?_)
        ((Moves.refl t).keep ht ⟨rfl, rfl, rfl, rfl, rfl⟩ rfl rfl)
      simp only [dropKey]
      split
      · exact hv
      · refine Moves.remove (hv.putSubs ht client ?_) ht o k.filter _
        exact fun x hx => hv.subs_accepted ht client x (AList.mem_erase.mp hx).2
    split
    · exact hfold.eraseClient ht client
    · exact hfold

theorem reclassify_moves (ht : t.Counted) (o : MapOrder) (client : Bytes)
    (hc : HoldClass) : Moves t (t.reclassify o client hc) := by
  have hdrop := dropRestoredLocked_moves ht o client
  simp only [reclassify]
  refine Moves.foldl _ _ (fun e he v hv => ?_) hdrop
  have hk : t.accept e.1.filter = true := by
    apply hdrop.subs_accepted ht client
    exact AList.mem_keys.mpr (mem_keys_of_mem (o.mem_visit.mp he))
  simp only [reclassifyKey]
  split
  · exact hv
  · have hadded := (hv.remove ht o e.1.filter e.2).add ht o hk hc
    exact hadded.putSubs ht client (mem_insert_accepted hk (hadded.subs_accepted ht client) hc)

structure Announceable (t : InterestTracker) (e : InterestEntry) : Prop where
  accepted : t.accept e.filter = true
  cls : e.cls = interestNone ∨ e.cls = interestVol ∨ e.cls = interestPer
  expiry : e.cls ≠ interestPer → e.expirySec = 0

private theorem classLocked_announceable (hf : t.accept f = true) :
    t.Announceable (t.classLocked f) ∧ (t.classLocked f).filter = f := by
  simp only [classLocked]
  split
  · exact ⟨⟨hf, .inl rfl, fun _ => rfl⟩, rfl⟩
  · split
    · exact ⟨⟨hf, .inr (.inl rfl), fun _ => rfl⟩, rfl⟩
    · exact ⟨⟨hf, .inr (.inr rfl), fun h => absurd rfl h⟩, rfl⟩

structure Consistent (t : InterestTracker) : Prop where
  counted : t.Counted
  pending : ∀ f, f ∈ t.pending → t.accept f = true
  filter : ∀ f e, t.announced.lookup f = some e → e.filter = f
  announceable : ∀ f e, t.announced.lookup f = some e → t.Announceable e ∧ e.cls ≠ interestNone

theorem foldl_noteChange (t : InterestTracker) {fs : List Bytes} (hfs : ∀ f ∈ fs, t.accept f = true)
    (s : FMap Bytes InterestEntry × List InterestEntry) :
    ∃ changes, (fs.foldl t.noteChange s) = (changes.foldl announce s.1, s.2 ++ changes) ∧
      ∀ e ∈ changes, t.Announceable e := by
  induction fs generalizing s with
  | nil => exact ⟨[], by simp, by simp⟩
  | cons f fs ih =>
    obtain ⟨hann, hfilter⟩ := classLocked_announceable (hfs f (mem_cons_self ..))
    obtain ⟨changes, heq, hall⟩ := ih (fun g hg => hfs g (mem_cons_of_mem _ hg)) (t.noteChange s f)
    rw [foldl_cons, heq]
    by_cases hch : interestChanged ((s.1.lookup f).getD ⟨interestNone, 0, f⟩) (t.classLocked f) = true
    · refine ⟨t.classLocked f :: changes, ?_, ?_⟩
      · simp [noteChange, hch, announce, hfilter]
      · intro e he
        rcases mem_cons.mp he with rfl | he
        · exact hann
        · exact hall e he
    · refine ⟨changes, ?_, hall⟩
      simp [noteChange, hch]

inductive Flushed (t : InterestTracker) : InterestTracker → Prop where
  | nothing {u : InterestTracker} (announced : u.announced = t.announced) (gen : u.gen = t.gen)
      (cursors : u.cursors = t.cursors) : Flushed t u
  | sent {u : InterestTracker} (changes : List InterestEntry) (frames : List InterestFrame)
      (all : ∀ e ∈ changes, t.Announceable e)
      (announced : u.announced = changes.foldl announce t.announced)
      (deltas : deltaFrames t.gen (splitInterest changes interestDeltaHeaderLen) = some (frames, u.gen))
      (cursors : u.cursors = t.cursors.map (enqueue frames)) : Flushed t u
  | wrapped {u : InterestTracker} (changes : List InterestEntry)
      (all : ∀ e ∈ changes, t.Announceable e)
      (announced : u.announced = changes.foldl announce t.announced) (gen : u.gen = 0)
      (cursors : u.cursors = t.cursors.map (fun _ => ⟨[], true⟩)) : Flushed t u

theorem flushLocked_flushed (h : t.Consistent) (o : MapOrder) : Flushed t (t.flushLocked o) := by
  have hkeys : ∀ f ∈ o.visit t.pending.keys, t.accept f = true :=
    fun f hf => h.pending f (AList.mem_keys.mpr (o.mem_visit.mp hf))
  obtain ⟨changes, heq, hall⟩ := foldl_noteChange t hkeys (t.announced, [])
  simp only [flushLocked, heq, nil_append]
  split
  · exact .nothing rfl rfl rfl
  · split
    · rename_i hnil
      subst hnil
      exact .nothing rfl rfl rfl
    · split
      · exact .wrapped changes hall rfl rfl rfl
      · rename_i frames gen hframes
        exact .sent changes frames hall rfl hframes rfl

theorem announce_lookup (m : FMap Bytes InterestEntry) (e : InterestEntry) (f : Bytes) :
    (announce m e).lookup f =
      if f = e.filter then (if e.cls = interestNone then none else some e) else m.lookup f :=
  lookup_eraseIf _ _ _ _ _

theorem foldl_announce_lookup {changes : List InterestEntry}
    (hall : ∀ e ∈ changes, t.Announceable e) {m : FMap Bytes InterestEntry}
    (hm : ∀ f e, m.lookup f = some e → e.filter = f ∧ t.Announceable e ∧ e.cls ≠ interestNone) :
    ∀ f e, (changes.foldl announce m).lookup f = some e →
      e.filter = f ∧ t.Announceable e ∧ e.cls ≠ interestNone := by
  induction changes generalizing m with
  | nil => exact hm
  | cons c changes ih =>
    rw [foldl_cons]
    apply ih (fun e he => hall e (mem_cons_of_mem _ he))
    intro f e he
    rw [announce_lookup] at he
    split at he
    · rename_i hf
      split at he
      · cases he
      · rename_i hn
        rw [Option.some.injEq] at he
        subst he
        exact ⟨hf.symm, hall c (mem_cons_self ..), hn⟩
    · exact hm f e he

theorem Announceable.congr {e : InterestEntry} (h : t.Announceable e)
    (hmax : u.maxFilterBytes = t.maxFilterBytes) : u.Announceable e :=
  ⟨by rw [accept_congr hmax]; exact h.accepted, h.cls, h.expiry⟩

theorem flushLocked_pending (o : MapOrder) (t : InterestTracker) : (t.flushLocked o).pending.keys = [] := by
  simp only [flushLocked]
  split
  · assumption
  · split
    · rfl
    · split <;> rfl

theorem consistent_of_announced (hc : u.Counted)
    (hmax : u.maxFilterBytes = t.maxFilterBytes) (hpending : ∀ f, f ∈ u.pending → u.accept f = true)
    (hann : ∀ f e, u.announced.lookup f = some e →
      e.filter = f ∧ t.Announceable e ∧ e.cls ≠ interestNone) : u.Consistent :=
  ⟨hc, hpending, fun f e he => (hann f e he).1,
    fun f e he => ⟨(hann f e he).2.1.congr hmax, (hann f e he).2.2⟩⟩

theorem Consistent.lookup (h : t.Consistent) : ∀ f e, t.announced.lookup f = some e →
    e.filter = f ∧ t.Announceable e ∧ e.cls ≠ interestNone :=
  fun f e he => ⟨h.filter f e he, h.announceable f e he⟩

theorem Consistent.flush (h : t.Consistent) (o : MapOrder) : (t.flushLocked o).Consistent := by
  have hmax := flushLocked_maxFilterBytes o t
  obtain ⟨hentries, hclients⟩ := flushLocked_holders o t
  refine consistent_of_announced (t := t) (h.counted.of_eq hmax hentries hclients) hmax ?_ ?_
  · intro f hf
    rw [AList.mem_keys, flushLocked_pending] at hf
    cases hf
  · cases flushLocked_flushed h o with
    | nothing announced _ _ =>
      rw [announced]
      exact h.lookup
    | sent changes _ all announced _ _ | wrapped changes all announced _ _ =>
      rw [announced]
      exact foldl_announce_lookup all h.lookup

theorem Consistent.moves (h : Moves t u) (ht : t.Consistent) : u.Consistent := by
  induction h with
  | refl => exact ht
  | book _ same counted ih =>
    refine consistent_of_announced counted same.maxFilterBytes ?_ ?_
    · intro f hf
      rw [same.pending] at hf
      rw [accept_congr same.maxFilterBytes]
      exact ih.pending f hf
    · rw [same.announced]
      exact ih.lookup
  | @pend u _ f accepted ih =>
    refine consistent_of_announced (t := u) (ih.counted.of_eq rfl rfl rfl) rfl ?_ ih.lookup
    intro f hf
    rcases (AList.mem_insert _).mp hf with rfl | hf
    · exact accepted
    · exact ih.pending f hf
  | flush _ o ih => exact ih.flush o

theorem newInterestTracker_consistent (maxFilterBytes : ℕ) (sharedDeliver : Bool) :
    (newInterestTracker maxFilterBytes sharedDeliver).Consistent := by
  constructor
  · constructor
    · exact fun f hf => absurd hf (AList.notMem_empty f)
    · intro client subs hsubs
      cases hsubs
  · exact fun f hf => absurd hf (AList.notMem_empty f)
  · intro f e he
    cases he
  · intro f e he
    cases he

end InterestTracker

end MonsterMQ.PeerLink
