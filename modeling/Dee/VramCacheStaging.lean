import Dee.VramCacheSlots

/-! Loading a working set of equal blocks, one after the other. The set is resident in
the end exactly when no load evicts a block that was loaded before it in the same pass. -/
namespace Dee.VramCacheManager
variable {s : ℕ}

/-- Requests of one block size, in order. -/
def ensureAll (s : ℕ) : List (ExpertKey × ℤ) → VramCacheManager → VramCacheManager
  | [], c => c
  | r :: rs, c => ensureAll s rs (c.ensure r.1 s r.2).2

/-- The order of eviction: by score, and by iteration order among equal scores. -/
def Precedes (c : VramCacheManager) (e f : ExpertKey × ExpertBlock) : Prop :=
  e.2.evictionScore < f.2.evictionScore ∨ e.2.evictionScore = f.2.evictionScore ∧
    c.blocks.entries.idxOf e < c.blocks.entries.idxOf f

/-- Some resident block outside of `staged` precedes all those in it. -/
def StalePrecedes (c : VramCacheManager) (staged : List ExpertKey) : Prop :=
  ∃ e ∈ c.blocks.entries, e.1 ∉ staged ∧ ∀ f ∈ c.blocks.entries, f.1 ∈ staged → c.Precedes e f

/-- If a request has to evict, a stale block precedes the blocks of `staged`. -/
def Spares (s : ℕ) (staged : List ExpertKey) (k : ExpertKey) (c : VramCacheManager) : Prop :=
  c.isResident k = false → c.residentCount = c.arena.cap / s → c.StalePrecedes staged

/-- Every request of the pass spares the blocks staged before it. -/
def SparesStaged (s : ℕ) : List ExpertKey → List (ExpertKey × ℤ) → VramCacheManager → Prop
  | _, [], _ => True
  | staged, r :: rs, c =>
    Spares s staged r.1 c ∧ SparesStaged s (r.1 :: staged) rs (c.ensure r.1 s r.2).2

/-- A stale block comes first exactly when the victim scan finds one. -/
theorem MapInv.stalePrecedes_iff {c : VramCacheManager} (h : c.MapInv) {staged : List ExpertKey}
    {v : ExpertKey × ExpertBlock} (hv : c.findVictim = some v) :
    c.StalePrecedes staged ↔ v.1 ∉ staged := by
  rw [findVictim_eq_argmin, h.resident_filter] at hv
  obtain ⟨hmem, hle, hfirst⟩ := List.mem_argmin_iff.mp hv
  rw [lawful_beq_subsingleton instBEqOfDecidableEq instBEqProd] at hfirst
  constructor
  · rintro ⟨e, he, -, hall⟩ hstaged
    rcases hall v hmem hstaged with hlt | ⟨heq, hidx⟩
    · exact absurd (hle e he) hlt.not_ge
    · exact absurd (hfirst e he heq.le) hidx.not_ge
  · intro hv
    refine ⟨v, hmem, hv, fun f hf hfs => ?_⟩
    rcases (hle f hf).lt_or_eq with hlt | heq
    · exact Or.inl hlt
    · have hne : c.blocks.entries.idxOf v ≠ c.blocks.entries.idxOf f := by
        intro hidx
        rw [List.idxOf_inj hmem] at hidx
        exact hv (hidx ▸ hfs)
      exact Or.inr ⟨heq, lt_of_le_of_ne (hfirst f hf heq.ge) hne⟩

/-- In a uniform cache a request evicts at most the block that the victim scan finds. -/
theorem Uniform.evicts_iff {c : VramCacheManager} (h : Uniform s c) (hs : 0 < s)
    (hle : s ≤ c.arena.cap) {k k' : ExpertKey} :
    c.Evicts k s k' ↔ c.isResident k = false ∧ c.residentCount = c.arena.cap / s ∧
      ∃ e, c.findVictim = some e ∧ e.1 = k' := by
  have hcount := h.residentCount_eq
  rcases h.makeRoom_cases hs hle with ⟨hlt, hr⟩ | ⟨hfull, e, hv, hr⟩
  · have hsame : c.countEnsure.isResident k' = c.isResident k' := rfl
    simp only [Evicts, hr, hsame]
    constructor
    · rintro ⟨-, h1, h2⟩
      rw [h1] at h2
      cases h2
    · rintro ⟨-, h1, -⟩
      omega
  · have he := MapInv.findVictim_mem hv
    have hev : (c.countEnsure.evict e).isResident k' = true ↔ k' ≠ e.1 ∧ c.isResident k' = true := by
      rw [(h.countEnsure.toMapInv.evict he).isResident_iff, h.isResident_iff,
        h.toMapInv.countEnsure.evict_blocks he]
      simp only [UnorderedMap.mem_erase]
      constructor
      · rintro ⟨b, hb, hne⟩
        exact ⟨hne, b, hb⟩
      · rintro ⟨hne, b, hb⟩
        exact ⟨b, hb, hne⟩
    simp only [Evicts, hr, hv, hcount, hfull, true_and, Option.some.injEq, exists_eq_left']
    constructor
    · rintro ⟨h1, h2, h3⟩
      refine ⟨h1, ?_⟩
      by_contra hne
      rw [hev.mpr ⟨Ne.symm hne, h2⟩] at h3
      cases h3
    · rintro ⟨h1, rfl⟩
      refine ⟨h1, h.isResident_iff.mpr ⟨e.2, he⟩, ?_⟩
      by_contra hne
      exact (hev.mp (by simpa using hne)).1 rfl

theorem Uniform.exists_victim {c : VramCacheManager} (h : Uniform s c) (hs : 0 < s)
    (hle : s ≤ c.arena.cap) (hfull : c.residentCount = c.arena.cap / s) :
    ∃ e, c.findVictim = some e := by
  rw [h.residentCount_eq] at hfull
  obtain ⟨e, hv, -⟩ := h.evictUntilFree_of_full hs hle hfull
  exact ⟨e, hv⟩

theorem Uniform.ensure_succeeds {c : VramCacheManager} (h : Uniform s c) (hs : 0 < s)
    (hle : s ≤ c.arena.cap) (k : ExpertKey) (p : ℤ) : (c.ensure k s p).1 = true := by
  rcases h.ensure_cases hs hle k p with ⟨-, he⟩ | ⟨-, he⟩
  · rw [he]
  · rw [he]

/-- Residency after a request to a uniform cache. -/
theorem Uniform.ensure_isResident {c : VramCacheManager} (h : Uniform s c) (hs : 0 < s)
    (hle : s ≤ c.arena.cap) (k : ExpertKey) (p : ℤ) (k' : ExpertKey) :
    (c.ensure k s p).2.isResident k' = true ↔
      k' = k ∨ ¬ c.Evicts k s k' ∧ c.isResident k' = true := by
  rw [h.toMapInv.ensure_isResident, h.ensure_succeeds hs hle]
  simp only [and_true, or_comm]

/-- What was evicted stays out until it is requested again. -/
theorem Uniform.ensureAll_not_resident {c : VramCacheManager} (h : Uniform s c) (hs : 0 < s)
    (hle : s ≤ c.arena.cap) {rs : List (ExpertKey × ℤ)} {k : ExpertKey}
    (hk : k ∉ rs.map Prod.fst) (hno : c.isResident k = false) :
    (ensureAll s rs c).isResident k = false := by
  induction rs generalizing c with
  | nil => exact hno
  | cons r rs ih =>
    simp only [List.map_cons, List.mem_cons, not_or] at hk
    apply ih (h.ensure hs hle r.1 r.2) _ hk.2
    · by_contra hne
      rcases (h.ensure_isResident hs hle r.1 r.2 k).mp (by simpa using hne) with he | ⟨-, hr⟩
      · exact hk.1 he
      · rw [hno] at hr
        cases hr
    · rw [ensure_cap h.toMapInv]
      exact hle

/-- The blocks staged so far are resident after a request exactly when it spares them. -/
theorem Uniform.ensure_spares_iff {c : VramCacheManager} (h : Uniform s c) (hs : 0 < s)
    (hle : s ≤ c.arena.cap) {staged : List ExpertKey} {k : ExpertKey} (p : ℤ)
    (hres : ∀ k' ∈ staged, c.isResident k' = true) (hnew : ∀ k' ∈ staged, k' ≠ k) :
    (∀ k' ∈ k :: staged, (c.ensure k s p).2.isResident k' = true) ↔ Spares s staged k c := by
  simp only [h.ensure_isResident hs hle, List.forall_mem_cons, true_or, true_and,
    h.evicts_iff hs hle, Spares]
  constructor
  · intro hall hmiss hfull
    obtain ⟨e, hv⟩ := h.exists_victim hs hle hfull
    rw [h.stalePrecedes_iff hv]
    intro hmem
    rcases hall e.1 hmem with he | ⟨hno, -⟩
    · exact hnew e.1 hmem he
    · exact hno ⟨hmiss, hfull, e, hv, rfl⟩
  · rintro hsp k' hk
    refine Or.inr ⟨?_, hres k' hk⟩
    rintro ⟨hmiss, hfull, e, hv, rfl⟩
    exact (h.stalePrecedes_iff hv).mp (hsp hmiss hfull) hk

/-- The whole pass: staged and requested blocks are all resident in the end exactly when
every request spares the blocks staged before it. -/
theorem Uniform.ensureAll_resident_iff {c : VramCacheManager} (h : Uniform s c) (hs : 0 < s)
    (hle : s ≤ c.arena.cap) {staged : List ExpertKey} {rs : List (ExpertKey × ℤ)}
    (hnd : (rs.map Prod.fst).Nodup) (hdis : ∀ k ∈ staged, k ∉ rs.map Prod.fst)
    (hres : ∀ k ∈ staged, c.isResident k = true) :
    (∀ k, k ∈ staged ∨ k ∈ rs.map Prod.fst → (ensureAll s rs c).isResident k = true) ↔
      SparesStaged s staged rs c := by
  induction rs generalizing c staged with
  | nil => simpa [SparesStaged, ensureAll] using hres
  | cons r rs ih =>
    simp only [List.map_cons, List.nodup_cons] at hnd
    have h' := h.ensure hs hle r.1 r.2
    have hle' : s ≤ (c.ensure r.1 s r.2).2.arena.cap := by rwa [ensure_cap h.toMapInv]
    have hnew : ∀ k, k ∈ staged → k ≠ r.1 := fun k hk he => hdis k hk (by simp [he])
    have hdis' : ∀ k ∈ r.1 :: staged, k ∉ rs.map Prod.fst := by
      simp only [List.forall_mem_cons]
      exact ⟨hnd.1, fun k hk hmem => hdis k hk (by simp only [List.map_cons, List.mem_cons, hmem, or_true])⟩
    have hstep := h.ensure_spares_iff hs hle r.2 hres hnew
    have hset : ∀ k, k ∈ staged ∨ k ∈ (r :: rs).map Prod.fst ↔
        k ∈ r.1 :: staged ∨ k ∈ rs.map Prod.fst := by
      intro k
      simp only [List.map_cons, List.mem_cons]
      tauto
    simp only [ensureAll, SparesStaged, hset]
    constructor
    · intro hall
      have hmid : ∀ k ∈ r.1 :: staged, (c.ensure r.1 s r.2).2.isResident k = true := by
        intro k hk
        by_contra hne
        have hout := h'.ensureAll_not_resident hs hle' (hdis' k hk) (by simpa using hne)
        rw [hall k (Or.inl hk)] at hout
        cases hout
      exact ⟨hstep.mp hmid, (ih h' hle' hnd.2 hdis' hmid).mp hall⟩
    · rintro ⟨hsp, hrest⟩
      exact (ih h' hle' hnd.2 hdis' (hstep.mpr hsp)).mpr hrest

end Dee.VramCacheManager
