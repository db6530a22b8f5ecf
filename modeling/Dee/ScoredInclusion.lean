import Dee.ScoredCache

/-! Two scored caches of different sizes under the same operations. As long as no two
cached keys can have the same score, the larger one keeps whatever the smaller one keeps,
with the same stamps: both would choose the same victim among the keys they share. -/
namespace Dee.ScoredCache

variable {K : Type*} [DecidableEq K] {weight : ℤ} {n m : ℕ} {S S' L L' : State K} {op : Op K}

/-- Every stamp is a tick of the past, and each tick stamped one key at most. -/
structure Clocked (S : State K) : Prop where
  pos : ∀ k a, S.entries.lookup k = some a → 0 < a.1
  le : ∀ k a, S.entries.lookup k = some a → a.1 ≤ S.clock
  inj : ∀ u v a b, S.entries.lookup u = some a → S.entries.lookup v = some b → a.1 = b.1 → u = v

/-- Before the clock passes the weight of a priority, a score tells the key. -/
theorem Clocked.score_inj (h : Clocked S) (hclock : S.clock ≤ weight) {u v : K} {a b : ℤ × ℤ}
    (hu : S.entries.lookup u = some a) (hv : S.entries.lookup v = some b)
    (hscore : score weight a = score weight b) : u = v := by
  refine h.inj u v a b hu hv ?_
  have hua := h.pos u a hu
  have hau := h.le u a hu
  have hvb := h.pos v b hv
  have hbv := h.le v b hv
  have hdvd : weight ∣ a.1 - b.1 := ⟨b.2 - a.2, by unfold score at hscore; linarith⟩
  have hzero := Int.eq_zero_of_abs_lt_dvd hdvd (abs_lt.mpr ⟨by omega, by omega⟩)
  omega

theorem clocked_empty : Clocked (State.empty : State K) where
  pos := fun k a h => by simp [State.empty] at h
  le := fun k a h => by simp [State.empty] at h
  inj := fun u v a b h => by simp [State.empty] at h

/-- A part of the cache is clocked, too, and stamping a key with the next tick keeps that. -/
theorem Clocked.stamp (h : Clocked S) {entries : Finmap fun _ : K => ℤ × ℤ}
    (hsub : ∀ k a, entries.lookup k = some a → S.entries.lookup k = some a)
    (hclock : 0 ≤ S.clock) (k : K) (p : ℤ) : Clocked (S.stamp entries k p) := by
  have hlookup : ∀ u a, (S.stamp entries k p).entries.lookup u = some a →
      (u = k ∧ a = (S.clock + 1, p)) ∨ (u ≠ k ∧ S.entries.lookup u = some a) := by
    intro u a hu
    by_cases huk : u = k
    · subst huk
      rw [State.stamp, Finmap.lookup_insert, Option.some.injEq] at hu
      exact Or.inl ⟨rfl, hu.symm⟩
    · rw [State.stamp, Finmap.lookup_insert_of_ne _ huk] at hu
      exact Or.inr ⟨huk, hsub u a hu⟩
  have hnext : (S.stamp entries k p).clock = S.clock + 1 := rfl
  constructor
  · intro u a hu
    rcases hlookup u a hu with ⟨-, rfl⟩ | ⟨-, hu⟩
    · show 0 < S.clock + 1
      omega
    · exact h.pos u a hu
  · intro u a hu
    rw [hnext]
    rcases hlookup u a hu with ⟨-, rfl⟩ | ⟨-, hu⟩
    · exact le_refl _
    · have := h.le u a hu
      omega
  · intro u v a b hu hv hab
    rcases hlookup u a hu with ⟨rfl, rfl⟩ | ⟨-, hu'⟩
    · rcases hlookup v b hv with ⟨rfl, -⟩ | ⟨-, hv'⟩
      · rfl
      · have hle := h.le v b hv'
        simp only at hab
        omega
    · have hle := h.le u a hu'
      rcases hlookup v b hv with ⟨-, rfl⟩ | ⟨-, hv'⟩
      · simp only at hab
        omega
      · exact h.inj u v a b hu' hv' hab

theorem lookup_of_erase {entries : Finmap fun _ : K => ℤ × ℤ} {v k : K} {a : ℤ × ℤ}
    (h : (entries.erase v).lookup k = some a) : k ≠ v ∧ entries.lookup k = some a := by
  by_cases hk : k = v
  · rw [hk, Finmap.lookup_erase] at h
    cases h
  · rw [Finmap.lookup_erase_ne hk] at h
    exact ⟨hk, h⟩

/-- The clock only counts, and it counts the operations on cached keys and the loads. -/
theorem Step.clocked (hstep : Step weight n S op S') (h : Clocked S) (hclock : 0 ≤ S.clock) :
    Clocked S' ∧ S.clock ≤ S'.clock ∧ S'.clock ≤ S.clock + 1 := by
  have hnext : ∀ entries k p, (S.stamp entries k p).clock = S.clock + 1 := fun _ _ _ => rfl
  cases hstep with
  | hit hk => exact ⟨h.stamp (fun _ _ hu => hu) hclock _ _, by rw [hnext]; omega, by rw [hnext]⟩
  | fill hk hcard =>
    exact ⟨h.stamp (fun _ _ hu => hu) hclock _ _, by rw [hnext]; omega, by rw [hnext]⟩
  | replace hk hcard hmin =>
    exact ⟨h.stamp (fun _ _ hu => (lookup_of_erase hu).2) hclock _ _, by rw [hnext]; omega,
      by rw [hnext]⟩
  | touchHit hk =>
    exact ⟨h.stamp (fun _ _ hu => hu) hclock _ _, by rw [hnext]; omega, by rw [hnext]⟩
  | touchMiss hk => exact ⟨h, le_refl _, by omega⟩

/-- The larger cache holds the keys of the smaller one with the same stamps, and a smaller
cache with a free slot has never replaced anything. -/
structure Included (n : ℕ) (S L : State K) : Prop where
  clock_eq : S.clock = L.clock
  sub : ∀ k a, S.entries.lookup k = some a → L.entries.lookup k = some a
  full : S.entries.keys.card < n → S.entries = L.entries

theorem Included.mem (h : Included n S L) {k : K} (hk : k ∈ S.entries) : k ∈ L.entries := by
  obtain ⟨a, ha⟩ := Finmap.mem_iff.mp hk
  exact Finmap.mem_of_lookup_eq_some (h.sub k a ha)

theorem included_empty (n : ℕ) : Included n (State.empty : State K) State.empty :=
  ⟨rfl, fun _ _ h => h, fun _ => rfl⟩

theorem keys_insert_of_mem {entries : Finmap fun _ : K => ℤ × ℤ} {k : K} (hk : k ∈ entries)
    (a : ℤ × ℤ) : (entries.insert k a).keys = entries.keys := by
  ext u
  rw [Finmap.mem_keys, Finmap.mem_keys, Finmap.mem_insert]
  exact or_iff_right_of_imp fun hu => hu ▸ hk

theorem card_keys_insert {entries : Finmap fun _ : K => ℤ × ℤ} {k : K} (hk : k ∉ entries)
    (a : ℤ × ℤ) : (entries.insert k a).keys.card = entries.keys.card + 1 := by
  have hinsert : (entries.insert k a).keys = insert k entries.keys := by
    ext u
    rw [Finmap.mem_keys, Finset.mem_insert, Finmap.mem_keys, Finmap.mem_insert]
  rw [hinsert, Finset.card_insert_of_notMem (mt Finmap.mem_keys.mp hk)]

/-- Both caches stamp one key in the same way. -/
theorem Included.stamp (h : Included n S L) {entries entries' : Finmap fun _ : K => ℤ × ℤ}
    {k : K} {p : ℤ}
    (hsub : ∀ u a, u ≠ k → entries.lookup u = some a → entries'.lookup u = some a)
    (hfull : (entries.insert k (S.clock + 1, p)).keys.card < n → entries = entries') :
    Included n (S.stamp entries k p) (L.stamp entries' k p) where
  clock_eq := congrArg (· + 1) h.clock_eq
  sub := by
    intro u a hu
    unfold State.stamp at hu ⊢
    rw [← h.clock_eq]
    by_cases huk : u = k
    · rw [huk, Finmap.lookup_insert] at hu ⊢
      exact hu
    · rw [Finmap.lookup_insert_of_ne _ huk] at hu ⊢
      exact hsub u a huk hu
  full := by
    intro hcard
    show entries.insert k (S.clock + 1, p) = entries'.insert k (L.clock + 1, p)
    rw [hfull hcard, h.clock_eq]

/-- A replacement leaves the smaller cache full. -/
theorem card_replace {k v : K} {a : ℤ × ℤ} (hn : 0 < n) (hk : k ∉ S.entries)
    (hv : v ∈ S.entries) (hcard : S.entries.keys.card = n) :
    ((S.entries.erase v).insert k a).keys.card = n := by
  have hke : k ∉ S.entries.erase v := fun h => hk (Finmap.mem_erase.mp h).2
  rw [card_keys_insert hke, Finmap.keys_erase, Finset.card_erase_of_mem (Finmap.mem_keys.mpr hv),
    hcard]
  omega

theorem State.Minimal.mem {v : K} (h : S.Minimal weight v) : v ∈ S.entries := by
  obtain ⟨a, ha, -⟩ := h
  exact Finmap.mem_of_lookup_eq_some ha

/-- What the larger cache gives up, the smaller one gives up as well if it has it. -/
theorem Included.victim (h : Included n S L) (hL : Clocked L) (hclock : L.clock ≤ weight)
    {v w u : K} {a : ℤ × ℤ} (hv : S.Minimal weight v) (hw : L.Minimal weight w)
    (hu : (S.entries.erase v).lookup u = some a) : u ≠ w := by
  rintro rfl
  obtain ⟨huv, hu⟩ := lookup_of_erase hu
  obtain ⟨b, hb, hminS⟩ := hv
  obtain ⟨c, hc, hminL⟩ := hw
  have hac : c = a := Option.some.inj (hc.symm.trans (h.sub u a hu))
  subst hac
  have hle := hminS u c hu
  have hge := hminL v b (h.sub v b hb)
  exact huv (hL.score_inj hclock hc (h.sub v b hb) (le_antisymm hge hle))

/-- An operation keeps the inclusion, unless it touches a key only the larger cache has. -/
theorem Included.step (h : Included n S L) (hn : 0 < n) (hnm : n ≤ m) (hL : Clocked L)
    (hclock : L.clock ≤ weight) (htouch : ∀ k, op = .touch k → k ∈ S.entries)
    (hS : Step weight n S op S') (hL' : Step weight m L op L') : Included n S' L' := by
  cases hS with
  | hit hk =>
    cases hL' with
    | hit _ =>
      exact h.stamp (fun u a _ => h.sub u a) fun hc =>
        h.full (by rwa [keys_insert_of_mem hk] at hc)
    | fill hnew _ => exact absurd (h.mem hk) hnew
    | replace hnew _ _ => exact absurd (h.mem hk) hnew
  | fill hk hcard =>
    have heq := h.full hcard
    cases hL' with
    | hit hkL => exact absurd (heq ▸ hkL) hk
    | fill _ _ => exact h.stamp (fun u a _ => h.sub u a) fun _ => heq
    | replace _ hcardL _ =>
      rw [← heq] at hcardL
      omega
  | replace hk hcard hmin =>
    have hfull := fun a => card_replace (a := a) hn hk hmin.mem hcard
    cases hL' with
    | hit _ =>
      exact h.stamp (fun u a _ hu => h.sub u a (lookup_of_erase hu).2) fun hc =>
        absurd (hfull _) hc.ne
    | fill _ _ =>
      exact h.stamp (fun u a _ hu => h.sub u a (lookup_of_erase hu).2) fun hc =>
        absurd (hfull _) hc.ne
    | replace _ _ hminL =>
      refine h.stamp (fun u a _ hu => ?_) fun hc => absurd (hfull _) hc.ne
      rw [Finmap.lookup_erase_ne (h.victim hL hclock hmin hminL hu)]
      exact h.sub u a (lookup_of_erase hu).2
  | touchHit hk =>
    cases hL' with
    | touchHit hkL =>
      have heq := Option.some.inj (hkL.symm.trans (h.sub _ _ hk))
      rw [heq]
      exact h.stamp (fun u a _ => h.sub u a) fun hc =>
        h.full (by rwa [keys_insert_of_mem (Finmap.mem_of_lookup_eq_some hk)] at hc)
    | touchMiss hnew => exact absurd (Finmap.mem_of_lookup_eq_some (h.sub _ _ hk)) hnew
  | touchMiss hk => exact absurd (htouch _ rfl) hk

end Dee.ScoredCache
