import Dee.ExpertCacheRuns

/-! The delta prefetch loads a whole prediction at the cost of unpredicted experts only:
whenever room must be made for a missing member of the prediction, the cache holds more
experts than the prediction has other members, so an unpredicted one is resident. -/
namespace Dee.ExpertCache
open GuardedRuns
variable {α : Type*} [DecidableEq α]

theorem find?_foldl_zipIdx {ids : List α} (hnd : ids.Nodup) (m : UnorderedMap α ℕ) (n : ℕ) (e : α) :
    ((ids.zipIdx n).foldl (fun m p => m.assign p.1 p.2) m).find? e =
      if e ∈ ids then some (n + ids.idxOf e) else m.find? e := by
  induction ids generalizing m n with
  | nil => simp
  | cons a ids ih =>
    obtain ⟨ha, hnd⟩ := List.nodup_cons.mp hnd
    rw [List.zipIdx_cons, List.foldl_cons, ih hnd, UnorderedMap.find?_set]
    by_cases he : e ∈ ids
    · have hne : a ≠ e := fun h => ha (h ▸ he)
      rw [if_pos he, if_pos (List.mem_cons_of_mem a he), List.idxOf_cons_ne _ hne]
      congr 1
      omega
    · by_cases hea : e = a
      · subst hea
        simp [he]
      · simp [he, hea]

/-- In a prediction without repetitions the rank is the position. -/
theorem find?_rankOf {ids : List α} (hnd : ids.Nodup) (e : α) :
    (rankOf ids).find? e = if e ∈ ids then some (ids.idxOf e) else none := by
  rw [rankOf, find?_foldl_zipIdx hnd]
  simp [UnorderedMap.dict, UnorderedMap.empty, UnorderedMap.find?]

/-- The victim that the policy asks for: unpredicted if one is resident, else predicted with
the largest rank. -/
structure LowestRanked (ids residents : List α) (v : α) : Prop where
  mem : v ∈ residents
  unpredicted : (∃ u ∈ residents, u ∉ ids) → v ∉ ids
  largest : (∀ u ∈ residents, u ∈ ids) → ∀ u ∈ residents, ids.idxOf u ≤ ids.idxOf v

/-- The look-ahead list is `ids`, and its ranks stay below the width of the prediction. -/
structure Ranks (c : ExpertCache α) (ids : List α) : Prop where
  nodup : ids.Nodup
  length_le : (ids.length : ℤ) ≤ c.topKPred
  rank : c.lookaheadRank = rankOf ids

theorem Ranks.keepScore {c : ExpertCache α} {ids : List α} (h : c.Ranks ids) (e : α) :
    (c.keepScore e).1 = if e ∈ ids then c.topKPred - ids.idxOf e else -1 := by
  simp only [ExpertCache.keepScore, h.rank, find?_rankOf h.nodup]
  split_ifs <;> rfl

/-- A lowest keep score belongs to the victim that the policy asks for. -/
theorem Ranks.lowestRanked {c : ExpertCache α} {ids : List α} (h : c.Ranks ids) {v : α}
    (hv : v ∈ c.vram.members)
    (hmin : ∀ u ∈ c.vram.members, ¬ pairLt (c.keepScore u) (c.keepScore v)) :
    LowestRanked ids c.vram.members v := by
  have hscore : ∀ u ∈ c.vram.members, (c.keepScore v).1 ≤ (c.keepScore u).1 :=
    fun u hu => not_lt.mp fun hlt => hmin u hu (Or.inl hlt)
  refine ⟨hv, ?_, fun hall u hu => ?_⟩
  · rintro ⟨u, hu, hno⟩ hvids
    have hle := hscore u hu
    have hidx := List.idxOf_lt_length_of_mem hvids
    have := h.length_le
    rw [h.keepScore, h.keepScore, if_pos hvids, if_neg hno] at hle
    omega
  · have hle := hscore u hu
    rw [h.keepScore, h.keepScore, if_pos (hall v hv), if_pos (hall u hu)] at hle
    omega

/-- An eviction under the look-ahead list. -/
theorem Ranks.evict_cases {c : ExpertCache α} {ids : List α} (h : c.Ranks ids) (token : ℤ) :
    (c.vram.members = [] ∧ c.evict token = (none, c)) ∨
    ∃ v, LowestRanked ids c.vram.members v ∧
      c.evict token = (some v, ({ c with vram := c.vram.discard v }).log .evict v token) := by
  rcases c.evict_cases token with hnil | ⟨v, hv, hmin, he⟩
  · exact Or.inl hnil
  · exact Or.inr ⟨v, h.lowestRanked hv hmin, he⟩

/-- The counting argument: a full cache that misses a member of the prediction holds an
unpredicted expert. -/
theorem exists_unpredicted {ids residents : List α} (hnd : residents.Nodup)
    (hlen : ids.length ≤ residents.length) {e : α} (he : e ∈ ids) (hno : e ∉ residents) :
    ∃ u ∈ residents, u ∉ ids := by
  by_contra hall
  push Not at hall
  have hsub : residents ⊆ ids.erase e := by
    intro u hu
    have hne : u ≠ e := by
      rintro rfl
      exact hno hu
    exact (List.mem_erase_of_ne hne).mpr (hall u hu)
  have hle := (List.subperm_of_subset hnd hsub).length_le
  have hpos := List.length_pos_of_mem he
  rw [List.length_erase_of_mem he] at hle
  omega

/-- From `c` to `c'` no member of `ids` was evicted. -/
structure Spares (ids : List α) (c c' : ExpertCache α) : Prop where
  kept : ∀ e ∈ ids, e ∈ c.vram.members → e ∈ c'.vram.members
  logged : ∃ ops, c'.asyncOps = c.asyncOps ++ ops ∧ ∀ op ∈ ops, op.kind = .evict → op.expert ∉ ids

omit [DecidableEq α] in
theorem Spares.trans {ids : List α} {c c' c'' : ExpertCache α} (h : Spares ids c c')
    (h' : Spares ids c' c'') : Spares ids c c'' := by
  obtain ⟨ops, ho, hev⟩ := h.logged
  obtain ⟨ops', ho', hev'⟩ := h'.logged
  refine ⟨fun e he hm => h'.kept e he (h.kept e he hm), ops ++ ops', ?_, fun op hop => ?_⟩
  · rw [ho', ho, List.append_assoc]
  · rcases List.mem_append.mp hop with hop | hop
    · exact hev op hop
    · exact hev' op hop

/-- Room for a missing member of the prediction is made at the cost of an unpredicted expert. -/
theorem Ranks.makeRoom {c : ExpertCache α} {ids : List α} (h : c.Ranks ids)
    (hcap : (ids.length : ℤ) ≤ c.capacity) {e : α} (he : e ∈ ids) (hno : e ∉ c.vram.members)
    (token : ℤ) : Spares ids c (c.makeRoom token) := by
  rcases c.makeRoom_cases token with ⟨-, hm⟩ | ⟨hfull, hm⟩
  · rw [hm]
    exact ⟨fun _ _ hu => hu, [], by simp⟩
  · rw [hm]
    rcases h.evict_cases token with ⟨-, hev⟩ | ⟨v, hv, hev⟩
    · rw [hev]
      exact ⟨fun _ _ hu => hu, [], by simp⟩
    · have hvids := hv.unpredicted
        (exists_unpredicted c.vram.members_nodup (by omega) he hno)
      rw [hev]
      refine ⟨fun u hu hmem => ?_, [⟨.evict, v, token⟩], rfl, by simpa using hvids⟩
      exact UnorderedSet.mem_discard.mpr ⟨hmem, fun huv => hvids (huv ▸ hu)⟩

/-- The step lemma of the loop of `prefetch_delta`. -/
theorem Ranks.prefetchMissing {c : ExpertCache α} {ids : List α} (h : c.Ranks ids)
    (hcap : (ids.length : ℤ) ≤ c.capacity) {e : α} (he : e ∈ ids) (hno : e ∉ c.vram.members)
    (token : ℤ) : Spares ids c (prefetchMissing token c e) ∧
      e ∈ (prefetchMissing token c e).vram.members := by
  have hroom := Ranks.makeRoom (c := c.advance) ⟨h.nodup, h.length_le, h.rank⟩ hcap he hno token
  obtain ⟨ops, ho, hev⟩ := hroom.logged
  refine ⟨⟨fun u hu hmem => ?_, ops ++ [⟨.prefetch, e, token⟩], ?_, fun op hop hk => ?_⟩, ?_⟩
  · exact UnorderedSet.mem_add.mpr (Or.inr (hroom.kept u hu hmem))
  · rw [← List.append_assoc]
    exact congrArg (· ++ _) ho
  · rcases List.mem_append.mp hop with hop | hop
    · exact hev op hop hk
    · rw [List.mem_singleton.mp hop] at hk
      simp at hk
  · exact UnorderedSet.mem_add.mpr (Or.inl rfl)

theorem Ranks.of_config {c c' : ExpertCache α} {ids : List α} (h : c.Ranks ids)
    (hc : c'.config = c.config) : c'.Ranks ids := by
  have h1 : c'.topKPred = c.topKPred := congrArg (fun x => x.2.1) hc
  have h2 : c'.lookaheadRank = c.lookaheadRank := congrArg (fun x => x.2.2) hc
  exact ⟨h.nodup, h1 ▸ h.length_le, h2.trans h.rank⟩

/-- The loop lemma: everything missing is loaded and no member of the prediction is evicted. -/
theorem Ranks.prefetchAll {c : ExpertCache α} {ids : List α} (h : c.Ranks ids)
    (hcap : (ids.length : ℤ) ≤ c.capacity) {missing : List α} (hnd : missing.Nodup)
    (hsub : ∀ e ∈ missing, e ∈ ids) (hno : ∀ e ∈ missing, e ∉ c.vram.members) (token : ℤ) :
    Spares ids c (missing.foldl (ExpertCache.prefetchMissing token) c) ∧
      ∀ e ∈ missing, e ∈ (missing.foldl (ExpertCache.prefetchMissing token) c).vram.members := by
  induction missing generalizing c with
  | nil => exact ⟨⟨fun _ _ hu => hu, [], by simp⟩, by simp⟩
  | cons e missing ih =>
    obtain ⟨he, hnd⟩ := List.nodup_cons.mp hnd
    obtain ⟨hsub₁, hsub⟩ := List.forall_mem_cons.mp hsub
    obtain ⟨hno₁, hno⟩ := List.forall_mem_cons.mp hno
    have hconf := c.config_prefetchMissing e token
    have hcap' : (ExpertCache.prefetchMissing token c e).capacity = c.capacity :=
      congrArg Prod.fst hconf
    obtain ⟨hsp, hmem⟩ := h.prefetchMissing hcap hsub₁ hno₁ token
    have hstill : ∀ f ∈ missing, f ∉ (ExpertCache.prefetchMissing token c e).vram.members := by
      intro f hf
      have hne : f ≠ e := fun hfe => he (hfe ▸ hf)
      exact not_mem_prefetchMissing hne (hno f hf)
    obtain ⟨hsp', hmem'⟩ := ih (h.of_config hconf) (hcap' ▸ hcap) hnd hsub hstill
    exact ⟨hsp.trans hsp', List.forall_mem_cons.mpr ⟨hsp'.kept e hsub₁ hmem, hmem'⟩⟩

/-- The call leaves the look-ahead list as it is. -/
def Op.KeepsRanks (ids : List α) : Op α → Prop
  | .setLookaheadRanked ids' => ids' = ids
  | _ => True

theorem Ranks.step {c : ExpertCache α} {ids : List α} (h : c.Ranks ids) {op : Op α}
    (hop : op.KeepsRanks ids) : (c.step op).Ranks ids := by
  cases op with
  | setLookaheadRanked ids' => exact ⟨h.nodup, h.length_le, congrArg rankOf hop⟩
  | prefetch e t => exact h.of_config (c.config_prefetch e t)
  | prefetchDelta ids' t => exact h.of_config (c.config_prefetchDelta ids' t)
  | requestExpert e t => exact h.of_config (c.config_requestExpert e t)
  | evict t => exact h.of_config (c.config_evict t)

/-- A miss on a full cache replaces the victim that the policy asks for. -/
structure Replaces (ids : List α) (c c' : ExpertCache α) (e : α) (token : ℤ) : Prop where
  victim : ∃ v, LowestRanked ids c.vram.members v ∧
    c'.asyncOps = c.asyncOps ++ [⟨.evict, v, token⟩, ⟨.fetchOnMiss, e, token⟩] ∧
    ∀ f, f ∈ c'.vram.members ↔ f = e ∨ f ∈ c.vram.members ∧ f ≠ v

theorem Ranks.requestExpert_full {c : ExpertCache α} {ids : List α} (h : c.Ranks ids) {e : α}
    (hno : e ∉ c.vram.members) (hfull : c.capacity ≤ c.vram.members.length) (token : ℤ) :
    c.vram.members = [] ∨ Replaces ids c (c.requestExpert e token).2 e token := by
  have hroom : c.advance.makeRoom token = (c.advance.evict token).2 := by
    rcases c.advance.makeRoom_cases token with ⟨hlt, -⟩ | ⟨-, hm⟩
    · exact absurd hfull (not_le.mpr hlt)
    · exact hm
  rcases Ranks.evict_cases (c := c.advance) ⟨h.nodup, h.length_le, h.rank⟩ token
    with ⟨hnil, -⟩ | ⟨v, hv, hev⟩
  · exact Or.inl hnil
  · right
    rcases c.requestExpert_cases e token with ⟨he, -⟩ | ⟨-, hr⟩
    · exact absurd he hno
    · rw [hr, hroom, hev]
      refine ⟨v, hv, ?_, fun f => ?_⟩
      · simp only [log, use, load, advance, List.append_assoc, List.cons_append, List.nil_append]
      · simp only [log, use, load, advance, UnorderedSet.mem_add, UnorderedSet.mem_discard]

/-- From every reachable state: the delta prefetch of a prediction that fits loads all of it,
returns what was missing and evicts no member of it; and as long as the prediction stays,
every miss on a full cache evicts what the policy asks for. -/
theorem run_delta_prefetch (order : IterationOrder α Unit) (capacity topKPred : ℤ)
    (ops : List (Op α)) {ids : List α} (hnd : ids.Nodup)
    (hlen : (ids.length : ℤ) ≤ min capacity topKPred) (token : ℤ) :
    let c := (run step (init order capacity topKPred) ops).setLookaheadRanked ids
    let r := c.prefetchDelta ids token
    (∀ e ∈ ids, e ∈ r.2.vram.members) ∧
      r.1 = ids.filter (fun e => e ∉ c.vram.members) ∧
      Spares ids c r.2 ∧
      ∀ later : List (Op α), (∀ op ∈ later, op.KeepsRanks ids) →
        let d := run step r.2 later
        ∀ e token, e ∉ d.vram.members → capacity ≤ d.vram.members.length →
          d.vram.members = [] ∨ Replaces ids d (d.requestExpert e token).2 e token := by
  intro c r
  have hconf : c.capacity = capacity ∧ c.topKPred = topKPred :=
    invariant_run_of_step
      (P := fun c : ExpertCache α => c.capacity = capacity ∧ c.topKPred = topKPred)
      (fun c op hc => ⟨(c.step_config op).1.trans hc.1, (c.step_config op).2.trans hc.2⟩)
      ⟨rfl, rfl⟩ ops
  have hranks : c.Ranks ids := ⟨hnd, by rw [hconf.2]; exact hlen.trans (min_le_right _ _), rfl⟩
  have hcap : (ids.length : ℤ) ≤ c.capacity := by
    rw [hconf.1]
    exact hlen.trans (min_le_left _ _)
  obtain ⟨hspares, hmem⟩ := hranks.prefetchAll hcap (show r.1.Nodup from hnd.filter _)
    (fun e he => (List.mem_filter.mp he).1)
    (fun e he => of_decide_eq_true (List.mem_filter.mp he).2) token
  refine ⟨fun e he => ?_, rfl, hspares, ?_⟩
  · by_cases hold : e ∈ c.vram.members
    · exact hspares.kept e he hold
    · exact hmem e (List.mem_filter.mpr ⟨he, by simpa using hold⟩)
  · intro later hlater d e token' hno hfull
    have hr : r.2.config = c.config := c.config_prefetchDelta ids token
    have hd : d.Ranks ids ∧ d.capacity = capacity :=
      invariant_run (P := fun d : ExpertCache α => d.Ranks ids ∧ d.capacity = capacity)
        (fun d op hd hop => ⟨hd.1.step hop, (d.step_config op).1.trans hd.2⟩)
        ⟨hranks.of_config hr, (congrArg Prod.fst hr).trans hconf.1⟩ (guarded_of_forall hlater)
    exact hd.1.requestExpert_full hno (by rw [hd.2]; exact hfull) token'

/-- Three slots hold 1, 2 and 3; the prediction [4, 1] evicts one of 2 and 3. -/
theorem run_delta_prefetch_three_slots :
    let c := (run step (init (.newestFirst ℤ Unit) 3 2)
      [.prefetch 1 0, .prefetch 2 1, .prefetch 3 2]).setLookaheadRanked [4, 1]
    let r := c.prefetchDelta [4, 1] 3
    r.1 = [4] ∧ (∀ e ∈ [4, 1], e ∈ r.2.vram.members) ∧ Spares [4, 1] c r.2 ∧
      Replaces [4, 1] r.2 (r.2.requestExpert 7 4).2 7 4 := by
  intro c r
  have h := run_delta_prefetch (.newestFirst ℤ Unit) 3 2
    [.prefetch 1 0, .prefetch 2 1, .prefetch 3 2] (by decide : ([4, 1] : List ℤ).Nodup)
    (by decide) 3
  refine ⟨by decide, h.1, h.2.2.1, ?_⟩
  exact (h.2.2.2 [] (by simp) 7 4 (by decide) (by decide)).resolve_left (by decide)

end Dee.ExpertCache
