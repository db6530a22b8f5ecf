import Dee.ExpertCache
import Dee.CountedLoops

/-! From recorded routing to the replayed simulation. The collector stores, for every token
with two successors, its hidden state and the experts of these successors; the simulation
reads these rows again and serves them to the cache. The two programs shift the index of
a token independently. Hidden states and the Oracle are arbitrary. -/
namespace Dee
open GuardedRuns CountedLoops

variable {η : Type}

/-- The pairs of one batch row: `None` would be an access out of range. -/
def pairWindow (hidden : List η) (experts : List (List ℤ)) : Option (List (η × List ℤ × List ℤ)) :=
  (List.range (min hidden.length experts.length - 2)).mapM fun t => do
    let h ← hidden[t]?
    let e₁ ← experts[t + 1]?
    let e₂ ← experts[t + 2]?
    pure (h, e₁, e₂)

/-- A layer file: hidden states and the experts one and two tokens ahead. -/
structure LayerData (η : Type) where
  hiddenStates : List η
  nextExpertsN1 : List (List ℤ)
  nextExpertsN2 : List (List ℤ)

/-- All pairs of a layer, over the prompts in their order; without any, no file is written. -/
def collectData (prompts : List (List η × List (List ℤ))) : Option (LayerData η) := do
  let plist ← prompts.mapM fun p => pairWindow p.1 p.2
  let pairs := plist.flatten
  if pairs = [] then none
  else pure ⟨pairs.map Prod.fst, pairs.map fun p => p.2.1, pairs.map fun p => p.2.2⟩

structure Replay where
  cache : ExpertCache ℤ
  hits : ℕ
  miss : ℕ
  /-- the tokens and experts requested so far, a history that the program does not keep -/
  requests : List (ℤ × ℤ)

namespace Replay

/-- One request of the replay, scored. -/
def serve (token : ℤ) (r : Replay) (eid : ℤ) : Replay :=
  let q := r.cache.requestExpert eid token
  let r := { r with cache := q.2, requests := r.requests ++ [(token, eid)] }
  if q.1 then { r with hits := r.hits + 1 } else { r with miss := r.miss + 1 }

/-- `E[t + offset]` -/
def trueExperts (E : List (List ℤ)) (t offset : ℕ) : Option (List ℤ) := E[t + offset]?

/-- One round of the replay loop. -/
def replayToken (predict : η → List ℤ) (d : LayerData η) (r : Replay) (t : ℕ) : Option Replay := do
  let h ← d.hiddenStates[t]?
  let predTopk := predict h
  let cache := ((r.cache.setLookaheadRanked predTopk).prefetchDelta predTopk t).2
  [(1, d.nextExpertsN1), (2, d.nextExpertsN2)].foldlM (fun r p => do
    let ids ← trueExperts p.2 t p.1
    pure (ids.foldl (serve (t + p.1 : ℕ)) r)) { r with cache := cache }

/-- `min(P, max_tokens)`, where 0 stands for all. -/
def replayLength (P : ℕ) (maxTokens : ℤ) : ℕ :=
  if 0 < maxTokens then min P maxTokens.toNat else P

/-- The first rounds of the replay of one layer. -/
def replayRounds (predict : η → List ℤ) (order : IterationOrder ℤ Unit) (capacity topKPred : ℤ)
    (d : LayerData η) (rounds : ℕ) : Option Replay :=
  (List.range rounds).foldlM (replayToken predict d) ⟨.init order capacity topKPred, 0, 0, []⟩

/-- The replay of one layer. -/
def runSimulation (predict : η → List ℤ) (order : IterationOrder ℤ Unit) (capacity topKPred : ℤ)
    (maxTokens : ℤ) (d : LayerData η) : Option Replay :=
  replayRounds predict order capacity topKPred d
    (replayLength d.hiddenStates.length maxTokens - 2)

end Replay

/-- What the collector stores for a prompt: row `p` has the experts of tokens `p + 1` and
`p + 2`, as long as these exist. -/
theorem pairWindow_rows {hidden : List η} {experts : List (List ℤ)}
    (hlen : hidden.length = experts.length) :
    ∃ rows, pairWindow hidden experts = some rows ∧ rows.length = experts.length - 2 ∧
      ∀ p, p + 2 < experts.length → (rows.map Prod.fst)[p]? = hidden[p]? ∧
        (rows.map fun r => r.2.1)[p]? = experts[p + 1]? ∧
        (rows.map fun r => r.2.2)[p]? = experts[p + 2]? := by
  let all := hidden.zip ((experts.drop 1).zip (experts.drop 2))
  have hrow : ∀ t, (do
      let h ← hidden[t]?
      let e₁ ← experts[t + 1]?
      let e₂ ← experts[t + 2]?
      pure (h, e₁, e₂)) = all[t]? := by
    intro t
    simp only [all, List.zip, List.getElem?_zipWith, List.getElem?_drop, Nat.add_comm 1 t,
      Nat.add_comm 2 t]
    cases hidden[t]? <;> cases experts[t + 1]? <;> cases experts[t + 2]? <;> rfl
  have hall : experts.length - 2 = all.length := by
    simp only [all, List.length_zip, List.length_drop]
    omega
  refine ⟨all.take (experts.length - 2), ?_, ?_, fun p hp => ?_⟩
  · rw [pairWindow, hlen, Nat.min_self]
    simp only [hrow]
    exact mapM_range_getElem? hall.le
  · rw [List.length_take, hall, Nat.min_self]
  · have h₀ : hidden[p]? = some hidden[p] := List.getElem?_eq_getElem (by omega)
    have h₁ : experts[p + 1]? = some experts[p + 1] := List.getElem?_eq_getElem (by omega)
    have h₂ : experts[p + 2]? = some experts[p + 2] := List.getElem?_eq_getElem (by omega)
    have hget : (all.take (experts.length - 2))[p]? =
        some (hidden[p], experts[p + 1], experts[p + 2]) := by
      rw [List.getElem?_take, if_pos (by omega), ← hrow, h₀, h₁, h₂]
      rfl
    simp only [List.getElem?_map, hget, h₀, h₁, h₂, Option.map_some, and_self]

/-- The layer file of a single prompt. -/
theorem collectData_single {hidden : List η} {experts : List (List ℤ)}
    (hlen : hidden.length = experts.length) (hT : 3 ≤ experts.length) :
    ∃ d, collectData [(hidden, experts)] = some d ∧ d.hiddenStates.length = experts.length - 2 ∧
      ∀ p, p + 2 < experts.length → d.hiddenStates[p]? = hidden[p]? ∧
        d.nextExpertsN1[p]? = experts[p + 1]? ∧ d.nextExpertsN2[p]? = experts[p + 2]? := by
  obtain ⟨rows, hrows, hn, hp⟩ := pairWindow_rows hlen
  have hne : rows ≠ [] := List.ne_nil_of_length_pos (by omega)
  refine ⟨⟨rows.map Prod.fst, rows.map fun r => r.2.1, rows.map fun r => r.2.2⟩, ?_, ?_, hp⟩
  · simp [collectData, hrows, hne]
  · rw [List.length_map, hn]

namespace Replay

/-- One round, when its rows are in range: the prediction is loaded, then the two lists are
served. -/
theorem replayToken_eq {predict : η → List ℤ} {d : LayerData η} {r : Replay} {t : ℕ} {h : η}
    {a b : List ℤ} (hh : d.hiddenStates[t]? = some h)
    (ha : trueExperts d.nextExpertsN1 t 1 = some a)
    (hb : trueExperts d.nextExpertsN2 t 2 = some b) :
    replayToken predict d r t = some (b.foldl (serve (t + 2 : ℕ)) (a.foldl (serve (t + 1 : ℕ))
      { r with cache :=
        ((r.cache.setLookaheadRanked (predict h)).prefetchDelta (predict h) t).2 })) := by
  simp only [replayToken, hh, List.foldlM_cons, List.foldlM_nil, ha, hb]
  rfl

/-- The set of experts of token `i`. -/
def expertSet (experts : List (List ℤ)) (i : ℕ) : Finset ℤ := (experts.getD i []).toFinset

/-- The experts requested as the given token. -/
def requestedAs (token : ℤ) (requests : List (ℤ × ℤ)) : Finset ℤ :=
  ((requests.filter fun q => q.1 = token).map Prod.snd).toFinset

/-- Round `t`, from the replay `r`, requests the experts of token `t + 1` as this token and
those of token `t + 2` as that one. -/
def ServesOwn (predict : η → List ℤ) (experts : List (List ℤ)) (d : LayerData η) (t : ℕ)
    (r : Replay) : Prop :=
  ∃ r' new, replayToken predict d r t = some r' ∧ r'.requests = r.requests ++ new ∧
    requestedAs (t + 1 : ℕ) new = expertSet experts (t + 1) ∧
    requestedAs (t + 2 : ℕ) new = expertSet experts (t + 2)

theorem serve_requests (token : ℤ) (r : Replay) (eid : ℤ) :
    (serve token r eid).requests = r.requests ++ [(token, eid)] := by
  simp only [serve]
  split_ifs <;> rfl

theorem foldl_serve_requests (token : ℤ) (r : Replay) (ids : List ℤ) :
    (ids.foldl (serve token) r).requests = r.requests ++ ids.map fun e => (token, e) := by
  induction ids generalizing r with
  | nil => simp
  | cons e ids ih => simp [ih, serve_requests]

theorem requestedAs_append (token : ℤ) (q q' : List (ℤ × ℤ)) :
    requestedAs token (q ++ q') = requestedAs token q ∪ requestedAs token q' := by
  simp [requestedAs, List.toFinset_append]

theorem requestedAs_map (token token' : ℤ) (ids : List ℤ) :
    requestedAs token (ids.map fun e => (token', e)) =
      if token' = token then ids.toFinset else ∅ := by
  by_cases h : token' = token
  · simp [requestedAs, List.filter_map, Function.comp_def, h]
  · simp [requestedAs, List.filter_map, Function.comp_def, h]

/-- The experts that `rounds` rounds serve: all of the tokens 1 to `rounds + 3`, but one round
does not come to token 3. -/
def SameExperts (experts : List (List ℤ)) (rounds : ℕ) : Prop :=
  0 < rounds → ∀ j, 1 ≤ j → j ≤ rounds + 3 → ¬ (rounds = 1 ∧ j = 3) →
    expertSet experts j = expertSet experts 1

/-- A sequence that agrees with its shifts by one and, from place 2 on, by two is constant. -/
theorem sameExperts_iff {experts : List (List ℤ)} {rounds : ℕ} :
    (∀ t < rounds, expertSet experts (t + 2) = expertSet experts (t + 1) ∧
      expertSet experts (t + 4) = expertSet experts (t + 2)) ↔ SameExperts experts rounds := by
  constructor
  · intro h _ j h1 hj hno
    -- the first shift reaches up to `rounds + 1`, the second one carries two places further
    have hlow : ∀ i, i ≤ rounds → expertSet experts (i + 1) = expertSet experts 1 := by
      intro i hi
      induction i with
      | zero => rfl
      | succ i ih => exact (h i (by omega)).1.trans (ih (by omega))
    rcases Nat.lt_or_ge (rounds + 1) j with hlt | hle
    · obtain ⟨t, rfl⟩ : ∃ t, j = t + 4 := ⟨j - 4, by omega⟩
      exact (h t (by omega)).2.trans (hlow (t + 1) (by omega))
    · obtain ⟨i, rfl⟩ : ∃ i, j = i + 1 := ⟨j - 1, by omega⟩
      exact hlow i (by omega)
  · intro h t ht
    have hpos : 0 < rounds := by omega
    have h1 := h hpos (t + 1) (by omega) (by omega) (by omega)
    have h2 := h hpos (t + 2) (by omega) (by omega) (by omega)
    have h4 := h hpos (t + 4) (by omega) (by omega) (by omega)
    exact ⟨h2.trans h1.symm, h4.trans h2.symm⟩

/-- Round `t` reads rows `t + 1` and `t + 2`, which are already shifted. -/
theorem replayToken_requests (predict : η → List ℤ) {hidden : List η} {experts : List (List ℤ)}
    {d : LayerData η} (hlen : hidden.length = experts.length)
    (hd : ∀ p, p + 2 < experts.length → d.hiddenStates[p]? = hidden[p]? ∧
      d.nextExpertsN1[p]? = experts[p + 1]? ∧ d.nextExpertsN2[p]? = experts[p + 2]?)
    {t : ℕ} (ht : t + 4 < experts.length) (r : Replay) :
    ∃ r' new, replayToken predict d r t = some r' ∧ r'.requests = r.requests ++ new ∧
      requestedAs (t + 1 : ℕ) new = expertSet experts (t + 2) ∧
      requestedAs (t + 2 : ℕ) new = expertSet experts (t + 4) := by
  have h₀ : hidden[t]? = some hidden[t] := List.getElem?_eq_getElem (by omega)
  have h₁ : experts[t + 1 + 1]? = some experts[t + 2] := List.getElem?_eq_getElem (by omega)
  have h₂ : experts[t + 2 + 2]? = some experts[t + 4] := List.getElem?_eq_getElem (by omega)
  have hset : ∀ i (hi : i < experts.length), expertSet experts i = experts[i].toFinset :=
    fun i hi => by rw [expertSet, List.getD_eq_getElem _ _ hi]
  refine ⟨_, experts[t + 2].map (fun e => (((t + 1 : ℕ) : ℤ), e)) ++
    experts[t + 4].map fun e => (((t + 2 : ℕ) : ℤ), e), replayToken_eq ((hd t (by omega)).1.trans h₀)
      ((hd (t + 1) (by omega)).2.1.trans h₁) ((hd (t + 2) (by omega)).2.2.trans h₂), ?_, ?_, ?_⟩
  · rw [foldl_serve_requests, foldl_serve_requests, List.append_assoc]
  · rw [requestedAs_append, requestedAs_map, requestedAs_map, if_pos rfl, if_neg (by omega),
      Finset.union_empty, hset]
  · rw [requestedAs_append, requestedAs_map, requestedAs_map, if_neg (by omega), if_pos rfl,
      Finset.empty_union, hset]

theorem servesOwn_iff {predict : η → List ℤ} {hidden : List η} {experts : List (List ℤ)}
    {d : LayerData η} (hlen : hidden.length = experts.length)
    (hd : ∀ p, p + 2 < experts.length → d.hiddenStates[p]? = hidden[p]? ∧
      d.nextExpertsN1[p]? = experts[p + 1]? ∧ d.nextExpertsN2[p]? = experts[p + 2]?)
    {t : ℕ} (ht : t + 4 < experts.length) (r : Replay) :
    ServesOwn predict experts d t r ↔ expertSet experts (t + 2) = expertSet experts (t + 1) ∧
      expertSet experts (t + 4) = expertSet experts (t + 2) := by
  obtain ⟨r₁, new₁, hr₁, hnew₁, ha, hb⟩ := replayToken_requests predict hlen hd ht r
  constructor
  · rintro ⟨r', new, hr', hnew, ha', hb'⟩
    obtain rfl : r₁ = r' := Option.some.inj (hr₁.symm.trans hr')
    obtain rfl : new₁ = new := List.append_cancel_left (hnew₁.symm.trans hnew)
    exact ⟨ha.symm.trans ha', hb.symm.trans hb'⟩
  · rintro ⟨h₁, h₂⟩
    exact ⟨r₁, new₁, hr₁, hnew₁, ha.trans h₁, hb.trans h₂⟩

theorem replayLength_le (P : ℕ) (maxTokens : ℤ) : replayLength P maxTokens ≤ P := by
  unfold replayLength
  split_ifs
  · exact min_le_left _ _
  · exact le_rfl

theorem foldlM_isSome {β γ : Type} {f : β → γ → Option β} {l : List γ}
    (h : ∀ b, ∀ c ∈ l, (f b c).isSome) (b : β) : (l.foldlM f b).isSome := by
  induction l generalizing b with
  | nil => rfl
  | cons c l ih =>
    obtain ⟨h1, h2⟩ := List.forall_mem_cons.mp fun c hc => fun b => h b c hc
    obtain ⟨b', hb'⟩ := Option.isSome_iff_exists.mp (h1 b)
    rw [List.foldlM_cons, hb']
    exact ih (fun b c hc => h2 c hc b) b'

/-- For a single prompt of at least five tokens the replay never fails, and its rounds serve
the experts of the tokens they name exactly if these tokens all have the same experts. -/
theorem replay_serves_own_iff {hidden : List η} {experts : List (List ℤ)}
    (hlen : hidden.length = experts.length) (hT : 5 ≤ experts.length) :
    ∃ d, collectData [(hidden, experts)] = some d ∧
      ∀ (predict : η → List ℤ) (order : IterationOrder ℤ Unit) (capacity topKPred maxTokens : ℤ),
      (runSimulation predict order capacity topKPred maxTokens d).isSome ∧
      ((∀ t < replayLength d.hiddenStates.length maxTokens - 2, ∀ r,
          replayRounds predict order capacity topKPred d t = some r →
            ServesOwn predict experts d t r) ↔
        SameExperts experts (replayLength d.hiddenStates.length maxTokens - 2)) := by
  obtain ⟨d, hd, hP, hrows⟩ := collectData_single hlen (by omega)
  refine ⟨d, hd, fun predict order capacity topKPred maxTokens => ?_⟩
  have hle := replayLength_le d.hiddenStates.length maxTokens
  have hrun : ∀ t ≤ replayLength d.hiddenStates.length maxTokens - 2,
      (replayRounds predict order capacity topKPred d t).isSome := by
    intro t ht
    refine foldlM_isSome (fun r i hi => ?_) _
    have hlt := List.mem_range.mp hi
    obtain ⟨r', -, hr', -⟩ := replayToken_requests predict hlen hrows (t := i) (by omega) r
    exact Option.isSome_iff_exists.mpr ⟨r', hr'⟩
  refine ⟨hrun _ le_rfl, ?_⟩
  rw [← sameExperts_iff]
  refine forall₂_congr fun t ht => ?_
  constructor
  · intro h
    obtain ⟨r, hr⟩ := Option.isSome_iff_exists.mp (hrun t ht.le)
    exact (servesOwn_iff hlen hrows (by omega) r).mp (h r hr)
  · exact fun h r _ => (servesOwn_iff hlen hrows (by omega) r).mpr h

/-- Five tokens with the same two experts. -/
theorem replay_serves_own_iff_five :
    ∃ d, collectData [([(), (), (), (), ()], [[1, 2], [2, 1], [1, 2], [1, 2], [2, 1]])] = some d ∧
      ((∀ t < replayLength d.hiddenStates.length 0 - 2, ∀ r,
          replayRounds (fun _ => [2, 1]) (.newestFirst ℤ Unit) 2 2 d t = some r →
            ServesOwn (fun _ => [2, 1]) [[1, 2], [2, 1], [1, 2], [1, 2], [2, 1]] d t r) ↔
        SameExperts [[1, 2], [2, 1], [1, 2], [1, 2], [2, 1]]
          (replayLength d.hiddenStates.length 0 - 2)) := by
  obtain ⟨d, hd, h⟩ := @replay_serves_own_iff Unit [(), (), (), (), ()]
    [[1, 2], [2, 1], [1, 2], [1, 2], [2, 1]] rfl (by decide)
  exact ⟨d, hd, (h (fun _ => [2, 1]) (.newestFirst ℤ Unit) 2 2 0).2⟩

/-- Token `i` has the one expert `i`: in its only round the replay requests expert 2 as token 1. -/
theorem replay_serves_later_token :
    ¬ ∀ (hidden : List Unit) (experts : List (List ℤ)), hidden.length = experts.length →
      5 ≤ experts.length → ∀ d, collectData [(hidden, experts)] = some d →
        ∀ (predict : Unit → List ℤ) (order : IterationOrder ℤ Unit)
          (capacity topKPred maxTokens : ℤ),
          ∀ t < replayLength d.hiddenStates.length maxTokens - 2, ∀ r,
            replayRounds predict order capacity topKPred d t = some r →
              ServesOwn predict experts d t r := by
  intro h
  obtain ⟨r', new, hr', hnew, hfirst, -⟩ := h [(), (), (), (), ()] [[0], [1], [2], [3], [4]] rfl
    (by decide) ⟨[(), (), ()], [[1], [2], [3]], [[2], [3], [4]]⟩ (by rfl) (fun _ => [0])
    (.newestFirst ℤ Unit) 1 1 0 0 (by decide) _ rfl
  have hreq := congrArg (Option.map Replay.requests) hr'
  rw [Option.map_some, hnew] at hreq
  obtain rfl : new = [(1, 2), (2, 4)] := Option.some.inj (hreq.symm.trans (by decide))
  revert hfirst
  decide

end Replay
end Dee
