import Dee.RoutingReplay

/-! From recorded routing to the training data of an Oracle. The collector writes a row for
every token with two successors; the training reads the rows again, joins the two lists of
experts and scatters them into rows of bits. Hidden states and the Oracle are arbitrary. -/
namespace Dee
open CountedLoops

variable {η : Type}

/-- The row of a set of experts: a 1 for each of them. -/
def multiHot (numExperts : ℕ) (es : List ℤ) : List ℕ :=
  (List.range numExperts).map fun e : ℕ => if (e : ℤ) ∈ es then 1 else 0

/-- `Y.scatter_(1, union[:, i:i+1], 1.0)`, which raises on an index out of range. -/
def scatterColumn (union : List (List ℤ)) (Y : List (List ℕ)) (i : ℕ) : Option (List (List ℕ)) :=
  (Y.zip union).mapM fun r => do
    let e ← r.2[i]?
    if 0 ≤ e ∧ e < r.1.length then some (r.1.set e.toNat 1) else none

/-- `torch.cat([e1, e2], dim=1)` -/
def unionRows (d : LayerData η) : List (List ℤ) :=
  List.zipWith (· ++ ·) d.nextExpertsN1 d.nextExpertsN2

/-- `max(data_max, model_num_experts or data_max)`; the data must not be empty. -/
def inferNumExperts (union : List (List ℤ)) (modelNumExperts : Option ℤ) : Option ℤ := do
  let largest ← union.flatten.max?
  let dataMax := largest + 1
  match modelNumExperts with
  | none => some dataMax
  | some n => some (max dataMax (if n = 0 then dataMax else n))

/-- The number of experts and the multi-hot targets of a layer. -/
def trainTargets (modelNumExperts : Option ℤ) (d : LayerData η) : Option (ℤ × List (List ℕ)) := do
  let P := d.hiddenStates.length
  let union := unionRows d
  let numExperts ← inferNumExperts union modelNumExperts
  let width := (union.head?.map List.length).getD 0
  let Y ← (List.range width).foldlM (scatterColumn union)
    (List.replicate P (List.replicate numExperts.toNat 0))
  pure (numExperts, Y.map fun row => row.map (min 1))

/-- The share of the experts of a row that the Oracle predicts. -/
def rowRecall (predict : η → List ℤ) (h : η) (union : List ℤ) : ℚ :=
  if union = [] then 0
  else ((union.toFinset ∩ (predict h).toFinset).card : ℚ) / union.toFinset.card

/-- The recall over the union of the two tokens ahead, in exact arithmetic. -/
def unionRecall (predict : η → List ℤ) (d : LayerData η) : ℚ :=
  (List.zipWith (rowRecall predict) d.hiddenStates (unionRows d)).sum / d.hiddenStates.length

/-- The windows of a prompt: a token's hidden state and the experts of its two successors. -/
def windows (p : List η × List (List ℤ)) : List (η × List ℤ × List ℤ) :=
  p.1.zip ((p.2.drop 1).zip (p.2.drop 2))

theorem mem_windows {p : List η × List (List ℤ)} {w : η × List ℤ × List ℤ} :
    w ∈ windows p ↔
      ∃ t, p.1[t]? = some w.1 ∧ p.2[t + 1]? = some w.2.1 ∧ p.2[t + 2]? = some w.2.2 := by
  rw [List.mem_iff_getElem?]
  refine exists_congr fun t => ?_
  simp only [windows, List.getElem?_zip_eq_some, List.getElem?_drop, Nat.add_comm 1 t,
    Nat.add_comm 2 t]

theorem length_windows {p : List η × List (List ℤ)} (hlen : p.1.length = p.2.length) :
    (windows p).length = p.2.length - 2 := by
  simp only [windows, List.length_zip, List.length_drop]
  omega

/-- What is collected for a prompt whose hidden states and routing have the same tokens. -/
theorem pairWindow_eq {p : List η × List (List ℤ)} (hlen : p.1.length = p.2.length) :
    pairWindow p.1 p.2 = some (windows p) := by
  obtain ⟨rows, hrows, hcount, hget⟩ := pairWindow_rows hlen
  have hwindows := length_windows hlen
  rw [hrows]
  refine congrArg some (List.ext_getElem? fun t => ?_)
  by_cases ht : t + 2 < p.2.length
  · obtain ⟨h₀, h₁, h₂⟩ := hget t ht
    have hr : rows[t]? = some rows[t] := List.getElem?_eq_getElem (by omega)
    rw [List.getElem?_map, hr, Option.map_some] at h₀ h₁ h₂
    rw [hr, eq_comm]
    simp only [windows, List.getElem?_zip_eq_some, List.getElem?_drop, Nat.add_comm 1 t,
      Nat.add_comm 2 t]
    exact ⟨h₀.symm, h₁.symm, h₂.symm⟩
  · rw [List.getElem?_eq_none (by omega), List.getElem?_eq_none (by omega)]

/-- The layer file of all prompts, in their order. -/
theorem collectData_eq {prompts : List (List η × List (List ℤ))}
    (hlen : ∀ p ∈ prompts, p.1.length = p.2.length) (hne : prompts.flatMap windows ≠ []) :
    collectData prompts = some ⟨(prompts.flatMap windows).map Prod.fst,
      (prompts.flatMap windows).map fun w => w.2.1,
      (prompts.flatMap windows).map fun w => w.2.2⟩ := by
  have hrows : (prompts.mapM fun p => pairWindow p.1 p.2) = some (prompts.map windows) :=
    mapM_of_forall fun p hp => pairWindow_eq (hlen p hp)
  rw [List.flatMap_def] at hne ⊢
  simp only [collectData, hrows, Option.bind_eq_bind, Option.bind_some, if_neg hne]
  rfl

/-! The scatter loop -/

section Scatter
variable {n : ℕ}

@[simp] theorem length_multiHot (n : ℕ) (es : List ℤ) : (multiHot n es).length = n := by
  rw [multiHot, List.length_map, List.length_range]

theorem multiHot_nil (n : ℕ) : multiHot n [] = List.replicate n 0 := by
  simp [multiHot]

theorem multiHot_clamp (n : ℕ) (es : List ℤ) : (multiHot n es).map (min 1) = multiHot n es := by
  rw [multiHot, List.map_map]
  refine List.map_congr_left fun e _ => ?_
  by_cases he : (e : ℤ) ∈ es <;> simp [he]

/-- One more expert of a row is one more bit. -/
theorem multiHot_concat {es : List ℤ} {e : ℤ} (he : 0 ≤ e ∧ e < n) :
    (multiHot n es).set e.toNat 1 = multiHot n (es ++ [e]) := by
  refine List.ext_getElem (by simp) fun i hi hi' => ?_
  rw [length_multiHot] at hi'
  rw [List.getElem_set]
  simp only [multiHot, List.getElem_map, List.getElem_range, List.mem_append, List.mem_singleton]
  by_cases hie : e.toNat = i
  · rw [if_pos hie, if_pos (Or.inr (by omega))]
  · have hne : ¬ (i : ℤ) = e := by omega
    simp [hie, hne]

/-- A pass of the loop over rows of equal width whose experts are in range. -/
theorem scatterColumn_eq {union : List (List ℤ)} {i w : ℕ} (hi : i < w)
    (hwidth : ∀ es ∈ union, es.length = w) (hids : ∀ es ∈ union, ∀ e ∈ es, 0 ≤ e ∧ e < (n : ℤ)) :
    scatterColumn union (union.map fun es => multiHot n (es.take i)) i =
      some (union.map fun es => multiHot n (es.take (i + 1))) := by
  have hzip : (union.map fun es => multiHot n (es.take i)).zip union =
      union.map fun es => (multiHot n (es.take i), es) := by
    have hmap := List.zip_map' (l := union) (f := fun es => multiHot n (es.take i)) (g := id)
    rwa [List.map_id] at hmap
  rw [scatterColumn, hzip, List.mapM_map]
  refine mapM_of_forall fun es hes => ?_
  have hlt : i < es.length := (hwidth es hes).symm ▸ hi
  have hrange := hids es hes es[i] (List.getElem_mem hlt)
  have hget : es[i]? = some es[i] := List.getElem?_eq_getElem hlt
  have htake : es.take (i + 1) = es.take i ++ [es[i]] := by
    rw [List.take_add_one, hget, Option.toList_some]
  simp only [Function.comp_apply, hget, length_multiHot, Option.bind_eq_bind, Option.bind_some,
    if_pos hrange, multiHot_concat hrange, htake]
  rfl

/-- The loop over the columns. -/
theorem foldlM_scatterColumn {union : List (List ℤ)} {w : ℕ}
    (hwidth : ∀ es ∈ union, es.length = w) (hids : ∀ es ∈ union, ∀ e ∈ es, 0 ≤ e ∧ e < (n : ℤ)) :
    (List.range w).foldlM (scatterColumn union)
      (List.replicate union.length (List.replicate n 0)) = some (union.map (multiHot n)) := by
  have hstart : List.replicate union.length (List.replicate n 0) =
      union.map fun es => multiHot n (es.take 0) := by
    simp [multiHot_nil]
  have hloop : ∀ m ≤ w, (List.range m).foldlM (scatterColumn union)
      (List.replicate union.length (List.replicate n 0)) =
        some (union.map fun es => multiHot n (es.take m)) := by
    intro m hm
    induction m with
    | zero => exact congrArg some hstart
    | succ m ih =>
      rw [List.range_succ, List.foldlM_append, ih (by omega)]
      simp only [Option.bind_eq_bind, Option.bind_some, List.foldlM_cons, List.foldlM_nil,
        scatterColumn_eq hm hwidth hids]
      rfl
  rw [hloop w le_rfl]
  refine congrArg some (List.map_congr_left fun es hes => ?_)
  rw [← hwidth es hes, List.take_length]

/-- The inferred number of experts is above every id of the data. -/
theorem inferNumExperts_eq {union : List (List ℤ)} (modelNumExperts : Option ℤ)
    (hne : union.flatten ≠ []) : ∃ N, inferNumExperts union modelNumExperts = some N ∧
      ∀ es ∈ union, ∀ e ∈ es, e < N := by
  obtain ⟨m, hm⟩ := Option.isSome_iff_exists.mp (List.isSome_max?_of_ne_nil hne)
  have hle : ∀ es ∈ union, ∀ e ∈ es, e < m + 1 := by
    intro es hes e he
    have := (List.max?_eq_some_iff.mp hm).2 e (List.mem_flatten.mpr ⟨es, hes, he⟩)
    omega
  cases modelNumExperts with
  | none => exact ⟨m + 1, by simp [inferNumExperts, hm], hle⟩
  | some k =>
    refine ⟨max (m + 1) (if k = 0 then m + 1 else k), by simp [inferNumExperts, hm], ?_⟩
    intro es hes e he
    have := hle es hes e he
    exact lt_of_lt_of_le this (le_max_left _ _)

end Scatter

/-! The recall -/

theorem rowRecall_le_one (predict : η → List ℤ) (h : η) (union : List ℤ) :
    rowRecall predict h union ≤ 1 := by
  unfold rowRecall
  split_ifs
  · exact zero_le_one
  · refine div_le_one_of_le₀ ?_ (Nat.cast_nonneg _)
    exact_mod_cast Finset.card_le_card Finset.inter_subset_left

theorem rowRecall_eq_one_iff {predict : η → List ℤ} {h : η} {union : List ℤ} (hne : union ≠ []) :
    rowRecall predict h union = 1 ↔ ∀ e ∈ union, e ∈ predict h := by
  have hpos : (union.toFinset.card : ℚ) ≠ 0 := by
    rw [Nat.cast_ne_zero, Finset.card_ne_zero, List.toFinset_nonempty_iff]
    exact hne
  rw [rowRecall, if_neg hne, div_eq_one_iff_eq hpos, Nat.cast_inj]
  constructor
  · intro hcard e he
    have hinter := Finset.eq_of_subset_of_card_le Finset.inter_subset_left hcard.ge
    have hmem := hinter.symm ▸ List.mem_toFinset.mpr he
    exact List.mem_toFinset.mp (Finset.mem_inter.mp hmem).2
  · intro hall
    refine congrArg Finset.card (Finset.inter_eq_left.mpr fun e he => ?_)
    exact List.mem_toFinset.mpr (hall e (List.mem_toFinset.mp he))

/-- Numbers of at most 1 add up to their count only if all are 1. -/
theorem sum_eq_length_iff {l : List ℚ} (h : ∀ x ∈ l, x ≤ 1) :
    l.sum ≤ l.length ∧ (l.sum = l.length ↔ ∀ x ∈ l, x = 1) := by
  induction l with
  | nil => simp
  | cons x l ih =>
    obtain ⟨hx, hl⟩ := List.forall_mem_cons.mp h
    obtain ⟨hle, hiff⟩ := ih hl
    rw [List.sum_cons, List.length_cons, Nat.cast_succ, List.forall_mem_cons, ← hiff]
    refine ⟨by linarith, fun heq => ⟨by linarith, by linarith⟩, fun ⟨h₁, h₂⟩ => by linarith⟩

/-! From the prompts to the targets -/

section Prompts
variable {prompts : List (List η × List (List ℤ))}

/-- The experts that become active behind a token, within two tokens. -/
def ahead (w : η × List ℤ × List ℤ) : List ℤ := w.2.1 ++ w.2.2

theorem unionRows_windows (ws : List (η × List ℤ × List ℤ)) :
    unionRows ⟨ws.map Prod.fst, ws.map fun w => w.2.1, ws.map fun w => w.2.2⟩ = ws.map ahead := by
  rw [unionRows, List.zipWith_map, List.zipWith_self]
  rfl

/-- What holds of all routing lists of the prompts holds of the lists of the windows. -/
theorem forall_windows {Q : List ℤ → Prop} (h : ∀ p ∈ prompts, ∀ es ∈ p.2, Q es) :
    ∀ w ∈ prompts.flatMap windows, Q w.2.1 ∧ Q w.2.2 := by
  intro w hw
  obtain ⟨p, hp, hw⟩ := List.mem_flatMap.mp hw
  obtain ⟨t, -, h₁, h₂⟩ := mem_windows.mp hw
  exact ⟨h p hp _ (List.mem_of_getElem? h₁), h p hp _ (List.mem_of_getElem? h₂)⟩

/-- The training data of a layer, for routing tables of `k` experts a token: one row of bits for
each token with two successors, no access out of range, and a full recall exactly for an Oracle
that always predicts all experts of the two tokens ahead. -/
theorem trainTargets_multiHot (hlen : ∀ p ∈ prompts, p.1.length = p.2.length) {k : ℕ} (hk : 0 < k)
    (hwidth : ∀ p ∈ prompts, ∀ es ∈ p.2, es.length = k)
    (hids : ∀ p ∈ prompts, ∀ es ∈ p.2, ∀ e ∈ es, 0 ≤ e) (hlong : ∃ p ∈ prompts, 3 ≤ p.2.length)
    (modelNumExperts : Option ℤ) :
    ∃ d N, collectData prompts = some d ∧
      (∀ w ∈ prompts.flatMap windows, ∀ e ∈ ahead w, 0 ≤ e ∧ e < N) ∧
      trainTargets modelNumExperts d =
        some (N, (prompts.flatMap windows).map fun w => multiHot N.toNat (ahead w)) ∧
      ∀ predict, unionRecall predict d ≤ 1 ∧ (unionRecall predict d = 1 ↔
        ∀ w ∈ prompts.flatMap windows, ∀ e ∈ ahead w, e ∈ predict w.1) := by
  have hne : prompts.flatMap windows ≠ [] := by
    obtain ⟨p, hp, hp3⟩ := hlong
    have hpos : 0 < (windows p).length := by
      rw [length_windows (hlen p hp)]
      omega
    obtain ⟨w, hw⟩ := List.exists_mem_of_length_pos hpos
    exact List.ne_nil_of_mem (List.mem_flatMap.mpr ⟨p, hp, hw⟩)
  have hcollect := collectData_eq hlen hne
  have hwide := forall_windows hwidth
  have hnonneg := forall_windows hids
  generalize hws : prompts.flatMap windows = ws at hne hcollect hwide hnonneg
  have hlength : ∀ es ∈ ws.map ahead, es.length = 2 * k := by
    intro es hes
    obtain ⟨w, hw, rfl⟩ := List.mem_map.mp hes
    rw [ahead, List.length_append, (hwide w hw).1, (hwide w hw).2, Nat.two_mul]
  have hhead : ((ws.map ahead).head?.map List.length).getD 0 = 2 * k := by
    obtain ⟨w, ws', rfl⟩ := List.exists_cons_of_ne_nil hne
    exact hlength _ List.mem_cons_self
  have hrow : ∀ w ∈ ws, ahead w ≠ [] := by
    intro w hw
    have := hlength _ (List.mem_map_of_mem hw)
    exact List.ne_nil_of_length_pos (by omega)
  have hflat : (ws.map ahead).flatten ≠ [] := by
    obtain ⟨w, hw⟩ := List.exists_mem_of_ne_nil _ hne
    obtain ⟨e, he⟩ := List.exists_mem_of_ne_nil _ (hrow w hw)
    exact List.ne_nil_of_mem (List.mem_flatten.mpr ⟨_, List.mem_map_of_mem hw, he⟩)
  obtain ⟨N, hN, hlt⟩ := inferNumExperts_eq modelNumExperts hflat
  have hrange : ∀ w ∈ ws, ∀ e ∈ ahead w, 0 ≤ e ∧ e < N := by
    intro w hw e he
    refine ⟨?_, hlt _ (List.mem_map_of_mem hw) e he⟩
    rcases List.mem_append.mp he with he | he
    · exact (hnonneg w hw).1 e he
    · exact (hnonneg w hw).2 e he
  refine ⟨_, N, hcollect, hrange, ?_, fun predict => ?_⟩
  · have hscatter := foldlM_scatterColumn (n := N.toNat) hlength fun es hes e he => by
      obtain ⟨w, hw, rfl⟩ := List.mem_map.mp hes
      have := hrange w hw e he
      omega
    rw [List.length_map] at hscatter
    simp only [trainTargets, unionRows_windows, hN, hhead, List.length_map, Option.bind_eq_bind,
      Option.bind_some, hscatter, List.map_map]
    refine congrArg (fun Y => some (N, Y)) (List.map_congr_left fun w _ => ?_)
    exact multiHot_clamp _ _
  · have hsum := sum_eq_length_iff (l := ws.map fun w => rowRecall predict w.1 (ahead w))
      fun x hx => by
        obtain ⟨w, -, rfl⟩ := List.mem_map.mp hx
        exact rowRecall_le_one predict w.1 (ahead w)
    have hrecall : unionRecall predict
        ⟨ws.map Prod.fst, ws.map fun w => w.2.1, ws.map fun w => w.2.2⟩ =
          (ws.map fun w => rowRecall predict w.1 (ahead w)).sum / ws.length := by
      rw [unionRecall, unionRows_windows, List.zipWith_map, List.zipWith_self, List.length_map]
    have hpos : (0 : ℚ) < ws.length := Nat.cast_pos.mpr (List.length_pos_of_ne_nil hne)
    rw [List.length_map] at hsum
    rw [hrecall, div_le_one hpos, div_eq_one_iff_eq hpos.ne', hsum.2, List.forall_mem_map]
    exact ⟨hsum.1, forall₂_congr fun w hw => rowRecall_eq_one_iff (hrow w hw)⟩

/-- Two prompts; the second one has no window. -/
theorem trainTargets_multiHot_two :
    let prompts : List (List ℕ × List (List ℤ)) :=
      [([7, 8, 9, 10], [[0], [2], [1], [2]]), ([11, 12], [[5], [6]])]
    ∃ d N, collectData prompts = some d ∧
      (∀ w ∈ prompts.flatMap windows, ∀ e ∈ ahead w, 0 ≤ e ∧ e < N) ∧
      trainTargets (some 4) d =
        some (N, (prompts.flatMap windows).map fun w => multiHot N.toNat (ahead w)) ∧
      ∀ predict, unionRecall predict d ≤ 1 ∧ (unionRecall predict d = 1 ↔
        ∀ w ∈ prompts.flatMap windows, ∀ e ∈ ahead w, e ∈ predict w.1) :=
  trainTargets_multiHot (by decide) (k := 1) (by decide) (by decide) (by decide) (by decide) _

end Prompts

end Dee
