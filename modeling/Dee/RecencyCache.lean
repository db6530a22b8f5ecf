import Dee.GuardedRuns

/-! The specification of a cache of `n` slots as a list of its keys, the least recently
used first. A new key in a full cache replaces a key of lowest priority, the least
recently used one among several. Two such caches of different sizes stay nested. -/
namespace Dee.RecencyCache
open GuardedRuns

inductive Op (K : Type*)
  | use (k : K)
  | touch (k : K)

variable {K P T : Type*} [LinearOrder P] {f : K → P}

/-- The leftmost minimum of a list divides it. -/
theorem argmin_split {l : List K} {m : K} (h : l.argmin f = some m) :
    ∃ pre post, l = pre ++ m :: post ∧ (∀ a ∈ pre, f m < f a) ∧ ∀ a ∈ post, f m ≤ f a := by
  induction l with
  | nil => simp at h
  | cons a l ih =>
    rw [List.argmin_cons] at h
    cases hl : l.argmin f with
    | none =>
      rw [hl] at h
      obtain rfl : a = m := Option.some.inj h
      rw [List.argmin_eq_none.mp hl]
      exact ⟨[], [], rfl, by simp, by simp⟩
    | some c =>
      rw [hl] at h
      dsimp only at h
      split_ifs at h with hca
      · obtain rfl : c = m := Option.some.inj h
        obtain ⟨pre, post, rfl, hpre, hpost⟩ := ih hl
        exact ⟨a :: pre, post, rfl, List.forall_mem_cons.mpr ⟨hca, hpre⟩, hpost⟩
      · obtain rfl : a = m := Option.some.inj h
        exact ⟨[], l, rfl, by simp, fun b hb =>
          (not_lt.mp hca).trans (List.le_of_mem_argmin hb hl)⟩

theorem argmin_of_split {pre post : List K} {m : K} (hpre : ∀ a ∈ pre, f m < f a)
    (hpost : ∀ a ∈ post, f m ≤ f a) : (pre ++ m :: post).argmin f = some m := by
  induction pre with
  | nil =>
    rw [List.nil_append, List.argmin_cons]
    cases hc : post.argmin f with
    | none => rfl
    | some c => exact if_neg (hpost c (List.argmin_mem hc)).not_gt
  | cons a pre ih =>
    obtain ⟨ha, hpre⟩ := List.forall_mem_cons.mp hpre
    rw [List.cons_append, List.argmin_cons, ih hpre]
    exact if_pos ha

/-- A leftmost minimum that a sublist keeps is the leftmost minimum of the sublist. -/
theorem argmin_sublist {S L : List K} (hsub : S.Sublist L) (hnd : L.Nodup) {m : K}
    (h : L.argmin f = some m) (hm : m ∈ S) : S.argmin f = some m := by
  obtain ⟨pre, post, rfl, hpre, hpost⟩ := argmin_split h
  obtain ⟨S₁, S₂, rfl, h1, h2⟩ := List.sublist_append_iff.mp hsub
  have hout : m ∉ post := (List.nodup_cons.mp (List.nodup_append.mp hnd).2.1).1
  rcases List.sublist_cons_iff.mp h2 with h2 | ⟨S₃, rfl, h3⟩
  · exfalso
    rcases List.mem_append.mp hm with hm | hm
    · exact lt_irrefl _ (hpre m (h1.subset hm))
    · exact hout (h2.subset hm)
  · exact argmin_of_split (fun a ha => hpre a (h1.subset ha)) fun a ha => hpost a (h3.subset ha)

/-- The keys in order of their stamps, none of which is later than `clock`. -/
structure Stamped [LinearOrder T] (stamp : K → Option T) (clock : T) (l : List K) : Prop where
  mem_iff : ∀ k, k ∈ l ↔ (stamp k).isSome
  sorted : l.Pairwise fun a b => ∀ s t, stamp a = some s → stamp b = some t → s < t
  le : ∀ k s, stamp k = some s → s ≤ clock

variable [LinearOrder T] {stamp stamp' : K → Option T} {clock clock' : T} {l : List K}

theorem Stamped.exists_stamp (h : Stamped stamp clock l) {k : K} (hk : k ∈ l) :
    ∃ s, stamp k = some s :=
  Option.isSome_iff_exists.mp ((h.mem_iff k).mp hk)

theorem Stamped.nodup (h : Stamped stamp clock l) : l.Nodup := by
  have hsome : ∀ a ∈ l, (stamp a).isSome := fun a ha => (h.mem_iff a).mp ha
  have hsorted := h.sorted
  clear h
  induction l with
  | nil => exact List.nodup_nil
  | cons a l ih =>
    obtain ⟨hlt, hsorted⟩ := List.pairwise_cons.mp hsorted
    refine List.nodup_cons.mpr ⟨fun ha => ?_, ih (fun b hb => hsome b (by simp [hb])) hsorted⟩
    obtain ⟨s, hs⟩ := Option.isSome_iff_exists.mp (hsome a (by simp))
    exact lt_irrefl s (hlt a ha s s hs hs)

theorem stamped_nil (clock : T) : Stamped (fun _ : K => none) clock [] :=
  ⟨by simp, by simp, by simp⟩

/-- The key that is least by priority and then by stamp is the leftmost minimum. -/
theorem Stamped.argmin_eq (h : Stamped stamp clock l) {v : K} {s : T} (hv : stamp v = some s)
    (hleast : ∀ k t, stamp k = some t → f v < f k ∨ f v = f k ∧ s ≤ t) :
    l.argmin f = some v := by
  have hmem : v ∈ l := (h.mem_iff v).mpr (by simp [hv])
  obtain ⟨pre, post, rfl⟩ := List.append_of_mem hmem
  obtain ⟨-, -, hlt⟩ := List.pairwise_append.mp h.sorted
  apply argmin_of_split
  · intro a ha
    obtain ⟨t, ht⟩ := h.exists_stamp (k := a) (by simp [ha])
    rcases hleast a t ht with hf | ⟨-, hst⟩
    · exact hf
    · exact absurd (hlt a ha v (by simp) t s ht hv) hst.not_gt
  · intro a ha
    obtain ⟨t, ht⟩ := h.exists_stamp (k := a) (by simp [ha])
    rcases hleast a t ht with hf | ⟨hf, -⟩
    · exact hf.le
    · exact hf.le

/-- The smaller cache `S` against the larger one `L`: until the smaller one is full,
neither has evicted anything. -/
structure Nested (n m : ℕ) (S L : List K) : Prop where
  sublist : S.Sublist L
  nodup : L.Nodup
  small : S.length ≤ n
  large : L.length ≤ m
  eq_of_lt : S.length < n → S = L

variable {n m : ℕ} {S L : List K}

theorem nested_nil : Nested (K := K) n m [] [] := by
  constructor <;> simp

theorem Nested.full_of_new (h : Nested n m S L) {k : K} (hS : k ∉ S) (hL : k ∈ L) :
    S.length = n := by
  by_contra hne
  exact hS (h.eq_of_lt (lt_of_le_of_ne h.small hne) ▸ hL)

variable [DecidableEq K]

/-- Make room for one more key. -/
def makeRoom (f : K → P) (n : ℕ) (l : List K) : List K :=
  if l.length < n then l
  else
    match l.argmin f with
    | none => l
    | some v => l.erase v

def step (f : K → P) (n : ℕ) (l : List K) : Op K → List K
  | .use k => if k ∈ l then l.erase k ++ [k] else makeRoom f n l ++ [k]
  | .touch k => if k ∈ l then l.erase k ++ [k] else l

/-- A key that is not yet there, or any key that is, gets the newest stamp. -/
theorem Stamped.use (h : Stamped stamp clock l) (hlt : clock < clock') {k : K}
    (hstamp : ∀ k', stamp' k' = if k' = k then some clock' else stamp k') :
    Stamped stamp' clock' (l.erase k ++ [k]) where
  mem_iff := by
    intro k'
    rw [hstamp k', List.mem_append, List.mem_singleton, h.nodup.mem_erase_iff, h.mem_iff k']
    split_ifs with hk <;> simp [hk]
  sorted := by
    have hold : ∀ a ∈ l.erase k, stamp' a = stamp a := fun a ha => by
      rw [hstamp a, if_neg (h.nodup.mem_erase_iff.mp ha).1]
    refine List.pairwise_append.mpr ⟨?_, List.pairwise_singleton _ _, ?_⟩
    · refine (h.sorted.sublist List.erase_sublist).imp_of_mem fun ha hb hab => ?_
      rwa [hold _ ha, hold _ hb]
    · intro a ha b hb s t hs ht
      obtain rfl : b = k := by simpa using hb
      rw [hstamp b, if_pos rfl] at ht
      rw [hold a ha] at hs
      rw [← Option.some.inj ht]
      exact (h.le a s hs).trans_lt hlt
  le := by
    intro k' s hs
    rw [hstamp k'] at hs
    split_ifs at hs with hk
    · exact (Option.some.inj hs).ge
    · exact (h.le k' s hs).trans hlt.le

theorem Stamped.erase (h : Stamped stamp clock l) {v : K}
    (hstamp : ∀ k', stamp' k' = if k' = v then none else stamp k') :
    Stamped stamp' clock (l.erase v) where
  mem_iff := by
    intro k'
    rw [hstamp k', h.nodup.mem_erase_iff, h.mem_iff k']
    split_ifs with hk <;> simp [hk]
  sorted := by
    refine (h.sorted.sublist List.erase_sublist).imp_of_mem fun ha hb hab => ?_
    rwa [hstamp, hstamp, if_neg (h.nodup.mem_erase_iff.mp ha).1,
      if_neg (h.nodup.mem_erase_iff.mp hb).1]
  le := by
    intro k' s hs
    rw [hstamp k'] at hs
    split_ifs at hs
    exact h.le k' s hs

theorem length_bump {k : K} (hk : k ∈ l) : (l.erase k ++ [k]).length = l.length := by
  rw [List.length_append, List.length_erase_of_mem hk]
  have := List.length_pos_of_mem hk
  simp only [List.length_singleton]
  omega

theorem nodup_bump (hl : l.Nodup) (k : K) : (l.erase k ++ [k]).Nodup := by
  refine List.nodup_append.mpr ⟨hl.erase k, List.nodup_singleton k, fun a ha b hb => ?_⟩
  obtain rfl : b = k := by simpa using hb
  exact (hl.mem_erase_iff.mp ha).1

/-- A use or a touch of a key that both caches hold. -/
theorem Nested.bump (h : Nested n m S L) {k : K} (hS : k ∈ S) :
    Nested n m (S.erase k ++ [k]) (L.erase k ++ [k]) where
  sublist := (h.sublist.erase k).append (.refl _)
  nodup := nodup_bump h.nodup k
  small := (length_bump hS).trans_le h.small
  large := (length_bump (h.sublist.subset hS)).trans_le h.large
  eq_of_lt := by
    rw [length_bump hS]
    intro hlt
    rw [h.eq_of_lt hlt]

/-- A touch of a key that only the larger cache holds. -/
theorem Nested.bump_large (h : Nested n m S L) {k : K} (hS : k ∉ S) (hL : k ∈ L) :
    Nested n m S (L.erase k ++ [k]) where
  sublist := by
    have herase := h.sublist.erase k
    rw [List.erase_of_not_mem hS] at herase
    exact herase.trans (List.sublist_append_left _ _)
  nodup := nodup_bump h.nodup k
  small := h.small
  large := (length_bump hL).trans_le h.large
  eq_of_lt := fun hlt => absurd (h.full_of_new hS hL) hlt.ne

theorem makeRoom_sublist (f : K → P) (n : ℕ) (l : List K) : (makeRoom f n l).Sublist l := by
  unfold makeRoom
  split_ifs
  · exact .refl l
  · cases l.argmin f with
    | none => exact .refl l
    | some v => exact List.erase_sublist

theorem length_makeRoom (hn : 0 < n) (hl : l.length ≤ n) :
    (makeRoom f n l).length + 1 = if l.length < n then l.length + 1 else n := by
  unfold makeRoom
  split_ifs with hlt
  · rfl
  · cases hv : l.argmin f with
    | none =>
      rw [List.argmin_eq_none.mp hv] at hlt
      exact absurd hn hlt
    | some v =>
      have hmem := List.argmin_mem hv
      have hpos := List.length_pos_of_mem hmem
      rw [List.length_erase_of_mem hmem]
      omega

/-- Both caches make room: if the larger one gives up a key of the smaller one, it is
the key that the smaller one gives up too. -/
theorem Nested.makeRoom_sublist (h : Nested n m S L) (hnm : n ≤ m) :
    (makeRoom f n S).Sublist (makeRoom f m L) := by
  by_cases hlarge : L.length < m
  · have hL : makeRoom f m L = L := if_pos hlarge
    rw [hL]
    exact (RecencyCache.makeRoom_sublist f n S).trans h.sublist
  · have hfull : ¬ S.length < n := fun hlt => by
      have := h.eq_of_lt hlt ▸ hlt
      omega
    cases hv : L.argmin f with
    | none =>
      have hnil := List.argmin_eq_none.mp hv
      have hS := h.sublist
      rw [hnil] at hS
      rw [List.sublist_nil.mp hS, hnil]
      simp [makeRoom]
    | some w =>
      have hL : makeRoom f m L = L.erase w := by rw [makeRoom, if_neg hlarge, hv]
      rw [hL]
      by_cases hw : w ∈ S
      · have hS : makeRoom f n S = S.erase w := by
          rw [makeRoom, if_neg hfull, argmin_sublist h.sublist h.nodup hv hw]
        rw [hS]
        exact h.sublist.erase w
      · have herase := h.sublist.erase w
        rw [List.erase_of_not_mem hw] at herase
        exact (RecencyCache.makeRoom_sublist f n S).trans herase

/-- A key that only the larger cache holds. -/
theorem Nested.use_of_mem (h : Nested n m S L) (hn : 0 < n) {k : K} (hS : k ∉ S) (hL : k ∈ L) :
    Nested n m (makeRoom f n S ++ [k]) (L.erase k ++ [k]) := by
  have hsmall := length_makeRoom (f := f) hn h.small
  rw [if_neg (h.full_of_new hS hL).not_lt] at hsmall
  have hlarge := h.bump_large hS hL
  have hsub := h.sublist.erase k
  rw [List.erase_of_not_mem hS] at hsub
  exact ⟨((RecencyCache.makeRoom_sublist f n S).trans hsub).append (.refl _), hlarge.nodup,
    by simp [hsmall], hlarge.large, fun hlt => by simp [hsmall] at hlt⟩

/-- A key that neither cache holds. -/
theorem Nested.use_of_not_mem (h : Nested n m S L) (hn : 0 < n) (hnm : n ≤ m) {k : K}
    (hL : k ∉ L) : Nested n m (makeRoom f n S ++ [k]) (makeRoom f m L ++ [k]) := by
  have hsmall := length_makeRoom (f := f) hn h.small
  have hroom := length_makeRoom (f := f) (hn.trans_le hnm) h.large
  refine ⟨(h.makeRoom_sublist hnm).append (.refl _), ?_, ?_, ?_, fun hlt => ?_⟩
  · have hnd := h.nodup.sublist (RecencyCache.makeRoom_sublist f m L)
    refine List.nodup_append.mpr ⟨hnd, List.nodup_singleton k, fun a ha b hb hab => ?_⟩
    obtain rfl : b = k := by simpa using hb
    exact hL ((RecencyCache.makeRoom_sublist f m L).subset (hab ▸ ha))
  · rw [List.length_append, List.length_singleton, hsmall]
    split_ifs with hlt <;> omega
  · rw [List.length_append, List.length_singleton, hroom]
    split_ifs with hlt <;> omega
  · -- the smaller cache is not full afterwards, so neither had to make room
    rw [List.length_append, List.length_singleton, hsmall] at hlt
    split_ifs at hlt with hlt'
    · obtain rfl := h.eq_of_lt hlt'
      rw [makeRoom, if_pos hlt', makeRoom, if_pos (hlt'.trans_le hnm)]
    · exact absurd hlt (lt_irrefl n)

/-- One operation on both caches. -/
theorem Nested.step (h : Nested n m S L) (hn : 0 < n) (hnm : n ≤ m) (op : Op K) :
    Nested n m (step f n S op) (step f m L op) := by
  cases op with
  | touch k =>
    simp only [RecencyCache.step]
    by_cases hS : k ∈ S
    · rw [if_pos hS, if_pos (h.sublist.subset hS)]
      exact h.bump hS
    · rw [if_neg hS]
      split_ifs with hL
      · exact h.bump_large hS hL
      · exact h
  | use k =>
    simp only [RecencyCache.step]
    by_cases hS : k ∈ S
    · rw [if_pos hS, if_pos (h.sublist.subset hS)]
      exact h.bump hS
    · rw [if_neg hS]
      split_ifs with hL
      · exact h.use_of_mem hn hS hL
      · exact h.use_of_not_mem hn hnm hL

theorem Nested.run (h : Nested n m S L) (hn : 0 < n) (hnm : n ≤ m) (ops : List (Op K)) :
    Nested n m (run (RecencyCache.step f n) S ops) (run (RecencyCache.step f m) L ops) := by
  induction ops generalizing S L with
  | nil => exact h
  | cons op ops ih => exact ih (h.step hn hnm op)

/-! With equal priorities the cache holds the keys used last. -/

/-- The keys of `us` in the order of their last uses end with `l`, and begin with it as
long as `l` is shorter than `n`. -/
structure Recent (n : ℕ) (us l : List K) : Prop where
  suffix : ∃ old, us.dedup = old ++ l ∧ (l.length < n → old = [])
  length_le : l.length ≤ n

theorem dedup_concat (us : List K) (k : K) : (us ++ [k]).dedup = us.dedup.erase k ++ [k] := by
  induction us with
  | nil => simp
  | cons a us ih =>
    by_cases ha : a ∈ us
    · rw [List.cons_append, List.dedup_cons_of_mem (List.mem_append_left _ ha), ih,
        List.dedup_cons_of_mem ha]
    · rw [List.dedup_cons_of_notMem ha]
      by_cases hk : a = k
      · subst hk
        have hout : a ∉ us.dedup := fun hmem => ha (List.mem_dedup.mp hmem)
        rw [List.cons_append, List.dedup_cons_of_mem (by simp), ih, List.erase_cons_head,
          List.erase_of_not_mem hout]
      · have hout : a ∉ us ++ [k] := by simp [ha, hk]
        rw [List.cons_append, List.dedup_cons_of_notMem hout, ih,
          List.erase_cons_tail (by simpa using hk), List.cons_append]

theorem recent_nil (n : ℕ) : Recent n ([] : List K) [] :=
  ⟨⟨[], rfl, fun _ => rfl⟩, Nat.zero_le n⟩

/-- The cache holds the `n` keys used last. -/
theorem Recent.eq_rtake {us : List K} (h : Recent n us l) : l = us.dedup.rtake n := by
  obtain ⟨old, hus, hold⟩ := h.suffix
  have hle := h.length_le
  rw [hus, List.rtake]
  by_cases hlt : l.length < n
  · rw [hold hlt, List.nil_append, Nat.sub_eq_zero_of_le hle, List.drop_zero]
  · have hn : (old ++ l).length - n = old.length := by
      rw [List.length_append]
      omega
    rw [hn, List.drop_left]

/-- A use of a key that the cache holds. -/
theorem Recent.bump {us : List K} (h : Recent n us l) {k : K} (hk : k ∈ l) :
    Recent n (us ++ [k]) (l.erase k ++ [k]) where
  suffix := by
    obtain ⟨old, hus, hold⟩ := h.suffix
    have hout : k ∉ old := fun hmem =>
      List.disjoint_of_nodup_append (hus ▸ us.nodup_dedup) hmem hk
    refine ⟨old, ?_, ?_⟩
    · rw [dedup_concat, hus, List.erase_append_right _ hout, List.append_assoc]
    · rw [length_bump hk]
      exact hold
  length_le := (length_bump hk).trans_le h.length_le

/-- A use of a new key: a full cache gives up the key used longest ago. -/
theorem Recent.use_new {us : List K} (h : Recent n us l) (hn : 0 < n) (p : P) {k : K}
    (hk : k ∉ l) : Recent n (us ++ [k]) (makeRoom (fun _ => p) n l ++ [k]) := by
  obtain ⟨old, hus, hold⟩ := h.suffix
  by_cases hlt : l.length < n
  · rw [hold hlt, List.nil_append] at hus
    rw [makeRoom, if_pos hlt]
    refine ⟨⟨[], ?_, fun _ => rfl⟩, ?_⟩
    · rw [dedup_concat, hus, List.erase_of_not_mem hk, List.nil_append]
    · rw [List.length_append, List.length_singleton]
      omega
  · cases l with
    | nil => exact absurd hn hlt
    | cons v t =>
      have hmin : (v :: t).argmin (fun _ => p) = some v :=
        @argmin_of_split K P _ (fun _ => p) [] t v (by simp) (by simp)
      have hle := h.length_le
      rw [List.length_cons] at hle hlt
      rw [makeRoom, if_neg (by simpa using hlt), hmin]
      dsimp only
      rw [List.erase_cons_head]
      refine ⟨⟨old.erase k ++ [v], ?_, fun hlt' => ?_⟩, ?_⟩
      · have herase : (old ++ v :: t).erase k = old.erase k ++ v :: t := by
          by_cases hmem : k ∈ old
          · exact List.erase_append_left _ hmem
          · rw [List.erase_append_right _ hmem, List.erase_of_not_mem hk,
              List.erase_of_not_mem hmem]
        rw [dedup_concat, hus, herase]
        simp
      · rw [List.length_append, List.length_singleton] at hlt'
        omega
      · rw [List.length_append, List.length_singleton]
        omega

/-- The key that an operation uses: a touch counts only while the key is there. -/
def usedKey (l : List K) : Op K → Option K
  | .use k => some k
  | .touch k => if k ∈ l then some k else none

theorem Recent.step {us : List K} (h : Recent n us l) (hn : 0 < n) (p : P) (op : Op K) :
    Recent n (us ++ (usedKey l op).toList) (step (fun _ => p) n l op) := by
  cases op with
  | use k =>
    simp only [RecencyCache.step, usedKey, Option.toList_some]
    split_ifs with hk
    · exact h.bump hk
    · exact h.use_new hn p hk
  | touch k =>
    simp only [RecencyCache.step, usedKey]
    split_ifs with hk
    · exact h.bump hk
    · rwa [Option.toList_none, List.append_nil]

end Dee.RecencyCache
