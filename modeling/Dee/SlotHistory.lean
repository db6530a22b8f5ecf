import Dee.SlotRecency

/-! What the calls so far tell about the slot cache: when a key was last used and which
priority was captured when it was loaded. They fix the victim of the next eviction, in
whatever order the map is iterated. -/
namespace Dee.SlotCache
open GuardedRuns

/-- An accepted call: it loads an expert with the priority of this moment, or it uses a
cached one. -/
inductive Event (P : Type*)
  | load (k : ExpertKey) (priority : P)
  | use (k : ExpertKey)

def Event.key {P : Type*} : Event P → ExpertKey
  | .load k _ => k
  | .use k => k

/-- The time of the last use of a key; a log has its newest event first. -/
def lastUse {P : Type*} : List (Event P) → ExpertKey → ℕ
  | [], _ => 0
  | e :: log, k => if e.key = k then log.length + 1 else lastUse log k

/-- The priority captured at the last load of a key. -/
def priorityAtLoad {P : Type*} : List (Event P) → ExpertKey → Option P
  | [], _ => none
  | .load k' p :: log, k => if k' = k then some p else priorityAtLoad log k
  | .use _ :: log, k => priorityAtLoad log k

theorem lastUse_cons_self {P : Type*} (e : Event P) (log : List (Event P)) {k : ExpertKey}
    (h : e.key = k) : lastUse (e :: log) k = log.length + 1 := if_pos h

theorem lastUse_cons_ne {P : Type*} (e : Event P) (log : List (Event P)) {k : ExpertKey}
    (h : e.key ≠ k) : lastUse (e :: log) k = lastUse log k := if_neg h

namespace VramCacheManager
variable {P : Type*}

/-- The cached key of lowest captured priority; among several the one used longest ago. -/
def IsVictim [LT P] (log : List (Event P)) (c : VramCacheManager P) (v : ExpertKey) : Prop :=
  c.contains v = true ∧ ∃ p, priorityAtLoad log v = some p ∧
    ∀ k, c.contains k = true → k ≠ v → ∃ q, priorityAtLoad log k = some q ∧
      (p < q ∨ p = q ∧ lastUse log v < lastUse log k)

section History
variable [LT P] [DecidableLT P] [BEq P]

/-- What a call adds to the log; a touch of an absent key and a call that throws add nothing. -/
def event (c : VramCacheManager P) : Op → Option (Event P)
  | .acquire k n =>
    match c.acquire k n with
    | .ok (r, _) => some (if r.hit then .use k else
        .load k (c.oracle (c.clock + 1) k.layer k.expert))
    | .error _ => none
  | .touch k => if c.contains k then some (.use k) else none

/-- The log after some more calls. -/
def history (c : VramCacheManager P) (log : List (Event P)) : List Op → List (Event P)
  | [] => log
  | op :: ops => history (c.step op) ((c.event op).toList ++ log) ops

end History

/-- The stamps and the priorities of the map are those of the log. -/
structure Recorded (log : List (Event P)) (c : VramCacheManager P) : Prop where
  clock_eq : c.clock = log.length
  lastUse_eq : ∀ k ce, c.cached.find? k = some ce → lastUse log k = ce.lastUsed
  priority_eq : ∀ k ce, c.cached.find? k = some ce → priorityAtLoad log k = some ce.priority

variable {log : List (Event P)} {c d : VramCacheManager P} {slotBytes : ℕ} {numSlots : ℤ}

theorem Recorded.renew (h : Recorded log c) (k : ExpertKey) :
    Recorded (.use k :: log) (c.renew k) where
  clock_eq := by
    rw [List.length_cons, ← h.clock_eq]
    rfl
  lastUse_eq := by
    intro k' ce hce
    rw [VramCacheManager.renew, UnorderedMap.find?_modify] at hce
    by_cases hk : k' = k
    · rw [if_pos hk, Option.map_eq_some_iff] at hce
      obtain ⟨w, -, rfl⟩ := hce
      rw [lastUse_cons_self (.use k) log hk.symm, ← h.clock_eq]
    · rw [if_neg hk] at hce
      rw [lastUse_cons_ne (.use k) log (Ne.symm hk)]
      exact h.lastUse_eq k' ce hce
  priority_eq := by
    intro k' ce hce
    rw [VramCacheManager.renew, UnorderedMap.find?_modify] at hce
    rw [priorityAtLoad]
    split_ifs at hce
    · obtain ⟨w, hw, rfl⟩ := Option.map_eq_some_iff.mp hce
      exact h.priority_eq k' w hw
    · exact h.priority_eq k' ce hce

theorem Recorded.drop (h : Recorded log c) (v : CachedExpert P) : Recorded log (c.drop v) where
  clock_eq := h.clock_eq
  lastUse_eq := by
    intro k' ce hce
    rw [find?_drop] at hce
    split_ifs at hce
    exact h.lastUse_eq k' ce hce
  priority_eq := by
    intro k' ce hce
    rw [find?_drop] at hce
    split_ifs at hce
    exact h.priority_eq k' ce hce

theorem Recorded.place (h : Recorded log c) {k : ExpertKey} (hk : c.cached.find? k = none)
    (slot n : ℕ) :
    Recorded (.load k (c.oracle (c.clock + 1) k.layer k.expert) :: log) (c.place k slot n) where
  clock_eq := by
    rw [List.length_cons, ← h.clock_eq]
    rfl
  lastUse_eq := by
    intro k' ce hce
    rw [find?_place hk] at hce
    by_cases hk' : k' = k
    · rw [if_pos hk', Option.some.injEq] at hce
      rw [lastUse_cons_self (.load k _) log hk'.symm, ← hce, ← h.clock_eq]
      rfl
    · rw [if_neg hk'] at hce
      rw [lastUse_cons_ne (.load k _) log (Ne.symm hk')]
      exact h.lastUse_eq k' ce hce
  priority_eq := by
    intro k' ce hce
    rw [find?_place hk] at hce
    rw [priorityAtLoad]
    by_cases hk' : k' = k
    · rw [if_pos hk', Option.some.injEq] at hce
      rw [if_pos hk'.symm, ← hce]
      rfl
    · rw [if_neg hk'] at hce
      rw [if_neg (Ne.symm hk')]
      exact h.priority_eq k' ce hce

theorem construct_recorded {order : IterationOrder ExpertKey (CachedExpert P)}
    {malloc : ℕ → ℕ} {oracle : ℕ → Int32 → Int32 → P}
    (h : construct order malloc oracle slotBytes numSlots = .ok c) : Recorded [] c := by
  obtain ⟨-, arena, rfl⟩ := construct_cases h
  refine ⟨rfl, fun k ce hce => ?_, fun k ce hce => ?_⟩
  · rw [UnorderedMap.find?_eq_some] at hce
    cases hce
  · rw [UnorderedMap.find?_eq_some] at hce
    cases hce

variable [LinearOrder P]

theorem Recorded.step (h : Recorded log c) (hinv : Inv slotBytes numSlots c) (hpos : 0 < numSlots)
    (op : Op) : Recorded ((c.event op).toList ++ log) (c.step op) := by
  cases op with
  | touch k =>
    rcases touch_cases c k with ⟨hk, he⟩ | ⟨hk, he⟩
    · rw [VramCacheManager.step, he, event, if_pos hk]
      exact h.renew k
    · rw [VramCacheManager.step, he, event, hk]
      exact h
  | acquire k n =>
    by_cases hn : n ≤ c.slotBytes
    · rcases hinv.partition.acquire_cases (hinv.numSlots_eq ▸ hpos) k hn with
        ⟨ce, hf, he⟩ | ⟨slot, rest, hf, hl, he⟩ | ⟨v, hf, hl, hv, he⟩
      · simp only [VramCacheManager.step, event, he]
        exact h.renew k
      · simp only [VramCacheManager.step, event, he]
        have hpop : Recorded log ({ c with freeList := rest } : VramCacheManager P) :=
          ⟨h.clock_eq, h.lastUse_eq, h.priority_eq⟩
        exact hpop.place hf slot n
      · simp only [VramCacheManager.step, event, he]
        have hnone : (c.drop v).cached.find? k = none := by
          rw [find?_drop, hf, ite_self]
        exact (h.drop v).place hnone v.slot n
    · have he : c.acquire k n =
          .error (.invalidArgument "VramCacheManager: expert_bytes exceeds slot_bytes") :=
        if_pos (not_le.mp hn)
      simp only [VramCacheManager.step, event, he]
      exact h

theorem Recorded.run (h : Recorded log c) (hinv : Inv slotBytes numSlots c) (hpos : 0 < numSlots)
    (ops : List Op) :
    Recorded (c.history log ops) (GuardedRuns.run VramCacheManager.step c ops) := by
  induction ops generalizing c log with
  | nil => exact h
  | cons op ops ih => exact ih (h.step hinv hpos op) (hinv.step hpos op)

/-! The victim -/

theorem findVictim_le {v : CachedExpert P} (hv : c.findVictim = some v) {k : ExpertKey}
    {ce : CachedExpert P} (hce : (k, ce) ∈ c.cached.entries) :
    toLex (v.priority, v.lastUsed) ≤ toLex (ce.priority, ce.lastUsed) := by
  rw [findVictim_eq_argmin] at hv
  have hle := List.le_of_mem_argmin (List.mem_map_of_mem (f := Prod.snd) hce) hv
  exact hle

/-- No other entry has the rank of the victim, since no other has its stamp. -/
theorem Partition.findVictim_lt {spare : List ℕ} (h : Partition spare c) {v : CachedExpert P}
    (hv : c.findVictim = some v) {k : ExpertKey} {ce : CachedExpert P}
    (hce : (k, ce) ∈ c.cached.entries) (hne : k ≠ v.key) :
    toLex (v.priority, v.lastUsed) < toLex (ce.priority, ce.lastUsed) := by
  refine (findVictim_le hv hce).lt_of_ne fun heq => ?_
  have hstamp : v.lastUsed = ce.lastUsed := congrArg (fun x => (ofLex x).2) heq
  exact hne (h.stamps_inj _ hce _ (h.findVictim_mem hv) hstamp.symm)

theorem Recorded.isVictim (h : Recorded log c) {spare : List ℕ} (hpart : Partition spare c)
    {v : CachedExpert P} (hv : c.findVictim = some v) : IsVictim log c v.key := by
  have hfind : c.cached.find? v.key = some v :=
    UnorderedMap.find?_eq_some.mpr (hpart.findVictim_mem hv)
  refine ⟨by rw [contains, hfind, Option.isSome_some], v.priority, h.priority_eq _ v hfind,
    fun k hk hne => ?_⟩
  obtain ⟨ce, hce⟩ := Option.isSome_iff_exists.mp hk
  refine ⟨ce.priority, h.priority_eq k ce hce, ?_⟩
  rw [h.lastUse_eq _ v hfind, h.lastUse_eq k ce hce]
  exact Prod.Lex.toLex_lt_toLex.mp
    (hpart.findVictim_lt hv (UnorderedMap.find?_eq_some.mp hce) hne)

/-- What an eviction does: the victim goes and is named, and the new key takes its slot. -/
theorem Recorded.acquire_victim (h : Recorded log c) (hinv : Inv slotBytes numSlots c)
    (hpos : 0 < numSlots) {k : ExpertKey} {n : ℕ} {r : AcquireResult} {c' : VramCacheManager P}
    (hacq : c.acquire k n = .ok (r, c')) :
    (c.contains k = false → c.freeList = [] → ∃ v, Evicts c c' v) ∧
      ∀ v, Evicts c c' v → IsVictim log c v ∧ c'.lastEvicted = v ∧ (r.slot : ℤ) = c.slotOf v ∧
        c'.slotOf k = c.slotOf v := by
  have hposc : 0 < c.numSlots := hinv.numSlots_eq ▸ hpos
  have hn : n ≤ c.slotBytes := by
    by_contra hlt
    rw [acquire, if_pos (not_le.mp hlt)] at hacq
    cases hacq
  rcases hinv.partition.acquire_cases hposc k hn with
    ⟨ce, hf, he⟩ | ⟨slot, rest, hf, hl, he⟩ | ⟨v, hf, hl, hv, he⟩
  · rw [he] at hacq
    cases hacq
    refine ⟨fun hk => ?_, fun v hv => absurd hv ((keeps_renew c k).2 v)⟩
    rw [contains, hf] at hk
    cases hk
  · rw [he] at hacq
    cases hacq
    have hcached : ({ c with freeList := rest } : VramCacheManager P).cached = c.cached := rfl
    refine ⟨fun _ hnil => ?_, fun v hv => absurd hv ((keeps_place hf hcached slot n).2 v)⟩
    rw [hl] at hnil
    cases hnil
  · rw [he] at hacq
    cases hacq
    have hnone : (c.drop v).cached.find? k = none := by
      rw [find?_drop, hf, ite_self]
    have hmem := UnorderedMap.find?_eq_some.mpr (hinv.partition.findVictim_mem hv)
    have hcontains : c.contains v.key = true := by rw [contains, hmem, Option.isSome_some]
    have hslot : c.slotOf v.key = v.slot := by rw [slotOf, hmem]
    refine ⟨fun _ _ => ⟨v.key, hcontains, ?_⟩, fun w hw => ?_⟩
    · have hne := find?_isSome_of_contains hf hcontains
      rw [contains, find?_place hnone, if_neg hne, find?_drop, if_pos rfl, Option.isSome_none]
    · obtain rfl := (keeps_drop_place hf v v.slot n).2 w hw
      refine ⟨h.isVictim hinv.partition hv, rfl, hslot.symm, ?_⟩
      rw [hslot, slotOf, find?_place hnone, if_pos rfl]
      rfl

/-! Two iteration orders -/

/-- The same cache, up to the order in which the map is iterated. -/
def Agree (c d : VramCacheManager P) : Prop :=
  ∃ m, d = { c with cached := m } ∧ ∀ k, m.find? k = c.cached.find? k

omit [LinearOrder P] in
theorem construct_agree {order order' : IterationOrder ExpertKey (CachedExpert P)}
    {malloc : ℕ → ℕ} {oracle : ℕ → Int32 → Int32 → P}
    (hc : construct order malloc oracle slotBytes numSlots = .ok c)
    (hd : construct order' malloc oracle slotBytes numSlots = .ok d) : Agree c d := by
  unfold construct at hc hd
  split_ifs at hc with hn hs
  rw [if_neg hn, if_neg hs] at hd
  dsimp only at hc hd
  split_ifs at hc with ha
  rw [if_neg ha] at hd
  cases hc
  cases hd
  exact ⟨_, rfl, fun _ => rfl⟩

omit [LinearOrder P] in
theorem Agree.renew (h : Agree c d) (k : ExpertKey) : Agree (c.renew k) (d.renew k) := by
  obtain ⟨m, rfl, hm⟩ := h
  refine ⟨_, rfl, fun k' => ?_⟩
  simp only [VramCacheManager.renew, UnorderedMap.find?_modify, hm]

omit [LinearOrder P] in
theorem Agree.drop (h : Agree c d) (v : CachedExpert P) : Agree (c.drop v) (d.drop v) := by
  obtain ⟨m, rfl, hm⟩ := h
  refine ⟨_, rfl, fun k' => ?_⟩
  simp only [VramCacheManager.drop, UnorderedMap.find?_erase, hm]

omit [LinearOrder P] in
theorem Agree.place (h : Agree c d) {k : ExpertKey} (hk : c.cached.find? k = none)
    (slot n : ℕ) : Agree (c.place k slot n) (d.place k slot n) := by
  obtain ⟨m, rfl, hm⟩ := h
  refine ⟨_, rfl, fun k' => ?_⟩
  have hk' : m.find? k = none := (hm k).trans hk
  simp only [VramCacheManager.place, UnorderedMap.find?_assign _ hk,
    UnorderedMap.find?_assign _ hk', hm]
  rfl

/-- Both scans end at the same expert. -/
theorem Agree.findVictim_eq (h : Agree c d) {spare spare' : List ℕ} (hc : Partition spare c)
    (hd : Partition spare' d) : d.findVictim = c.findVictim := by
  obtain ⟨m, rfl, hm⟩ := h
  have hmem : ∀ k ce, (k, ce) ∈ m.entries ↔ (k, ce) ∈ c.cached.entries := fun k ce => by
    rw [← UnorderedMap.find?_eq_some, hm, UnorderedMap.find?_eq_some]
  cases hw : ({ c with cached := m } : VramCacheManager P).findVictim with
  | none =>
    have hnil : m.entries = [] := findVictim_eq_none hw
    cases hv : c.findVictim with
    | none => rfl
    | some v =>
      have hin := (hmem _ _).mpr (hc.findVictim_mem hv)
      rw [hnil] at hin
      cases hin
  | some w =>
    have hwc := (hmem _ _).mp (hd.findVictim_mem hw)
    cases hv : c.findVictim with
    | none =>
      rw [findVictim_eq_none hv] at hwc
      cases hwc
    | some v =>
      have hvc := hc.findVictim_mem hv
      have hkey : w.key = v.key := by
        by_contra hne
        exact (hc.findVictim_lt hv hwc hne).not_ge (findVictim_le hw ((hmem _ _).mpr hvc))
      have hwv : (v.key, w) ∈ c.cached.entries := hkey ▸ hwc
      rw [c.cached.entry_unique hwv hvc]

theorem Agree.takeSlot (h : Agree c d) (hc : Partition c.freeList c)
    (hd : Partition d.freeList d) :
    (∃ e, c.takeSlot = .error e ∧ d.takeSlot = .error e) ∨
      ∃ slot c₁ d₁, c.takeSlot = .ok (slot, c₁) ∧ d.takeSlot = .ok (slot, d₁) ∧ Agree c₁ d₁ ∧
        ∀ k, c.cached.find? k = none → c₁.cached.find? k = none := by
  have hvictim := h.findVictim_eq hc hd
  have hfree : d.freeList = c.freeList := by
    obtain ⟨m, rfl, -⟩ := h
    rfl
  unfold VramCacheManager.takeSlot
  rw [hfree]
  cases hl : c.freeList with
  | cons slot rest =>
    refine Or.inr ⟨slot, _, _, rfl, rfl, ?_, fun _ hk => hk⟩
    obtain ⟨m, rfl, hm⟩ := h
    exact ⟨m, rfl, hm⟩
  | nil =>
    unfold evictVictim
    rw [hvictim]
    cases hv : c.findVictim with
    | none => exact Or.inl ⟨_, rfl, rfl⟩
    | some v =>
      refine Or.inr ⟨_, _, _, rfl, rfl, h.drop v, fun k hk => ?_⟩
      rw [find?_drop, hk, ite_self]

/-- The same call throws in both caches, or it gives the same result. -/
theorem Agree.acquire (h : Agree c d) (hc : Partition c.freeList c) (hd : Partition d.freeList d)
    (k : ExpertKey) (n : ℕ) :
    (∃ e, c.acquire k n = .error e ∧ d.acquire k n = .error e) ∨
      ∃ r c' d', c.acquire k n = .ok (r, c') ∧ d.acquire k n = .ok (r, d') ∧ Agree c' d' := by
  have htake := h.takeSlot hc hd
  have hfields : d.slotBytes = c.slotBytes ∧ d.slotPtr = c.slotPtr := by
    obtain ⟨m, rfl, -⟩ := h
    exact ⟨rfl, rfl⟩
  have hfind : d.cached.find? k = c.cached.find? k := by
    obtain ⟨m, rfl, hm⟩ := h
    exact hm k
  unfold VramCacheManager.acquire
  rw [hfields.1, hfields.2, hfind]
  by_cases hn : c.slotBytes < n
  · rw [if_pos hn, if_pos hn]
    exact Or.inl ⟨_, rfl, rfl⟩
  · rw [if_neg hn, if_neg hn]
    cases hf : c.cached.find? k with
    | some ce => exact Or.inr ⟨_, _, _, rfl, rfl, h.renew k⟩
    | none =>
      rcases htake with ⟨e, hec, hed⟩ | ⟨slot, c₁, d₁, hec, hed, h₁, hnone⟩
      · rw [hec, hed]
        exact Or.inl ⟨e, rfl, rfl⟩
      · rw [hec, hed]
        exact Or.inr ⟨_, _, _, rfl, rfl, h₁.place (hnone k hf) slot n⟩

theorem Agree.step (h : Agree c d) (hc : Partition c.freeList c) (hd : Partition d.freeList d)
    (op : Op) : Agree (c.step op) (d.step op) := by
  cases op with
  | touch k =>
    obtain ⟨m, rfl, hm⟩ := id h
    simp only [VramCacheManager.step, touch, hm]
    cases c.cached.find? k with
    | none => exact h
    | some ce => exact h.renew k
  | acquire k n =>
    rcases h.acquire hc hd k n with ⟨e, hec, hed⟩ | ⟨r, c', d', hec, hed, h'⟩
    · simp only [VramCacheManager.step, hec, hed]
      exact h
    · simp only [VramCacheManager.step, hec, hed]
      exact h'

theorem Agree.run (h : Agree c d) (hc : Inv slotBytes numSlots c) (hd : Inv slotBytes numSlots d)
    (hpos : 0 < numSlots) (ops : List Op) :
    Agree (GuardedRuns.run VramCacheManager.step c ops)
      (GuardedRuns.run VramCacheManager.step d ops) := by
  induction ops generalizing c d with
  | nil => exact h
  | cons op ops ih =>
    exact ih (h.step hc.partition hd.partition op) (hc.step hpos op) (hd.step hpos op)

/-! Equal priorities -/

/-- The keys of a log, the oldest event first. -/
def usedKeys (log : List (Event P)) : List ExpertKey := (log.map Event.key).reverse

/-- The event of a call is the use that the recency cache sees. -/
theorem Ordered.usedKeys_event {prio : Int32 → Int32 → P} {l : List ExpertKey}
    (h : Ordered prio c l) (hinv : Inv slotBytes numSlots c) (hpos : 0 < numSlots)
    (log : List (Event P)) (op : Op) : usedKeys ((c.event op).toList ++ log) = usedKeys log ++
      ((keyOp slotBytes op).bind (RecencyCache.usedKey l)).toList := by
  cases op with
  | touch k =>
    simp only [event, keyOp, Option.bind_some, RecencyCache.usedKey, h.mem_iff]
    split_ifs
    · simp [usedKeys, Event.key]
    · simp [usedKeys]
  | acquire k n =>
    by_cases hn : n ≤ slotBytes
    · obtain ⟨r, c', he, -, -⟩ := h.acquire hinv hpos k hn
      simp only [event, he, keyOp, if_pos hn, Option.bind_some, RecencyCache.usedKey]
      split_ifs <;> simp [usedKeys, Event.key]
    · have he : c.acquire k n =
          .error (.invalidArgument "VramCacheManager: expert_bytes exceeds slot_bytes") :=
        if_pos (hinv.slotBytes_eq ▸ not_le.mp hn)
      simp [event, he, keyOp, if_neg hn]

/-- With one priority for all experts the cached keys are those used last. -/
theorem Ordered.run_recent {p : P} {l : List ExpertKey} (h : Ordered (fun _ _ => p) c l)
    (hinv : Inv slotBytes numSlots c) (hpos : 0 < numSlots)
    (hrecent : RecencyCache.Recent numSlots.toNat (usedKeys log) l) (ops : List Op) :
    ∃ l', Ordered (fun _ _ => p) (GuardedRuns.run VramCacheManager.step c ops) l' ∧
      RecencyCache.Recent numSlots.toNat (usedKeys (c.history log ops)) l' := by
  induction ops generalizing c log l with
  | nil => exact ⟨l, h, hrecent⟩
  | cons op ops ih =>
    refine ih (h.step hinv hpos op) (hinv.step hpos op) ?_
    rw [h.usedKeys_event hinv hpos log op]
    cases keyOp slotBytes op with
    | none => simpa using hrecent
    | some kop => exact hrecent.step (Int.pos_iff_toNat_pos.mp hpos) p kop

/-- After every run the victim of an eviction is fixed by the calls so far, results do not
depend on the iteration order, and with equal priorities the cache holds the keys used last. -/
theorem run_victim {order order' : IterationOrder ExpertKey (CachedExpert P)} {malloc : ℕ → ℕ}
    {oracle : ℕ → Int32 → Int32 → P} {c₀ d₀ : VramCacheManager P}
    (hc : construct order malloc oracle slotBytes numSlots = .ok c₀)
    (hd : construct order' malloc oracle slotBytes numSlots = .ok d₀) (ops : List Op) :
    let c := run step c₀ ops
    let d := run step d₀ ops
    let log := c₀.history [] ops
    (∀ k n r c', c.acquire k n = .ok (r, c') →
      (c.contains k = false → c.freeList = [] → ∃ v, Evicts c c' v) ∧
        ∀ v, Evicts c c' v → IsVictim log c v ∧ c'.lastEvicted = v ∧
          (r.slot : ℤ) = c.slotOf v ∧ c'.slotOf k = c.slotOf v) ∧
      (d.lastEvicted = c.lastEvicted ∧
        ∀ k n, (d.acquire k n).map Prod.fst = (c.acquire k n).map Prod.fst) ∧
      ((∃ p, ∀ t layer expert, oracle t layer expert = p) →
        ∀ k, c.contains k = true ↔ k ∈ (usedKeys log).dedup.rtake numSlots.toNat) := by
  intro c d log
  obtain ⟨hpos, hcinv₀⟩ := construct_inv hc
  obtain ⟨-, hdinv₀⟩ := construct_inv hd
  have hcinv : Inv slotBytes numSlots c := run_inv hcinv₀ hpos ops
  have hdinv : Inv slotBytes numSlots d := run_inv hdinv₀ hpos ops
  have hrec : Recorded log c := (construct_recorded hc).run hcinv₀ hpos ops
  have hagree : Agree c d := (construct_agree hc hd).run hcinv₀ hdinv₀ hpos ops
  refine ⟨fun k n r c' hacq => hrec.acquire_victim hcinv hpos hacq, ⟨?_, fun k n => ?_⟩, ?_⟩
  · obtain ⟨m, hm, -⟩ := hagree
    rw [hm]
  · rcases hagree.acquire hcinv.partition hdinv.partition k n with
      ⟨e, hec, hed⟩ | ⟨r, c', d', hec, hed, -⟩
    · rw [hec, hed]
    · rw [hec, hed]
      rfl
  · intro ⟨p, hp⟩ k
    have hord : oracle = fun _ _ _ => p := by
      funext t layer expert
      exact hp t layer expert
    rw [hord] at hc
    have hnil : RecencyCache.Recent numSlots.toNat (usedKeys ([] : List (Event P))) [] :=
      RecencyCache.recent_nil numSlots.toNat
    obtain ⟨l, hl, hrecent⟩ := (construct_ordered hc).run_recent hcinv₀ hpos hnil ops
    rw [← hl.mem_iff, hrecent.eq_rtake]

/-- Two slots and one priority, in two iteration orders. -/
theorem run_victim_two_slots :
    ∃ c₀ d₀ : VramCacheManager ℤ,
      construct (.newestFirst _ _) (fun _ => 100) (fun _ _ _ => 0) 8 2 = .ok c₀ ∧
      construct ⟨fun _ l => l.reverse, fun _ l => l.reverse_perm⟩ (fun _ => 100)
        (fun _ _ _ => 0) 8 2 = .ok d₀ ∧
      let ops := [.acquire ⟨0, 0⟩ 8, .acquire ⟨0, 1⟩ 8, .touch ⟨0, 0⟩, .acquire ⟨0, 2⟩ 8]
      (run step d₀ ops).lastEvicted = (run step c₀ ops).lastEvicted ∧
        ∀ k, (run step c₀ ops).contains k = true ↔
          k ∈ (usedKeys (c₀.history [] ops)).dedup.rtake 2 := by
  have hc : construct (.newestFirst _ _) (fun _ => 100) (fun _ _ _ => 0) 8 2 =
    .ok (⟨fun _ _ _ => 0, 8, 2, 100, [0, 1], .empty (.newestFirst _ _), 0, ⟨-1, -1⟩⟩ :
      VramCacheManager ℤ) := rfl
  have hd : construct ⟨fun _ l => l.reverse, fun _ l => l.reverse_perm⟩ (fun _ => 100)
      (fun _ _ _ => 0) 8 2 =
    .ok (⟨fun _ _ _ => 0, 8, 2, 100, [0, 1],
      .empty ⟨fun _ l => l.reverse, fun _ l => l.reverse_perm⟩, 0, ⟨-1, -1⟩⟩ :
      VramCacheManager ℤ) := rfl
  obtain ⟨-, ⟨hlast, -⟩, hrecent⟩ := run_victim hc hd
    [.acquire ⟨0, 0⟩ 8, .acquire ⟨0, 1⟩ 8, .touch ⟨0, 0⟩, .acquire ⟨0, 2⟩ 8]
  exact ⟨_, _, hc, hd, hlast, hrecent ⟨0, fun _ _ _ => rfl⟩⟩

end VramCacheManager
end Dee.SlotCache
