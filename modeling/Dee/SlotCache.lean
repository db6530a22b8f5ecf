import Dee.VramCache

/-! The slot-based VRAM cache manager: one arena of equal slots, a stack of free ones,
and eviction of the lowest priority, ties by least recent use. Priorities need no order:
comparisons with a NaN are all false. The clock is an unbounded natural number. -/
namespace Dee.SlotCache
open GuardedRuns

/-- What a call throws, or the null victim that `evict_victim` must never dereference. -/
inductive Fault
  | invalidArgument (what : String)
  | badAlloc
  | nullVictim
  deriving DecidableEq

structure CachedExpert (P : Type*) where
  key : ExpertKey
  slot : ℕ
  bytes : ℕ
  lastUsed : ℕ
  priority : P

/-- The oracle may answer differently at each call: its first argument is the clock. The
free list starts with the back of the vector. -/
structure VramCacheManager (P : Type*) where
  oracle : ℕ → Int32 → Int32 → P
  slotBytes : ℕ
  numSlots : ℤ
  arena : ℕ
  freeList : List ℕ
  cached : UnorderedMap ExpertKey (CachedExpert P)
  clock : ℕ
  lastEvicted : ExpertKey

structure AcquireResult where
  ptr : ℕ
  slot : ℕ
  hit : Bool
  deriving DecidableEq

namespace VramCacheManager
variable {P : Type*}

/-- The countdown loop over the slots below `n`, each pushed to the back. -/
def pushSlots : ℕ → List ℕ → List ℕ
  | 0, freeList => freeList
  | n + 1, freeList => pushSlots n (n :: freeList)

/-- The constructor; a device allocation returns an address or the null pointer. -/
def construct (order : IterationOrder ExpertKey (CachedExpert P)) (deviceMalloc : ℕ → ℕ)
    (oracle : ℕ → Int32 → Int32 → P) (slotBytes : ℕ) (numSlots : ℤ) :
    Except Fault (VramCacheManager P) :=
  if numSlots ≤ 0 then .error (.invalidArgument "VramCacheManager: num_slots must be > 0")
  else if slotBytes = 0 then .error (.invalidArgument "VramCacheManager: slot_bytes must be > 0")
  else
    let arena := deviceMalloc (slotBytes * numSlots.toNat % 2 ^ 64)
    if arena = 0 then .error .badAlloc
    else .ok ⟨oracle, slotBytes, numSlots, arena, pushSlots numSlots.toNat [], .empty order, 0,
      ⟨-1, -1⟩⟩

def slotPtr (c : VramCacheManager P) (slot : ℕ) : ℕ := c.arena + slot * c.slotBytes % 2 ^ 64

def contains (c : VramCacheManager P) (k : ExpertKey) : Bool := (c.cached.find? k).isSome

def slotOf (c : VramCacheManager P) (k : ExpertKey) : ℤ :=
  match c.cached.find? k with
  | none => -1
  | some ce => ce.slot

/-- `it->second.last_used = ++clock_`. -/
def renew (c : VramCacheManager P) (k : ExpertKey) : VramCacheManager P :=
  { c with
    cached := c.cached.modify k fun ce => { ce with lastUsed := c.clock + 1 }
    clock := c.clock + 1 }

def touch (c : VramCacheManager P) (k : ExpertKey) : VramCacheManager P :=
  match c.cached.find? k with
  | none => c
  | some _ => c.renew k

def newExpert (c : VramCacheManager P) (k : ExpertKey) (slot bytes : ℕ) : CachedExpert P :=
  ⟨k, slot, bytes, c.clock + 1, c.oracle (c.clock + 1) k.layer k.expert⟩

/-- Enter an expert into a slot that is its own. -/
def place (c : VramCacheManager P) (k : ExpertKey) (slot bytes : ℕ) : VramCacheManager P :=
  { c with cached := c.cached.assign k (c.newExpert k slot bytes), clock := c.clock + 1 }

/-- The victim leaves the map; its slot is about to be reused. -/
def drop (c : VramCacheManager P) (v : CachedExpert P) : VramCacheManager P :=
  { c with cached := c.cached.erase v.key, lastEvicted := v.key }

theorem contains_iff {c : VramCacheManager P} {k : ExpertKey} :
    c.contains k = true ↔ ∃ ce, (k, ce) ∈ c.cached.entries := by
  simp only [contains, Option.isSome_iff_exists, UnorderedMap.find?_eq_some]

theorem pushSlots_eq (n : ℕ) (freeList : List ℕ) :
    pushSlots n freeList = List.range n ++ freeList := by
  induction n generalizing freeList with
  | zero => rfl
  | succ n ih => rw [pushSlots, ih, List.range_succ, List.append_assoc, List.singleton_append]

theorem construct_cases {order : IterationOrder ExpertKey (CachedExpert P)} {malloc : ℕ → ℕ}
    {oracle : ℕ → Int32 → Int32 → P} {slotBytes : ℕ} {numSlots : ℤ} {c : VramCacheManager P}
    (h : construct order malloc oracle slotBytes numSlots = .ok c) :
    0 < numSlots ∧ ∃ arena, c = ⟨oracle, slotBytes, numSlots, arena,
      List.range numSlots.toNat, .empty order, 0, ⟨-1, -1⟩⟩ := by
  unfold construct at h
  split_ifs at h with hn
  dsimp only at h
  split_ifs at h
  refine ⟨not_le.mp hn, malloc (slotBytes * numSlots.toNat % 2 ^ 64), ?_⟩
  rw [← Except.ok.inj h, pushSlots_eq, List.append_nil]

theorem contains_congr {c c' : VramCacheManager P} {k : ExpertKey}
    (h : c'.cached.find? k = c.cached.find? k) : c'.contains k = c.contains k := by
  rw [contains, contains, h]

theorem contains_renew (c : VramCacheManager P) (k k' : ExpertKey) :
    (c.renew k).contains k' = c.contains k' := by
  simp only [contains, renew, UnorderedMap.find?_modify]
  split_ifs with hk
  · rw [Option.isSome_map]
  · rfl

theorem slotOf_renew (c : VramCacheManager P) (k k' : ExpertKey) :
    (c.renew k).slotOf k' = c.slotOf k' := by
  simp only [slotOf, renew, UnorderedMap.find?_modify]
  split_ifs with hk
  · cases c.cached.find? k' <;> rfl
  · rfl

theorem find?_place {c : VramCacheManager P} {k : ExpertKey} (h : c.cached.find? k = none)
    (slot n : ℕ) (k' : ExpertKey) : (c.place k slot n).cached.find? k' =
      if k' = k then some (c.newExpert k slot n) else c.cached.find? k' :=
  UnorderedMap.find?_assign _ h k'

theorem find?_drop (c : VramCacheManager P) (v : CachedExpert P) (k' : ExpertKey) :
    (c.drop v).cached.find? k' = if k' = v.key then none else c.cached.find? k' :=
  UnorderedMap.find?_erase _ _ _

/-- What `renew` leaves of an entry. -/
theorem mem_renew {c : VramCacheManager P} {k : ExpertKey} {e : ExpertKey × CachedExpert P}
    (he : e ∈ (c.renew k).cached.entries) :
    ∃ w, (e.1, w) ∈ c.cached.entries ∧ e.2.key = w.key ∧ e.2.slot = w.slot ∧
      e.2.priority = w.priority ∧ e.2.lastUsed = if e.1 = k then c.clock + 1 else w.lastUsed := by
  obtain ⟨w, hw, hv⟩ := UnorderedMap.mem_modify.mp (show (e.1, e.2) ∈ _ from he)
  refine ⟨w, hw, ?_⟩
  rw [hv]
  split_ifs <;> simp

variable [LT P] [DecidableLT P] [BEq P]

/-- Lower priority, or equal priority and used longer ago. -/
def Before (a b : CachedExpert P) : Prop :=
  a.priority < b.priority ∨ a.priority == b.priority ∧ a.lastUsed < b.lastUsed

instance (a b : CachedExpert P) : Decidable (Before a b) :=
  inferInstanceAs (Decidable (_ ∨ _ ∧ _))

/-- The scan over the map for the expert to evict; the first one met wins. -/
def findVictim (c : VramCacheManager P) : Option (CachedExpert P) :=
  c.cached.entries.foldl (fun victim kv =>
    match victim with
    | none => some kv.2
    | some v => if Before kv.2 v then some kv.2 else some v) none

def evictVictim (c : VramCacheManager P) : Except Fault (ℕ × VramCacheManager P) :=
  match c.findVictim with
  | none => .error .nullVictim
  | some v => .ok (v.slot, c.drop v)

/-- A slot for a new expert: the back of the free list, or the slot of the victim. -/
def takeSlot (c : VramCacheManager P) : Except Fault (ℕ × VramCacheManager P) :=
  match c.freeList with
  | slot :: rest => .ok (slot, { c with freeList := rest })
  | [] => c.evictVictim

def acquire (c : VramCacheManager P) (k : ExpertKey) (expertBytes : ℕ) :
    Except Fault (AcquireResult × VramCacheManager P) :=
  if c.slotBytes < expertBytes then
    .error (.invalidArgument "VramCacheManager: expert_bytes exceeds slot_bytes")
  else
    match c.cached.find? k with
    | some ce => .ok (⟨c.slotPtr ce.slot, ce.slot, true⟩, c.renew k)
    | none =>
      match c.takeSlot with
      | .error e => .error e
      | .ok (slot, c₁) => .ok (⟨c.slotPtr slot, slot, false⟩, c₁.place k slot expertBytes)

inductive Op
  | acquire (k : ExpertKey) (expertBytes : ℕ)
  | touch (k : ExpertKey)
  deriving DecidableEq

/-- A call that throws leaves the manager as it was. -/
def step (c : VramCacheManager P) : Op → VramCacheManager P
  | .acquire k n =>
    match c.acquire k n with
    | .ok r => r.2
    | .error _ => c
  | .touch k => c.touch k

theorem findVictim_foldl (l : List (ExpertKey × CachedExpert P)) (o : Option (CachedExpert P)) :
    let r := l.foldl (fun victim kv =>
      match victim with
      | none => some kv.2
      | some v => if Before kv.2 v then some kv.2 else some v) o
    (r = none → o = none ∧ l = []) ∧ ∀ v, r = some v → o = some v ∨ ∃ k, (k, v) ∈ l := by
  induction l generalizing o with
  | nil => simp
  | cons kv l ih =>
    obtain ⟨hnone, hsome⟩ := ih (match o with
      | none => some kv.2
      | some v => if Before kv.2 v then some kv.2 else some v)
    refine ⟨fun hr => ?_, fun v hr => ?_⟩
    · have ho := (hnone hr).1
      cases o with
      | none => cases ho
      | some v => dsimp only at ho; split_ifs at ho
    · rcases hsome v hr with ho | ⟨k, hk⟩
      · cases o with
        | none =>
          obtain rfl := Option.some.inj ho
          exact Or.inr ⟨kv.1, by simp⟩
        | some w =>
          dsimp only at ho
          split_ifs at ho
          · obtain rfl := Option.some.inj ho
            exact Or.inr ⟨kv.1, by simp⟩
          · exact Or.inl ho
      · exact Or.inr ⟨k, by simp [hk]⟩

theorem findVictim_eq_none {c : VramCacheManager P} (h : c.findVictim = none) :
    c.cached.entries = [] := ((findVictim_foldl c.cached.entries none).1 h).2

end VramCacheManager
end Dee.SlotCache
