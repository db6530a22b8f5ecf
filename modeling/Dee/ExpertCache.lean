import Dee.HashCollections
import Dee.GuardedRuns

/-! The simulated expert pool of the Python pipeline, with look-ahead eviction. Ids are
only hashed and compared, so their type is arbitrary; all integers are unbounded. -/
namespace Dee

inductive OpKind
  | prefetch
  | fetchOnMiss
  | evict
  deriving DecidableEq, Repr

/-- An entry of the log `async_ops`. -/
structure AsyncOp (α : Type*) where
  kind : OpKind
  expert : α
  token : ℤ
  deriving DecidableEq, Repr

/-- Pairs compare by their first components, and by the second ones where these agree. -/
def pairLt (a b : ℤ × ℤ) : Prop := a.1 < b.1 ∨ a.1 = b.1 ∧ a.2 < b.2

instance : DecidableRel pairLt := fun a b =>
  inferInstanceAs (Decidable (a.1 < b.1 ∨ a.1 = b.1 ∧ a.2 < b.2))

/-- `min(l, key=f)`: of the items of lowest key, the first one met. -/
def firstMin {α : Type*} (f : α → ℤ × ℤ) (l : List α) : Option α :=
  l.foldl (fun best e =>
    match best with
    | none => some e
    | some b => if pairLt (f e) (f b) then some e else some b) none

theorem firstMin_eq_argmin {α : Type*} (f : α → ℤ × ℤ) (l : List α) :
    firstMin f l = l.argmin fun e => toLex (f e) := by
  rw [firstMin, List.argmin]
  congr 1
  funext best e
  cases best with
  | none => rfl
  | some b =>
    have hiff : pairLt (f e) (f b) ↔ toLex (f e) < toLex (f b) := Prod.Lex.toLex_lt_toLex.symm
    simp only [List.argAux, hiff]

theorem firstMin_eq_none {α : Type*} {f : α → ℤ × ℤ} {l : List α} :
    firstMin f l = none ↔ l = [] := by
  rw [firstMin_eq_argmin, List.argmin_eq_none]

theorem firstMin_spec {α : Type*} {f : α → ℤ × ℤ} {l : List α} {v : α} (h : firstMin f l = some v) :
    v ∈ l ∧ ∀ u ∈ l, ¬ pairLt (f u) (f v) := by
  rw [firstMin_eq_argmin] at h
  refine ⟨List.argmin_mem h, fun u hu hlt => ?_⟩
  have hle := List.le_of_mem_argmin hu h
  exact absurd (Prod.Lex.toLex_lt_toLex.mpr hlt) (not_lt.mpr hle)

structure ExpertCache (α : Type*) where
  capacity : ℤ
  topKPred : ℤ
  vram : UnorderedSet α
  lastUsed : UnorderedMap α ℤ
  loadCount : UnorderedMap α ℕ
  prefetchCount : UnorderedMap α ℕ
  asyncOps : List (AsyncOp α)
  /-- the position of each expert in the predicted list -/
  lookaheadRank : UnorderedMap α ℕ
  clock : ℕ

structure ExpertCacheStats where
  vramSize : ℕ
  totalLoads : ℕ
  totalPrefetches : ℕ
  nAsyncOps : ℕ
  deriving DecidableEq, Repr

namespace ExpertCache
variable {α : Type*}

/-- A new cache; `order` is the iteration order of its set of residents. -/
def init (order : IterationOrder α Unit) (capacity topKPred : ℤ) : ExpertCache α :=
  ⟨capacity, topKPred, .empty order, .dict α ℤ, .dict α ℕ, .dict α ℕ, [], .dict α ℕ, 0⟩

def stats (c : ExpertCache α) : ExpertCacheStats :=
  ⟨c.vram.members.length, (c.loadCount.entries.map Prod.snd).sum,
    (c.prefetchCount.entries.map Prod.snd).sum, c.asyncOps.length⟩

variable [DecidableEq α]

def contains (c : ExpertCache α) (e : α) : Bool := decide (e ∈ c.vram.members)

/-- `{e: i for i, e in enumerate(predicted_ids)}` -/
def rankOf (predictedIds : List α) : UnorderedMap α ℕ :=
  predictedIds.zipIdx.foldl (fun m p => m.assign p.1 p.2) (.dict α ℕ)

def setLookaheadRanked (c : ExpertCache α) (predictedIds : List α) : ExpertCache α :=
  { c with lookaheadRank := rankOf predictedIds }

def keepScore (c : ExpertCache α) (e : α) : ℤ × ℤ :=
  (match c.lookaheadRank.find? e with
    | none => -1
    | some r => c.topKPred - r,
  (c.lastUsed.find? e).getD 0)

def log (c : ExpertCache α) (kind : OpKind) (e : α) (token : ℤ) : ExpertCache α :=
  { c with asyncOps := c.asyncOps ++ [⟨kind, e, token⟩] }

def evict (c : ExpertCache α) (token : ℤ) : Option α × ExpertCache α :=
  match firstMin c.keepScore c.vram.members with
  | none => (none, c)
  | some victim =>
    (some victim, ({ c with vram := c.vram.discard victim }).log .evict victim token)

/-- The capacity test before a load. -/
def makeRoom (c : ExpertCache α) (token : ℤ) : ExpertCache α :=
  if c.capacity ≤ c.vram.members.length then (c.evict token).2 else c

def advance (c : ExpertCache α) : ExpertCache α := { c with clock := c.clock + 1 }

def load (c : ExpertCache α) (e : α) : ExpertCache α :=
  { c with
    vram := c.vram.add e
    loadCount := c.loadCount.assign e ((c.loadCount.find? e).getD 0 + 1) }

def countPrefetch (c : ExpertCache α) (e : α) : ExpertCache α :=
  { c with prefetchCount := c.prefetchCount.assign e ((c.prefetchCount.find? e).getD 0 + 1) }

def use (c : ExpertCache α) (e : α) (token : ℤ) : ExpertCache α :=
  { c with lastUsed := c.lastUsed.assign e token }

def prefetch (c : ExpertCache α) (e : α) (token : ℤ) : ExpertCache α :=
  let c := c.advance
  let c := if e ∈ c.vram.members then c else (c.makeRoom token).load e
  ((c.countPrefetch e).use e token).log .prefetch e token

/-- One round of the loop of `prefetch_delta`. -/
def prefetchMissing (token : ℤ) (c : ExpertCache α) (e : α) : ExpertCache α :=
  let c := (c.advance.makeRoom token).load e
  ((c.countPrefetch e).use e token).log .prefetch e token

/-- The missing experts are listed before the first of them is loaded. -/
def prefetchDelta (c : ExpertCache α) (predictedIds : List α) (token : ℤ) :
    List α × ExpertCache α :=
  let missing := predictedIds.filter fun e => e ∉ c.vram.members
  (missing, missing.foldl (prefetchMissing token) c)

def requestExpert (c : ExpertCache α) (e : α) (token : ℤ) : Bool × ExpertCache α :=
  let c := c.advance
  if e ∈ c.vram.members then (true, c.use e token)
  else (false, (((c.makeRoom token).load e).use e token).log .fetchOnMiss e token)

inductive Op (α : Type*)
  | setLookaheadRanked (predictedIds : List α)
  | prefetch (e : α) (token : ℤ)
  | prefetchDelta (predictedIds : List α) (token : ℤ)
  | requestExpert (e : α) (token : ℤ)
  | evict (token : ℤ)

def step (c : ExpertCache α) : Op α → ExpertCache α
  | .setLookaheadRanked ids => c.setLookaheadRanked ids
  | .prefetch e t => c.prefetch e t
  | .prefetchDelta ids t => (c.prefetchDelta ids t).2
  | .requestExpert e t => (c.requestExpert e t).2
  | .evict t => (c.evict t).2

/-- The two outcomes of `evict`: nothing is resident, or an expert of lowest keep score goes. -/
theorem evict_cases (c : ExpertCache α) (token : ℤ) :
    (c.vram.members = [] ∧ c.evict token = (none, c)) ∨
    ∃ v ∈ c.vram.members, (∀ u ∈ c.vram.members, ¬ pairLt (c.keepScore u) (c.keepScore v)) ∧
      c.evict token = (some v, ({ c with vram := c.vram.discard v }).log .evict v token) := by
  unfold evict
  cases hv : firstMin c.keepScore c.vram.members with
  | none => exact Or.inl ⟨firstMin_eq_none.mp hv, rfl⟩
  | some v =>
    obtain ⟨hmem, hmin⟩ := firstMin_spec hv
    exact Or.inr ⟨v, hmem, hmin, rfl⟩

/-- What `makeRoom` does to a nonempty cache: nothing, or one eviction when it is full. -/
theorem makeRoom_cases (c : ExpertCache α) (token : ℤ) :
    ((c.vram.members.length : ℤ) < c.capacity ∧ c.makeRoom token = c) ∨
    (c.capacity ≤ c.vram.members.length ∧ c.makeRoom token = (c.evict token).2) := by
  unfold makeRoom
  split_ifs with h
  · exact Or.inr ⟨h, rfl⟩
  · exact Or.inl ⟨not_le.mp h, rfl⟩

theorem mem_makeRoom {c : ExpertCache α} {token : ℤ} {e : α}
    (h : e ∈ (c.advance.makeRoom token).vram.members) : e ∈ c.vram.members := by
  rcases c.advance.makeRoom_cases token with ⟨-, he⟩ | ⟨-, he⟩
  · rwa [he] at h
  · rw [he] at h
    rcases c.advance.evict_cases token with ⟨-, hev⟩ | ⟨v, -, -, hev⟩
    · rwa [hev] at h
    · rw [hev] at h
      exact (UnorderedSet.mem_discard.mp h).1

/-- A round of the delta prefetch brings in no other expert. -/
theorem not_mem_prefetchMissing {c : ExpertCache α} {e f : α} {token : ℤ} (hne : f ≠ e)
    (hno : f ∉ c.vram.members) : f ∉ (prefetchMissing token c e).vram.members := by
  intro hm
  rcases UnorderedSet.mem_add.mp hm with h | h
  · exact hne h
  · exact hno (mem_makeRoom h)

theorem prefetch_of_mem {c : ExpertCache α} {e : α} (token : ℤ) (he : e ∈ c.vram.members) :
    c.prefetch e token = ((c.advance.countPrefetch e).use e token).log .prefetch e token := by
  simp only [prefetch, advance, he, if_true]

/-- A prefetch of a missing expert is a round of the delta prefetch. -/
theorem prefetch_of_not_mem {c : ExpertCache α} {e : α} (token : ℤ) (he : e ∉ c.vram.members) :
    c.prefetch e token = prefetchMissing token c e := by
  simp only [prefetch, prefetchMissing, advance, he, if_false]

/-- The two outcomes of `request_expert`. -/
theorem requestExpert_cases (c : ExpertCache α) (e : α) (token : ℤ) :
    (e ∈ c.vram.members ∧ c.requestExpert e token = (true, c.advance.use e token)) ∨
    (e ∉ c.vram.members ∧ c.requestExpert e token =
      (false, (((c.advance.makeRoom token).load e).use e token).log .fetchOnMiss e token)) := by
  by_cases he : e ∈ c.vram.members
  · exact Or.inl ⟨he, by simp only [requestExpert, advance, he, if_true]⟩
  · refine Or.inr ⟨he, ?_⟩
    simp only [requestExpert, advance, he, if_false]

/-- Below the capacity a prefetch of a missing expert adds it and evicts nothing. -/
theorem prefetch_of_room {c : ExpertCache α} {e : α} (token : ℤ) (he : e ∉ c.vram.members)
    (hroom : (c.vram.members.length : ℤ) < c.capacity) :
    (c.prefetch e token).vram = c.vram.add e ∧
      (c.prefetch e token).asyncOps = c.asyncOps ++ [⟨.prefetch, e, token⟩] := by
  have hm : c.advance.makeRoom token = c.advance := if_neg (not_le.mpr hroom)
  rw [prefetch_of_not_mem token he, prefetchMissing, hm]
  exact ⟨rfl, rfl⟩

/-- What only `set_lookahead_ranked` changes. -/
def config (c : ExpertCache α) : ℤ × ℤ × UnorderedMap α ℕ :=
  (c.capacity, c.topKPred, c.lookaheadRank)

theorem config_evict (c : ExpertCache α) (token : ℤ) : (c.evict token).2.config = c.config := by
  rcases c.evict_cases token with ⟨-, he⟩ | ⟨v, -, -, he⟩
  · rw [he]
  · rw [he]
    rfl

theorem config_makeRoom (c : ExpertCache α) (token : ℤ) :
    (c.makeRoom token).config = c.config := by
  rcases c.makeRoom_cases token with ⟨-, he⟩ | ⟨-, he⟩
  · rw [he]
  · rw [he]
    exact c.config_evict token

theorem config_prefetchMissing (c : ExpertCache α) (e : α) (token : ℤ) :
    (prefetchMissing token c e).config = c.config :=
  c.advance.config_makeRoom token

theorem config_prefetch (c : ExpertCache α) (e : α) (token : ℤ) :
    (c.prefetch e token).config = c.config := by
  by_cases he : e ∈ c.vram.members
  · rw [prefetch_of_mem token he]
    rfl
  · rw [prefetch_of_not_mem token he]
    exact c.config_prefetchMissing e token

theorem config_prefetchDelta (c : ExpertCache α) (ids : List α) (token : ℤ) :
    (c.prefetchDelta ids token).2.config = c.config := by
  simp only [prefetchDelta]
  generalize ids.filter (fun e => e ∉ c.vram.members) = missing
  induction missing generalizing c with
  | nil => rfl
  | cons e missing ih => exact (ih _).trans (c.config_prefetchMissing e token)

theorem config_requestExpert (c : ExpertCache α) (e : α) (token : ℤ) :
    (c.requestExpert e token).2.config = c.config := by
  rcases c.requestExpert_cases e token with ⟨-, he⟩ | ⟨-, he⟩ <;> rw [he]
  · rfl
  · exact c.advance.config_makeRoom token

/-- The capacity and the width of the prediction never change. -/
theorem step_config (c : ExpertCache α) (op : Op α) :
    (c.step op).capacity = c.capacity ∧ (c.step op).topKPred = c.topKPred := by
  have hproj : ∀ c' : ExpertCache α, c'.config = c.config →
      c'.capacity = c.capacity ∧ c'.topKPred = c.topKPred :=
    fun c' h => ⟨congrArg Prod.fst h, congrArg (fun x => x.2.1) h⟩
  cases op with
  | setLookaheadRanked ids => exact ⟨rfl, rfl⟩
  | prefetch e t => exact hproj _ (c.config_prefetch e t)
  | prefetchDelta ids t => exact hproj _ (c.config_prefetchDelta ids t)
  | requestExpert e t => exact hproj _ (c.config_requestExpert e t)
  | evict t => exact hproj _ (c.config_evict t)

end ExpertCache
end Dee
