import Dee.Arena
import Dee.UnorderedMap
import Dee.GuardedRuns

/-! The VRAM cache manager: expert blocks carved out of the arena and evicted by
lowest `last_used + priority * 2^20`. Ticks are unbounded integers and scores never
leave the 64-bit range of the source for 32-bit priorities. -/
namespace Dee

structure ExpertKey where
  layer : Int32
  expert : Int32
  deriving DecidableEq, Repr

structure ExpertBlock where
  key : ExpertKey
  ptr : ℕ
  offset : ℕ
  size : ℕ
  lastUsed : ℤ
  priority : ℤ
  resident : Bool
  deriving DecidableEq, Repr

namespace ExpertBlock

def span (b : ExpertBlock) : Span := ⟨b.offset, b.size⟩

def priorityWeight : ℤ := 2 ^ 20

def evictionScore (b : ExpertBlock) : ℤ := b.lastUsed + b.priority * priorityWeight

end ExpertBlock

structure CacheStats where
  ensures : ℕ
  hits : ℕ
  loads : ℕ
  evictions : ℕ
  fallbacks : ℕ
  deriving DecidableEq, Repr

structure VramCacheManager where
  arena : Arena
  blocks : UnorderedMap ExpertKey ExpertBlock
  tick : ℤ
  stats : CacheStats

namespace VramCacheManager

abbrev Order := IterationOrder ExpertKey ExpertBlock

/-- A default-constructed manager; `order` is the iteration order of its hash map. -/
def fresh (order : Order) : VramCacheManager :=
  ⟨Arena.fresh, .empty order, 0, ⟨0, 0, 0, 0, 0⟩⟩

def init (c : VramCacheManager) (budget : ℕ) (be : Backend) : Bool × VramCacheManager :=
  let r := c.arena.init budget be
  (r.1, { c with arena := r.2 })

def isResident (c : VramCacheManager) (k : ExpertKey) : Bool :=
  match c.blocks.find? k with
  | some b => b.resident
  | none => false

/-- The address of a resident block, or the null pointer. -/
def data (c : VramCacheManager) (k : ExpertKey) : ℕ :=
  match c.blocks.find? k with
  | some b => if b.resident then b.ptr else 0
  | none => 0

/-- The recorded size of a resident block, or 0. -/
def sizeOf (c : VramCacheManager) (k : ExpertKey) : ℕ :=
  match c.blocks.find? k with
  | some b => if b.resident then b.size else 0
  | none => 0

/-- The scan over the map for the resident block of lowest score; the first one met wins. -/
def findVictim (c : VramCacheManager) : Option (ExpertKey × ExpertBlock) :=
  c.blocks.entries.foldl (fun victim e =>
    if e.2.resident then
      match victim with
      | none => some e
      | some v => if e.2.evictionScore < v.2.evictionScore then some e else some v
    else victim) none

def evict (c : VramCacheManager) (e : ExpertKey × ExpertBlock) : VramCacheManager :=
  { c with
    arena := c.arena.free e.2.offset e.2.size
    blocks := (c.blocks.modify e.1 fun b => { b with resident := false, ptr := 0 }).erase e.2.key
    stats := { c.stats with evictions := c.stats.evictions + 1 } }

/-- The eviction loop; each round removes one block, so the number of blocks is enough fuel. -/
def evictLoop (need : ℕ) : ℕ → VramCacheManager → VramCacheManager
  | 0, c => c
  | fuel + 1, c =>
    if c.arena.freeSpace < need ∧ c.blocks.entries ≠ [] then
      match c.findVictim with
      | none => c
      | some e => evictLoop need fuel (c.evict e)
    else c

def evictUntilFree (c : VramCacheManager) (need : ℕ) : VramCacheManager :=
  evictLoop need c.blocks.entries.length c

/-- A hit refreshes the tick and the priority of the block. -/
def refresh (c : VramCacheManager) (k : ExpertKey) (priority : ℤ) : VramCacheManager :=
  { c with
    blocks := c.blocks.modify k fun b => { b with lastUsed := c.tick + 1, priority := priority }
    tick := c.tick + 1
    stats := { c.stats with hits := c.stats.hits + 1 } }

def newBlock (c : VramCacheManager) (k : ExpertKey) (off nbytes : ℕ) (priority : ℤ) :
    ExpertBlock :=
  ⟨k, c.arena.base + off, off, nbytes, c.tick + 1, priority, true⟩

/-- Enter a block allocated at `off`. -/
def place (c : VramCacheManager) (k : ExpertKey) (off nbytes : ℕ) (priority : ℤ) :
    VramCacheManager :=
  { c with
    blocks := c.blocks.assign k (c.newBlock k off nbytes priority)
    tick := c.tick + 1
    stats := { c.stats with loads := c.stats.loads + 1 } }

def countEnsure (c : VramCacheManager) : VramCacheManager :=
  { c with stats := { c.stats with ensures := c.stats.ensures + 1 } }

def ensure (c : VramCacheManager) (k : ExpertKey) (nbytes : ℕ) (priority : ℤ) :
    Bool × VramCacheManager :=
  let c₁ := c.countEnsure
  if c₁.isResident k then (true, c₁.refresh k priority)
  else
    let c₂ := c₁.evictUntilFree nbytes
    let r := c₂.arena.alloc nbytes
    let c₃ := { c₂ with arena := r.2 }
    if r.1 = npos then (false, c₃) else (true, c₃.place k r.1 nbytes priority)

def touch (c : VramCacheManager) (k : ExpertKey) : VramCacheManager :=
  if c.isResident k then
    { c with
      blocks := c.blocks.modify k fun b => { b with lastUsed := c.tick + 1 }
      tick := c.tick + 1 }
  else c

def countFallback (c : VramCacheManager) : VramCacheManager :=
  { c with stats := { c.stats with fallbacks := c.stats.fallbacks + 1 } }

def syncFallback (c : VramCacheManager) (k : ExpertKey) (nbytes : ℕ) (priority : ℤ) :
    Bool × VramCacheManager :=
  if c.isResident k then (true, c) else c.countFallback.ensure k nbytes priority

/-- Give every resident block back to the arena, in iteration order, and forget the map. -/
def clear (c : VramCacheManager) : VramCacheManager :=
  { c with
    arena := c.blocks.entries.foldl
      (fun a e => if e.2.resident then a.free e.2.offset e.2.size else a) c.arena
    blocks := c.blocks.clear
    tick := 0 }

def residentCount (c : VramCacheManager) : ℕ :=
  (c.blocks.entries.filter fun e => e.2.resident).length

def usedBytes (c : VramCacheManager) : ℕ := c.arena.used

/-- The public operations that change a manager. -/
inductive Op
  | ensure (k : ExpertKey) (nbytes : ℕ) (priority : ℤ)
  | syncFallback (k : ExpertKey) (nbytes : ℕ) (priority : ℤ)
  | touch (k : ExpertKey)
  | clear
  deriving DecidableEq

def step (c : VramCacheManager) : Op → VramCacheManager
  | .ensure k n p => (c.ensure k n p).2
  | .syncFallback k n p => (c.syncFallback k n p).2
  | .touch k => c.touch k
  | .clear => c.clear

end VramCacheManager
end Dee
