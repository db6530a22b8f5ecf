import Dee.ShardHeader

/-! The state of a mapper around `open`. The system calls answer with a descriptor, a size
and a mapping; what one of them has set stays set when a later step fails. -/
namespace Dee
open ByteText Json LittleEndian

/-- Where `mmap` put a file, and the memory behind it. -/
structure Mapping where
  addr : ℕ
  bytes : ℕ → UInt8
  addr_pos : 0 < addr

/-- How the system calls of `map_file` answer; `none` is a call that fails. -/
structure SystemCalls where
  openFd : ℤ
  fstat : Option ℤ
  mmap : Option Mapping

/-- The members of a mapper; a null base is `none`. -/
structure Mapper where
  fd : ℤ
  base : Option Mapping
  size : ℕ
  headerJson : String
  tensors : String → Option TensorMeta

namespace Mapper

def close (_ : Mapper) : Mapper := ⟨-1, none, 0, "", fun _ => none⟩

def isOpen (m : Mapper) : Bool := decide (0 ≤ m.fd)

/-- `map_file`; when it returns `true` there is a mapping. -/
def mapFile (sys : SystemCalls) (m : Mapper) : Option Mapping × Mapper :=
  let m := { m with fd := sys.openFd }
  if m.fd < 0 then (none, m)
  else
    match sys.fstat with
    | none => (none, m)
    | some stSize =>
      let m := { m with size := toSize stSize }
      if m.size < 8 then (none, m)
      else
        match sys.mmap with
        | none => (none, { m with base := none })
        | some b => (some b, { m with base := some b })

section Definitions
variable {F : Type*} (stod : String → Option F)

def parseHeaderJson (m : Mapper) (json : String) : Except Throw (Bool × Mapper) :=
  match parse stod json with
  | .error t => .error t
  | .ok (.object obj, true) => .ok (true, { m with tensors := obj.foldl register m.tensors })
  | .ok _ => .ok (false, m)

/-- The header text in the mapping; `none` for a bad length. -/
def readHeader (size : ℕ) (b : Mapping) : Except Throw (Option String) :=
  let hlen := readDouble b.bytes 0
  if hlen = 0 ∨ size < szAdd 8 hlen then .ok none
  else if 2 ^ 63 ≤ hlen then .error .lengthError
  else .ok (some (ofBytes ((List.range hlen).map fun i => b.bytes (8 + i))))

/-- The two overloads of `open`, which differ in where the header text is from. -/
def openHeader (header : ℕ → Mapping → Except Throw (Option String)) (sys : SystemCalls)
    (m : Mapper) : Except Throw (Bool × Mapper) :=
  match mapFile sys m.close with
  | (none, m) => .ok (false, m)
  | (some b, m) =>
    match header m.size b with
    | .error t => .error t
    | .ok none => .ok (false, m)
    | .ok (some json) => parseHeaderJson stod { m with headerJson := json } json

/-- `open(path)` -/
def openFile : SystemCalls → Mapper → Except Throw (Bool × Mapper) := openHeader stod readHeader

/-- `open(path, json_header)` -/
def openWith (jsonHeader : String) : SystemCalls → Mapper → Except Throw (Bool × Mapper) :=
  openHeader stod fun _ _ => .ok (some jsonHeader)

end Definitions

variable {F : Type*} {stod : String → Option F}
  {header : ℕ → Mapping → Except Throw (Option String)} {sys : SystemCalls} {m m' : Mapper}

/-! The shard that a mapper gives -/

def shard (m : Mapper) : WeightMmap where
  base := m.base.elim 0 Mapping.addr
  file := m.base.elim (fun _ => 0) Mapping.bytes
  headerJson := m.headerJson
  tensors := m.tensors

/-- The system calls on a file that can be mapped. -/
def callsOn (fd : ℤ) (f : MappedFile) : SystemCalls :=
  ⟨fd, some f.size, some ⟨f.base, f.bytes, f.base_pos⟩⟩

theorem parseHeaderJson_shard (m : Mapper) (json : String) :
    (parseHeaderJson stod m json).map (fun r => (r.1, r.2.shard)) =
      WeightMmap.parseHeaderJson stod m.shard json := by
  unfold parseHeaderJson WeightMmap.parseHeaderJson
  rcases parse stod json with t | ⟨v, ok⟩
  · rfl
  · cases v <;> cases ok <;> rfl

/-- On such a file `open` does what the model of the data layer does. -/
theorem openFile_shard {fd : ℤ} (hfd : 0 ≤ fd) (f : MappedFile) (m : Mapper) :
    (openFile stod (callsOn fd f) m).map (fun r => (r.1, r.2.shard)) =
      (WeightMmap.openFile stod f).value := by
  have hlt := f.size_lt
  have hsize : toSize f.size = f.size := by
    unfold toSize
    omega
  unfold openFile openHeader mapFile WeightMmap.openFile callsOn
  simp only [if_neg hfd.not_gt, hsize]
  by_cases h8 : f.size < 8
  · rw [if_pos h8, if_pos h8]
    rfl
  rw [if_neg h8, if_neg h8, Traced.value_bind, Traced.value_double]
  unfold readHeader WeightMmap.assignHeader
  by_cases hbad : readDouble f.bytes 0 = 0 ∨ f.size < szAdd 8 (readDouble f.bytes 0)
  · simp only [if_pos hbad]
    rfl
  by_cases hthrow : 2 ^ 63 ≤ readDouble f.bytes 0
  · simp only [if_neg hbad, if_pos hthrow]
    rfl
  · simp only [if_neg hbad, if_neg hthrow, Traced.value_bind, Traced.value_bytes,
      Traced.value_pure]
    exact parseHeaderJson_shard _ _

/-! A failed `open` -/

structure Closed (m : Mapper) : Prop where
  isOpen : m.isOpen = false
  base : m.base = none
  tensors : m.tensors = fun _ => none

/-- Behind the descriptor something fails: `fstat`, the size, `mmap`, the length of the
header, or its text, which is not an object. -/
def Refused (stod : String → Option F) (header : ℕ → Mapping → Except Throw (Option String))
    (sys : SystemCalls) : Prop :=
  match sys.fstat with
  | none => True
  | some stSize => toSize stSize < 8 ∨
    match sys.mmap with
    | none => True
    | some b =>
      match header (toSize stSize) b with
      | .error _ => False
      | .ok none => True
      | .ok (some json) => ∃ v ok, parse stod json = .ok (v, ok) ∧ ¬ (v.isObject = true ∧ ok = true)

theorem parseHeaderJson_false_iff {json : String} :
    (∃ m', parseHeaderJson stod m json = .ok (false, m')) ↔
      ∃ v ok, parse stod json = .ok (v, ok) ∧ ¬ (v.isObject = true ∧ ok = true) := by
  unfold parseHeaderJson
  rcases parse stod json with t | ⟨v, ok⟩
  · simp
  · cases v <;> cases ok <;> simp [Value.isObject]

theorem parseHeaderJson_false {json : String}
    (h : parseHeaderJson stod m json = .ok (false, m')) : m' = m := by
  unfold parseHeaderJson at h
  split at h
  · cases h
  · cases h
  · cases h
    rfl

/-- `map_file` sets the descriptor, whatever comes of it. -/
theorem mapFile_spec (sys : SystemCalls) (m : Mapper) :
    (mapFile sys m.close).2.fd = sys.openFd ∧ (mapFile sys m.close).2.tensors = (fun _ => none) ∧
      (sys.openFd < 0 → (mapFile sys m.close).1 = none ∧ (mapFile sys m.close).2.base = none) := by
  unfold mapFile
  by_cases hfd : sys.openFd < 0
  · simp [hfd, close]
  simp only [if_neg hfd]
  cases sys.fstat with
  | none => exact ⟨rfl, rfl, fun hneg => absurd hneg hfd⟩
  | some stSize =>
    by_cases h8 : toSize stSize < 8
    · simp only [if_pos h8]
      exact ⟨trivial, rfl, fun hneg => absurd hneg hfd⟩
    · simp only [if_neg h8]
      cases sys.mmap <;> exact ⟨rfl, rfl, fun hneg => absurd hneg hfd⟩

/-- A failed `open` keeps the descriptor that it got, and has no tensors. -/
theorem openHeader_false (h : openHeader stod header sys m = .ok (false, m')) :
    m'.fd = sys.openFd ∧ m'.tensors = (fun _ => none) ∧ (sys.openFd < 0 → m'.base = none) := by
  obtain ⟨hfd, htensors, hneg⟩ := mapFile_spec sys m
  unfold openHeader at h
  rcases hmap : mapFile sys m.close with ⟨_ | b, m₁⟩
  · rw [hmap] at h hfd htensors hneg
    cases h
    exact ⟨hfd, htensors, fun hlt => (hneg hlt).2⟩
  · rw [hmap] at h hfd htensors hneg
    have hopen : ¬ sys.openFd < 0 := fun hlt => by cases (hneg hlt).1
    have hkeep : m'.fd = m₁.fd ∧ m'.tensors = m₁.tensors := by
      rcases hheader : header m₁.size b with t | ⟨_ | json⟩
      · simp only [hheader, reduceCtorEq] at h
      · simp only [hheader] at h
        cases h
        exact ⟨rfl, rfl⟩
      · simp only [hheader] at h
        rw [parseHeaderJson_false h]
        exact ⟨rfl, rfl⟩
    exact ⟨hkeep.1.trans hfd, hkeep.2.trans htensors, fun hlt => absurd hlt hopen⟩

/-- With a descriptor, `open` fails at one of these places. -/
theorem openHeader_false_iff (hfd : 0 ≤ sys.openFd) :
    (∃ m', openHeader stod header sys m = .ok (false, m')) ↔ Refused stod header sys := by
  unfold openHeader mapFile Refused
  simp only [if_neg hfd.not_gt]
  cases sys.fstat with
  | none => simp
  | some stSize =>
    by_cases h8 : toSize stSize < 8
    · simp [h8]
    simp only [if_neg h8]
    rw [or_iff_right h8]
    cases sys.mmap with
    | none => simp
    | some b =>
      rcases hheader : header (toSize stSize) b with t | ⟨_ | json⟩
      · simp only [hheader, reduceCtorEq, exists_false]
      · simp only [hheader, Except.ok.injEq, Prod.mk.injEq, true_and, exists_eq']
      · simp only [hheader]
        exact parseHeaderJson_false_iff

theorem openHeader_closed_iff (header : ℕ → Mapping → Except Throw (Option String)) (sys : SystemCalls)
    (m : Mapper) : (∀ m', openHeader stod header sys m = .ok (false, m') → m'.Closed) ↔
      sys.openFd < 0 ∨ ¬ Refused stod header sys := by
  constructor
  · intro h
    rw [or_iff_not_imp_left, not_lt]
    intro hfd hrefused
    obtain ⟨m', hm'⟩ := (openHeader_false_iff hfd).mpr hrefused
    have hopen := (h m' hm').isOpen
    rw [isOpen, (openHeader_false hm').1, decide_eq_true hfd] at hopen
    cases hopen
  · intro h m' hm'
    obtain ⟨hfd, htensors, hbase⟩ := openHeader_false hm'
    have hneg : sys.openFd < 0 := by
      by_contra hopen
      have hrefused := (openHeader_false_iff (not_lt.mp hopen)).mp ⟨m', hm'⟩
      exact h.elim hopen fun hno => hno hrefused
    exact ⟨by simp [isOpen, hfd, hneg], hbase hneg, htensors⟩

/-- A failed `open`, of either overload, leaves the mapper closed exactly when it is the
system's `open` that fails. -/
theorem open_failed_closed_iff (stod : String → Option F) (sys : SystemCalls) (m : Mapper) :
    ((∀ m', openFile stod sys m = .ok (false, m') → m'.Closed) ↔
      sys.openFd < 0 ∨ ¬ Refused stod readHeader sys) ∧
    ∀ json, (∀ m', openWith stod json sys m = .ok (false, m') → m'.Closed) ↔
      sys.openFd < 0 ∨ ¬ Refused stod (fun _ _ => .ok (some json)) sys :=
  ⟨openHeader_closed_iff _ sys m, fun _ => openHeader_closed_iff _ sys m⟩

/-- A file of eight zeros is refused for the length of its header, and stays open. -/
theorem openFile_refused_open : ¬ ∀ (stod : String → Option ℕ) (sys : SystemCalls)
    (m m' : Mapper), openFile stod sys m = .ok (false, m') → m'.Closed := by
  intro h
  have hclosed := (openHeader_closed_iff readHeader ⟨3, some 8, some ⟨4096, fun _ => 0, by decide⟩⟩
    ⟨-1, none, 0, "", fun _ => none⟩).mp (h (fun _ => none) _ _)
  rcases hclosed with hneg | hno
  · exact absurd hneg (by decide)
  · exact hno (Or.inr (by simp [readHeader, readDouble, readWord]))

end Mapper
end Dee
