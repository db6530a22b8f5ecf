import Dee.LoaderMembers

/-! What a loader is left with after `open`. `close` forgets the storages and the tensors,
not the pickle bytes; and the tensors are listed before the names of the pickle are checked. -/
namespace Dee
open ByteText LittleEndian OrderedMap PtLoader

/-- A loader with the path of its file. -/
structure PathLoader where
  path : String
  loader : PtLoader

namespace PtLoader
variable {inflate : List UInt8 → Inflated} {f : RawFile}

/-! The check at the end -/

/-- The names are checked after the tensors have been listed. -/
theorem parsePickle_cases (l : PtLoader) (pkl : List UInt8) :
    (found pkl = none ∧ parsePickle l pkl = none) ∨
      ∃ names, found pkl = some names ∧ ∃ accepted err,
        (accepted = false ↔ ∃ x ∈ names, Mismatch l.buffers.length x = true) ∧
        parsePickle l pkl = some (accepted, { l with
          err := err, tensors := assignAll l.tensors (canonical l.buffers.length) }) := by
  cases hfound : found pkl with
  | none => exact Or.inl ⟨rfl, by simp only [parsePickle, hfound]⟩
  | some names =>
    refine Or.inr ⟨names, rfl, ?_⟩
    have hnone := @List.find?_eq_none _ (Mismatch l.buffers.length) names
    cases hfind : names.find? (Mismatch l.buffers.length) with
    | none =>
      refine ⟨true, l.err, ?_, ?_⟩
      · have hall := hnone.mp hfind
        simpa using hall
      · simp only [parsePickle, hfound, hfind]
        rfl
    | some x =>
      have hbad : false = false ↔ ∃ x ∈ names, Mismatch l.buffers.length x = true :=
        iff_of_true rfl ⟨x, List.mem_of_find?_eq_some hfind, List.find?_some hfind⟩
      simp only [parsePickle, hfound, hfind]
      exact ⟨false, _, hbad, rfl⟩

theorem assignAll_canonical_eq_nil {n : ℕ} : assignAll [] (canonical n) = [] ↔ n = 0 := by
  constructor
  · intro h
    by_contra hn
    have hfirst : (tensorName 0, tensorOf 0) ∈ canonical n :=
      List.mem_map.mpr ⟨0, List.mem_range.mpr (Nat.pos_of_ne_zero hn), rfl⟩
    have hfind := find?_assignAll_of_mem (nodup_canonical n) hfirst []
    rw [h] at hfind
    cases hfind
  · rintro rfl
    rfl

/-- The storage of a mismatch is one of the storages. -/
theorem Mismatch.pos {n : ℕ} {x : Found} (h : Mismatch n x = true) : 0 < n := by
  simp only [Mismatch, Bool.and_eq_true, decide_eq_true_eq] at h
  omega

/-- What `open` does with the storages and the pickle bytes of a whole directory. -/
theorem finish_cases (err : String) (bs : List (ℤ × List UInt8)) (pkl : List UInt8) :
    (pkl = [] ∧ finish ⟨err, bs, [], pkl⟩ = some (false, ⟨err, bs, [], pkl⟩)) ∨
      (pkl ≠ [] ∧ found pkl = none ∧ finish ⟨err, bs, [], pkl⟩ = none) ∨
      (pkl ≠ [] ∧ ∃ names, found pkl = some names ∧ ∃ accepted err',
        (accepted = true ↔ bs ≠ [] ∧ ∀ x ∈ names, Mismatch bs.length x = false) ∧
        finish ⟨err, bs, [], pkl⟩ =
          some (accepted, ⟨err', bs, assignAll [] (canonical bs.length), pkl⟩)) := by
  by_cases hpkl : pkl = []
  · refine Or.inl ⟨hpkl, ?_⟩
    simp [finish, hpkl]
  refine Or.inr ?_
  obtain ⟨hfound, hparse⟩ | ⟨names, hfound, accepted, err', haccepted, hparse⟩ :=
    parsePickle_cases ⟨err, bs, [], pkl⟩ pkl
  · exact Or.inl ⟨hpkl, hfound, by simp [finish, hpkl, hparse]⟩
  refine Or.inr ⟨hpkl, names, hfound, ?_⟩
  have hnonempty : assignAll [] (canonical bs.length) ≠ [] ↔ bs ≠ [] := by
    rw [Ne, assignAll_canonical_eq_nil, List.length_eq_zero_iff]
  cases accepted with
  | true =>
    have hall : ∀ x ∈ names, Mismatch bs.length x = false := by simpa using haccepted
    refine ⟨decide (bs ≠ []), err', ?_, ?_⟩
    · rw [decide_eq_true_iff]
      exact ⟨fun h => ⟨h, hall⟩, And.left⟩
    · simp [finish, hpkl, hparse, hnonempty]
  | false =>
    refine ⟨false, err', ?_, ?_⟩
    · obtain ⟨x, hx, hmis⟩ := haccepted.mp rfl
      refine iff_of_false Bool.false_ne_true fun h => ?_
      have hno := h.2 x hx
      rw [hno] at hmis
      cases hmis
    · simp [finish, hpkl, hparse]

theorem finish_pklBytes {l l' : PtLoader} {b : Bool} (h : finish l = some (b, l')) :
    l'.pklBytes = l.pklBytes := by
  unfold finish at h
  by_cases hpkl : l.pklBytes = []
  · rw [if_neg (not_not.mpr hpkl)] at h
    cases h
    rfl
  rw [if_pos hpkl] at h
  obtain ⟨-, hparse⟩ | ⟨names, -, accepted, err, -, hparse⟩ := parsePickle_cases l l.pklBytes
  · rw [hparse] at h
    cases h
  · rw [hparse] at h
    cases accepted <;> cases h <;> rfl

/-! Small archives -/

def centralOf : ℕ → List ArchiveEntry → List UInt8
  | _, [] => []
  | off, x :: xs =>
    OracleScheduler.centralEntry 0 x.content.length off x.name ++
      centralOf (off + 30 + x.content.length) xs

/-- An archive that stores these entries. -/
def storedArchive (es : List ArchiveEntry) : List UInt8 :=
  let data := es.flatMap fun x => OracleScheduler.localHeader ++ x.content
  let central := centralOf 0 es
  data ++ central ++ [0x50, 0x4b, 5, 6] ++ List.replicate 6 0 ++
    OracleScheduler.numberBytes 2 es.length ++ OracleScheduler.numberBytes 4 central.length ++
    OracleScheduler.numberBytes 4 data.length ++ [0, 0]

/-- A pickle and no storage. -/
def pickleOnly : RawFile where
  size := (storedArchive [⟨pklName, OracleScheduler.onePickle⟩]).length
  bytes := fun i => (storedArchive [⟨pklName, OracleScheduler.onePickle⟩]).getD i 0
  size_lt := by decide +kernel

/-- One storage and no pickle. -/
def storageOnly : RawFile where
  size := (storedArchive [⟨storageName 0, []⟩]).length
  bytes := fun i => (storedArchive [⟨storageName 0, []⟩]).getD i 0
  size_lt := by decide

/-- A pickle that gives the only storage to another name. -/
def wrongPickle : List StringOp :=
  [⟨false, toBytes "net.0.bias", by decide⟩, ⟨false, toBytes "0", by decide⟩]

def wrongArchive : RawFile where
  size := (storedArchive [⟨pklName, encodeOps wrongPickle⟩, ⟨storageName 0, []⟩]).length
  bytes := fun i =>
    (storedArchive [⟨pklName, encodeOps wrongPickle⟩, ⟨storageName 0, []⟩]).getD i 0
  size_lt := by decide +kernel

/-! A failed `open` -/

/-- The file is read to the end of its directory, and the pickle that the loader then has
contradicts the table of names. -/
def Contradicts (inflate : List UInt8 → Inflated) (old : List UInt8) (f : RawFile) : Prop :=
  ∃ es, f.entries inflate = some es ∧ ∃ names, found (f.pickleAfter inflate old) = some names ∧
    ∃ x ∈ names, Mismatch (storages es).length x = true

theorem found_nil : found [] = some [] := by
  rw [found, scanNames, dif_neg (by simp)]

theorem readTensor_of_no_tensors {l : PtLoader} (h : l.tensors = []) :
    l.readTensor = fun _ => none := by
  funext name
  simp only [readTensor, h]
  rfl

/-- Whether a whole directory is refused at the check of the names. -/
theorem finish_tensors_iff (err : String) (bs : List (ℤ × List UInt8)) (pkl : List UInt8) :
    (∀ l, finish ⟨err, bs, [], pkl⟩ = some (false, l) → l.tensors = []) ↔
      ¬ ∃ names, found pkl = some names ∧ ∃ x ∈ names, Mismatch bs.length x = true := by
  obtain ⟨hpkl, hfinish⟩ | ⟨-, hfound, hfinish⟩ |
    ⟨-, names, hfound, accepted, err, haccepted, hfinish⟩ := finish_cases err bs pkl
  · rw [hfinish, hpkl, found_nil]
    simp
  · rw [hfinish, hfound]
    simp
  rw [hfinish, hfound]
  simp only [Option.some.injEq, Prod.mk.injEq, exists_eq_left']
  constructor
  · rintro h ⟨x, hx, hmis⟩
    have hfalse : accepted = false := by
      rw [← Bool.not_eq_true, haccepted]
      rintro ⟨-, hall⟩
      rw [hall x hx] at hmis
      cases hmis
    have hzero := assignAll_canonical_eq_nil.mp (h _ ⟨hfalse, rfl⟩)
    have hpos := Mismatch.pos hmis
    omega
  · rintro h l ⟨hfalse, rfl⟩
    refine assignAll_canonical_eq_nil.mpr ?_
    by_contra hne
    have htrue : accepted = true := by
      rw [haccepted]
      refine ⟨fun hnil => hne (by rw [hnil]; rfl), fun x hx => ?_⟩
      rw [← Bool.not_eq_true]
      exact fun hmis => h ⟨x, hx, hmis⟩
    rw [hfalse] at htrue
    cases htrue

theorem openFile_tensors_iff (l : PtLoader) :
    (∀ l', (openFile inflate l f).value = some (false, l') → l'.tensors = []) ↔
      ¬ Contradicts inflate l.pklBytes f := by
  unfold Contradicts
  cases hentries : f.entries inflate with
  | none =>
    refine iff_of_true (fun l' hl' => ?_) (by simp)
    obtain hnone | hfalse := openFile_of_no_entries hentries
    · rw [hnone] at hl'
      cases hl'
    · obtain ⟨l₁, hopen, htensors⟩ := hfalse l
      rw [hopen] at hl'
      cases hl'
      exact htensors
  | some es =>
    rw [openFile_of_entries hentries, finish_tensors_iff]
    simp only [Option.some.injEq, exists_eq_left']

end PtLoader

namespace PathLoader
variable {inflate : List UInt8 → Inflated}

/-- `open`; the path is set whatever comes of it. -/
def openFile (inflate : List UInt8 → Inflated) (o : PathLoader) (path : String) (f : RawFile) :
    Traced (Option (Bool × PathLoader)) := do
  let r ← PtLoader.openFile inflate o.loader f
  pure (r.map fun r => (r.1, ⟨path, r.2⟩))

def isOpen (o : PathLoader) : Bool := decide (o.path ≠ "") && decide (o.loader.tensors ≠ [])

/-- Nothing is open, and nothing can be read. -/
structure Closed (o : PathLoader) : Prop where
  isOpen : o.isOpen = false
  tensors : o.loader.tensors = []
  readTensor : ∀ name, o.loader.readTensor name = none

theorem closed_iff {o : PathLoader} : o.Closed ↔ o.loader.tensors = [] := by
  constructor
  · exact Closed.tensors
  · intro h
    refine ⟨by simp [isOpen, h], h, fun name => ?_⟩
    rw [readTensor_of_no_tensors h]

theorem openFile_value (o : PathLoader) (path : String) {f : RawFile} {b : Bool} {l : PtLoader}
    (h : (PtLoader.openFile inflate o.loader f).value = some (b, l)) :
    (o.openFile inflate path f).value = some (b, ⟨path, l⟩) := by
  simp only [openFile, Traced.value_bind, Traced.value_pure, h]
  rfl

/-- A failed `open` leaves nothing open, unless it fails at the check of the names. -/
theorem openFile_failed_closed_iff (o : PathLoader) (path : String) (f : RawFile) :
    (∀ o', (o.openFile inflate path f).value = some (false, o') → o'.Closed) ↔
      ¬ Contradicts inflate o.loader.pklBytes f := by
  rw [← openFile_tensors_iff]
  simp only [closed_iff]
  constructor
  · intro h l' hl'
    exact h ⟨path, l'⟩ (openFile_value o path hl')
  · intro h o' ho'
    obtain ⟨⟨b, l'⟩, hr, heq⟩ := Option.map_eq_some_iff.mp ho'
    cases heq
    exact h l' hr

theorem found_wrongPickle : found (encodeOps wrongPickle) = some [⟨"net.0.bias", 0⟩] := by
  have hstep : InStep wrongPickle := by
    unfold InStep
    decide
  have hnames : namesOf wrongPickle = [⟨"net.0.bias", 0⟩] := by decide
  rw [found_encode hstep, hnames]

/-- The tensor of the rejected file stays in the loader. -/
theorem openFile_failed_open : ¬ ∀ (inflate : List UInt8 → Inflated) (o : PathLoader)
    (path : String) (f : RawFile) (o' : PathLoader),
    (o.openFile inflate path f).value = some (false, o') → o'.Closed := by
  intro h
  have hall : ∀ inflate f, ¬ Contradicts inflate fresh.pklBytes f := by
    intro inflate f
    refine (openFile_tensors_iff fresh).mp fun l' hl' => ?_
    have hopen := openFile_value ⟨"", fresh⟩ "oracle.pt" hl'
    exact (h inflate ⟨"", fresh⟩ "oracle.pt" f _ hopen).tensors
  have hentries : wrongArchive.entries (fun _ => .error) =
      some [⟨pklName, encodeOps wrongPickle⟩, ⟨storageName 0, []⟩] := by decide +kernel
  have hpickle : wrongArchive.pickleAfter (fun _ => .error) fresh.pklBytes =
      encodeOps wrongPickle := by decide +kernel
  have hmis : Mismatch (storages [⟨pklName, encodeOps wrongPickle⟩, ⟨storageName 0, []⟩]).length
      ⟨"net.0.bias", 0⟩ = true := by decide
  refine hall (fun _ => .error) wrongArchive ⟨_, hentries, [⟨"net.0.bias", 0⟩], ?_, _,
    List.mem_singleton_self _, hmis⟩
  rw [hpickle]
  exact found_wrongPickle

end PathLoader

namespace PtLoader
variable {inflate : List UInt8 → Inflated}

/-! Opening a second file -/

/-- What a caller sees of an `open` and of the loader behind it. -/
def observe (r : Option (Bool × PtLoader)) :
    Option (Bool × List (String × PtTensor) × (String → Option (List UInt32))) :=
  r.map fun r => (r.1, r.2.tensors, r.2.readTensor)

/-- The pickle bytes `old` do not show when the file is opened. -/
def Forgotten (inflate : List UInt8 → Inflated) (old : List UInt8) (f : RawFile) : Prop :=
  old = [] ∨ ¬ ∃ es, f.entries inflate = some es ∧ (∀ x ∈ es, x.name ≠ pklName) ∧
    (storages es ≠ [] ∨ found old = none)

theorem observe_finish (err err' : String) (bs : List (ℤ × List UInt8)) (pkl : List UInt8) :
    observe (finish ⟨err, bs, [], pkl⟩) = observe (finish ⟨err', bs, [], pkl⟩) := by
  obtain ⟨hpkl, h⟩ | ⟨hpkl, hfound, h⟩ | ⟨hpkl, names, hfound, accepted, e, haccepted, h⟩ :=
    finish_cases err bs pkl <;>
  obtain ⟨hpkl', h'⟩ | ⟨hpkl', hfound', h'⟩ | ⟨hpkl', names', hfound', accepted', e', haccepted', h'⟩ :=
    finish_cases err' bs pkl
  · rw [h, h']
    rfl
  · exact absurd hpkl hpkl'
  · exact absurd hpkl hpkl'
  · exact absurd hpkl' hpkl
  · rw [h, h']
  · rw [hfound] at hfound'
    cases hfound'
  · exact absurd hpkl' hpkl
  · rw [hfound] at hfound'
    cases hfound'
  · rw [hfound] at hfound'
    cases hfound'
    rw [h, h', Bool.eq_iff_iff.mpr (haccepted.trans haccepted'.symm)]
    rfl

/-- With old pickle bytes and none in the file, the storages are listed and checked against
the old names. -/
theorem observe_finish_old (err err' : String) (bs : List (ℤ × List UInt8)) {old : List UInt8}
    (hold : old ≠ []) : observe (finish ⟨err, bs, [], old⟩) = observe (finish ⟨err', bs, [], []⟩) ↔
      ¬ (bs ≠ [] ∨ found old = none) := by
  have hempty : finish ⟨err', bs, [], []⟩ = some (false, ⟨err', bs, [], []⟩) := by simp [finish]
  obtain ⟨hpkl, -⟩ | ⟨-, hfound, h⟩ | ⟨-, names, hfound, accepted, e, haccepted, h⟩ :=
    finish_cases err bs old
  · exact absurd hpkl hold
  · rw [h, hempty, hfound]
    simp [observe]
  · rw [h, hempty, hfound]
    cases bs with
    | nil =>
      have hfalse : accepted = false := by simpa using haccepted
      refine iff_of_true ?_ (by simp)
      rw [hfalse]
      rfl
    | cons b bs =>
      refine iff_of_false (fun heq => ?_) (by simp)
      have htensors : assignAll [] (canonical (b :: bs).length) = [] :=
        congrArg (fun r => r.2.1) (Option.some.inj heq)
      have hzero := assignAll_canonical_eq_nil.mp htensors
      cases hzero

theorem observe_openFile_iff (l : PtLoader) (f : RawFile) :
    observe (openFile inflate l f).value = observe (openFile inflate fresh f).value ↔
      Forgotten inflate l.pklBytes f := by
  unfold Forgotten
  cases hentries : f.entries inflate with
  | none =>
    refine iff_of_true ?_ (by simp)
    obtain hnone | hfalse := openFile_of_no_entries hentries
    · rw [hnone, hnone]
    · obtain ⟨l₁, hopen₁, htensors₁⟩ := hfalse l
      obtain ⟨l₂, hopen₂, htensors₂⟩ := hfalse fresh
      rw [hopen₁, hopen₂]
      simp only [observe, Option.map_some, htensors₁, htensors₂,
        readTensor_of_no_tensors htensors₁, readTensor_of_no_tensors htensors₂]
  | some es =>
    obtain ⟨hsome, hnone⟩ := pickleAfter_entries hentries
    rw [openFile_of_entries hentries, openFile_of_entries hentries]
    simp only [Option.some.injEq, exists_eq_left']
    by_cases hpkl : ∃ x ∈ es, x.name = pklName
    · rw [hsome hpkl l.pklBytes fresh.pklBytes]
      refine iff_of_true (observe_finish _ _ _ _) (Or.inr fun h => ?_)
      obtain ⟨x, hx, hname⟩ := hpkl
      exact h.1 x hx hname
    · have hno : ∀ x ∈ es, x.name ≠ pklName := fun x hx hname => hpkl ⟨x, hx, hname⟩
      have hfresh : fresh.pklBytes = [] := rfl
      rw [hnone hno, hnone hno, hfresh, and_iff_right hno]
      by_cases hold : l.pklBytes = []
      · rw [hold]
        exact iff_of_true (observe_finish _ _ _ _) (Or.inl rfl)
      · rw [observe_finish_old _ _ _ hold, or_iff_right hold]

/-- The pickle bytes behind an `open`. -/
theorem openFile_pklBytes {l l' : PtLoader} {f : RawFile} {b : Bool}
    (h : (openFile inflate l f).value = some (b, l')) :
    l'.pklBytes = f.pickleAfter inflate l.pklBytes := by
  unfold RawFile.pickleAfter
  cases hmembers : f.members inflate with
  | none =>
    obtain ⟨err, hopen⟩ := openFile_of_no_members hmembers l
    rw [hopen] at h
    cases h
    rfl
  | some ms =>
    rw [openFile_of_members hmembers] at h
    cases hstore : storeAll ms l.close with
    | none =>
      rw [hstore] at h
      cases h
    | some r =>
      obtain ⟨go, l₁⟩ := r
      have hbytes := storeAll_pklBytes hstore
      rw [hstore] at h
      cases go with
      | false =>
        cases h
        exact hbytes
      | true => exact (finish_pklBytes h).trans hbytes

/-- A second `open` does as the first on a new loader, exactly when the pickle bytes left by
the first file do not show. -/
theorem reopen_iff {l₀ l : PtLoader} {A B : RawFile} {opened : Bool}
    (h : (openFile inflate l₀ A).value = some (opened, l)) :
    observe (openFile inflate l B).value = observe (openFile inflate fresh B).value ↔
      Forgotten inflate (A.pickleAfter inflate l₀.pklBytes) B := by
  rw [observe_openFile_iff, openFile_pklBytes h]

theorem openFile_pickleOnly : (openFile (fun _ => .error) fresh pickleOnly).value =
    some (false, ⟨"", [], [], OracleScheduler.onePickle⟩) := by
  have hentries : pickleOnly.entries (fun _ => .error) =
      some [⟨pklName, OracleScheduler.onePickle⟩] := by decide +kernel
  have hpickle : pickleOnly.pickleAfter (fun _ => .error) fresh.pklBytes =
      OracleScheduler.onePickle := by decide +kernel
  rw [openFile_of_entries hentries, hpickle]
  have hne : OracleScheduler.onePickle ≠ [] := by decide
  have hstorages : storages [⟨pklName, OracleScheduler.onePickle⟩] = [] := by decide
  have hmis : [(⟨"net.0.weight", 0⟩ : Found)].find? (Mismatch 0) = none := by decide
  rw [hstorages]
  simp only [finish, hne, ne_eq, not_false_eq_true, if_true, parsePickle,
    OracleScheduler.found_onePickle, List.length_nil, hmis]
  rfl

theorem reopen_iff_pickleOnly :
    observe (openFile (fun _ => .error) ⟨"", [], [], OracleScheduler.onePickle⟩ storageOnly).value =
      observe (openFile (fun _ => .error) fresh storageOnly).value ↔
    Forgotten (fun _ => .error) (pickleOnly.pickleAfter (fun _ => .error) fresh.pklBytes)
      storageOnly :=
  reopen_iff openFile_pickleOnly

/-- The pickle of the first file lists the storage of the second. -/
theorem reopen_remembers : ¬ ∀ (inflate : List UInt8 → Inflated) (A B : RawFile) (l : PtLoader)
    (opened : Bool), (openFile inflate fresh A).value = some (opened, l) →
      observe (openFile inflate l B).value = observe (openFile inflate fresh B).value := by
  intro h
  have hforgotten := (observe_openFile_iff _ storageOnly).mp
    (h (fun _ => .error) pickleOnly storageOnly _ false openFile_pickleOnly)
  rcases hforgotten with hnil | hno
  · cases hnil
  · refine hno ⟨[⟨storageName 0, []⟩], ?_, ?_, Or.inl ?_⟩
    · decide
    · decide
    · decide

end PtLoader
end Dee
