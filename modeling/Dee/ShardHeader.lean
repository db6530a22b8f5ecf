import Dee.ByteText
import Dee.JsonMin
import Dee.TracedReads
import Dee.WeightMmap

/-! Opening a shard: the length of its header is read and checked, the header is copied
and parsed, and each of its entries is registered under its name. Offsets are taken from
the header as they are. -/
namespace Dee
open ByteText Json OrderedMap LittleEndian

/-- A file as `mmap` exposes it. Its size is an `off_t`; beyond it, memory is arbitrary. -/
structure MappedFile where
  base : ℕ
  size : ℕ
  bytes : ℕ → UInt8
  base_pos : 0 < base
  size_lt : size < 2 ^ 63

def dtypeFromString (s : String) : DType :=
  if s = "F32" ∨ s = "F32E4M3" ∨ s = "F32E5M2" then .F32
  else if s = "F16" then .F16
  else if s = "BF16" then .BF16
  else .UNKNOWN

def dtypeToString : DType → String
  | .F32 => "F32"
  | .F16 => "F16"
  | .BF16 => "BF16"
  | .UNKNOWN => "UNKNOWN"

section Definitions
variable {F : Type*}

def shapeOf : Option (Value F) → List ℤ
  | some (.array ds) => (ds.filter Value.isInt).map fun d => d.i.toInt
  | _ => []

/-- What the loop of `parse_header_json` makes of an entry; `none` is its `continue`. -/
def entryMeta (name : String) (v : Value F) : Option TensorMeta :=
  if name = "__metadata__" ∨ v.isObject = false then none
  else
    match v.find "dtype", v.find "data_offsets" with
    | some (.str dtype), some (.array (s :: e :: _)) =>
      some ⟨toSize s.i.toInt, toSize (e.i.toInt - s.i.toInt), dtypeFromString dtype,
        shapeOf (v.find "shape")⟩
    | _, _ => none

def register (tensors : String → Option TensorMeta) (e : String × Value F) :
    String → Option TensorMeta :=
  match entryMeta e.1 e.2 with
  | none => tensors
  | some m => Function.update tensors e.1 (some m)

namespace WeightMmap

def closed : WeightMmap := ⟨0, fun _ => 0, "", fun _ => none⟩

/-- The mapped file with its header text, before an entry is registered. -/
def mapped (f : MappedFile) (headerJson : String) : WeightMmap :=
  ⟨f.base, f.bytes, headerJson, fun _ => none⟩

def parseHeaderJson (stod : String → Option F) (m : WeightMmap) (json : String) :
    Except Throw (Bool × WeightMmap) :=
  match parse stod json with
  | .error t => .error t
  | .ok (.object obj, true) => .ok (true, { m with tensors := obj.foldl register m.tensors })
  | .ok _ => .ok (false, m)

/-- `std::string::assign`, which throws for a length that no string can have. -/
def assignHeader (f : MappedFile) (a n : ℕ) : Traced (Except Throw String) :=
  if 2 ^ 63 ≤ n then pure (.error .lengthError)
  else do
    let bs ← Traced.bytes f.bytes a n
    pure (.ok (ofBytes bs))

def openFile (stod : String → Option F) (f : MappedFile) :
    Traced (Except Throw (Bool × WeightMmap)) :=
  if f.size < 8 then pure (.ok (false, closed))
  else do
    let hlen ← Traced.double f.bytes 0
    if hlen = 0 ∨ f.size < szAdd 8 hlen then pure (.ok (false, mapped f ""))
    else do
      match ← assignHeader f 8 hlen with
      | .error t => pure (.error t)
      | .ok json => pure (parseHeaderJson stod (mapped f json) json)

end WeightMmap
end Definitions

variable {F : Type*} {stod : String → Option F} {f : MappedFile}

theorem readDouble_lt (mem : ℕ → UInt8) (a : ℕ) : readDouble mem a < 2 ^ 64 := by
  have h0 := (readWord mem a).toNat_lt
  have h1 := (readWord mem (a + 4)).toNat_lt
  unfold readDouble
  omega

/-- Each name is registered at most once, so the order of the loop does not matter. -/
theorem foldl_register {obj : List (String × Value F)} (h : Sorted obj)
    (tensors : String → Option TensorMeta) (name : String) :
    obj.foldl register tensors name =
      ((find? name obj).bind (entryMeta name)).or (tensors name) := by
  induction obj generalizing tensors with
  | nil => rfl
  | cons e obj ih =>
    obtain ⟨hhead, htail⟩ := List.pairwise_cons.mp h
    rw [List.foldl_cons, ih htail, find?_cons]
    by_cases hname : e.1 = name
    · subst hname
      have hnone : find? e.1 obj = none := by
        rw [Option.eq_none_iff_forall_ne_some]
        intro v hv
        exact absurd (hhead _ ((Sorted.find?_eq_some htail).mp hv)) (lt_irrefl _)
      rw [if_pos rfl, hnone, register]
      cases hm : entryMeta e.1 e.2 with
      | none => simp [hm]
      | some m => simp [hm]
    · rw [if_neg hname]
      congr 1
      unfold register
      cases hm : entryMeta e.1 e.2 with
      | none => rfl
      | some m => exact Function.update_of_ne (Ne.symm hname) _ _

namespace MappedFile

/-- The header lies in the file. -/
def HasHeader (f : MappedFile) : Prop :=
  8 ≤ f.size ∧ readDouble f.bytes 0 ≠ 0 ∧ 8 + readDouble f.bytes 0 ≤ f.size

instance (f : MappedFile) : Decidable f.HasHeader := by
  unfold HasHeader
  infer_instance

def headerText (f : MappedFile) : String :=
  ofBytes ((List.range (readDouble f.bytes 0)).map fun i => f.bytes (8 + i))

/-- The entries of the header; none when it is not in the file or does not parse. -/
def entries (stod : String → Option F) (f : MappedFile) : List (String × Value F) :=
  if f.HasHeader then
    match parse stod f.headerText with
    | .ok (.object obj, true) => obj
    | _ => []
  else []

end MappedFile

namespace WeightMmap

theorem openFile_of_header (h : f.HasHeader) :
    (openFile stod f).value = parseHeaderJson stod (mapped f f.headerText) f.headerText := by
  obtain ⟨h8, h0, hle⟩ := h
  have hlt := f.size_lt
  have hadd : szAdd 8 (readDouble f.bytes 0) = 8 + readDouble f.bytes 0 := szAdd_of_lt (by omega)
  have hthrow : ¬ 2 ^ 63 ≤ readDouble f.bytes 0 := by omega
  have hcheck : ¬ (readDouble f.bytes 0 = 0 ∨ f.size < szAdd 8 (readDouble f.bytes 0)) := by
    rw [hadd]
    omega
  rw [openFile, if_neg (not_lt.mpr h8), Traced.value_bind, Traced.value_double, if_neg hcheck,
    Traced.value_bind, assignHeader, if_neg hthrow, Traced.value_bind, Traced.value_bytes]
  simp only [Traced.value_pure, MappedFile.headerText]

/-- Without a header in the file nothing is opened. -/
theorem openFile_of_no_header (h : ¬ f.HasHeader) (m : WeightMmap) :
    (openFile stod f).value ≠ .ok (true, m) := by
  by_cases h8 : f.size < 8
  · rw [openFile, if_pos h8]
    simp
  rw [openFile, if_neg h8, Traced.value_bind, Traced.value_double]
  split_ifs with hcheck
  · simp
  have hd := readDouble_lt f.bytes 0
  have hlt := f.size_lt
  -- the sum wraps only for a length that `assign` refuses
  have hthrow : 2 ^ 63 ≤ readDouble f.bytes 0 := by
    by_contra hsmall
    have hadd : szAdd 8 (readDouble f.bytes 0) = 8 + readDouble f.bytes 0 :=
      szAdd_of_lt (by omega)
    rw [hadd] at hcheck
    exact h ⟨by omega, by omega, by omega⟩
  rw [Traced.value_bind, assignHeader, if_pos hthrow]
  simp

theorem parseHeaderJson_eq_true {m m' : WeightMmap} {json : String}
    (h : parseHeaderJson stod m json = .ok (true, m')) :
    ∃ obj, parse stod json = .ok (.object obj, true) ∧
      m' = { m with tensors := obj.foldl register m.tensors } := by
  unfold parseHeaderJson at h
  split at h
  · cases h
  · next obj hobj =>
    cases h
    exact ⟨obj, hobj, rfl⟩
  · cases h

/-- Opening succeeds only when the header is in the file and parses to an object. -/
theorem openFile_eq_true {m : WeightMmap} (h : (openFile stod f).value = .ok (true, m)) :
    f.HasHeader ∧ Sorted (f.entries stod) ∧
      m = ⟨f.base, f.bytes, f.headerText, (f.entries stod).foldl register fun _ => none⟩ := by
  have hh : f.HasHeader := by
    by_contra hno
    exact openFile_of_no_header hno m h
  rw [openFile_of_header hh] at h
  obtain ⟨obj, hobj, hm⟩ := parseHeaderJson_eq_true h
  have hentries : f.entries stod = obj := by
    rw [MappedFile.entries, if_pos hh, hobj]
  rw [hentries]
  exact ⟨hh, parse_sorted hobj, hm⟩

/-- The header is read from bytes of the file only, whatever its length field says. -/
theorem openFile_within : Traced.Within f.size (openFile stod f) := by
  unfold openFile
  split_ifs with h8
  · exact Traced.within_pure _ _
  rw [Traced.within_bind, Traced.within_double, Traced.value_double]
  refine ⟨by omega, ?_⟩
  split_ifs with hcheck
  · exact Traced.within_pure _ _
  rw [Traced.within_bind]
  constructor
  · unfold assignHeader
    split_ifs with hthrow
    · exact Traced.within_pure _ _
    · have hadd : szAdd 8 (readDouble f.bytes 0) = 8 + readDouble f.bytes 0 :=
        szAdd_of_lt (by omega)
      rw [hadd] at hcheck
      rw [Traced.within_bind, Traced.within_bytes]
      exact ⟨Or.inr (by omega), Traced.within_pure _ _⟩
  · split <;> exact Traced.within_pure _ _

theorem entryMeta_eq_some {name : String} {v : Value F} {t : TensorMeta} :
    entryMeta name v = some t ↔ name ≠ "__metadata__" ∧ ∃ dtype s e rest,
      v.find "dtype" = some (.str dtype) ∧ v.find "data_offsets" = some (.array (s :: e :: rest)) ∧
        t = ⟨toSize s.i.toInt, toSize (e.i.toInt - s.i.toInt), dtypeFromString dtype,
          shapeOf (v.find "shape")⟩ := by
  unfold entryMeta
  split_ifs with hskip
  · simp only [false_iff]
    rintro ⟨hname, dtype, s, e, rest, hdtype, -⟩
    rcases hskip with hskip | hskip
    · exact hname hskip
    · rw [Value.isObject_of_find hdtype] at hskip
      cases hskip
  · rw [not_or] at hskip
    split
    · next dtype s e rest hdtype hoffsets =>
      constructor
      · intro h
        exact ⟨hskip.1, dtype, s, e, rest, hdtype, hoffsets, (Option.some.inj h).symm⟩
      · rintro ⟨-, dtype', s', e', rest', hdtype', hoffsets', rfl⟩
        rw [hdtype] at hdtype'
        rw [hoffsets] at hoffsets'
        cases hdtype'
        cases hoffsets'
        rfl
    · next hno =>
      simp only [reduceCtorEq, false_iff]
      rintro ⟨-, dtype, s, e, rest, hdtype, hoffsets, -⟩
      exact hno dtype s e rest hdtype hoffsets

/-- A range of the data section lies in the file, or is empty. -/
theorem range_inside_iff {H size : ℕ} {s e : ℤ} (hH : H ≤ size) (hsize : size < 2 ^ 63)
    (hs : -2 ^ 63 ≤ s) (hs' : s < 2 ^ 63) (he : -2 ^ 63 ≤ e) (he' : e < 2 ^ 63) :
    (0 < toSize (e - s) → szAdd H (toSize s) + toSize (e - s) ≤ size) ↔
      s = e ∨ -(H : ℤ) ≤ s ∧ s ≤ e ∧ H + e ≤ size := by
  have hstart := toSize_cases (z := s) (by omega) (by omega)
  have hcount := toSize_cases (z := e - s) (by omega) (by omega)
  have hadd := szAdd_cases (a := H) (b := toSize s) (by omega) (by omega)
  omega

theorem headerText_ne (h : f.HasHeader) : f.headerText ≠ "" := by
  intro he
  have hlen := congrArg (fun t : String => t.toList.length) he
  simp [MappedFile.headerText, ofBytes] at hlen
  exact h.2.1 hlen

/-- What `lookup` answers on an opened shard. -/
theorem lookup_openFile {m : WeightMmap} (h : (openFile stod f).value = .ok (true, m))
    (name : String) :
    m.lookup name = match (find? name (f.entries stod)).bind (entryMeta name) with
      | none => .empty
      | some t =>
        let abs := szAdd (8 + readDouble f.bytes 0) t.dataOffset
        ⟨⟨f.base + abs, fun i => f.bytes (abs + i)⟩, t.nbytes, t.dtype, t.shape⟩ := by
  obtain ⟨hh, hsorted, rfl⟩ := openFile_eq_true h
  have hlt := f.size_lt
  have hadd : szAdd 8 (readDouble f.bytes 0) = 8 + readDouble f.bytes 0 :=
    szAdd_of_lt (by have := hh.2.2; omega)
  have htensors := foldl_register hsorted (fun _ => none) name
  rw [Option.or_none] at htensors
  cases hfound : (find? name (f.entries stod)).bind (entryMeta name) with
  | none => simp only [lookup, htensors, hfound]
  | some t => simp only [lookup, htensors, hfound, if_neg (headerText_ne hh), hadd]

/-- The header is read in the file, and every view that `lookup` answers lies in it. -/
def StaysInside (stod : String → Option F) (f : MappedFile) : Prop :=
  Traced.Within f.size (openFile stod f) ∧
    ∀ m, (openFile stod f).value = .ok (true, m) → ∀ name, (m.lookup name).ok = true →
      f.base ≤ (m.lookup name).data.addr ∧
        (m.lookup name).data.addr + (m.lookup name).nbytes ≤ f.base + f.size

/-- The offsets of each entry of the header are equal or name a range of the file. -/
def OffsetsInside (stod : String → Option F) (f : MappedFile) : Prop :=
  ∀ name v, (name, v) ∈ f.entries stod → name ≠ "__metadata__" → ∀ dtype s e rest,
    v.find "dtype" = some (.str dtype) → v.find "data_offsets" = some (.array (s :: e :: rest)) →
      s.i = e.i ∨ -(8 + readDouble f.bytes 0 : ℤ) ≤ s.i.toInt ∧ s.i.toInt ≤ e.i.toInt ∧
        8 + readDouble f.bytes 0 + e.i.toInt ≤ f.size

theorem openFile_of_entry {e : String × Value F} (he : e ∈ f.entries stod) :
    f.HasHeader ∧ ∃ m, (openFile stod f).value = .ok (true, m) := by
  unfold MappedFile.entries at he
  split_ifs at he with hh
  · split at he
    · next obj hobj =>
      rw [openFile_of_header hh, parseHeaderJson, hobj]
      exact ⟨hh, _, rfl⟩
    · cases he
  · cases he

theorem view_inside_iff (hh : f.HasHeader) (s e : Int64) :
    (0 < toSize (e.toInt - s.toInt) →
      f.base + szAdd (8 + readDouble f.bytes 0) (toSize s.toInt) + toSize (e.toInt - s.toInt) ≤
        f.base + f.size) ↔
    s = e ∨ -(8 + readDouble f.bytes 0 : ℤ) ≤ s.toInt ∧ s.toInt ≤ e.toInt ∧
      8 + readDouble f.bytes 0 + e.toInt ≤ f.size := by
  have hrange := range_inside_iff hh.2.2 f.size_lt s.le_toInt s.toInt_lt e.le_toInt e.toInt_lt
  rw [Int64.toInt_inj] at hrange
  push_cast at hrange
  rw [← hrange, Nat.add_assoc, Nat.add_le_add_iff_left]

/-- No view leaves the mapping exactly when no entry of the header does. -/
theorem openFile_staysInside_iff (stod : String → Option F) (f : MappedFile) :
    StaysInside stod f ↔ OffsetsInside stod f := by
  constructor
  · intro ⟨_, h⟩ name v hmem hname dtype s e rest hdtype hoffsets
    obtain ⟨hh, m, hm⟩ := openFile_of_entry hmem
    obtain ⟨-, hsorted, -⟩ := openFile_eq_true hm
    have hmeta := entryMeta_eq_some.mpr ⟨hname, dtype, s, e, rest, hdtype, hoffsets, rfl⟩
    have hview := h m hm name
    rw [lookup_openFile hm, (Sorted.find?_eq_some hsorted).mpr hmem, Option.bind_some, hmeta]
      at hview
    apply (view_inside_iff hh s.i e.i).mp
    intro hpos
    refine (hview ?_).2
    have hbase := f.base_pos
    simp only [TensorView.ok, Bool.and_eq_true, decide_eq_true_eq]
    exact ⟨by omega, hpos⟩
  · intro h
    refine ⟨openFile_within, fun m hm name hok => ?_⟩
    obtain ⟨hh, hsorted, -⟩ := openFile_eq_true hm
    rw [lookup_openFile hm] at hok ⊢
    cases hfind : (find? name (f.entries stod)).bind (entryMeta name) with
    | none =>
      rw [hfind] at hok
      cases hok
    | some t =>
      obtain ⟨v, hv, hmeta⟩ := Option.bind_eq_some_iff.mp hfind
      obtain ⟨hname, dtype, s, e, rest, hdtype, hoffsets, rfl⟩ := entryMeta_eq_some.mp hmeta
      rw [hfind] at hok
      simp only [TensorView.ok, Bool.and_eq_true, decide_eq_true_eq] at hok
      have hin := h name v ((Sorted.find?_eq_some hsorted).mp hv) hname dtype s e rest hdtype
        hoffsets
      exact ⟨Nat.le_add_right _ _, (view_inside_iff hh s.i e.i).mpr hin hok.2⟩

/-- A shard that ends with its header, whose only tensor claims one byte of data. -/
def escapingShard : MappedFile where
  base := 65536
  size := 50
  bytes := fun i => (doubleBytes 42 ++
    toBytes "\x7b\"a\":\x7b\"dtype\":\"F32\",\"data_offsets\":[0,1]\x7d\x7d").getD i 0
  base_pos := by decide
  size_lt := by decide

/-- The view of the tensor lies past the end of the mapping. -/
theorem lookup_leaves_mapping : ¬ StaysInside (fun _ => (none : Option ℕ)) escapingShard := by
  have hview : (openFile (fun _ => (none : Option ℕ)) escapingShard).value.toOption.any (fun r =>
      r.1 && (r.2.lookup "a").ok && decide (escapingShard.base + escapingShard.size <
        (r.2.lookup "a").data.addr + (r.2.lookup "a").nbytes)) = true := by decide +kernel
  intro h
  cases hopen : (openFile (fun _ => (none : Option ℕ)) escapingShard).value with
  | error t =>
    rw [hopen] at hview
    cases hview
  | ok r =>
    rw [hopen] at hview
    simp only [Except.toOption, Option.any_some, Bool.and_eq_true, decide_eq_true_eq] at hview
    obtain ⟨⟨hok, hview⟩, hpast⟩ := hview
    have hopened : (openFile (fun _ => (none : Option ℕ)) escapingShard).value =
        .ok (true, r.2) := by
      rw [hopen, ← hok]
    exact absurd (h.2 r.2 hopened "a" hview).2 hpast.not_ge

end WeightMmap

end Dee
