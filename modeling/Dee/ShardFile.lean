import Dee.JsonText
import Dee.ShardHeader

/-! The files that the shard writer writes: the length of the header, the header in compact
JSON, and the contents of the tensors one after the other. Opening such a file finds every
tensor again. -/
namespace Dee
open ByteText Json OrderedMap LittleEndian

/-- A tensor that a shard can hold under its name. -/
structure Tensor where
  name : String
  dtype : DType
  shape : List Int64
  content : List UInt8
  name_printable : ∀ c ∈ name.toList, 32 ≤ c.toNat ∧ c.toNat < 127 ∧ c ≠ '"' ∧ c ≠ '\\'
  name_ne : name ≠ "__metadata__"
  dtype_ne : dtype ≠ .UNKNOWN
  content_ne : content ≠ []

/-- The value of a header entry, for contents that start at `start`. -/
def Tensor.headerText (t : Tensor) (start : ℕ) : List Char :=
  objectText [("dtype".toList, quoted (dtypeToString t.dtype).toList),
    ("shape".toList, arrayText (t.shape.map fun d => intText d.toInt)),
    ("data_offsets".toList, arrayText [intText start, intText (start + t.content.length : ℕ)])]

def headerEntries : ℕ → List Tensor → List (List Char × List Char)
  | _, [] => []
  | start, t :: ts =>
    (t.name.toList, t.headerText start) :: headerEntries (start + t.content.length) ts

def shardHeader (ts : List Tensor) : String := String.ofList (objectText (headerEntries 0 ts))

def shardData (ts : List Tensor) : List UInt8 := ts.flatMap Tensor.content

def shardBytes (ts : List Tensor) : List UInt8 :=
  doubleBytes (shardHeader ts).length ++ toBytes (shardHeader ts) ++ shardData ts

/-- The mapping shows these bytes. -/
structure MappedFile.Exposes (f : MappedFile) (bs : List UInt8) : Prop where
  size : f.size = bs.length
  bytes : ∀ i (h : i < bs.length), f.bytes i = bs[i]

def MappedFile.ofList (bs : List UInt8) (h : bs.length < 2 ^ 63) : MappedFile where
  base := 4096
  size := bs.length
  bytes := fun i => bs.getD i 0
  base_pos := by decide
  size_lt := h

theorem MappedFile.exposes_ofList (bs : List UInt8) (h : bs.length < 2 ^ 63) :
    (MappedFile.ofList bs h).Exposes bs :=
  ⟨rfl, fun _ hi => List.getD_eq_getElem bs 0 hi⟩

/-! The text of the header is read back. -/

section Reading
variable {F : Type*} {stod : String → Option F}

def Tensor.members (t : Tensor) (start : ℕ) : List (Member F) :=
  [⟨"dtype".toList, quoted (dtypeToString t.dtype).toList, .str (dtypeToString t.dtype)⟩,
    ⟨"shape".toList, arrayText (t.shape.map fun d => intText d.toInt), .array (t.shape.map .int)⟩,
    ⟨"data_offsets".toList, arrayText [intText start, intText (start + t.content.length : ℕ)],
      .array [.int (Int64.ofInt start), .int (Int64.ofInt (start + t.content.length : ℕ))]⟩]

def headerMembers : ℕ → List Tensor → List (Member F)
  | _, [] => []
  | start, t :: ts =>
    ⟨t.name.toList, t.headerText start, .object (Member.assignAll (t.members start))⟩ ::
      headerMembers (start + t.content.length) ts

theorem headerMembers_entry (start : ℕ) (ts : List Tensor) :
    (headerMembers (F := F) start ts).map Member.entry = headerEntries start ts := by
  induction ts generalizing start with
  | nil => rfl
  | cons t ts ih => rw [headerMembers, List.map_cons, ih]; rfl

theorem Tensor.name_plain (t : Tensor) : Plain t.name.toList := by
  intro c hc
  exact (t.name_printable c hc).2.2

theorem plain_dtypeToString (d : DType) : Plain (dtypeToString d).toList := by
  cases d <;> simp [Plain, dtypeToString]

theorem reads_offset {n : ℕ} (h : n < 2 ^ 63) :
    Reads stod 1 (intText n) (.int (Int64.ofInt n)) :=
  reads_int (by omega) (by omega)

theorem reads_shape (shape : List Int64) :
    Reads stod 2 (arrayText (shape.map fun d => intText d.toInt)) (.array (shape.map .int)) := by
  have hitems : ∀ e ∈ shape.map fun d => (intText d.toInt, (Value.int d : Value F)),
      Reads stod 1 e.1 e.2 := by
    intro e he
    obtain ⟨d, -, rfl⟩ := List.mem_map.mp he
    have hd : Reads stod 1 (intText d.toInt) (.int (Int64.ofInt d.toInt)) :=
      reads_int d.le_toInt d.toInt_lt
    rwa [Int64.ofInt_toInt] at hd
  have harray := reads_array hitems
  rwa [List.map_map, List.map_map] at harray

theorem reads_offsets {start stop : ℕ} (hstart : start < 2 ^ 63) (hstop : stop < 2 ^ 63) :
    Reads stod 2 (arrayText [intText start, intText stop])
      (.array [.int (Int64.ofInt start), .int (Int64.ofInt stop)]) := by
  have hitems : ∀ e ∈ [(intText start, (Value.int (Int64.ofInt start) : Value F)),
      (intText stop, Value.int (Int64.ofInt stop))], Reads stod 1 e.1 e.2 := by
    intro e he
    rcases List.mem_pair.mp he with rfl | rfl
    · exact reads_offset hstart
    · exact reads_offset hstop
  exact reads_array hitems

theorem Tensor.reads_headerText (t : Tensor) {start : ℕ}
    (h : start + t.content.length < 2 ^ 63) :
    Reads stod 3 (t.headerText start) (.object (Member.assignAll (t.members start))) := by
  have hdtype : Reads stod 2 (quoted (dtypeToString t.dtype).toList)
      (.str (String.ofList (dtypeToString t.dtype).toList)) :=
    (reads_str (plain_dtypeToString t.dtype)).mono (by omega)
  rw [String.ofList_toList] at hdtype
  have hmembers : ∀ e ∈ t.members (F := F) start, Plain e.key ∧ Reads stod 2 e.text e.value := by
    intro e he
    simp only [members, List.mem_cons, List.not_mem_nil, or_false] at he
    rcases he with rfl | rfl | rfl
    · exact ⟨by simp [Plain], hdtype⟩
    · exact ⟨by simp [Plain], reads_shape t.shape⟩
    · exact ⟨by simp [Plain], reads_offsets (by omega) h⟩
  exact reads_object hmembers

/-- The members of the header are read, when the data section is not too long. -/
theorem reads_headerMembers {start : ℕ} {ts : List Tensor}
    (h : start + (shardData ts).length < 2 ^ 63) :
    ∀ e ∈ headerMembers (F := F) start ts, Plain e.key ∧ Reads stod 3 e.text e.value := by
  induction ts generalizing start with
  | nil =>
    intro e he
    cases he
  | cons t ts ih =>
    have hlen : (shardData (t :: ts)).length = t.content.length + (shardData ts).length := by
      rw [shardData, List.flatMap_cons, List.length_append, shardData]
    rw [hlen] at h
    intro e he
    rcases List.mem_cons.mp he with rfl | he
    · exact ⟨t.name_plain, t.reads_headerText (by omega)⟩
    · exact ih (by omega) e he

/-- The reader takes the whole header for an object of these members. -/
theorem parse_shardHeader {ts : List Tensor} (h : (shardData ts).length < 2 ^ 63) :
    parse stod (shardHeader ts) = .ok (.object (Member.assignAll (headerMembers 0 ts)), true) := by
  have hmembers : ∀ e ∈ headerMembers (F := F) 0 ts, Plain e.key ∧ Reads stod 3 e.text e.value :=
    reads_headerMembers (by rwa [Nat.zero_add])
  have hreads := reads_object hmembers
  rw [headerMembers_entry] at hreads
  cases ts with
  | nil =>
    -- the empty object is one level deep
    have hempty : Reads stod 1 (objectText (([] : List (Member F)).map Member.entry))
        (.object (Member.assignAll [])) := reads_object (n := 0) (by simp)
    exact parse_of_reads hempty (by simp [objectText])
  | cons t ts =>
    have hlen := length_objectText_cons (t.name.toList, t.headerText 0)
      (headerEntries (0 + t.content.length) ts)
    exact parse_of_reads hreads (by rw [headerEntries]; omega)

theorem headerMembers_keys (start : ℕ) (ts : List Tensor) :
    ((headerMembers (F := F) start ts).map fun e => (String.ofList e.key, e.value)).map Prod.fst =
      ts.map Tensor.name := by
  induction ts generalizing start with
  | nil => rfl
  | cons t ts ih =>
    rw [headerMembers, List.map_cons, List.map_cons, ih, List.map_cons, String.ofList_toList]

/-- The contents of a tensor start where those before it end. -/
theorem mem_headerMembers (start : ℕ) (pre : List Tensor) (t : Tensor) (post : List Tensor) :
    (⟨t.name.toList, t.headerText (start + (shardData pre).length),
      .object (Member.assignAll (t.members (start + (shardData pre).length)))⟩ : Member F) ∈
        headerMembers start (pre ++ t :: post) := by
  induction pre generalizing start with
  | nil => exact List.mem_cons_self
  | cons u pre ih =>
    have hlen : start + (shardData (u :: pre)).length =
        start + u.content.length + (shardData pre).length := by
      rw [shardData, List.flatMap_cons, List.length_append, shardData, Nat.add_assoc]
    rw [hlen]
    exact List.mem_cons_of_mem _ (ih _)

theorem find?_shardHeader {pre post : List Tensor} {t : Tensor}
    (hnodup : ((pre ++ t :: post).map Tensor.name).Nodup) :
    find? t.name (Member.assignAll (headerMembers (F := F) 0 (pre ++ t :: post))) =
      some (.object (Member.assignAll (t.members (shardData pre).length))) := by
  have hmem := List.mem_map_of_mem (f := fun e : Member F => (String.ofList e.key, e.value))
    (mem_headerMembers 0 pre t post)
  rw [Nat.zero_add, String.ofList_toList] at hmem
  rw [← headerMembers_keys (F := F) 0] at hnodup
  exact find?_assignAll_of_mem hnodup hmem []

theorem find?_shardHeader_none {ts : List Tensor} {name : String}
    (h : name ∉ ts.map Tensor.name) :
    find? name (Member.assignAll (headerMembers (F := F) 0 ts)) = none := by
  rw [← headerMembers_keys (F := F) 0] at h
  exact find?_assignAll_of_not_mem h []

theorem dtypeFromString_toString {d : DType} (h : d ≠ .UNKNOWN) :
    dtypeFromString (dtypeToString d) = d := by
  cases d with
  | UNKNOWN => exact absurd rfl h
  | _ => simp [dtypeFromString, dtypeToString]

theorem toSize_ofInt {n : ℕ} (h : n < 2 ^ 63) : toSize (Int64.ofInt n).toInt = n := by
  rw [Int64.toInt_ofInt_of_le (by omega) (by omega), toSize_natCast (by omega)]

theorem shapeOf_ints (shape : List Int64) :
    shapeOf (some (.array (shape.map (Value.int (F := F))))) = shape.map Int64.toInt := by
  induction shape with
  | nil => rfl
  | cons d shape ih =>
    rw [List.map_cons, List.map_cons, ← ih]
    rfl

theorem Tensor.find_members (t : Tensor) (start : ℕ) (key : String) (v : Value F)
    (h : (key, v) ∈ (t.members (F := F) start).map fun e => (String.ofList e.key, e.value)) :
    (Value.object (Member.assignAll (t.members (F := F) start))).find key = some v := by
  have hnodup : (((t.members (F := F) start).map fun e =>
      (String.ofList e.key, e.value)).map Prod.fst).Nodup := by
    simp [members]
  exact find?_assignAll_of_mem hnodup h []

/-- The entry of a tensor registers its place, its type and its shape. -/
theorem Tensor.entryMeta_members (t : Tensor) {start : ℕ}
    (h : start + t.content.length < 2 ^ 63) :
    entryMeta t.name (.object (Member.assignAll (t.members (F := F) start))) =
      some ⟨start, t.content.length, t.dtype, t.shape.map Int64.toInt⟩ := by
  have hdtype := t.find_members (F := F) start "dtype" (.str (dtypeToString t.dtype))
    (by simp [members])
  have hshape := t.find_members (F := F) start "shape" (.array (t.shape.map .int))
    (by simp [members])
  have hoffsets := t.find_members (F := F) start "data_offsets"
    (.array [.int (Int64.ofInt start), .int (Int64.ofInt (start + t.content.length : ℕ))])
    (by simp [members])
  have hsize : toSize ((Int64.ofInt (start + t.content.length : ℕ)).toInt -
      (Int64.ofInt start).toInt) = t.content.length := by
    rw [Int64.toInt_ofInt_of_le (by omega) (by omega), Int64.toInt_ofInt_of_le (by omega) (by omega)]
    push_cast
    rw [add_sub_cancel_left, toSize_natCast (by omega)]
  apply WeightMmap.entryMeta_eq_some.mpr
  refine ⟨t.name_ne, _, _, _, _, hdtype, hoffsets, ?_⟩
  simp only [Value.i, hsize, toSize_ofInt (by omega : start < 2 ^ 63),
    dtypeFromString_toString t.dtype_ne, hshape, shapeOf_ints]

end Reading

/-! The header is plain ASCII, so its bytes are its characters. -/

theorem ascii_quoted {cs : List Char} (h : Ascii cs) : Ascii (Json.quoted cs) :=
  .cons (by decide) (h.append (.cons (by decide) (by simp [Ascii])))

theorem ascii_intText (z : ℤ) : Ascii (intText z) := by
  intro c hc
  rcases intText_digits z c hc with rfl | hd
  · decide
  · simp only [Char.isDigit, Bool.and_eq_true, decide_eq_true_eq] at hd
    exact lt_of_le_of_lt (UInt32.le_iff_toNat_le.mp hd.2) (by decide)

theorem ascii_commaSep {ts : List (List Char)} (h : ∀ t ∈ ts, Ascii t) :
    Ascii (Json.commaSep ts) := by
  induction ts with
  | nil => simp [Json.commaSep, Ascii]
  | cons t ts ih =>
    obtain ⟨ht, hts⟩ := List.forall_mem_cons.mp h
    cases ts with
    | nil => exact ht
    | cons t' ts => exact ht.append (.cons (by decide) (ih hts))

theorem ascii_arrayText {ts : List (List Char)} (h : ∀ t ∈ ts, Ascii t) :
    Ascii (Json.arrayText ts) :=
  .cons (by decide) ((ascii_commaSep h).append (.cons (by decide) (by simp [Ascii])))

theorem ascii_objectText {es : List (List Char × List Char)}
    (h : ∀ e ∈ es, Ascii e.1 ∧ Ascii e.2) : Ascii (Json.objectText es) := by
  refine .cons (by decide) (.append (ascii_commaSep fun t ht => ?_) (.cons (by decide)
    (by simp [Ascii])))
  obtain ⟨e, he, rfl⟩ := List.mem_map.mp ht
  exact (ascii_quoted (h e he).1).append (.cons (by decide) (h e he).2)

theorem Tensor.ascii_headerText (t : Tensor) (start : ℕ) : Ascii (t.headerText start) := by
  apply ascii_objectText
  intro e he
  simp only [List.mem_cons, List.not_mem_nil, or_false] at he
  rcases he with rfl | rfl | rfl
  · refine ⟨by simp [Ascii], ascii_quoted ?_⟩
    cases t.dtype <;> simp [Ascii, dtypeToString]
  · refine ⟨by simp [Ascii], ascii_arrayText fun s hs => ?_⟩
    obtain ⟨d, -, rfl⟩ := List.mem_map.mp hs
    exact ascii_intText _
  · refine ⟨by simp [Ascii], ascii_arrayText fun s hs => ?_⟩
    rcases List.mem_pair.mp hs with rfl | rfl <;> exact ascii_intText _

theorem ascii_headerEntries (start : ℕ) (ts : List Tensor) :
    ∀ e ∈ headerEntries start ts, Ascii e.1 ∧ Ascii e.2 := by
  induction ts generalizing start with
  | nil =>
    intro e he
    cases he
  | cons t ts ih =>
    intro e he
    rcases List.mem_cons.mp he with rfl | he
    · refine ⟨fun c hc => ?_, t.ascii_headerText start⟩
      have hprintable := t.name_printable c hc
      omega
    · exact ih _ e he

theorem ascii_shardHeader (ts : List Tensor) : Ascii (shardHeader ts).toList := by
  rw [shardHeader, String.toList_ofList]
  exact ascii_objectText (ascii_headerEntries 0 ts)

/-! The three parts of the file -/

theorem length_doubleBytes (n : ℕ) : (doubleBytes n).length = 8 := rfl

theorem length_shardBytes (ts : List Tensor) :
    (shardBytes ts).length = 8 + (shardHeader ts).length + (shardData ts).length := by
  rw [shardBytes, List.length_append, List.length_append, length_doubleBytes, length_toBytes]

namespace MappedFile.Exposes
variable {f : MappedFile} {ts : List Tensor}

theorem bytes_eq_some (h : f.Exposes (shardBytes ts)) {i : ℕ} {b : UInt8}
    (hi : (shardBytes ts)[i]? = some b) : f.bytes i = b := by
  obtain ⟨hlt, hb⟩ := List.getElem?_eq_some_iff.mp hi
  rw [h.bytes i hlt, hb]

theorem headerLength (h : f.Exposes (shardBytes ts)) :
    readDouble f.bytes 0 = (shardHeader ts).length := by
  have hlen := length_shardBytes ts
  have hlt := f.size_lt
  rw [h.size] at hlt
  refine readDouble_of_doubleBytes (by omega) fun i hi => ?_
  apply h.bytes_eq_some
  rw [Nat.zero_add, shardBytes, List.append_assoc, List.getElem?_append_left (by
    rw [length_doubleBytes]
    exact hi), doubleBytes, List.getElem?_map, List.getElem?_range hi]
  rfl

theorem headerByte (h : f.Exposes (shardBytes ts)) {i : ℕ} {b : UInt8}
    (hi : (toBytes (shardHeader ts))[i]? = some b) : f.bytes (8 + i) = b := by
  obtain ⟨hlt, -⟩ := List.getElem?_eq_some_iff.mp hi
  apply h.bytes_eq_some
  rw [shardBytes, List.append_assoc, List.getElem?_append_right (by
    rw [length_doubleBytes]
    omega), length_doubleBytes, Nat.add_sub_cancel_left, List.getElem?_append_left hlt, hi]

theorem dataByte (h : f.Exposes (shardBytes ts)) {i : ℕ} {b : UInt8}
    (hi : (shardData ts)[i]? = some b) :
    f.bytes (8 + (shardHeader ts).length + i) = b := by
  apply h.bytes_eq_some
  have hlen : (doubleBytes (shardHeader ts).length ++ toBytes (shardHeader ts)).length =
      8 + (shardHeader ts).length := by
    rw [List.length_append, length_doubleBytes, length_toBytes]
  rw [shardBytes, List.getElem?_append_right (by omega), hlen, Nat.add_sub_cancel_left, hi]

theorem hasHeader (h : f.Exposes (shardBytes ts)) : f.HasHeader := by
  have hlen := length_shardBytes ts
  have hpos : (shardHeader ts).length ≠ 0 := by
    rw [shardHeader, String.length_ofList]
    simp [objectText]
  rw [HasHeader, h.headerLength, h.size]
  omega

theorem headerText_eq (h : f.Exposes (shardBytes ts)) : f.headerText = shardHeader ts := by
  have hbytes : ((List.range (readDouble f.bytes 0)).map fun i => f.bytes (8 + i)) =
      toBytes (shardHeader ts) := by
    rw [h.headerLength]
    apply List.ext_getElem
    · rw [List.length_map, List.length_range, length_toBytes]
    · intro i hi hi'
      rw [List.getElem_map, List.getElem_range]
      exact h.headerByte (List.getElem?_eq_getElem hi')
  rw [headerText, hbytes, ofBytes_toBytes (ascii_shardHeader ts)]

theorem entries_eq {F : Type*} {stod : String → Option F} (h : f.Exposes (shardBytes ts)) :
    f.entries stod = Member.assignAll (headerMembers 0 ts) := by
  have hlen := length_shardBytes ts
  have hlt := f.size_lt
  rw [h.size] at hlt
  rw [entries, if_pos h.hasHeader, h.headerText_eq, parse_shardHeader (by omega)]

theorem opens {F : Type*} (stod : String → Option F) (h : f.Exposes (shardBytes ts)) :
    ∃ m, (WeightMmap.openFile stod f).value = .ok (true, m) := by
  have hlen := length_shardBytes ts
  have hlt := f.size_lt
  rw [h.size] at hlt
  rw [WeightMmap.openFile_of_header h.hasHeader, h.headerText_eq, WeightMmap.parseHeaderJson,
    parse_shardHeader (by omega)]
  exact ⟨_, rfl⟩

end MappedFile.Exposes

/-- The view of a tensor is the one that was written. -/
structure Tensor.IsView (t : Tensor) (v : TensorView) : Prop where
  ok : v.ok = true
  dtype : v.dtype = t.dtype
  shape : v.shape = t.shape.map Int64.toInt
  nbytes : v.nbytes = t.content.length
  bytes : ∀ i (h : i < t.content.length), v.data.bytes i = t.content[i]

section RoundTrip
variable {F : Type*} {stod : String → Option F} {f : MappedFile} {ts : List Tensor}
  {m : WeightMmap}

theorem entryOf_shard (h : f.Exposes (shardBytes ts)) {pre post : List Tensor} {t : Tensor}
    (hts : ts = pre ++ t :: post) (hnodup : (ts.map Tensor.name).Nodup) :
    (find? t.name (f.entries stod)).bind (entryMeta t.name) =
      some ⟨(shardData pre).length, t.content.length, t.dtype, t.shape.map Int64.toInt⟩ := by
  have hlen := length_shardBytes ts
  have hlt := f.size_lt
  rw [h.size] at hlt
  have hdata : (shardData ts).length =
      (shardData pre).length + t.content.length + (shardData post).length := by
    simp [hts, shardData, Nat.add_assoc]
  rw [h.entries_eq]
  subst hts
  rw [find?_shardHeader hnodup, Option.bind_some, t.entryMeta_members (by omega)]

theorem entryOf_shard_none (h : f.Exposes (shardBytes ts)) {name : String}
    (hname : name ∉ ts.map Tensor.name) :
    (find? name (f.entries stod)).bind (entryMeta name) = none := by
  rw [h.entries_eq, find?_shardHeader_none hname]
  rfl

theorem isView_lookup (h : f.Exposes (shardBytes ts)) (hnodup : (ts.map Tensor.name).Nodup)
    (hm : (WeightMmap.openFile stod f).value = .ok (true, m)) {t : Tensor} (ht : t ∈ ts) :
    t.IsView (m.lookup t.name) := by
  obtain ⟨pre, post, hts⟩ := List.append_of_mem ht
  have hlen := length_shardBytes ts
  have hlt := f.size_lt
  rw [h.size] at hlt
  have hdata : shardData ts = shardData pre ++ (t.content ++ shardData post) := by
    simp [hts, shardData]
  have hsize := congrArg List.length hdata
  rw [List.length_append, List.length_append] at hsize
  have habs : szAdd (8 + (shardHeader ts).length) (shardData pre).length =
      8 + (shardHeader ts).length + (shardData pre).length := szAdd_of_lt (by omega)
  have hview := WeightMmap.lookup_openFile hm t.name
  rw [entryOf_shard h hts hnodup, h.headerLength] at hview
  dsimp only at hview
  rw [habs] at hview
  have hpos : 0 < t.content.length := List.length_pos_iff.mpr t.content_ne
  have hbase := f.base_pos
  rw [hview]
  refine ⟨?_, rfl, rfl, rfl, fun i hi => ?_⟩
  · simp only [TensorView.ok, Bool.and_eq_true, decide_eq_true_eq]
    omega
  · have hbyte : (shardData ts)[(shardData pre).length + i]? = some t.content[i] := by
      rw [hdata, List.getElem?_append_right (by omega), Nat.add_sub_cancel_left,
        List.getElem?_append_left hi, List.getElem?_eq_getElem hi]
    dsimp only
    rw [Nat.add_assoc, h.dataByte hbyte]

end RoundTrip

/-- A shard that holds tensors of different names is opened, and each of them is found
again with its type, its shape and its bytes, and no other. -/
theorem openFile_shardBytes {F : Type*} (stod : String → Option F) (ts : List Tensor)
    (hnodup : (ts.map Tensor.name).Nodup) (f : MappedFile) (h : f.Exposes (shardBytes ts)) :
    ∃ m, (WeightMmap.openFile stod f).value = .ok (true, m) ∧
      (∀ name, (m.tensors name).isSome = true ↔ name ∈ ts.map Tensor.name) ∧
      (∀ t ∈ ts, t.IsView (m.lookup t.name)) ∧
      ∀ name, name ∉ ts.map Tensor.name → (m.lookup name).ok = false := by
  obtain ⟨m, hm⟩ := h.opens stod
  refine ⟨m, hm, fun name => ?_, fun t ht => isView_lookup h hnodup hm ht, fun name hname => ?_⟩
  · obtain ⟨-, hsorted, rfl⟩ := WeightMmap.openFile_eq_true hm
    dsimp only
    rw [foldl_register hsorted, Option.or_none]
    constructor
    · intro hsome
      by_contra hname
      rw [entryOf_shard_none h hname] at hsome
      cases hsome
    · intro hname
      obtain ⟨t, ht, rfl⟩ := List.mem_map.mp hname
      obtain ⟨pre, post, hts⟩ := List.append_of_mem ht
      rw [entryOf_shard h hts hnodup]
      rfl
  · have hview := WeightMmap.lookup_openFile hm name
    rw [entryOf_shard_none h hname] at hview
    rw [hview]
    rfl

def gateTensor : Tensor where
  name := "gate"
  dtype := .BF16
  shape := [1, -1]
  content := [7, 8]
  name_printable := by simp
  name_ne := by decide
  dtype_ne := by decide
  content_ne := by decide

def upTensor : Tensor where
  name := "up"
  dtype := .F32
  shape := []
  content := [9]
  name_printable := by simp
  name_ne := by decide
  dtype_ne := by decide
  content_ne := by decide

def twoTensors : MappedFile :=
  .ofList (shardBytes [gateTensor, upTensor]) (by decide +kernel)

theorem openFile_shardBytes_two :
    ∃ m, (WeightMmap.openFile (fun _ => (none : Option ℕ)) twoTensors).value = .ok (true, m) ∧
      (∀ name, (m.tensors name).isSome = true ↔ name ∈ ["gate", "up"]) ∧
      (∀ t ∈ [gateTensor, upTensor], t.IsView (m.lookup t.name)) ∧
      ∀ name, name ∉ ["gate", "up"] → (m.lookup name).ok = false :=
  openFile_shardBytes _ [gateTensor, upTensor] (by decide) twoTensors
    (MappedFile.exposes_ofList _ _)

end Dee
