import Dee.PtLoader

/-! The scan of a pickle that is a sequence of string opcodes. The scan for names goes from
opcode to opcode, while the search for the storage key behind a name tries every byte of a
window of 200: it can miss a key that is farther away, and take one out of another string. -/
namespace Dee
open ByteText LittleEndian OrderedMap

/-- A `BINUNICODE` or `SHORT_BINUNICODE` opcode; the content fits the length field. -/
structure StringOp where
  short : Bool
  content : List UInt8
  fits : content.length < if short then 2 ^ 8 else 2 ^ 32

namespace StringOp

def header (op : StringOp) : List UInt8 :=
  if op.short then [0x8c, UInt8.ofNat op.content.length]
  else 0x58 :: (List.range 4).map fun i => UInt8.ofNat (op.content.length / 256 ^ i)

def encode (op : StringOp) : List UInt8 := op.header ++ op.content

end StringOp

/-- The bytes of a pickle of string opcodes. -/
def encodeOps (ops : List StringOp) : List UInt8 := ops.flatMap StringOp.encode

namespace PtLoader

/-! Reading at a distance -/

section Shift
variable (pre d : List UInt8)

theorem byteAt_append (i : ℕ) : byteAt (pre ++ d) (pre.length + i) = byteAt d i := by
  rw [byteAt, byteAt, List.getD_append_right _ _ _ _ (by omega), Nat.add_sub_cancel_left]

theorem readBinunicode_append (i : ℕ) :
    readBinunicode (pre ++ d) (pre.length + i) = readBinunicode d i := by
  have hword : readWord (byteAt (pre ++ d)) (pre.length + (i + 1)) =
      readWord (byteAt d) (i + 1) := by
    refine readWord_congr fun j _ => ?_
    rw [Nat.add_assoc, byteAt_append]
  have hdrop : ∀ k, (pre ++ d).drop (pre.length + (i + k)) = d.drop (i + k) := by
    intro k
    rw [List.drop_append]
    simp
  unfold readBinunicode
  simp only [byteAt_append, hword, hdrop, List.length_append, Nat.add_assoc,
    Nat.add_le_add_iff_left, Nat.add_lt_add_iff_left]

theorem findStorage_append (k i : ℕ) :
    findStorage (pre ++ d) k (pre.length + i) = findStorage d k i := by
  induction k generalizing i with
  | zero => rfl
  | succ k ih =>
    have hnext := ih (i + 1)
    rw [← Nat.add_assoc] at hnext
    simp only [findStorage, readBinunicode_append, hnext]

end Shift

theorem readBinunicode_short {op : StringOp} (hshort : op.short = true) (post : List UInt8) :
    readBinunicode (op.encode ++ post) 0 = some op.content := by
  have hfits := op.fits
  rw [hshort] at hfits
  simp only [if_true] at hfits
  have hlen : (UInt8.ofNat op.content.length).toNat = op.content.length :=
    UInt8.toNat_ofNat_of_lt' hfits
  have henc : op.encode ++ post =
      0x8c :: UInt8.ofNat op.content.length :: (op.content ++ post) := by
    simp [StringOp.encode, StringOp.header, hshort]
  rw [henc]
  have h0 : byteAt (0x8c :: UInt8.ofNat op.content.length :: (op.content ++ post)) 0 = 0x8c := rfl
  have h1 : byteAt (0x8c :: UInt8.ofNat op.content.length :: (op.content ++ post)) (0 + 1) =
      UInt8.ofNat op.content.length := rfl
  have hne : (0x8c : UInt8) ≠ 0x58 := by decide
  simp only [readBinunicode, h0, h1, hlen, if_neg hne, if_true]
  rw [if_neg (by simp), if_neg (by simp), if_neg (by simp; omega)]
  simp

theorem readBinunicode_long {op : StringOp} (hshort : op.short = false) (post : List UInt8) :
    readBinunicode (op.encode ++ post) 0 = some op.content := by
  have hfits := op.fits
  rw [hshort] at hfits
  simp only [Bool.false_eq_true, if_false] at hfits
  have henc : op.encode ++ post = 0x58 :: (((List.range 4).map fun i =>
      UInt8.ofNat (op.content.length / 256 ^ i)) ++ (op.content ++ post)) := by
    simp [StringOp.encode, StringOp.header, hshort]
  have hlen : (readWord (byteAt (op.encode ++ post)) (0 + 1)).toNat = op.content.length := by
    have hrange : List.range 4 = [0, 1, 2, 3] := rfl
    rw [henc, hrange]
    simp only [readWord, byteAt, List.map_cons, List.map_nil, List.cons_append,
      List.getD_cons_succ, List.getD_cons_zero, UInt8.toNat_ofNat', UInt32.toNat_ofNat',
      Nat.pow_zero, Nat.div_one]
    omega
  have hbyte : byteAt (op.encode ++ post) 0 = 0x58 := by
    rw [henc]
    rfl
  have hlength : (op.encode ++ post).length = 5 + op.content.length + post.length := by
    rw [henc]
    simp
    omega
  have hdrop : (op.encode ++ post).drop (0 + 5) = op.content ++ post := by
    rw [henc]
    rfl
  simp only [readBinunicode, hbyte, hlen, hlength, hdrop, if_true]
  rw [if_neg (by omega), if_neg (by omega), if_neg (by omega), List.take_left]

/-- An opcode is read as its content. -/
theorem readBinunicode_encode (op : StringOp) (post : List UInt8) :
    readBinunicode (op.encode ++ post) 0 = some op.content := by
  cases hshort : op.short with
  | true => exact readBinunicode_short hshort post
  | false => exact readBinunicode_long hshort post

/-! The scan for names -/

theorem byteAt_encode (op : StringOp) (post : List UInt8) :
    byteAt (op.encode ++ post) 0 = if op.short then 0x8c else 0x58 := by
  cases hshort : op.short <;> simp [StringOp.encode, StringOp.header, hshort, byteAt]

theorem length_encode (op : StringOp) :
    op.encode.length = (if op.short then 2 else 5) + op.content.length := by
  cases hshort : op.short <;> simp [StringOp.encode, StringOp.header, hshort] <;> omega

/-- The scan goes on behind the opcode, unless the sum of its length wraps. -/
theorem advance_encode {op : StringOp} (hop : op.content.length + 5 < 2 ^ 32) (pre post : List UInt8) :
    advance (pre ++ (op.encode ++ post)) pre.length op.content = op.encode.length := by
  have hbyte := byteAt_append pre (op.encode ++ post) 0
  rw [Nat.add_zero, byteAt_encode] at hbyte
  rw [advance, hbyte, length_encode]
  cases op.short with
  | true => rfl
  | false =>
    simp only [Bool.false_eq_true, if_false, if_true]
    omega

/-- The key that the search takes for a name at the start of `d`. -/
def keyBehind (d : List UInt8) : ℤ := findStorage d (min d.length 200 - 1) 1

/-- The names of a pickle, each with what the search behind it gives. -/
def namesOf : List StringOp → List Found
  | [] => []
  | op :: ops =>
    if isTensorName op.content then
      ⟨ofBytes op.content, keyBehind (encodeOps (op :: ops))⟩ :: namesOf ops
    else namesOf ops

/-- No string wraps the sum that moves the scan. -/
def InStep (ops : List StringOp) : Prop := ∀ op ∈ ops, op.content.length + 5 < 2 ^ 32

/-- The scan stays in step with the opcodes. -/
theorem scanNames_encode {ops : List StringOp} (h : InStep ops) (pre : List UInt8) :
    scanNames (pre ++ encodeOps ops) pre.length = some (namesOf ops) := by
  induction ops generalizing pre with
  | nil =>
    rw [scanNames, dif_neg (by simp [encodeOps])]
    rfl
  | cons op ops ih =>
    obtain ⟨hop, hops⟩ := List.forall_mem_cons.mp h
    have henc : encodeOps (op :: ops) = op.encode ++ encodeOps ops := rfl
    have hpos : 0 < op.encode.length := by
      rw [length_encode]
      split_ifs <;> omega
    have hin : pre.length < (pre ++ encodeOps (op :: ops)).length := by
      rw [henc, List.length_append, List.length_append]
      omega
    have hread : readBinunicode (pre ++ encodeOps (op :: ops)) pre.length = some op.content := by
      have happ := readBinunicode_append pre (encodeOps (op :: ops)) 0
      rwa [Nat.add_zero, henc, readBinunicode_encode, ← henc] at happ
    have hrest := ih hops (pre ++ op.encode)
    rw [List.append_assoc, ← henc, List.length_append] at hrest
    have hkey : findStorage (pre ++ encodeOps (op :: ops))
        (min (pre ++ encodeOps (op :: ops)).length (pre.length + 200) - (pre.length + 1))
        (pre.length + 1) = keyBehind (encodeOps (op :: ops)) := by
      have hwindow : min (pre ++ encodeOps (op :: ops)).length (pre.length + 200) -
          (pre.length + 1) = min (encodeOps (op :: ops)).length 200 - 1 := by
        rw [List.length_append]
        omega
      rw [hwindow, findStorage_append]
      rfl
    have hadv : advance (pre ++ encodeOps (op :: ops)) pre.length op.content = op.encode.length := by
      rw [henc, advance_encode hop]
    rw [scanNames, dif_pos hin]
    simp only [hread]
    rw [dif_neg (by omega), hadv, hrest, hkey]
    simp only [namesOf]
    split_ifs <;> rfl

/-- The scan starts at the first opcode. -/
theorem found_encodeOps (ops : List StringOp) :
    found (encodeOps ops) = scanNames (encodeOps ops) 0 := by
  refine congrArg _ (if_neg ?_)
  rintro ⟨-, hproto⟩
  cases ops with
  | nil => cases hproto
  | cons op ops =>
    have hbyte := byteAt_encode op (encodeOps ops)
    rw [← show encodeOps (op :: ops) = op.encode ++ encodeOps ops from rfl, hproto] at hbyte
    cases hshort : op.short <;> rw [hshort] at hbyte <;> exact absurd hbyte (by decide)

theorem found_encode {ops : List StringOp} (h : InStep ops) :
    found (encodeOps ops) = some (namesOf ops) := by
  rw [found_encodeOps]
  exact scanNames_encode h []

/-! What the search finds -/

/-- A string that the search takes for a storage key. -/
def IsKey (s : List UInt8) : Prop := s ≠ [] ∧ (ofBytes s).toList.all Char.isDigit = true

instance (s : List UInt8) : Decidable (IsKey s) := inferInstanceAs (Decidable (_ ∧ _))

/-- The first key that can be read at the `k` places from `i` on. -/
def FirstKey (d : List UInt8) (i k : ℕ) (key : List UInt8) : Prop :=
  ∃ j, i ≤ j ∧ j < i + k ∧ readBinunicode d j = some key ∧ IsKey key ∧
    ∀ m, i ≤ m → m < j → ∀ s, readBinunicode d m = some s → ¬ IsKey s

section Search
variable {d : List UInt8} {i k : ℕ} {key : List UInt8}

theorem findStorage_hit (hread : readBinunicode d i = some key) (hkey : IsKey key) :
    findStorage d (k + 1) i = atoi (ofBytes key).toList := by
  simp only [findStorage, hread]
  exact if_pos hkey

theorem findStorage_skip (h : ∀ s, readBinunicode d i = some s → ¬ IsKey s) :
    findStorage d (k + 1) i = findStorage d k (i + 1) := by
  cases hread : readBinunicode d i with
  | none => simp only [findStorage, hread]
  | some s =>
    simp only [findStorage, hread]
    exact if_neg (h s hread)

theorem firstKey_skip (h : ∀ s, readBinunicode d i = some s → ¬ IsKey s) :
    FirstKey d i (k + 1) key ↔ FirstKey d (i + 1) k key := by
  constructor
  · rintro ⟨j, hij, hjk, hread, hkey, hfirst⟩
    have hne : j ≠ i := by
      rintro rfl
      exact h key hread hkey
    exact ⟨j, by omega, by omega, hread, hkey, fun m hm => hfirst m (by omega)⟩
  · rintro ⟨j, hij, hjk, hread, hkey, hfirst⟩
    refine ⟨j, by omega, by omega, hread, hkey, fun m hm hmj => ?_⟩
    obtain rfl | hlt := Nat.eq_or_lt_of_le hm
    · exact h
    · exact hfirst m hlt hmj

theorem findStorage_first (h : FirstKey d i k key) :
    findStorage d k i = atoi (ofBytes key).toList := by
  induction k generalizing i with
  | zero =>
    obtain ⟨j, hij, hjk, -⟩ := h
    omega
  | succ k ih =>
    by_cases hhit : ∃ s, readBinunicode d i = some s ∧ IsKey s
    · obtain ⟨s, hread, hs⟩ := hhit
      obtain ⟨j, hij, hjk, hkeyread, hkey, hfirst⟩ := h
      have hji : j = i := by
        by_contra hne
        exact hfirst i le_rfl (by omega) s hread hs
      rw [hji] at hkeyread
      exact findStorage_hit hkeyread hkey
    · have hskip : ∀ s, readBinunicode d i = some s → ¬ IsKey s := fun s hr hs => hhit ⟨s, hr, hs⟩
      rw [findStorage_skip hskip]
      exact ih ((firstKey_skip hskip).mp h)

theorem findStorage_none (h : ∀ key, ¬ FirstKey d i k key) : findStorage d k i = -1 := by
  induction k generalizing i with
  | zero => rfl
  | succ k ih =>
    have hskip : ∀ s, readBinunicode d i = some s → ¬ IsKey s := fun s hread hs =>
      h s ⟨i, le_rfl, by omega, hread, hs, fun m hm hmi => by omega⟩
    rw [findStorage_skip hskip]
    exact ih fun key hkey => h key ((firstKey_skip hskip).mpr hkey)

theorem readBinunicode_lt (h : readBinunicode d i = some key) : i < d.length := by
  by_contra hle
  rw [readBinunicode, if_pos (by omega)] at h
  cases h

/-- The end of the pickle does not narrow the window. -/
theorem firstKey_window :
    FirstKey d (i + 1) (min d.length (i + 200) - (i + 1)) key ↔ FirstKey d (i + 1) 199 key := by
  constructor
  · rintro ⟨j, hij, hjk, hread, hkey, hfirst⟩
    exact ⟨j, hij, by omega, hread, hkey, hfirst⟩
  · rintro ⟨j, hij, hjk, hread, hkey, hfirst⟩
    have hlt := readBinunicode_lt hread
    exact ⟨j, hij, by omega, hread, hkey, hfirst⟩

/-- At `i` stands a tensor name, and the first key that can be read at the 199 places behind
is the key of a storage with another name. -/
def SeesAt (N : ℕ) (d : List UInt8) (i : ℕ) (name : List UInt8) : Prop :=
  isTensorName name = true ∧ ∃ key, FirstKey d (i + 1) 199 key ∧
    Mismatch N ⟨ofBytes name, atoi (ofBytes key).toList⟩ = true

theorem mismatch_findStorage {N : ℕ} {name : String} : Mismatch N ⟨name, findStorage d
    (min d.length (i + 200) - (i + 1)) (i + 1)⟩ = true ↔
    ∃ key, FirstKey d (i + 1) 199 key ∧ Mismatch N ⟨name, atoi (ofBytes key).toList⟩ = true := by
  constructor
  · intro h
    by_cases hfirst : ∃ key, FirstKey d (i + 1) (min d.length (i + 200) - (i + 1)) key
    · obtain ⟨key, hkey⟩ := hfirst
      rw [findStorage_first hkey] at h
      exact ⟨key, firstKey_window.mp hkey, h⟩
    · rw [findStorage_none fun key hkey => hfirst ⟨key, hkey⟩] at h
      simp [Mismatch] at h
  · rintro ⟨key, hkey, hmis⟩
    rwa [findStorage_first (firstKey_window.mpr hkey)]

end Search

/-! The places of a scan -/

/-- The scan that is at one place comes to the other. -/
inductive ComesTo (d : List UInt8) : ℕ → ℕ → Prop
  | here (i : ℕ) : ComesTo d i i
  | byte {i j : ℕ} : i < d.length → readBinunicode d i = none → ComesTo d (i + 1) j → ComesTo d i j
  | string {i j : ℕ} {s : List UInt8} :
      readBinunicode d i = some s → ComesTo d (i + advance d i s) j → ComesTo d i j

/-- No string on the way leaves the scan where it is. -/
def Ends (d : List UInt8) (i : ℕ) : Prop :=
  ∀ j s, ComesTo d i j → readBinunicode d j = some s → advance d j s ≠ 0

/-- The names on the way, each with what the search behind it gives. -/
def IsFound (d : List UInt8) (i : ℕ) (x : Found) : Prop :=
  ∃ j s, ComesTo d i j ∧ readBinunicode d j = some s ∧ isTensorName s = true ∧
    x = ⟨ofBytes s, findStorage d (min d.length (j + 200) - (j + 1)) (j + 1)⟩

section Places
variable {d : List UInt8} {i : ℕ} {s : List UInt8}

theorem comesTo_end (h : d.length ≤ i) {j : ℕ} (hj : ComesTo d i j) : j = i := by
  cases hj with
  | here => rfl
  | byte hlt _ _ => omega
  | string hread _ =>
    have hlt := readBinunicode_lt hread
    omega

theorem comesTo_byte (hlt : i < d.length) (hread : readBinunicode d i = none) {j : ℕ} :
    ComesTo d i j ↔ j = i ∨ ComesTo d (i + 1) j := by
  constructor
  · intro h
    cases h with
    | here => exact .inl rfl
    | byte _ _ hrest => exact .inr hrest
    | string hs _ =>
      rw [hread] at hs
      cases hs
  · rintro (rfl | h)
    · exact .here j
    · exact .byte hlt hread h

theorem comesTo_string (hread : readBinunicode d i = some s) {j : ℕ} :
    ComesTo d i j ↔ j = i ∨ ComesTo d (i + advance d i s) j := by
  constructor
  · intro h
    cases h with
    | here => exact .inl rfl
    | byte _ hs _ =>
      rw [hread] at hs
      cases hs
    | string hs hrest =>
      rw [hread] at hs
      cases hs
      exact .inr hrest
  · rintro (rfl | h)
    · exact .here j
    · exact .string hread h

theorem ends_byte (hlt : i < d.length) (hread : readBinunicode d i = none) :
    Ends d i ↔ Ends d (i + 1) := by
  constructor
  · intro h j s hj
    exact h j s ((comesTo_byte hlt hread).mpr (.inr hj))
  · intro h j s hj hs
    obtain rfl | hj := (comesTo_byte hlt hread).mp hj
    · rw [hread] at hs
      cases hs
    · exact h j s hj hs

theorem ends_string (hread : readBinunicode d i = some s) :
    Ends d i ↔ advance d i s ≠ 0 ∧ Ends d (i + advance d i s) := by
  constructor
  · intro h
    exact ⟨h i s (.here i) hread, fun j t hj => h j t ((comesTo_string hread).mpr (.inr hj))⟩
  · rintro ⟨hadv, h⟩ j t hj ht
    obtain rfl | hj := (comesTo_string hread).mp hj
    · rw [hread] at ht
      cases ht
      exact hadv
    · exact h j t hj ht

theorem isFound_byte (hlt : i < d.length) (hread : readBinunicode d i = none) {x : Found} :
    IsFound d i x ↔ IsFound d (i + 1) x := by
  constructor
  · rintro ⟨j, s, hj, hs, hx⟩
    obtain rfl | hj := (comesTo_byte hlt hread).mp hj
    · rw [hread] at hs
      cases hs
    · exact ⟨j, s, hj, hs, hx⟩
  · rintro ⟨j, s, hj, hs, hx⟩
    exact ⟨j, s, (comesTo_byte hlt hread).mpr (.inr hj), hs, hx⟩

theorem isFound_string (hread : readBinunicode d i = some s) {x : Found} :
    IsFound d i x ↔ (isTensorName s = true ∧
      x = ⟨ofBytes s, findStorage d (min d.length (i + 200) - (i + 1)) (i + 1)⟩) ∨
      IsFound d (i + advance d i s) x := by
  constructor
  · rintro ⟨j, t, hj, ht, hx⟩
    obtain rfl | hj := (comesTo_string hread).mp hj
    · rw [hread] at ht
      cases ht
      exact .inl hx
    · exact .inr ⟨j, t, hj, ht, hx⟩
  · rintro (hx | ⟨j, t, hj, ht, hx⟩)
    · exact ⟨i, s, .here i, hread, hx⟩
    · exact ⟨j, t, (comesTo_string hread).mpr (.inr hj), ht, hx⟩

end Places

/-- The scan returns the names on its way, unless it stays at one place. -/
theorem scanNames_spec (d : List UInt8) (i : ℕ) :
    (Ends d i ∧ ∃ names, scanNames d i = some names ∧ ∀ x, x ∈ names ↔ IsFound d i x) ∨
      (¬ Ends d i ∧ scanNames d i = none) := by
  fun_induction scanNames d i with
  | case1 i hlt hread ih =>
    rw [ends_byte hlt hread]
    simp only [isFound_byte hlt hread]
    exact ih
  | case2 i hlt s hread hadv =>
    rw [ends_string hread]
    exact .inr ⟨fun h => h.1 hadv, rfl⟩
  | case3 i hlt s hread hadv hnone ih =>
    rw [ends_string hread]
    obtain ⟨-, names, hsome, -⟩ | ⟨hends, -⟩ := ih
    · rw [hsome] at hnone
      cases hnone
    · exact .inr ⟨fun h => hends h.2, rfl⟩
  | case4 i hlt s hread hadv rest hsome hname ih =>
    rw [ends_string hread]
    obtain ⟨hends, names, hnames, hmem⟩ | ⟨-, hnone⟩ := ih
    · rw [hsome] at hnames
      cases hnames
      refine .inl ⟨⟨hadv, hends⟩, _, rfl, fun x => ?_⟩
      rw [isFound_string hread, List.mem_cons, hmem]
      simp only [hname, true_and]
    · rw [hsome] at hnone
      cases hnone
  | case5 i hlt s hread hadv rest hsome hname ih =>
    rw [ends_string hread]
    obtain ⟨hends, names, hnames, hmem⟩ | ⟨-, hnone⟩ := ih
    · rw [hsome] at hnames
      cases hnames
      refine .inl ⟨⟨hadv, hends⟩, _, rfl, fun x => ?_⟩
      rw [isFound_string hread, hmem]
      simp only [hname, Bool.false_eq_true, false_and, false_or]
    · rw [hsome] at hnone
      cases hnone
  | case6 i hle =>
    refine .inl ⟨fun j s hj hs => ?_, [], rfl, fun x => ⟨fun hx => (List.not_mem_nil hx).elim, ?_⟩⟩
    · have hlt := readBinunicode_lt hs
      have hji := comesTo_end (by omega) hj
      omega
    · rintro ⟨j, s, hj, hs, -⟩
      have hlt := readBinunicode_lt hs
      have hji := comesTo_end (by omega) hj
      omega

/-! The check of the names -/

theorem parsePickle_rejects_iff (l : PtLoader) (pkl : List UInt8) :
    (∃ l', parsePickle l pkl = some (false, l')) ↔
      ∃ names, found pkl = some names ∧ ∃ x ∈ names, Mismatch l.buffers.length x = true := by
  rw [← not_iff_not]
  cases hfound : found pkl with
  | none => simp [parsePickle, hfound]
  | some names =>
    have hfind := @List.find?_eq_none _ (Mismatch l.buffers.length) names
    cases hmis : names.find? (Mismatch l.buffers.length) with
    | none =>
      have hall := hfind.mp hmis
      simp only [parsePickle, hfound, hmis]
      simpa using hall
    | some x =>
      have hmem := List.mem_of_find?_eq_some hmis
      have hx := List.find?_some hmis
      simp only [parsePickle, hfound, hmis]
      simpa using ⟨x, hmem, hx⟩

/-- The number that a storage key spells. -/
def keyNumber (key : List UInt8) : ℕ := Nat.ofDigitChars 10 (ofBytes key).toList 0

/-- Some local name whose next key in the stream belongs to another name. -/
def Contradicted (N : ℕ) (ops : List StringOp) : Prop :=
  ∃ i < 6, ∃ op later, op :: later <:+ ops ∧ op.content = toBytes (kLocalNames i) ∧
    ∃ key, (later.map StringOp.content).find? (fun s => decide (IsKey s)) = some key ∧
      keyNumber key < N ∧ kLocalNames (keyNumber key % 6) ≠ kLocalNames i

/-- The scan is in step, and behind the start of some tensor name the first key in reach
belongs to another name; or it is out of step, comes to an end and sees such a pair. -/
def Catches (N : ℕ) (ops : List StringOp) : Prop :=
  (InStep ops ∧ ∃ op later, op :: later <:+ ops ∧
    SeesAt N (encodeOps (op :: later)) 0 op.content) ∨
  (¬ InStep ops ∧ Ends (encodeOps ops) 0 ∧ ∃ i name, ComesTo (encodeOps ops) 0 i ∧
    readBinunicode (encodeOps ops) i = some name ∧ SeesAt N (encodeOps ops) i name)

theorem mem_namesOf {ops : List StringOp} {x : Found} :
    x ∈ namesOf ops ↔ ∃ op later, op :: later <:+ ops ∧ isTensorName op.content = true ∧
      x = ⟨ofBytes op.content, keyBehind (encodeOps (op :: later))⟩ := by
  induction ops with
  | nil => simp [namesOf]
  | cons op ops ih =>
    have hstep : x ∈ namesOf (op :: ops) ↔ (isTensorName op.content = true ∧
        x = ⟨ofBytes op.content, keyBehind (encodeOps (op :: ops))⟩) ∨ x ∈ namesOf ops := by
      simp only [namesOf]
      split_ifs with hname
      · simp only [List.mem_cons, hname, true_and]
      · simp only [hname, Bool.false_eq_true, false_and, false_or]
    rw [hstep, ih]
    constructor
    · rintro (⟨hname, hx⟩ | ⟨o, later, hsuff, hx⟩)
      · exact ⟨op, ops, List.suffix_refl _, hname, hx⟩
      · exact ⟨o, later, hsuff.trans (List.suffix_cons op ops), hx⟩
    · rintro ⟨o, later, hsuff, hx⟩
      obtain heq | hsuff := List.suffix_cons_iff.mp hsuff
      · cases heq
        exact .inl hx
      · exact .inr ⟨o, later, hsuff, hx⟩

theorem mismatch_keyBehind {N : ℕ} {name : String} {d : List UInt8} :
    Mismatch N ⟨name, keyBehind d⟩ = true ↔
      ∃ key, FirstKey d 1 199 key ∧ Mismatch N ⟨name, atoi (ofBytes key).toList⟩ = true := by
  have hsearch := @mismatch_findStorage d 0 N name
  simpa only [keyBehind, Nat.zero_add] using hsearch

theorem parsePickle_rejects_encodeOps (l : PtLoader) (ops : List StringOp) :
    (∃ l', parsePickle l (encodeOps ops) = some (false, l')) ↔ Catches l.buffers.length ops := by
  rw [parsePickle_rejects_iff]
  by_cases hstep : InStep ops
  · simp only [found_encode hstep, Option.some.injEq, exists_eq_left', Catches, hstep, true_and,
      not_true, false_and, or_false, mem_namesOf]
    constructor
    · rintro ⟨x, ⟨op, later, hsuff, hname, rfl⟩, hmis⟩
      exact ⟨op, later, hsuff, hname, mismatch_keyBehind.mp hmis⟩
    · rintro ⟨op, later, hsuff, hname, hsees⟩
      exact ⟨_, ⟨op, later, hsuff, hname, rfl⟩, mismatch_keyBehind.mpr hsees⟩
  · simp only [Catches, hstep, false_and, false_or, not_false_iff, true_and, found_encodeOps]
    obtain ⟨hends, names, hnames, hmem⟩ | ⟨hends, hnone⟩ := scanNames_spec (encodeOps ops) 0
    · simp only [hnames, Option.some.injEq, exists_eq_left', hends, true_and, hmem]
      constructor
      · rintro ⟨x, ⟨j, s, hj, hread, hname, rfl⟩, hmis⟩
        exact ⟨j, s, hj, hread, hname, mismatch_findStorage.mp hmis⟩
      · rintro ⟨j, s, hj, hread, hname, hsees⟩
        exact ⟨_, ⟨j, s, hj, hread, hname, rfl⟩, mismatch_findStorage.mpr hsees⟩
    · simp [hnone, hends]

/-- The pickle check refuses the pickles that contradict the table exactly where the window
and the scan let it see a contradiction. -/
theorem parsePickle_catches_iff (l : PtLoader) (ops : List StringOp) :
    (Contradicted l.buffers.length ops → ∃ l', parsePickle l (encodeOps ops) = some (false, l')) ↔
      (Contradicted l.buffers.length ops → Catches l.buffers.length ops) := by
  rw [parsePickle_rejects_encodeOps]

/-- A name, a string of 200 bytes, and a key of another name. -/
def farKey : List StringOp :=
  [⟨false, toBytes "net.0.weight", by decide⟩,
    ⟨false, List.replicate 200 0x61, by rw [List.length_replicate]; decide⟩,
    ⟨false, toBytes "1", by decide⟩]

theorem inStep_farKey : InStep farKey := by
  unfold InStep
  decide +kernel

theorem namesOf_farKey : namesOf farKey = [⟨"net.0.weight", -1⟩] := by decide +kernel

/-- A key that is too far away is not seen, and the permuted storages are accepted. -/
theorem parsePickle_accepts_farKey : ¬ ∀ (l : PtLoader) (ops : List StringOp),
    Contradicted l.buffers.length ops →
      ∃ l', parsePickle l (encodeOps ops) = some (false, l') := by
  intro h
  have hcontra : Contradicted 2 farKey := by
    refine ⟨0, by omega, _, _, List.suffix_refl _, rfl, toBytes "1", ?_⟩
    decide +kernel
  obtain ⟨names, hnames, x, hx, hmis⟩ :=
    (parsePickle_rejects_iff ⟨"", [(0, []), (1, [])], [], []⟩ _).mp (h _ farKey hcontra)
  rw [found_encode inStep_farKey, namesOf_farKey] at hnames
  cases hnames
  rw [List.mem_singleton.mp hx] at hmis
  exact absurd hmis (by decide)

/-! What the window is sure to see -/

/-- Behind its first byte nothing of the opcode looks like a string opcode. -/
def Plain (op : StringOp) : Prop := ∀ b ∈ op.encode.tail, b ≠ 0x58 ∧ b ≠ 0x8c

theorem readBinunicode_inside {op : StringOp} (hop : Plain op) (post : List UInt8) {m : ℕ}
    (hpos : 0 < m) (hm : m < op.encode.length) : readBinunicode (op.encode ++ post) m = none := by
  have hbyte : byteAt (op.encode ++ post) m ∈ op.encode.tail := by
    obtain ⟨k, rfl⟩ := Nat.exists_eq_add_of_le' hpos
    have htail : k < op.encode.tail.length := by
      rw [List.length_tail]
      omega
    rw [byteAt, List.getD_append _ _ _ _ hm, List.getD_eq_getElem _ _ hm]
    exact List.getElem_tail htail ▸ List.getElem_mem htail
  obtain ⟨hlong, hshort⟩ := hop _ hbyte
  simp only [readBinunicode, if_neg hlong, if_neg hshort, ite_self]

/-- Before `rest` the search finds no key in plain opcodes with other contents. -/
theorem noKey_encodeOps {ops : List StringOp} (hplain : ∀ op ∈ ops, Plain op)
    (hcontent : ∀ op ∈ ops, ¬ IsKey op.content) (rest : List UInt8) {m : ℕ}
    (hm : m < (encodeOps ops).length) {s : List UInt8}
    (hread : readBinunicode (encodeOps ops ++ rest) m = some s) : ¬ IsKey s := by
  induction ops generalizing m with
  | nil => exact absurd hm (Nat.not_lt_zero m)
  | cons op ops ih =>
    obtain ⟨hop, hops⟩ := List.forall_mem_cons.mp hplain
    obtain ⟨hkey, hkeys⟩ := List.forall_mem_cons.mp hcontent
    have henc : encodeOps (op :: ops) ++ rest = op.encode ++ (encodeOps ops ++ rest) :=
      List.append_assoc _ _ _
    have hlen : (encodeOps (op :: ops)).length = op.encode.length + (encodeOps ops).length :=
      List.length_append
    rw [henc] at hread
    obtain rfl | hpos := Nat.eq_zero_or_pos m
    · rw [readBinunicode_encode] at hread
      cases hread
      exact hkey
    obtain hin | hbehind := Nat.lt_or_ge m op.encode.length
    · rw [readBinunicode_inside hop _ hpos hin] at hread
      cases hread
    · obtain ⟨k, rfl⟩ := Nat.exists_eq_add_of_le hbehind
      rw [readBinunicode_append] at hread
      exact ih hops hkeys (by omega) hread

theorem firstKey_behind {op key : StringOp} {between later : List StringOp}
    (hplain : ∀ o ∈ op :: between, Plain o) (hcontent : ∀ o ∈ op :: between, ¬ IsKey o.content)
    (hkey : IsKey key.content) (hlen : (encodeOps (op :: between)).length < 200) :
    FirstKey (encodeOps (op :: (between ++ key :: later))) 1 199 key.content := by
  have henc : encodeOps (op :: (between ++ key :: later)) =
      encodeOps (op :: between) ++ (key.encode ++ encodeOps later) := by
    simp [encodeOps]
  have hpos : 1 ≤ (encodeOps (op :: between)).length := by
    have hop := length_encode op
    have happ : (encodeOps (op :: between)).length =
        op.encode.length + (encodeOps between).length := List.length_append
    split_ifs at hop <;> omega
  have hread := readBinunicode_append (encodeOps (op :: between)) (key.encode ++ encodeOps later) 0
  rw [Nat.add_zero, readBinunicode_encode] at hread
  rw [henc]
  exact ⟨_, hpos, by omega, hread, hkey, fun m _ hm s hs => noKey_encodeOps hplain hcontent _ hm hs⟩

theorem isTensorName_kLocalNames (i : ℕ) : isTensorName (toBytes (kLocalNames i)) = true := by
  match i with
  | 0 | 1 | 2 | 3 | 4 => decide
  | _ + 5 =>
    simp only [kLocalNames]
    decide

theorem not_isKey_kLocalNames (i : ℕ) : ¬ IsKey (toBytes (kLocalNames i)) := by
  match i with
  | 0 | 1 | 2 | 3 | 4 => decide
  | _ + 5 =>
    simp only [kLocalNames]
    decide

theorem ofBytes_kLocalNames (i : ℕ) : ofBytes (toBytes (kLocalNames i)) = kLocalNames i := by
  match i with
  | 0 | 1 | 2 | 3 | 4 => decide
  | _ + 5 =>
    simp only [kLocalNames]
    decide

/-- A key of another name is caught when it starts less than 200 bytes behind the start of
its name and only plain strings, none of them a key, stand between them. -/
theorem catches_of_plain {N i : ℕ} {before between later : List StringOp} {op key : StringOp}
    (hstep : InStep (before ++ op :: (between ++ key :: later)))
    (hname : op.content = toBytes (kLocalNames i)) (hplain : ∀ o ∈ op :: between, Plain o)
    (hcontent : ∀ o ∈ between, ¬ IsKey o.content) (hkey : IsKey key.content)
    (hlen : (encodeOps (op :: between)).length < 200) (hN : N ≤ 2 ^ 31)
    (hin : keyNumber key.content < N)
    (hother : kLocalNames (keyNumber key.content % 6) ≠ kLocalNames i) :
    Catches N (before ++ op :: (between ++ key :: later)) := by
  refine Or.inl ⟨hstep, op, between ++ key :: later, List.suffix_append _ _, ?_⟩
  have hnot : ∀ o ∈ op :: between, ¬ IsKey o.content := by
    refine List.forall_mem_cons.mpr ⟨?_, hcontent⟩
    rw [hname]
    exact not_isKey_kLocalNames i
  refine ⟨?_, key.content, firstKey_behind hplain hnot hkey hlen, ?_⟩
  · rw [hname]
    exact isTensorName_kLocalNames i
  have hnumber : atoi (ofBytes key.content).toList = keyNumber key.content := by
    refine atoi_digits ?_ (List.all_eq_true.mp hkey.2) (by unfold keyNumber at hin; omega)
    simpa [ofBytes] using hkey.1
  have hmod : ((keyNumber key.content : ℤ) % 6).toNat = keyNumber key.content % 6 := by omega
  simp only [Mismatch, hnumber, hname, ofBytes_kLocalNames, hmod, Bool.and_eq_true,
    decide_eq_true_eq]
  exact ⟨⟨by omega, by omega⟩, hother⟩

end PtLoader
end Dee
