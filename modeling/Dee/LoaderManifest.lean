import Dee.JsonGrammar
import Dee.LoaderState
import Dee.TensorNames

/-! The manifest of an open loader. It is JSON, and the reader of the shard headers takes it
for the table of the tensors: name, storage, offset, shape and length in bytes. -/
namespace Dee
open OrderedMap Json

/-! Texts that consist of JSON tokens, built from the end. -/

namespace Json.Lexed
variable {ts : List Token} {text ws : List Char}

theorem space (ws : List Char) (hws : ws.all jsonSpace = true) (h : Lexed ts text) :
    Lexed ts (ws ++ text) := by
  cases h with
  | nil h => exact .nil (by simp only [List.all_append, hws, h, Bool.and_self])
  | cons h ht hmax hrest =>
    rw [← List.append_assoc]
    exact .cons (by simp only [List.all_append, hws, h, Bool.and_self]) ht hmax hrest

theorem token {t : Token} (ht : t.Lexical) (hmax : ∀ cs, t = .number cs → Stops text)
    (h : Lexed ts text) : Lexed (t :: ts) (t.text ++ text) :=
  .cons (List.all_nil (f := jsonSpace)) ht hmax h

theorem mark (c : Char) (hc : c ∈ marks) (h : Lexed ts text) :
    Lexed (.mark c :: ts) (c :: text) :=
  token hc (fun cs hcs => by cases hcs) h

theorem string {body out : List Char} (hbody : JsonBody body out) (h : Lexed ts text) :
    Lexed (.string body :: ts) (quoted body ++ text) :=
  token ⟨out, hbody⟩ (fun cs hcs => by cases hcs) h

theorem intText_eq (z : ℤ) : intText z = (Number.ofInt z).text := by
  rw [Number.text_of_int rfl rfl, intText]
  by_cases hz : z < 0
  · simp [Number.ofInt, Number.sign, hz]
  · simp [Number.ofInt, Number.sign, hz]

theorem number (z : ℤ) (hstop : Stops text) (h : Lexed ts text) :
    Lexed (.number (intText z) :: ts) (intText z ++ text) :=
  token ⟨Number.ofInt z, Number.valid_ofInt z, intText_eq z⟩ (fun _ _ => hstop) h

end Json.Lexed

/-- Characters that stand for themselves in a string. -/
def Verbatim (cs : List Char) : Prop := ∀ c ∈ cs, 32 ≤ c.toNat ∧ c ≠ '"' ∧ c ≠ '\\'

theorem Verbatim.jsonBody {cs : List Char} (h : Verbatim cs) : JsonBody cs cs := by
  induction cs with
  | nil => exact .nil
  | cons c cs ih =>
    obtain ⟨hc, hcs⟩ := List.forall_mem_cons.mp h
    exact .plain hc.1 hc.2.1 hc.2.2 (ih hcs)

/-- Strings that both dialects read as they stand. -/
structure ReadsVerbatim (d : Dialect) : Prop where
  body : ∀ cs, Verbatim cs → d.body cs cs

theorem reader_readsVerbatim : ReadsVerbatim readerDialect :=
  ⟨fun _ h => Plain.readerBody fun c hc => (h c hc).2⟩

theorem json_readsVerbatim : ReadsVerbatim jsonDialect := ⟨fun _ h => h.jsonBody⟩

namespace PtLoader

/-! The text -/

def manifestEntry (t : PtTensor) : List Char :=
  "  \"".toList ++ t.name.toList ++ "\": \x7b\"storage\":".toList ++ intText t.storage ++
    ", \"offset\":".toList ++ intText t.offset ++ ", \"shape\":[".toList ++
    commaSep (t.shape.map intText) ++ "], \"nbytes\":".toList ++ intText t.nbytes ++ "\x7d".toList

/-- The loop over the table; every entry but the first has a comma and a line break before it. -/
def manifestEntries : Bool → List PtTensor → List Char
  | _, [] => []
  | first, t :: ts =>
    (if first then [] else ",\n".toList) ++ manifestEntry t ++ manifestEntries false ts

/-- The table is iterated in the order `ts`. -/
def dumpManifest (ts : List PtTensor) : String :=
  String.ofList ("\x7b\n".toList ++ manifestEntries true ts ++ "\n\x7d\n".toList)

/-! The tokens -/

def shapeTokens : List ℤ → List Token
  | [] => []
  | [d] => [.number (intText d)]
  | d :: ds => .number (intText d) :: .mark ',' :: shapeTokens ds

def fieldTokens (t : PtTensor) : List Token :=
  .string "storage".toList :: .mark ':' :: ([.number (intText t.storage)] ++ .mark ',' ::
    .string "offset".toList :: .mark ':' :: ([.number (intText t.offset)] ++ .mark ',' ::
    .string "shape".toList :: .mark ':' :: (.mark '[' :: (shapeTokens t.shape ++ [.mark ']']) ++
    .mark ',' :: .string "nbytes".toList :: .mark ':' :: [.number (intText t.nbytes)])))

def entryTokens (t : PtTensor) : List Token :=
  .string t.name.toList :: .mark ':' :: .mark '\x7b' :: (fieldTokens t ++ [.mark '\x7d'])

def entriesTokens : List PtTensor → List Token
  | [] => []
  | [t] => entryTokens t
  | t :: ts => entryTokens t ++ .mark ',' :: entriesTokens ts

theorem lexed_shape (ds : List ℤ) {ts : List Token} {text : List Char} (hstop : Stops text)
    (h : Lexed ts text) : Lexed (shapeTokens ds ++ ts) (commaSep (ds.map intText) ++ text) := by
  induction ds with
  | nil => exact h
  | cons d ds ih =>
    cases ds with
    | nil => exact Lexed.number d hstop h
    | cons d' ds =>
      have hrest := Lexed.number d (stops_cons (by decide) _) (Lexed.mark ',' (by decide) ih)
      simpa [shapeTokens, commaSep] using hrest

/-- A key and its colon, behind a space. -/
theorem lexed_key {key : List Char} (hkey : Verbatim key) {ts : List Token} {text : List Char}
    (h : Lexed ts text) :
    Lexed (.string key :: .mark ':' :: ts) (' ' :: (quoted key ++ ':' :: text)) :=
  .space [' '] rfl (.string hkey.jsonBody (.mark ':' (by decide) h))

theorem verbatim_keys : Verbatim "storage".toList ∧ Verbatim "offset".toList ∧
    Verbatim "shape".toList ∧ Verbatim "nbytes".toList := by
  simp [Verbatim]

/-- The text of an entry by its tokens. -/
theorem manifestEntry_eq (t : PtTensor) : manifestEntry t =
    [' ', ' '] ++ (quoted t.name.toList ++ ':' :: ([' '] ++ '\x7b' ::
      (quoted "storage".toList ++ ':' :: (intText t.storage ++ ',' :: ' ' ::
      (quoted "offset".toList ++ ':' :: (intText t.offset ++ ',' :: ' ' ::
      (quoted "shape".toList ++ ':' :: '[' ::
      (commaSep (t.shape.map intText) ++ ']' :: ',' :: ' ' ::
      (quoted "nbytes".toList ++ ':' :: (intText t.nbytes ++ ['\x7d'])))))))))) := by
  have hquote : "  \"".toList = [' ', ' ', '"'] := by decide
  have hfirst : "\": \x7b\"storage\":".toList =
      '"' :: ':' :: ' ' :: '\x7b' :: (quoted "storage".toList ++ [':']) := by decide
  have hsecond : ", \"offset\":".toList = ',' :: ' ' :: (quoted "offset".toList ++ [':']) := by
    decide
  have hthird : ", \"shape\":[".toList = ',' :: ' ' :: (quoted "shape".toList ++ [':', '[']) := by
    decide
  have hfourth : "], \"nbytes\":".toList =
      ']' :: ',' :: ' ' :: (quoted "nbytes".toList ++ [':']) := by decide
  have hlast : "\x7d".toList = ['\x7d'] := by decide
  unfold manifestEntry
  generalize t.name.toList = name
  rw [hquote, hfirst, hsecond, hthird, hfourth, hlast]
  generalize "storage".toList = k₁
  generalize "offset".toList = k₂
  generalize "shape".toList = k₃
  generalize "nbytes".toList = k₄
  simp only [quoted, List.append_assoc, List.cons_append, List.nil_append]

theorem lexed_entry {t : PtTensor} (hname : Verbatim t.name.toList) {ts : List Token}
    {text : List Char} (h : Lexed ts text) :
    Lexed (entryTokens t ++ ts) (manifestEntry t ++ text) := by
  obtain ⟨hstorage, hoffset, hshape, hnbytes⟩ := verbatim_keys
  have hcomma : ∀ text, Stops (',' :: text) := stops_cons (by decide)
  have hend := Lexed.number t.nbytes (stops_cons (by decide) _) (.mark '\x7d' (by decide) h)
  have hbytes := Lexed.mark ']' (by decide) (.mark ',' (by decide) (lexed_key hnbytes hend))
  have hdims := Lexed.mark '[' (by decide)
    (lexed_shape t.shape (stops_cons (by decide) _) hbytes)
  have hoff := Lexed.number t.offset (hcomma _) (.mark ',' (by decide) (lexed_key hshape hdims))
  have hstore := Lexed.number t.storage (hcomma _)
    (.mark ',' (by decide) (lexed_key hoffset hoff))
  have hbrace := Lexed.mark '\x7b' (by decide)
    (.string hstorage.jsonBody (.mark ':' (by decide) hstore))
  have hall := Lexed.space [' ', ' '] rfl
    (.string hname.jsonBody (.mark ':' (by decide) (.space [' '] rfl hbrace)))
  rw [manifestEntry_eq]
  simp only [entryTokens, fieldTokens, List.cons_append, List.append_assoc, List.nil_append]
  exact hall

theorem lexed_entries {ts : List PtTensor} (hnames : ∀ t ∈ ts, Verbatim t.name.toList)
    {toks : List Token} {text : List Char} (h : Lexed toks text) :
    Lexed (entriesTokens ts ++ toks) (manifestEntries true ts ++ text) := by
  induction ts with
  | nil => exact h
  | cons t ts ih =>
    obtain ⟨ht, hts⟩ := List.forall_mem_cons.mp hnames
    cases ts with
    | nil =>
      have hone := lexed_entry ht h
      simpa [entriesTokens, manifestEntries] using hone
    | cons t' ts =>
      have hmore := lexed_entry ht (.mark ',' (by decide) (.space ['\n'] rfl (ih hts)))
      simpa [entriesTokens, manifestEntries] using hmore

/-- The manifest consists of these tokens. -/
theorem lexed_dumpManifest {ts : List PtTensor} (hnames : ∀ t ∈ ts, Verbatim t.name.toList) :
    Lexed (.mark '\x7b' :: (entriesTokens ts ++ [.mark '\x7d'])) (dumpManifest ts).toList := by
  have hnil : Lexed [] ['\n'] := .nil rfl
  have hend : Lexed [.mark '\x7d'] ('\n' :: '\x7d' :: ['\n']) :=
    Lexed.space ['\n'] rfl (.mark '\x7d' (by decide) hnil)
  have hall := Lexed.mark '\x7b' (by decide) (.space ['\n'] rfl (lexed_entries hnames hend))
  rw [dumpManifest, String.toList_ofList]
  simpa using hall

/-! The value -/

section Value
variable {F : Type*} {stod : String → Option F} {d : Dialect}

/-- The members of an entry, in the order of the text. -/
def entryMembers (t : PtTensor) : List (String × Value F) :=
  [("storage", .int (Int64.ofInt t.storage)), ("offset", .int (Int64.ofInt t.offset)),
    ("shape", .array (t.shape.map fun d => .int (Int64.ofInt d))),
    ("nbytes", .int (Int64.ofInt t.nbytes))]

def manifestValue (t : PtTensor) : Value F := .object (assignAll [] (entryMembers t))

/-- The numbers of the entry are signed 64-bit numbers. -/
structure Fits (t : PtTensor) : Prop where
  name : Verbatim t.name.toList
  storage : -2 ^ 63 ≤ t.storage ∧ t.storage < 2 ^ 63
  offset : t.offset < 2 ^ 63
  shape : ∀ d ∈ t.shape, -2 ^ 63 ≤ d ∧ d < 2 ^ 63
  shape_ne : t.shape ≠ []
  nbytes : t.nbytes < 2 ^ 63

theorem denotes_int (stod : String → Option F) (d : Dialect) {z : ℤ}
    (h : -2 ^ 63 ≤ z ∧ z < 2 ^ 63) :
    Denotes stod d [.number (intText z)] (.int (Int64.ofInt z)) := by
  have hvalue := @Number.value_ofInt F stod (Int64.ofInt z)
  rw [Int64.toInt_ofInt_of_le (by simpa using h.1) (by simpa using h.2)] at hvalue
  rw [Lexed.intText_eq]
  exact .number (Number.valid_ofInt z) hvalue

theorem elements_shape (stod : String → Option F) (d : Dialect) {ds : List ℤ} (hne : ds ≠ [])
    (h : ∀ z ∈ ds, -2 ^ 63 ≤ z ∧ z < 2 ^ 63) :
    Elements stod d (shapeTokens ds) (ds.map fun z => .int (Int64.ofInt z)) := by
  induction ds with
  | nil => exact (hne rfl).elim
  | cons z ds ih =>
    obtain ⟨hz, hds⟩ := List.forall_mem_cons.mp h
    cases ds with
    | nil => exact .one (denotes_int stod d hz)
    | cons z' ds => exact .more (denotes_int stod d hz) (ih (by simp) hds)

theorem members_fields (hd : ReadsVerbatim d) {t : PtTensor} (h : Fits t) :
    Members stod d (fieldTokens t) (entryMembers t) := by
  obtain ⟨hstorage, hoffset, hshape, hnbytes⟩ := verbatim_keys
  have hlo : ∀ n : ℕ, -2 ^ 63 ≤ (n : ℤ) := fun n => by omega
  have hbytes := Members.one (hd.body _ hnbytes)
    (denotes_int stod d ⟨hlo _, by exact_mod_cast h.nbytes⟩)
  have hdims := Members.more (hd.body _ hshape)
    (.array (elements_shape stod d h.shape_ne h.shape)) hbytes
  have hoff := Members.more (hd.body _ hoffset)
    (denotes_int stod d ⟨hlo _, by exact_mod_cast h.offset⟩) hdims
  have hall := Members.more (hd.body _ hstorage) (denotes_int stod d h.storage) hoff
  simp only [String.ofList_toList] at hall
  exact hall

theorem members_entries (hd : ReadsVerbatim d) {ts : List PtTensor} (hne : ts ≠ [])
    (h : ∀ t ∈ ts, Fits t) :
    Members stod d (entriesTokens ts) (ts.map fun t => (t.name, manifestValue t)) := by
  induction ts with
  | nil => exact (hne rfl).elim
  | cons t ts ih =>
    obtain ⟨ht, hts⟩ := List.forall_mem_cons.mp h
    have hvalue : Denotes stod d (.mark '\x7b' :: (fieldTokens t ++ [.mark '\x7d']))
        (manifestValue t) := .object (members_fields hd ht)
    cases ts with
    | nil =>
      have hone := Members.one (hd.body _ ht.name) hvalue
      rwa [String.ofList_toList] at hone
    | cons t' ts =>
      have hmore := Members.more (hd.body _ ht.name) hvalue (ih (by simp) hts)
      rwa [String.ofList_toList] at hmore

/-- The table as the manifest lists it. -/
def manifest (ts : List PtTensor) : Value F :=
  .object (assignAll [] (ts.map fun t => (t.name, manifestValue t)))

theorem denotes_manifest (hd : ReadsVerbatim d) {ts : List PtTensor} (h : ∀ t ∈ ts, Fits t) :
    Denotes stod d (.mark '\x7b' :: (entriesTokens ts ++ [.mark '\x7d'])) (manifest ts) := by
  cases ts with
  | nil => exact .emptyObject
  | cons t ts => exact .object (members_entries hd (by simp) h)

/-- An entry tells the four numbers. -/
theorem find_manifestValue (t : PtTensor) :
    (manifestValue t : Value F).find "storage" = some (.int (Int64.ofInt t.storage)) ∧
    (manifestValue t : Value F).find "offset" = some (.int (Int64.ofInt t.offset)) ∧
    (manifestValue t : Value F).find "shape" =
      some (.array (t.shape.map fun z => .int (Int64.ofInt z))) ∧
    (manifestValue t : Value F).find "nbytes" = some (.int (Int64.ofInt t.nbytes)) := by
  have hnodup : ((entryMembers t : List (String × Value F)).map Prod.fst).Nodup := by
    simp [entryMembers]
  simp only [manifestValue, Value.find, find?_assignAll_nodup hnodup]
  simp [entryMembers, find?]

/-- The value tells storage, offset, shape and length of the tensor. -/
structure Describes (v : Value F) (t : PtTensor) : Prop where
  storage : ∃ n, v.find "storage" = some (.int n) ∧ n.toInt = t.storage
  offset : ∃ n, v.find "offset" = some (.int n) ∧ n.toInt = t.offset
  shape : ∃ ds : List Int64, v.find "shape" = some (.array (ds.map .int)) ∧
    ds.map Int64.toInt = t.shape
  nbytes : ∃ n, v.find "nbytes" = some (.int n) ∧ n.toInt = t.nbytes

theorem toInt_ofInt {z : ℤ} (h : -2 ^ 63 ≤ z ∧ z < 2 ^ 63) : (Int64.ofInt z).toInt = z :=
  Int64.toInt_ofInt_of_le (by simpa using h.1) (by simpa using h.2)

theorem describes_manifestValue {t : PtTensor} (h : Fits t) :
    Describes (manifestValue t : Value F) t := by
  obtain ⟨hstorage, hoffset, hshape, hnbytes⟩ := @find_manifestValue F t
  have hlo : ∀ n : ℕ, -2 ^ 63 ≤ (n : ℤ) := fun n => by omega
  have hoff : (t.offset : ℤ) < 2 ^ 63 := by exact_mod_cast h.offset
  have hlen : (t.nbytes : ℤ) < 2 ^ 63 := by exact_mod_cast h.nbytes
  refine ⟨⟨_, hstorage, toInt_ofInt h.storage⟩, ⟨_, hoffset, toInt_ofInt ⟨hlo _, hoff⟩⟩,
    ⟨t.shape.map Int64.ofInt, ?_, ?_⟩, ⟨_, hnbytes, toInt_ofInt ⟨hlo _, hlen⟩⟩⟩
  · rw [hshape, List.map_map]
    rfl
  · rw [List.map_map]
    exact (List.map_congr_left fun d hd => toInt_ofInt (h.shape d hd)).trans (List.map_id' _)

end Value

/-! What a loader dumps -/

section Loader
variable {inflate : List UInt8 → Inflated} {f : RawFile} {l₀ l : PtLoader}

theorem length_membersFrom (inflate : List UInt8 → Inflated) (f : RawFile) (k p : ℕ) :
    (f.membersFrom inflate k p).length ≤ k := by
  induction k generalizing p with
  | zero => exact le_rfl
  | succ k ih =>
    rw [RawFile.membersFrom]
    split_ifs
    · exact Nat.zero_le _
    · have hrest := ih (p + (46 + f.half (p + 28) + f.half (p + 30) + f.half (p + 32)))
      have hone : ∀ o : Option Member, o.toList.length ≤ 1 := fun o => by cases o <;> simp
      rw [List.length_append]
      exact (Nat.add_le_add (hone _) hrest).trans_eq (Nat.add_comm 1 k)

theorem length_contents {ms : List Member} {es : List ArchiveEntry} (h : contents ms = some es) :
    es.length = ms.length := by
  induction ms generalizing es with
  | nil =>
    cases h
    rfl
  | cons m ms ih =>
    rw [contents] at h
    split at h
    · next out rest hdata hrest =>
      cases h
      rw [List.length_cons, ih hrest, List.length_cons]
    · cases h

/-- The directory counts its members in 16 bits. -/
theorem length_entries {es : List ArchiveEntry} (h : f.entries inflate = some es) :
    es.length < 2 ^ 16 := by
  obtain ⟨ms, hms, hcontents⟩ := Option.bind_eq_some_iff.mp h
  rw [length_contents hcontents]
  unfold RawFile.members at hms
  generalize (scanEocd f (f.size + 2) (if 22 ≤ f.size then f.size - 22 else 0)).value = eocd at hms
  cases eocd with
  | none => simp at hms
  | some eocd =>
    dsimp only at hms
    split_ifs at hms
    cases hms
    exact (length_membersFrom inflate f _ _).trans_lt (UInt16.toNat_lt _)

theorem length_storages_le (es : List ArchiveEntry) : (storages es).length ≤ es.length := by
  have hassign : ∀ (k : ℤ) (v : List UInt8) (l : List (ℤ × List UInt8)),
      (assign k v l).length ≤ l.length + 1 := by
    intro k v l
    induction l with
    | nil => exact le_rfl
    | cons e l ih =>
      rw [assign]
      split_ifs
      · exact le_rfl
      · exact Nat.le_succ _
      · exact Nat.succ_le_succ ih
  have hall : ∀ bs l : List (ℤ × List UInt8), (assignAll l bs).length ≤ l.length + bs.length := by
    intro bs
    induction bs with
    | nil => exact fun l => le_rfl
    | cons b bs ih =>
      intro l
      have hstep := hassign b.1 b.2 l
      have hrest := ih (assign b.1 b.2 l)
      rw [List.length_cons]
      exact hrest.trans (by omega)
  exact ((hall _ []).trans_eq (Nat.zero_add _)).trans (List.length_filterMap_le _ _)

/-- The tensors of a loader after `open`, whatever it returned. -/
theorem openFile_tensors {b : Bool} (h : (openFile inflate l₀ f).value = some (b, l)) :
    ∃ n < 2 ^ 16, l.tensors = assignAll [] (canonical n) := by
  cases hentries : f.entries inflate with
  | none =>
    refine ⟨0, by decide, ?_⟩
    obtain hnone | hfalse := openFile_of_no_entries hentries
    · rw [hnone] at h
      cases h
    · obtain ⟨l', hopen, htensors⟩ := hfalse l₀
      rw [hopen] at h
      cases h
      exact htensors
  | some es =>
    have hlen := (length_storages_le es).trans_lt (length_entries hentries)
    rw [openFile_of_entries hentries] at h
    obtain ⟨-, hfinish⟩ | ⟨-, -, hfinish⟩ | ⟨-, names, -, accepted, err, -, hfinish⟩ :=
      finish_cases l₀.err (storages es) (f.pickleAfter inflate l₀.pklBytes)
    · rw [hfinish] at h
      cases h
      exact ⟨0, by decide, rfl⟩
    · rw [hfinish] at h
      cases h
    · rw [hfinish] at h
      cases h
      exact ⟨_, hlen, rfl⟩

theorem verbatim_tensorName (G : ℕ) : Verbatim (tensorName G).toList := by
  have hmod : G % 6 < 6 := Nat.mod_lt G (by decide)
  have hlayer : ∀ c ∈ "layers.".toList, 32 ≤ c.toNat ∧ c ≠ '"' ∧ c ≠ '\\' := by simp
  have hlocal : ∀ c ∈ (kLocalNames (G % 6)).toList, 32 ≤ c.toNat ∧ c ≠ '"' ∧ c ≠ '\\' := by
    interval_cases G % 6 <;> simp [kLocalNames]
  intro c hc
  rw [toList_tensorName, List.mem_append, List.mem_append, List.mem_cons] at hc
  rcases hc with hc | hc | rfl | hc
  · exact hlayer c hc
  · rw [← Nat.toList_repr] at hc
    obtain ⟨hlo, -, hquote, hslash⟩ := ByteText.printable_toString (G / 6) c hc
    exact ⟨hlo, hquote, hslash⟩
  · decide
  · exact hlocal c hc

/-- A tensor of the table can be written. -/
theorem fits_tensorOf {G : ℕ} (hG : G < 2 ^ 16) : Fits (tensorOf G) := by
  have hmod : G % 6 < 6 := Nat.mod_lt G (by decide)
  refine ⟨?_, ?_, ?_, ?_, ?_, ?_⟩
  · exact verbatim_tensorName G
  · show -2 ^ 63 ≤ (G : ℤ) ∧ (G : ℤ) < 2 ^ 63
    omega
  · show (0 : ℕ) < 2 ^ 63
    decide
  · show ∀ d ∈ localShape (G % 6), -2 ^ 63 ≤ d ∧ d < 2 ^ 63
    interval_cases G % 6 <;> decide
  · show localShape (G % 6) ≠ []
    interval_cases G % 6 <;> decide
  · show (localShape (G % 6)).foldl (fun n d => n * toSize d % 2 ^ 64) 1 * 4 % 2 ^ 64 < 2 ^ 63
    interval_cases G % 6 <;> decide

/-- The table maps the name of each tensor to it. -/
theorem name_of_mem {n : ℕ} {e : String × PtTensor} (h : find? e.1 (assignAll [] (canonical n)) =
    some e.2) : e.2.name = e.1 ∧ ∃ G < n, e.2 = tensorOf G := by
  obtain ⟨c, hc, hname⟩ := List.mem_map.mp (mem_keys_of_find?_assignAll h)
  obtain ⟨G, hG, rfl⟩ := List.mem_map.mp hc
  have hG := List.mem_range.mp hG
  rw [← hname, find?_canonical, if_pos hG] at h
  have htensor : tensorOf G = e.2 := Option.some.inj h
  rw [← htensor]
  exact ⟨hname, G, hG, rfl⟩

/-- In whatever order an open loader lists its tensors, the reader of the shard headers accepts
the manifest and finds every tensor in it, and nothing else. -/
theorem parse_dumpManifest {F : Type*} (stod : String → Option F) {b : Bool}
    (hopen : (openFile inflate l₀ f).value = some (b, l)) {ts : List PtTensor}
    (hts : ts.Perm (l.tensors.map Prod.snd)) :
    ∃ v : Value F, parse stod (dumpManifest ts) = .ok (v, true) ∧
      IsJson stod (dumpManifest ts) v ∧
      (∀ name, v.find name = none ↔ find? name l.tensors = none) ∧
      ∀ name t, find? name l.tensors = some t → ∃ w, v.find name = some w ∧ Describes w t := by
  obtain ⟨n, hn, htensors⟩ := openFile_tensors hopen
  have hsorted : Sorted l.tensors := by
    rw [htensors]
    exact Sorted.assignAll List.Pairwise.nil _
  have hall : ∀ e ∈ l.tensors, e.2.name = e.1 ∧ ∃ G < n, e.2 = tensorOf G := by
    intro e he
    have hfind := hsorted.find?_eq_some.mpr he
    rw [htensors] at hfind
    exact name_of_mem hfind
  have hfits : ∀ t ∈ ts, Fits t := by
    intro t ht
    obtain ⟨e, he, rfl⟩ := List.mem_map.mp (hts.mem_iff.mp ht)
    obtain ⟨-, G, hG, htensor⟩ := hall e he
    rw [htensor]
    exact fits_tensorOf (hG.trans hn)
  have hentries : (ts.map fun t => (t.name, (manifestValue t : Value F))).Perm
      (l.tensors.map fun e => (e.1, manifestValue e.2)) := by
    have hmap := hts.map fun t => (t.name, (manifestValue t : Value F))
    rw [List.map_map] at hmap
    refine hmap.trans (List.Perm.of_eq (List.map_congr_left fun e he => ?_))
    show (e.2.name, manifestValue e.2) = _
    rw [(hall e he).1]
  have hfind : ∀ name, (manifest ts : Value F).find name =
      (find? name l.tensors).map manifestValue :=
    hsorted.find?_assignAll_perm manifestValue hentries
  have hlexed := lexed_dumpManifest fun t ht => (hfits t ht).name
  refine ⟨manifest ts, parse_of_denotes hlexed (denotes_manifest reader_readsVerbatim hfits),
    ⟨_, hlexed, denotes_manifest json_readsVerbatim hfits⟩, fun name => ?_, fun name t ht => ?_⟩
  · rw [hfind, Option.map_eq_none_iff]
  · refine ⟨manifestValue t, by rw [hfind, ht]; rfl, describes_manifestValue (hfits t ?_)⟩
    exact hts.mem_iff.mpr (List.mem_map.mpr ⟨_, hsorted.find?_eq_some.mp ht, rfl⟩)

theorem firstName_fits :
    (ByteText.toBytes (kLocalNames 0)).length < if false then 2 ^ 8 else 2 ^ 32 := by decide

theorem firstKey_fits : (ByteText.toBytes "0").length < if false then 2 ^ 8 else 2 ^ 32 := by decide

/-- A pickle that gives the only storage its own name. -/
def firstPickle : List StringOp :=
  [⟨false, ByteText.toBytes (kLocalNames 0), firstName_fits⟩,
    ⟨false, ByteText.toBytes "0", firstKey_fits⟩]

def firstArchive : RawFile where
  size := (storedArchive [⟨pklName, encodeOps firstPickle⟩, ⟨storageName 0, []⟩]).length
  bytes := fun i =>
    (storedArchive [⟨pklName, encodeOps firstPickle⟩, ⟨storageName 0, []⟩]).getD i 0
  size_lt := by decide +kernel

theorem found_firstPickle : found (encodeOps firstPickle) = some [⟨kLocalNames 0, 0⟩] := by
  have hstep : InStep firstPickle := by
    unfold InStep
    decide
  have hnames : namesOf firstPickle = [⟨kLocalNames 0, 0⟩] := by decide
  rw [found_encode hstep, hnames]

theorem openFile_firstArchive : ∃ l, (openFile (fun _ => .error) fresh firstArchive).value =
    some (true, l) ∧ l.tensors = assignAll [] (canonical 1) := by
  have hentries : firstArchive.entries (fun _ => .error) =
      some [⟨pklName, encodeOps firstPickle⟩, ⟨storageName 0, []⟩] := by decide +kernel
  have hpickle : firstArchive.pickleAfter (fun _ => .error) fresh.pklBytes =
      encodeOps firstPickle := by decide +kernel
  have hstorages : storages [⟨pklName, encodeOps firstPickle⟩, ⟨storageName 0, []⟩] =
      [(0, [])] := by decide +kernel
  rw [openFile_of_entries hentries, hpickle, hstorages]
  obtain ⟨hnil, -⟩ | ⟨-, hnone, -⟩ | ⟨-, names, hfound, accepted, err, haccepted, hfinish⟩ :=
    finish_cases fresh.err [(0, [])] (encodeOps firstPickle)
  · cases hnil
  · rw [found_firstPickle] at hnone
    cases hnone
  · rw [found_firstPickle] at hfound
    cases hfound
    have htrue : accepted = true := haccepted.mpr ⟨List.cons_ne_nil _ _, by decide⟩
    rw [hfinish, htrue]
    exact ⟨_, rfl, rfl⟩

theorem parse_dumpManifest_first : ∃ l,
    (openFile (fun _ => .error) fresh firstArchive).value = some (true, l) ∧
      find? (tensorName 0) l.tensors = some (tensorOf 0) ∧ ∃ v : Value ℕ,
        parse (fun _ => none) (dumpManifest (l.tensors.map Prod.snd)) = .ok (v, true) ∧
        IsJson (fun _ => none) (dumpManifest (l.tensors.map Prod.snd)) v ∧
        (∀ name, v.find name = none ↔ find? name l.tensors = none) ∧
        ∀ name t, find? name l.tensors = some t → ∃ w, v.find name = some w ∧ Describes w t := by
  obtain ⟨l, hopen, htensors⟩ := openFile_firstArchive
  exact ⟨l, hopen, by rw [htensors, find?_canonical, if_pos Nat.one_pos],
    parse_dumpManifest _ hopen (List.Perm.refl _)⟩

end Loader

end PtLoader
end Dee
