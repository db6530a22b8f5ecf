import Dee.JsonGrammar

/-! When `parse` keeps the promise of its header: a value, or null and the flag. A number that
does not convert throws, and an array or object with an error inside is returned as it is. What
remains are the texts that begin with a value of a lenient grammar. -/
namespace Dee.Json
open OrderedMap Dee.Json.Parser
variable {F : Type*}

/-! The lenient grammar -/

def trim (cs : List Char) : List Char := cs.dropWhile isspace

/-- A string from behind its opening quote, and what follows it; it may lack its end. -/
inductive StringEnds : List Char → List Char → Prop
  | nil : StringEnds [] []
  | quote (cs : List Char) : StringEnds ('"' :: cs) cs
  | plain {c : Char} {cs rest : List Char} (hquote : c ≠ '"') (hslash : c ≠ '\\')
      (h : StringEnds cs rest) : StringEnds (c :: cs) rest
  | escape (e : Char) {cs rest : List Char} (h : StringEnds cs rest) :
      StringEnds ('\\' :: e :: cs) rest
  | slash : StringEnds ['\\'] []

/-- A minus sign or a digit, and then any characters of numbers. -/
def NumberText (num : List Char) : Prop :=
  ∃ c cs, num = c :: cs ∧ (c = '-' ∨ c.isDigit = true) ∧ ∀ d ∈ cs, isNumberChar d = true

/-- The conversion of the text does not throw. -/
def Converts (stod : String → Option F) (num : List Char) : Prop :=
  if num.any Number.isFloatChar then ∃ f, stod (String.ofList num) = some f
  else ∃ i, stoll num = .ok i

section Grammar
variable (stod : String → Option F)

mutual

/-- Behind white space the first text begins with a value; the second is what follows it. -/
inductive Begins : List Char → List Char → Prop
  | str {cs body rest : List Char} (hcs : trim cs = '"' :: body) (h : StringEnds body rest) :
      Begins cs rest
  | bool (b : Bool) {cs rest : List Char} (hcs : trim cs = boolText b ++ rest) : Begins cs rest
  | number {cs num rest : List Char} (hcs : trim cs = num ++ rest) (hnum : NumberText num)
      (hstop : Stops rest) (h : Converts stod num) : Begins cs rest
  | emptyArray {cs cs' rest : List Char} (hcs : trim cs = '[' :: cs')
      (hclose : trim cs' = ']' :: rest) : Begins cs rest
  | array {cs cs' rest : List Char} (hcs : trim cs = '[' :: cs') (h : BeginsElements cs' rest) :
      Begins cs rest
  | emptyObject {cs cs' rest : List Char} (hcs : trim cs = '\x7b' :: cs')
      (hclose : trim cs' = '\x7d' :: rest) : Begins cs rest
  | object {cs cs' rest : List Char} (hcs : trim cs = '\x7b' :: cs')
      (h : BeginsMembers cs' rest) : Begins cs rest

/-- The values of an array and its closing bracket. -/
inductive BeginsElements : List Char → List Char → Prop
  | one {cs cs₁ rest : List Char} (h : Begins cs cs₁) (hclose : trim cs₁ = ']' :: rest) :
      BeginsElements cs rest
  | more {cs cs₁ cs₂ rest : List Char} (h : Begins cs cs₁) (hcomma : trim cs₁ = ',' :: cs₂)
      (hs : BeginsElements cs₂ rest) : BeginsElements cs rest

/-- The members of an object and its closing brace. -/
inductive BeginsMembers : List Char → List Char → Prop
  | one {cs body cs₁ cs₂ cs₃ rest : List Char} (hquote : trim cs = '"' :: body)
      (hkey : StringEnds body cs₁) (hcolon : trim cs₁ = ':' :: cs₂) (h : Begins cs₂ cs₃)
      (hclose : trim cs₃ = '\x7d' :: rest) : BeginsMembers cs rest
  | more {cs body cs₁ cs₂ cs₃ cs₄ rest : List Char} (hquote : trim cs = '"' :: body)
      (hkey : StringEnds body cs₁) (hcolon : trim cs₁ = ':' :: cs₂) (h : Begins cs₂ cs₃)
      (hcomma : trim cs₃ = ',' :: cs₄) (hs : BeginsMembers cs₄ rest) : BeginsMembers cs rest

end

/-- If the text starts like a number, an array or an object, it begins with a value. -/
def BeginsWell (text : List Char) : Prop :=
  ∀ c ∈ (trim text).head?, (c = '-' ∨ c.isDigit = true) ∨ c = '[' ∨ c = '\x7b' →
    ∃ rest, Begins stod text rest

end Grammar

variable {stod : String → Option F}

/-! Strings and numbers -/

theorem stringEnds_iff {cs rest : List Char} : StringEnds cs rest ↔ (scanString cs).2 = rest := by
  constructor
  · intro h
    induction h with
    | nil => rfl
    | quote cs =>
      rw [scanString.eq_def]
      rfl
    | plain hquote hslash h ih =>
      rw [scanString.eq_def]
      simp only [if_neg hquote, if_neg hslash, ih]
    | escape e h ih =>
      rw [scanString.eq_def]
      exact ih
    | slash => rfl
  · rintro rfl
    fun_induction scanString cs with
    | case1 => exact .nil
    | case2 cs => exact .quote cs
    | case3 => exact .slash
    | case4 e cs _ ih => exact .escape e ih
    | case5 c cs hquote hslash ih => exact .plain hquote hslash ih

theorem StringEnds.length_le {cs rest : List Char} (h : StringEnds cs rest) :
    rest.length ≤ cs.length := by
  rw [← stringEnds_iff.mp h]
  exact length_scanString cs

theorem NumberText.numberText {num rest : List Char} (h : NumberText num) (hstop : Stops rest)
    (e : Bool) : Parser.numberText ⟨num ++ rest, e⟩ = (num, ⟨rest, e⟩) := by
  obtain ⟨c, cs, rfl, hc, hcs⟩ := h
  refine numberText_append (List.cons_ne_nil c cs) (List.forall_mem_cons.mpr ⟨?_, hcs⟩) hstop e
  rcases hc with rfl | hc
  · decide
  · exact Number.isNumberChar_of_isDigit hc

/-- `parse_number` takes its text or throws. -/
theorem NumberText.parseNumber (stod : String → Option F) {num rest : List Char}
    (h : NumberText num) (hstop : Stops rest) (e : Bool) :
    (Converts stod num ∧ ∃ v, v ≠ .null ∧
        Parser.parseNumber stod ⟨num ++ rest, e⟩ = .ok (v, ⟨rest, e⟩)) ∨
      ¬ Converts stod num ∧ ∃ t, Parser.parseNumber stod ⟨num ++ rest, e⟩ = .error t := by
  have htext := h.numberText hstop e
  have hany : (num.any fun c => c = '.' || c = 'e' || c = 'E') = num.any Number.isFloatChar := rfl
  simp only [Parser.parseNumber, htext, hany, Converts]
  by_cases hfloat : num.any Number.isFloatChar = true
  · rw [if_pos hfloat, if_pos hfloat]
    cases stod (String.ofList num) with
    | none => exact Or.inr ⟨by simp, _, rfl⟩
    | some f => exact Or.inl ⟨⟨f, rfl⟩, _, by simp, rfl⟩
  · rw [if_neg hfloat, if_neg hfloat]
    cases stoll num with
    | error t => exact Or.inr ⟨by simp, _, rfl⟩
    | ok i => exact Or.inl ⟨⟨i, rfl⟩, _, by simp, rfl⟩

theorem parseValue_numberText {num : List Char} (h : NumberText num) (n : ℕ) (rest : List Char) :
    parseValue stod (n + 1) ⟨num ++ rest, false⟩ =
      Parser.parseNumber stod ⟨num ++ rest, false⟩ := by
  obtain ⟨c, cs, rfl, hc, -⟩ := h
  exact parseValue_numeral hc n _

/-- Every number is cut at the first character that is none of numbers. -/
theorem exists_numberText {c : Char} (hc : c = '-' ∨ c.isDigit = true) (cs : List Char) :
    ∃ num rest, c :: cs = num ++ rest ∧ NumberText num ∧ Stops rest := by
  refine ⟨c :: cs.takeWhile isNumberChar, cs.dropWhile isNumberChar, ?_,
    ⟨c, _, rfl, hc, fun d hd => List.mem_takeWhile_imp hd⟩, fun d hd => ?_⟩
  · rw [List.cons_append, List.takeWhile_append_dropWhile]
  · have hhead := List.head?_dropWhile_not isNumberChar cs
    rw [Option.mem_def.mp hd] at hhead
    simpa using hhead

/-! Behind white space -/

theorem skipWs_trim (cs : List Char) (e : Bool) : Parser.skipWs ⟨cs, e⟩ = ⟨trim cs, e⟩ := rfl

theorem parseValue_trim (n : ℕ) {cs cs' : List Char} (h : trim cs = cs') :
    parseValue stod n ⟨cs, false⟩ = parseValue stod n ⟨cs', false⟩ := by
  rw [← parseValue_skipWs, skipWs_trim, h]

theorem length_trim_lt {cs cs' : List Char} {c : Char} (h : trim cs = c :: cs') :
    cs'.length < cs.length := by
  have hle : (trim cs).length ≤ cs.length := List.length_dropWhile_le _ _
  rw [h, List.length_cons] at hle
  omega

theorem eq_cons_of_peek {cs : List Char} {e : Bool} {c : Char} (h : peek ⟨cs, e⟩ = c)
    (hc : c ≠ Char.ofNat 0) : ∃ cs', cs = c :: cs' := by
  cases cs with
  | nil => exact absurd h.symm hc
  | cons d cs =>
    obtain rfl : d = c := h
    exact ⟨cs, rfl⟩

theorem trim_trim (cs : List Char) : trim (trim cs) = trim cs := List.dropWhile_idempotent _ cs

/-- Only what stands behind white space counts. -/
theorem Begins.congr {cs cs' rest : List Char} (h : Begins stod cs rest)
    (htrim : trim cs' = trim cs) : Begins stod cs' rest := by
  cases h with
  | str hcs h => exact .str (htrim.trans hcs) h
  | bool b hcs => exact .bool b (htrim.trans hcs)
  | number hcs hnum hstop h => exact .number (htrim.trans hcs) hnum hstop h
  | emptyArray hcs h => exact .emptyArray (htrim.trans hcs) h
  | array hcs h => exact .array (htrim.trans hcs) h
  | emptyObject hcs h => exact .emptyObject (htrim.trans hcs) h
  | object hcs h => exact .object (htrim.trans hcs) h

theorem BeginsElements.congr {cs cs' rest : List Char} (h : BeginsElements stod cs rest)
    (htrim : trim cs' = trim cs) : BeginsElements stod cs' rest := by
  cases h with
  | one h hclose => exact .one (h.congr htrim) hclose
  | more h hcomma hs => exact .more (h.congr htrim) hcomma hs

theorem BeginsMembers.congr {cs cs' rest : List Char} (h : BeginsMembers stod cs rest)
    (htrim : trim cs' = trim cs) : BeginsMembers stod cs' rest := by
  cases h with
  | one hquote hkey hcolon h hclose => exact .one (htrim.trans hquote) hkey hcolon h hclose
  | more hquote hkey hcolon h hcomma hs =>
    exact .more (htrim.trans hquote) hkey hcolon h hcomma hs

/-- What a value starts with closes no array. -/
theorem Begins.head {cs rest : List Char} (h : Begins stod cs rest) :
    ∃ c cs', trim cs = c :: cs' ∧ c ≠ ']' := by
  cases h with
  | str hcs _ => exact ⟨_, _, hcs, by decide⟩
  | bool b hcs =>
    cases b
    · exact ⟨_, _, hcs, by decide⟩
    · exact ⟨_, _, hcs, by decide⟩
  | number hcs hnum hstop hconv =>
    obtain ⟨c, cs', rfl, hc, -⟩ := hnum
    refine ⟨_, _, hcs, ?_⟩
    rintro rfl
    exact absurd hc (by decide)
  | emptyArray hcs _ => exact ⟨_, _, hcs, by decide⟩
  | array hcs _ => exact ⟨_, _, hcs, by decide⟩
  | emptyObject hcs _ => exact ⟨_, _, hcs, by decide⟩
  | object hcs _ => exact ⟨_, _, hcs, by decide⟩

theorem BeginsElements.head {cs rest : List Char} (h : BeginsElements stod cs rest) :
    ∃ c cs', trim cs = c :: cs' ∧ c ≠ ']' := by
  cases h with
  | one h _ => exact h.head
  | more h _ _ => exact h.head

theorem BeginsMembers.head {cs rest : List Char} (h : BeginsMembers stod cs rest) :
    ∃ cs', trim cs = '"' :: cs' := by
  cases h with
  | one hquote => exact ⟨_, hquote⟩
  | more hquote => exact ⟨_, hquote⟩

/-! What begins well is read without an error -/

theorem parseValue_length {n : ℕ} {cs : List Char} {v : Value F} {q : Parser}
    (hn : cs.length < n) (h : parseValue stod n ⟨cs, false⟩ = .ok (v, q)) :
    q.rest.length ≤ cs.length := by
  have hends := @parseValue_ends F stod n ⟨cs, false⟩ hn
  rw [h] at hends
  exact hends.1

theorem arrayLoop_trim {pv : Parser → Except Throw (Value F × Parser)} {cs cs₁ rest : List Char}
    {v : Value F} {c : Char} (hval : pv ⟨cs, false⟩ = .ok (v, ⟨cs₁, false⟩))
    (htrim : trim cs₁ = c :: rest) (k : ℕ) (arr : List (Value F)) :
    arrayLoop pv (k + 1) arr ⟨cs, false⟩ =
      if c = ',' then arrayLoop pv k (arr ++ [v]) ⟨rest, false⟩
      else if c = ']' then .ok (.array (arr ++ [v]), ⟨rest, false⟩)
      else .ok (.array (arr ++ [v]), ⟨c :: rest, true⟩) := by
  simp only [arrayLoop, hval, skipWs_trim, htrim]
  rfl

theorem objectLoop_trim {pv : Parser → Except Throw (Value F × Parser)}
    {cs body cs₁ cs₂ cs₃ rest : List Char} {v : Value F} {c : Char} (hquote : trim cs = '"' :: body)
    (hkey : StringEnds body cs₁) (hcolon : trim cs₁ = ':' :: cs₂)
    (hval : pv ⟨cs₂, false⟩ = .ok (v, ⟨cs₃, false⟩)) (htrim : trim cs₃ = c :: rest) (k : ℕ)
    (obj : List (String × Value F)) :
    ∃ key, objectLoop pv (k + 1) obj ⟨cs, false⟩ =
      if c = ',' then objectLoop pv k (assign key v obj) ⟨rest, false⟩
      else if c = '\x7d' then .ok (.object (assign key v obj), ⟨rest, false⟩)
      else .ok (.object (assign key v obj), ⟨c :: rest, true⟩) := by
  have hstring : parseString ⟨'"' :: body, false⟩ =
      (String.ofList (scanString body).1, ⟨cs₁, false⟩) := by
    rw [← stringEnds_iff.mp hkey]
    rfl
  have hpeek : ∀ (d : Char) (ds : List Char), peek ⟨d :: ds, false⟩ = d := fun _ _ => rfl
  refine ⟨String.ofList (scanString body).1, ?_⟩
  simp only [objectLoop, skipWs_trim, hquote, hpeek, ne_eq, not_true_eq_false, if_false, hstring,
    hcolon, Parser.next, List.tail_cons, hval, htrim]
  rfl

mutual

theorem Begins.parse {cs rest : List Char} (h : Begins stod cs rest) {n : ℕ}
    (hn : cs.length < n) : ∃ v, parseValue stod n ⟨cs, false⟩ = .ok (v, ⟨rest, false⟩) := by
  obtain ⟨n, rfl⟩ := Nat.exists_eq_succ_of_ne_zero (by omega : n ≠ 0)
  match h with
  | .str hcs hs =>
    rw [parseValue_trim _ hcs, ← stringEnds_iff.mp hs]
    exact ⟨.str (String.ofList (scanString _).1), rfl⟩
  | .bool b hcs =>
    rw [parseValue_trim _ hcs]
    exact ⟨_, parseValue_bool b n rest⟩
  | .number hcs hnum hstop hconv =>
    rw [parseValue_trim _ hcs, parseValue_numberText hnum]
    rcases hnum.parseNumber stod hstop false with ⟨-, v, -, hv⟩ | ⟨hno, -⟩
    · exact ⟨v, hv⟩
    · exact absurd hconv hno
  | .emptyArray hcs hclose =>
    rw [parseValue_trim _ hcs, parseValue_bracket, parseArray]
    exact ⟨.array [], by simp [Parser.next, skipWs_trim, hclose, peek]⟩
  | .array hcs hs =>
    have hlen := length_trim_lt hcs
    obtain ⟨c, cs', hhead, hc⟩ := hs.head
    have hlen' := length_trim_lt hhead
    have htrim := hs.congr (trim_trim _)
    rw [parseValue_trim _ hcs, parseValue_bracket, parseArray]
    simp only [Parser.next, List.tail_cons, skipWs_trim, hhead, peek, List.headD_cons, if_neg hc]
    rw [hhead] at htrim
    exact BeginsElements.parse htrim (by rw [List.length_cons]; omega) (Nat.lt_succ_self _) []
  | .emptyObject hcs hclose =>
    rw [parseValue_trim _ hcs, parseValue_brace, parseObject]
    exact ⟨.object [], by simp [Parser.next, skipWs_trim, hclose, peek]⟩
  | .object hcs hs =>
    have hlen := length_trim_lt hcs
    obtain ⟨cs', hhead⟩ := hs.head
    have hlen' := length_trim_lt hhead
    have htrim := hs.congr (trim_trim _)
    have hc : '"' ≠ '\x7d' := by decide
    rw [parseValue_trim _ hcs, parseValue_brace, parseObject]
    simp only [Parser.next, List.tail_cons, skipWs_trim, hhead, peek, List.headD_cons, if_neg hc]
    rw [hhead] at htrim
    exact BeginsMembers.parse htrim (by rw [List.length_cons]; omega) (Nat.lt_succ_self _) []
termination_by (n, 0)

theorem BeginsElements.parse {cs rest : List Char} (h : BeginsElements stod cs rest) {n k : ℕ}
    (hn : cs.length < n) (hk : cs.length < k) (arr : List (Value F)) :
    ∃ v, arrayLoop (parseValue stod n) k arr ⟨cs, false⟩ = .ok (v, ⟨rest, false⟩) := by
  obtain ⟨k, rfl⟩ := Nat.exists_eq_succ_of_ne_zero (by omega : k ≠ 0)
  match h with
  | .one h hclose =>
    obtain ⟨v, hval⟩ := Begins.parse h hn
    rw [arrayLoop_trim hval hclose]
    exact ⟨_, rfl⟩
  | .more h hcomma hs =>
    obtain ⟨v, hval⟩ := Begins.parse h hn
    have hle := parseValue_length hn hval
    have hlt := length_trim_lt hcomma
    rw [arrayLoop_trim hval hcomma, if_pos rfl]
    dsimp only at hle
    exact BeginsElements.parse hs (by omega) (by omega) _
termination_by (n, k)

theorem BeginsMembers.parse {cs rest : List Char} (h : BeginsMembers stod cs rest) {n k : ℕ}
    (hn : cs.length < n) (hk : cs.length < k) (obj : List (String × Value F)) :
    ∃ v, objectLoop (parseValue stod n) k obj ⟨cs, false⟩ = .ok (v, ⟨rest, false⟩) := by
  obtain ⟨k, rfl⟩ := Nat.exists_eq_succ_of_ne_zero (by omega : k ≠ 0)
  match h with
  | .one hquote hkey hcolon h hclose =>
    have hlen := length_trim_lt hquote
    have hlen₁ := hkey.length_le
    have hlen₂ := length_trim_lt hcolon
    obtain ⟨v, hval⟩ := Begins.parse (n := n) h (by omega)
    obtain ⟨key, hloop⟩ := objectLoop_trim hquote hkey hcolon hval hclose k obj
    rw [hloop]
    exact ⟨_, rfl⟩
  | .more hquote hkey hcolon h hcomma hs =>
    have hlen := length_trim_lt hquote
    have hlen₁ := hkey.length_le
    have hlen₂ := length_trim_lt hcolon
    obtain ⟨v, hval⟩ := Begins.parse (n := n) h (by omega)
    have hlen₃ := parseValue_length (by omega) hval
    have hlen₄ := length_trim_lt hcomma
    obtain ⟨key, hloop⟩ := objectLoop_trim hquote hkey hcolon hval hcomma k obj
    rw [hloop, if_pos rfl]
    dsimp only at hlen₃
    exact BeginsMembers.parse hs (by omega) (by omega) _
termination_by (n, k)

end

/-! What is read without an error begins well -/

/-- What `pv` reads without an error begins with a value. -/
def ReadsWell (stod : String → Option F) (pv : Parser → Except Throw (Value F × Parser)) : Prop :=
  ∀ cs v q, pv ⟨cs, false⟩ = .ok (v, q) → q.error = false → Begins stod cs q.rest

section Loops
variable {pv : Parser → Except Throw (Value F × Parser)} {cs : List Char} {v : Value F}
  {q : Parser}

theorem arrayLoop_begins (hpv : ReadsWell stod pv) (herr : KeepsError pv) {k : ℕ}
    {arr : List (Value F)} (hx : arrayLoop pv k arr ⟨cs, false⟩ = .ok (v, q))
    (hq : q.error = false) : BeginsElements stod cs q.rest := by
  induction k generalizing arr cs with
  | zero => cases hx
  | succ k ih =>
    obtain ⟨val, rest, hval, hturn⟩ := arrayLoop_clean herr hx hq
    have hbegins := hpv _ _ _ hval rfl
    rw [skipWs_trim] at hturn
    rcases hturn with ⟨hcomma, hloop⟩ | ⟨hclose, -, rfl⟩
    · obtain ⟨cs', htrim⟩ := eq_cons_of_peek hcomma (by decide)
      rw [htrim] at hloop
      exact .more hbegins htrim (ih hloop)
    · obtain ⟨cs', htrim⟩ := eq_cons_of_peek hclose (by decide)
      rw [htrim]
      exact .one hbegins htrim

theorem objectLoop_begins (hpv : ReadsWell stod pv) (herr : KeepsError pv) {k : ℕ}
    {obj : List (String × Value F)} (hx : objectLoop pv k obj ⟨cs, false⟩ = .ok (v, q))
    (hq : q.error = false) : BeginsMembers stod cs q.rest := by
  induction k generalizing obj cs with
  | zero => cases hx
  | succ k ih =>
    obtain ⟨hquote, hcolon, val, rest, hval, hturn⟩ := objectLoop_clean herr hx hq
    rw [skipWs_trim cs false] at hquote hcolon hval hturn
    obtain ⟨body, hbody⟩ := eq_cons_of_peek hquote (by decide)
    have hkey : StringEnds body (scanString body).2 := stringEnds_iff.mpr rfl
    have hstring : parseString ⟨trim cs, false⟩ =
        (String.ofList (scanString body).1, ⟨(scanString body).2, false⟩) := by
      rw [hbody]
      rfl
    rw [hstring] at hcolon hval hturn
    dsimp only at hcolon hval hturn
    rw [skipWs_trim] at hcolon hval hturn
    obtain ⟨cs₂, htrim⟩ := eq_cons_of_peek hcolon (by decide)
    rw [htrim] at hval
    have hbegins := hpv _ _ _ hval rfl
    rcases hturn with ⟨hcomma, hloop⟩ | ⟨hclose, -, rfl⟩
    · obtain ⟨cs', hcs'⟩ := eq_cons_of_peek hcomma (by decide)
      rw [hcs'] at hloop
      exact .more hbody hkey htrim hbegins hcs' (ih hloop)
    · obtain ⟨cs', hcs'⟩ := eq_cons_of_peek hclose (by decide)
      rw [hcs']
      exact .one hbody hkey htrim hbegins hcs'

end Loops

theorem parseArray_begins {pv : Parser → Except Throw (Value F × Parser)} {cs cs' : List Char}
    {v : Value F} {q : Parser} (hpv : ReadsWell stod pv) (herr : KeepsError pv)
    (hcs : trim cs = '[' :: cs') (hx : parseArray pv ⟨'[' :: cs', false⟩ = .ok (v, q))
    (hq : q.error = false) : Begins stod cs q.rest := by
  have hskip : Parser.skipWs (Parser.next ⟨'[' :: cs', false⟩) = ⟨trim cs', false⟩ := rfl
  simp only [parseArray] at hx
  rw [hskip] at hx
  split_ifs at hx with hclose
  · obtain ⟨rest, hrest⟩ := eq_cons_of_peek hclose (by decide)
    rw [hrest] at hx
    cases hx
    exact .emptyArray hcs hrest
  · have helements := arrayLoop_begins hpv herr hx hq
    exact .array hcs (helements.congr (trim_trim cs').symm)

theorem parseObject_begins {pv : Parser → Except Throw (Value F × Parser)} {cs cs' : List Char}
    {v : Value F} {q : Parser} (hpv : ReadsWell stod pv) (herr : KeepsError pv)
    (hcs : trim cs = '\x7b' :: cs') (hx : parseObject pv ⟨'\x7b' :: cs', false⟩ = .ok (v, q))
    (hq : q.error = false) : Begins stod cs q.rest := by
  have hskip : Parser.skipWs (Parser.next ⟨'\x7b' :: cs', false⟩) = ⟨trim cs', false⟩ := rfl
  simp only [parseObject] at hx
  rw [hskip] at hx
  split_ifs at hx with hclose
  · obtain ⟨rest, hrest⟩ := eq_cons_of_peek hclose (by decide)
    rw [hrest] at hx
    cases hx
    exact .emptyObject hcs hrest
  · have hmembers := objectLoop_begins hpv herr hx hq
    exact .object hcs (hmembers.congr (trim_trim cs').symm)

theorem parseBool_begins {cs : List Char} {v : Value F} {q : Parser}
    (hx : parseBool (F := F) ⟨trim cs, false⟩ = (v, q)) (hq : q.error = false) :
    Begins stod cs q.rest := by
  unfold parseBool at hx
  split_ifs at hx with htrue hfalse
  · have hcs := List.prefix_iff_eq_append.mp (List.isPrefixOf_iff_prefix.mp htrue)
    cases hx
    exact .bool true hcs.symm
  · have hcs := List.prefix_iff_eq_append.mp (List.isPrefixOf_iff_prefix.mp hfalse)
    cases hx
    exact .bool false hcs.symm
  · cases hx
    cases hq

theorem readsWell_parseValue (n : ℕ) : ReadsWell stod (parseValue stod n) := by
  induction n with
  | zero =>
    intro cs v q hx
    cases hx
  | succ n ih =>
    intro cs v q hx hq
    cases htrim : trim cs with
    | nil =>
      rw [parseValue_trim _ htrim] at hx
      cases hx
      cases hq
    | cons c cs' =>
      have hskip : Parser.skipWs ⟨cs, false⟩ = ⟨c :: cs', false⟩ := by rw [skipWs_trim, htrim]
      have hpeek : peek ⟨c :: cs', false⟩ = c := rfl
      simp only [parseValue, hskip, hpeek] at hx
      split_ifs at hx with hbrace hbracket hquote hword hnumeral
      · subst hbrace
        exact parseObject_begins ih (parseValue_error n) htrim hx hq
      · subst hbracket
        exact parseArray_begins ih (parseValue_error n) htrim hx hq
      · subst hquote
        cases hx
        exact .str htrim (stringEnds_iff.mpr rfl)
      · rw [← htrim] at hx
        exact parseBool_begins (Except.ok.inj hx) hq
      · obtain ⟨num, rest, hcs, hnum, hstop⟩ := exists_numberText hnumeral cs'
        rw [hcs] at htrim hx
        rcases hnum.parseNumber stod hstop false with ⟨hconv, w, -, hw⟩ | ⟨-, t, ht⟩
        · rw [hw] at hx
          cases hx
          exact .number htrim hnum hstop hconv
        · rw [ht] at hx
          cases hx
      · cases hx
        cases hq

/-! The whole text -/

theorem arrayLoop_eq_array {pv : Parser → Except Throw (Value F × Parser)} {k : ℕ}
    {arr : List (Value F)} {p q : Parser} {v : Value F}
    (hx : arrayLoop pv k arr p = .ok (v, q)) : ∃ vs, v = .array vs := by
  induction k generalizing arr p with
  | zero => cases hx
  | succ k ih =>
    obtain ⟨val, p', -, ⟨-, hloop⟩ | ⟨hv, -⟩⟩ := arrayLoop_cases hx
    · exact ih hloop
    · exact ⟨_, hv⟩

theorem objectLoop_eq_object {pv : Parser → Except Throw (Value F × Parser)} {k : ℕ}
    {obj : List (String × Value F)} {p q : Parser} {v : Value F}
    (hx : objectLoop pv k obj p = .ok (v, q)) : ∃ es, v = .object es := by
  induction k generalizing obj p with
  | zero => cases hx
  | succ k ih =>
    rcases objectLoop_cases hx with ⟨hv, -⟩ | ⟨-, -, val, p', -, ⟨-, hloop⟩ | ⟨hv, -⟩⟩
    · exact ⟨_, hv⟩
    · exact ih hloop
    · exact ⟨_, hv⟩

/-- A number, an array or an object is not null, with or without an error. -/
theorem parseValue_ne_null {n : ℕ} {cs cs' : List Char} {c : Char} {v : Value F} {q : Parser}
    (hcs : trim cs = c :: cs') (hc : (c = '-' ∨ c.isDigit = true) ∨ c = '[' ∨ c = '\x7b')
    (hx : parseValue stod (n + 1) ⟨cs, false⟩ = .ok (v, q)) : v ≠ .null := by
  rw [parseValue_trim _ hcs] at hx
  rcases hc with hc | rfl | rfl
  · obtain ⟨num, rest, hnum', hnum, hstop⟩ := exists_numberText hc cs'
    rw [parseValue_numeral hc, hnum'] at hx
    rcases hnum.parseNumber stod hstop false with ⟨-, w, hne, hw⟩ | ⟨-, t, ht⟩
    · rw [hw] at hx
      cases hx
      exact hne
    · rw [ht] at hx
      cases hx
  · rw [parseValue_bracket] at hx
    simp only [parseArray] at hx
    split_ifs at hx
    · cases hx
      simp
    · obtain ⟨vs, rfl⟩ := arrayLoop_eq_array hx
      simp
  · rw [parseValue_brace] at hx
    simp only [parseObject] at hx
    split_ifs at hx
    · cases hx
      simp
    · obtain ⟨es, rfl⟩ := objectLoop_eq_object hx
      simp

theorem parseBool_or (cs : List Char) : (parseBool (F := F) ⟨cs, false⟩).2.error = false ∨
    (parseBool (F := F) ⟨cs, false⟩).1 = .null := by
  unfold parseBool
  split_ifs
  · exact Or.inl rfl
  · exact Or.inl rfl
  · exact Or.inr rfl

/-- Any other text is a string, a Boolean, or null with the flag. -/
theorem parseValue_otherwise {n : ℕ} {cs : List Char}
    (hc : ∀ c ∈ (trim cs).head?, ¬ ((c = '-' ∨ c.isDigit = true) ∨ c = '[' ∨ c = '\x7b')) :
    ∃ (v : Value F) (q : Parser), parseValue stod (n + 1) ⟨cs, false⟩ = .ok (v, q) ∧
      (q.error = false ∨ v = .null) := by
  cases htrim : trim cs with
  | nil =>
    rw [parseValue_trim _ htrim]
    exact ⟨.null, _, rfl, Or.inr rfl⟩
  | cons c cs' =>
    have hskip : Parser.skipWs ⟨cs, false⟩ = ⟨c :: cs', false⟩ := by rw [skipWs_trim, htrim]
    have hpeek : peek ⟨c :: cs', false⟩ = c := rfl
    have hother := hc c (by rw [htrim]; rfl)
    simp only [not_or] at hother
    obtain ⟨⟨hminus, hdigit⟩, hbracket, hbrace⟩ := hother
    simp only [parseValue, hskip, hpeek, if_neg hbrace, if_neg hbracket]
    by_cases hquote : c = '"'
    · rw [if_pos hquote]
      exact ⟨_, _, rfl, Or.inl rfl⟩
    rw [if_neg hquote]
    by_cases hword : c = 't' ∨ c = 'f'
    · rw [if_pos hword]
      exact ⟨_, _, rfl, parseBool_or _⟩
    · rw [if_neg hword, if_neg (not_or.mpr ⟨hminus, hdigit⟩)]
      exact ⟨.null, _, rfl, Or.inr rfl⟩

theorem parse_result_iff (stod : String → Option F) (text : String) :
    (∃ v ok, parse stod text = .ok (v, ok) ∧ (ok = true ∨ v = .null)) ↔
      ∃ v q, parseValue stod (text.toList.length + 1) ⟨text.toList, false⟩ = .ok (v, q) ∧
        (q.error = false ∨ v = .null) := by
  unfold parse
  cases parseValue stod (text.toList.length + 1) ⟨text.toList, false⟩ with
  | error t => simp
  | ok r =>
    obtain ⟨w, q⟩ := r
    constructor
    · intro ⟨v, ok, hx, hor⟩
      cases hx
      exact ⟨w, q, rfl, by simpa using hor⟩
    · intro ⟨v, q', hx, hor⟩
      cases hx
      exact ⟨w, !q.error, rfl, by simpa using hor⟩

/-- The result is a value without an error, or null, exactly when a text that starts like a
number, an array or an object begins with one. -/
theorem parse_keeps_promise_iff (stod : String → Option F) (text : String) :
    (∃ v ok, parse stod text = .ok (v, ok) ∧ (ok = true ∨ v = .null)) ↔
      BeginsWell stod text.toList := by
  rw [parse_result_iff]
  constructor
  · intro ⟨v, q, hx, hor⟩ c hc hstart
    obtain ⟨cs', hcs⟩ := List.head?_eq_some_iff.mp hc
    rcases hor with hq | hv
    · exact ⟨q.rest, readsWell_parseValue _ _ v q hx hq⟩
    · exact absurd hv (parseValue_ne_null hcs hstart hx)
  · intro hwell
    by_cases hstart : ∃ c ∈ (trim text.toList).head?,
        (c = '-' ∨ c.isDigit = true) ∨ c = '[' ∨ c = '\x7b'
    · obtain ⟨c, hc, hstart⟩ := hstart
      obtain ⟨rest, hbegins⟩ := hwell c hc hstart
      obtain ⟨v, hv⟩ := hbegins.parse (Nat.lt_succ_self _)
      exact ⟨v, _, hv, Or.inl rfl⟩
    · exact parseValue_otherwise fun c hc hstart' => hstart ⟨c, hc, hstart'⟩

/-- A lone minus sign throws. -/
theorem parse_throws : ¬ ∀ text : String, ∃ (v : Value ℕ) (ok : Bool),
    parse (fun _ => none) text = .ok (v, ok) ∧ (ok = true ∨ v = .null) := by
  intro h
  obtain ⟨v, ok, hx, -⟩ := h "-"
  have hthrow : parse (fun _ => (none : Option ℕ)) "-" = .error .invalidArgument := rfl
  rw [hthrow] at hx
  cases hx

end Dee.Json
