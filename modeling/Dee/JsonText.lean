import Dee.ByteText
import Dee.JsonMin

/-! Compact JSON text and what the reader makes of it: integers, plain strings, and arrays
and objects of what it reads. -/
namespace Dee.Json
open ByteText OrderedMap Dee.Json.Parser
variable {F : Type*} {stod : String → Option F}

/-- No number goes on at the start of the text. -/
def Stops (rest : List Char) : Prop := ∀ c ∈ rest.head?, isNumberChar c = false

/-- Within `n` levels, the reader takes exactly this text, as this value. -/
structure Reads (stod : String → Option F) (n : ℕ) (text : List Char) (v : Value F) : Prop where
  head : ∃ c ∈ text.head?, isspace c = false ∧ c ≠ ']'
  parse : ∀ m, n ≤ m → ∀ rest, Stops rest →
    parseValue stod m ⟨text ++ rest, false⟩ = .ok (v, ⟨rest, false⟩)

theorem Reads.mono {n n' : ℕ} {text : List Char} {v : Value F} (h : Reads stod n text v)
    (hn : n ≤ n') : Reads stod n' text v :=
  ⟨h.head, fun m hm => h.parse m (hn.trans hm)⟩

theorem skipWs_cons {c : Char} (h : isspace c = false) (cs : List Char) (e : Bool) :
    skipWs ⟨c :: cs, e⟩ = ⟨c :: cs, e⟩ := by
  simp [skipWs, h]

/-! Strings -/

/-- A string as `parse_string` reads it: a backslash may stand before any character. -/
inductive ReaderBody : List Char → List Char → Prop
  | nil : ReaderBody [] []
  | plain {c : Char} {cs out : List Char} (hquote : c ≠ '"') (hslash : c ≠ '\\')
      (h : ReaderBody cs out) : ReaderBody (c :: cs) (c :: out)
  | escape (e : Char) {cs out : List Char} (h : ReaderBody cs out) :
      ReaderBody ('\\' :: e :: cs) (escape e :: out)

def quoted (cs : List Char) : List Char := '"' :: cs ++ ['"']

theorem scanString_body {body out : List Char} (h : ReaderBody body out) (rest : List Char) :
    scanString (body ++ '"' :: rest) = (out, rest) := by
  induction h with
  | nil =>
    rw [List.nil_append, scanString.eq_def]
    simp only [if_true]
  | plain hquote hslash h ih =>
    rw [List.cons_append, scanString.eq_def]
    simp only [if_neg hquote, if_neg hslash, ih]
  | escape e h ih =>
    rw [List.cons_append, List.cons_append, scanString.eq_def]
    simp [ih]

theorem parseString_body {body out : List Char} (h : ReaderBody body out) (rest : List Char)
    (e : Bool) : parseString ⟨quoted body ++ rest, e⟩ = (String.ofList out, ⟨rest, e⟩) := by
  have hscan := scanString_body h rest
  simp only [parseString, next, quoted, List.cons_append, List.tail_cons, List.append_assoc,
    List.nil_append, hscan]

theorem parseValue_string {body out : List Char} (h : ReaderBody body out) (n : ℕ)
    (rest : List Char) : parseValue stod (n + 1) ⟨quoted body ++ rest, false⟩ =
      .ok (.str (String.ofList out), ⟨rest, false⟩) := by
  have hws : Parser.skipWs ⟨quoted body ++ rest, false⟩ = ⟨quoted body ++ rest, false⟩ :=
    skipWs_cons (by decide) _ _
  have hpeek : peek ⟨quoted body ++ rest, false⟩ = '"' := rfl
  rw [parseValue]
  simp only [hws, hpeek, parseString_body h]
  simp

/-- A text without quotes and backslashes. -/
def Plain (cs : List Char) : Prop := ∀ c ∈ cs, c ≠ '"' ∧ c ≠ '\\'

theorem Plain.readerBody {cs : List Char} (h : Plain cs) : ReaderBody cs cs := by
  induction cs with
  | nil => exact .nil
  | cons c cs ih =>
    obtain ⟨hc, hcs⟩ := List.forall_mem_cons.mp h
    exact .plain hc.1 hc.2 (ih hcs)

theorem reads_str {cs : List Char} (h : Plain cs) :
    Reads stod 1 (quoted cs) (.str (String.ofList cs)) := by
  refine ⟨⟨'"', rfl, by decide, by decide⟩, fun m hm rest _ => ?_⟩
  obtain ⟨m, rfl⟩ := Nat.exists_eq_succ_of_ne_zero (by omega : m ≠ 0)
  exact parseValue_string h.readerBody m rest

/-! Integers -/

def intText (z : ℤ) : List Char :=
  if z < 0 then '-' :: Nat.toDigits 10 z.natAbs else Nat.toDigits 10 z.natAbs

theorem isspace_of_isDigit {c : Char} (h : c.isDigit = true) : isspace c = false := by
  have hspace : c ≠ ' ' := ne_of_isDigit h (by decide)
  have hlow := (toNat_of_isDigit h).1
  simp only [isspace, hspace, decide_false, Bool.false_or, Bool.and_eq_false_iff,
    decide_eq_false_iff_not]
  omega

/-- Characters of a number are taken as a whole, the sign apart. -/
theorem numberText_append {cs rest : List Char} (hne : cs ≠ [])
    (hall : ∀ c ∈ cs, isNumberChar c = true) (h : Stops rest) (e : Bool) :
    numberText ⟨cs ++ rest, e⟩ = (cs, ⟨rest, e⟩) := by
  obtain ⟨c, cs, rfl⟩ := List.exists_cons_of_ne_nil hne
  by_cases hc : c = '-'
  · subst hc
    obtain ⟨htake, hdrop⟩ :=
      takeWhile_append_of_all (fun c hc => hall c (List.mem_cons_of_mem _ hc)) h
    have hpeek : peek ⟨'-' :: cs ++ rest, e⟩ = '-' := rfl
    rw [numberText, if_pos hpeek]
    simp only [next, List.cons_append, List.tail_cons, htake, hdrop]
  · obtain ⟨htake, hdrop⟩ := takeWhile_append_of_all hall h
    have hpeek : peek ⟨c :: cs ++ rest, e⟩ ≠ '-' := hc
    rw [numberText, if_neg hpeek, htake, hdrop]

/-- `stoll` on a sign and digits. -/
theorem stoll_digits (neg : Bool) {ds : List Char} (hne : ds ≠ [])
    (hall : ∀ c ∈ ds, c.isDigit = true) :
    stoll ((if neg then ['-'] else []) ++ ds) =
      if -2 ^ 63 ≤ (if neg then -Nat.ofDigitChars 10 ds 0 else Nat.ofDigitChars 10 ds 0 : ℤ) ∧
          (if neg then -Nat.ofDigitChars 10 ds 0 else Nat.ofDigitChars 10 ds 0 : ℤ) < 2 ^ 63 then
        .ok (Int64.ofInt
          (if neg then -Nat.ofDigitChars 10 ds 0 else Nat.ofDigitChars 10 ds 0 : ℤ))
      else .error .outOfRange := by
  have htake : ds.takeWhile Char.isDigit = ds := List.takeWhile_eq_self_iff.mpr hall
  cases neg with
  | true => simp only [if_true, List.cons_append, List.nil_append, stoll, htake, if_neg hne]
  | false =>
    obtain ⟨c, cs, hcs⟩ := List.exists_cons_of_ne_nil hne
    have hd := hall c (by simp [hcs])
    have hminus : c ≠ '-' := ne_of_isDigit hd (by decide)
    have hplus : c ≠ '+' := ne_of_isDigit hd (by decide)
    rw [hcs] at htake ⊢
    simp only [Bool.false_eq_true, if_false, List.nil_append, stoll, if_neg hminus,
      if_neg hplus, htake, List.cons_ne_nil]

theorem intText_digits (z : ℤ) : ∀ c ∈ intText z, c = '-' ∨ c.isDigit = true := by
  intro c hc
  unfold intText at hc
  split_ifs at hc
  · rcases List.mem_cons.mp hc with rfl | hc
    · exact Or.inl rfl
    · exact Or.inr (isDigit_toDigits _ c hc)
  · exact Or.inr (isDigit_toDigits _ c hc)

theorem intText_ne_nil (z : ℤ) : intText z ≠ [] := by
  unfold intText
  split_ifs <;> simp [Nat.toDigits_ne_nil]

theorem numberText_intText (z : ℤ) {rest : List Char} (h : Stops rest) :
    numberText ⟨intText z ++ rest, false⟩ = (intText z, ⟨rest, false⟩) := by
  refine numberText_append (intText_ne_nil z) (fun c hc => ?_) h false
  rcases intText_digits z c hc with rfl | hd
  · decide
  · simp [isNumberChar, hd]

/-- The sign of an integer and its digits. -/
theorem stoll_intText {z : ℤ} (hlo : -2 ^ 63 ≤ z) (hhi : z < 2 ^ 63) :
    stoll (intText z) = .ok (Int64.ofInt z) := by
  have hstoll := stoll_digits (decide (z < 0)) Nat.toDigits_ne_nil (isDigit_toDigits z.natAbs)
  have htext : intText z =
      (if decide (z < 0) then ['-'] else []) ++ Nat.toDigits 10 z.natAbs := by
    by_cases hz : z < 0 <;> simp only [intText, hz, decide_true, decide_false, if_true,
      Bool.false_eq_true, if_false, List.cons_append, List.nil_append]
  have hvalue : (if decide (z < 0) then -(z.natAbs : ℤ) else z.natAbs) = z := by
    split_ifs with hz
    · have := of_decide_eq_true hz
      omega
    · have := of_decide_eq_false (Bool.eq_false_of_not_eq_true hz)
      omega
  rw [htext, hstoll, Nat.ofDigitChars_ten_toDigits, hvalue, if_pos ⟨hlo, hhi⟩]

theorem parseNumber_intText {z : ℤ} (hlo : -2 ^ 63 ≤ z) (hhi : z < 2 ^ 63) {rest : List Char}
    (h : Stops rest) :
    parseNumber stod ⟨intText z ++ rest, false⟩ =
      .ok (.int (Int64.ofInt z), ⟨rest, false⟩) := by
  have hint : ((intText z).any fun c => c = '.' || c = 'e' || c = 'E') = false := by
    rw [List.any_eq_false]
    intro c hc
    rcases intText_digits z c hc with rfl | hd
    · decide
    · have h1 : c ≠ '.' := ne_of_isDigit hd (by decide)
      have h2 : c ≠ 'e' := ne_of_isDigit hd (by decide)
      have h3 : c ≠ 'E' := ne_of_isDigit hd (by decide)
      simp [h1, h2, h3]
  simp only [parseNumber, numberText_intText z h, hint, stoll_intText hlo hhi,
    Bool.false_eq_true, if_false]

theorem reads_int {z : ℤ} (hlo : -2 ^ 63 ≤ z) (hhi : z < 2 ^ 63) :
    Reads stod 1 (intText z) (.int (Int64.ofInt z)) := by
  obtain ⟨c, cs, hcs⟩ := List.exists_cons_of_ne_nil (intText_ne_nil z)
  have hc := intText_digits z c (by simp [hcs])
  have hne : ∀ d : Char, d ≠ '-' → d.isDigit = false → c ≠ d := by
    intro d hd hdigit
    rcases hc with rfl | hc
    · exact hd.symm
    · exact ne_of_isDigit hc hdigit
  have hspace : isspace c = false := by
    rcases hc with rfl | hc
    · decide
    · exact isspace_of_isDigit hc
  refine ⟨⟨c, by simp [hcs], hspace, hne _ (by decide) (by decide)⟩, fun m hm rest hrest => ?_⟩
  obtain ⟨m, rfl⟩ := Nat.exists_eq_succ_of_ne_zero (by omega : m ≠ 0)
  have hws : Parser.skipWs ⟨intText z ++ rest, false⟩ = ⟨intText z ++ rest, false⟩ := by
    rw [hcs]
    exact skipWs_cons hspace _ _
  have hpeek : peek ⟨intText z ++ rest, false⟩ = c := by
    rw [hcs]
    rfl
  have hword : ¬ (c = 't' ∨ c = 'f') :=
    not_or.mpr ⟨hne 't' (by decide) (by decide), hne 'f' (by decide) (by decide)⟩
  rw [parseValue]
  simp only [hws, hpeek, if_neg (hne '\x7b' (by decide) (by decide)),
    if_neg (hne '[' (by decide) (by decide)), if_neg (hne '"' (by decide) (by decide)),
    if_neg hword, if_pos hc, parseNumber_intText hlo hhi hrest]

/-! Arrays and objects -/

def commaSep : List (List Char) → List Char
  | [] => []
  | [t] => t
  | t :: ts => t ++ ',' :: commaSep ts

theorem commaSep_cons_cons (t t' : List Char) (ts : List (List Char)) :
    commaSep (t :: t' :: ts) = t ++ ',' :: commaSep (t' :: ts) := rfl

theorem length_le_commaSep (ts : List (List Char)) : ts.length ≤ (commaSep ts).length + 1 := by
  induction ts with
  | nil => simp
  | cons t ts ih =>
    cases ts with
    | nil => simp [commaSep]
    | cons t' ts =>
      rw [commaSep_cons_cons, List.length_append]
      simp only [List.length_cons] at ih ⊢
      omega

theorem commaSep_cons (t : List Char) (ts : List (List Char)) :
    ∃ tail, commaSep (t :: ts) = t ++ tail := by
  cases ts with
  | nil => exact ⟨[], (List.append_nil t).symm⟩
  | cons t' ts => exact ⟨_, commaSep_cons_cons t t' ts⟩

theorem stops_cons {c : Char} (h : isNumberChar c = false) (rest : List Char) :
    Stops (c :: rest) := by
  intro d hd
  cases hd
  exact h

def arrayText (ts : List (List Char)) : List Char := '[' :: commaSep ts ++ [']']

section Containers
variable {n m k : ℕ} {t : List Char} {v : Value F}

theorem arrayLoop_more (h : Reads stod n t v) (hm : n ≤ m) (arr : List (Value F))
    (rest : List Char) :
    arrayLoop (parseValue stod m) (k + 1) arr ⟨t ++ ',' :: rest, false⟩ =
      arrayLoop (parseValue stod m) k (arr ++ [v]) ⟨rest, false⟩ := by
  have hws : Parser.skipWs ⟨',' :: rest, false⟩ = ⟨',' :: rest, false⟩ :=
    skipWs_cons (by decide) _ _
  simp [arrayLoop, h.parse m hm (',' :: rest) (stops_cons (by decide) rest), hws, peek, next]

theorem arrayLoop_last (h : Reads stod n t v) (hm : n ≤ m) (arr : List (Value F))
    (rest : List Char) :
    arrayLoop (parseValue stod m) (k + 1) arr ⟨t ++ ']' :: rest, false⟩ =
      .ok (.array (arr ++ [v]), ⟨rest, false⟩) := by
  have hws : Parser.skipWs ⟨']' :: rest, false⟩ = ⟨']' :: rest, false⟩ :=
    skipWs_cons (by decide) _ _
  simp [arrayLoop, h.parse m hm (']' :: rest) (stops_cons (by decide) rest), hws, peek, next]

/-- The loop takes all elements, given fuel for each. -/
theorem arrayLoop_commaSep (hm : n ≤ m) {items : List (List Char × Value F)}
    (h : ∀ e ∈ items, Reads stod n e.1 e.2) (hne : items ≠ []) (hk : items.length ≤ k)
    (arr : List (Value F)) (rest : List Char) :
    arrayLoop (parseValue stod m) k arr ⟨commaSep (items.map Prod.fst) ++ ']' :: rest, false⟩ =
      .ok (.array (arr ++ items.map Prod.snd), ⟨rest, false⟩) := by
  induction items generalizing k arr with
  | nil => exact absurd rfl hne
  | cons e items ih =>
    obtain ⟨he, hitems⟩ := List.forall_mem_cons.mp h
    rw [List.length_cons] at hk
    obtain ⟨k, rfl⟩ := Nat.exists_eq_succ_of_ne_zero (by omega : k ≠ 0)
    cases items with
    | nil => exact arrayLoop_last he hm arr rest
    | cons e' items =>
      rw [List.map_cons, List.map_cons, commaSep_cons_cons, List.append_assoc, List.cons_append,
        arrayLoop_more he hm, ← List.map_cons, ih hitems (by simp) (by omega)]
      simp

theorem parseValue_bracket (m : ℕ) (cs : List Char) :
    parseValue stod (m + 1) ⟨'[' :: cs, false⟩ = parseArray (parseValue stod m) ⟨'[' :: cs, false⟩ := by
  have hws : Parser.skipWs ⟨'[' :: cs, false⟩ = ⟨'[' :: cs, false⟩ := skipWs_cons (by decide) _ _
  have hpeek : peek ⟨'[' :: cs, false⟩ = '[' := rfl
  have hne : '[' ≠ '\x7b' := by decide
  simp only [parseValue, hws, hpeek, if_neg hne, if_true]

theorem reads_array {items : List (List Char × Value F)}
    (h : ∀ e ∈ items, Reads stod n e.1 e.2) :
    Reads stod (n + 1) (arrayText (items.map Prod.fst)) (.array (items.map Prod.snd)) := by
  refine ⟨⟨'[', rfl, by decide, by decide⟩, fun m hm rest _ => ?_⟩
  obtain ⟨m, rfl⟩ := Nat.exists_eq_succ_of_ne_zero (by omega : m ≠ 0)
  have htext : arrayText (items.map Prod.fst) ++ rest =
      '[' :: (commaSep (items.map Prod.fst) ++ ']' :: rest) := by
    simp [arrayText]
  rw [htext, parseValue_bracket]
  simp only [parseArray, Parser.next, List.tail_cons]
  cases items with
  | nil =>
    have hclose : Parser.skipWs ⟨']' :: rest, false⟩ = ⟨']' :: rest, false⟩ :=
      skipWs_cons (by decide) _ _
    simp [commaSep, hclose, peek]
  | cons e items =>
    obtain ⟨c, hc, hspace, hbracket⟩ := (h e List.mem_cons_self).head
    obtain ⟨cs, hcs⟩ := List.head?_eq_some_iff.mp hc
    obtain ⟨tail, htail⟩ := commaSep_cons e.1 (items.map Prod.fst)
    have hlen := length_le_commaSep ((e :: items).map Prod.fst)
    have hloop := arrayLoop_commaSep
      (k := (commaSep ((e :: items).map Prod.fst) ++ ']' :: rest).length + 1)
      (by omega : n ≤ m) h (by simp) (by simp at hlen ⊢; omega) [] rest
    rw [List.map_cons, htail, hcs, List.cons_append, List.cons_append] at hloop ⊢
    simp only [skipWs_cons hspace, peek, List.headD_cons, if_neg hbracket]
    exact hloop

def entryText (e : List Char × List Char) : List Char := quoted e.1 ++ ':' :: e.2

def objectText (es : List (List Char × List Char)) : List Char :=
  '\x7b' :: commaSep (es.map entryText) ++ ['\x7d']

/-- A member of an object: its key, the text of its value, and the value. -/
structure Member (F : Type*) where
  key : List Char
  text : List Char
  value : Value F

def Member.entry (e : Member F) : List Char × List Char := (e.key, e.text)

/-- What the reader keeps of the members. -/
def Member.assignAll (es : List (Member F)) : List (String × Value F) :=
  OrderedMap.assignAll [] (es.map fun e => (String.ofList e.key, e.value))

variable {e : Member F}

theorem objectLoop_member (hkey : Plain e.key) (h : Reads stod n e.text e.value) (hm : n ≤ m)
    (obj : List (String × Value F)) {c : Char} (hc : isNumberChar c = false)
    (hspace : isspace c = false) (rest : List Char) :
    objectLoop (parseValue stod m) (k + 1) obj ⟨entryText e.entry ++ c :: rest, false⟩ =
      if c = ',' then objectLoop (parseValue stod m) k (assign (String.ofList e.key) e.value obj) ⟨rest, false⟩
      else if c = '\x7d' then .ok (.object (assign (String.ofList e.key) e.value obj), ⟨rest, false⟩)
      else .ok (.object (assign (String.ofList e.key) e.value obj), ⟨c :: rest, true⟩) := by
  have htext : entryText e.entry ++ c :: rest = quoted e.key ++ ':' :: (e.text ++ c :: rest) := by
    simp [entryText, Member.entry]
  have hws : Parser.skipWs ⟨quoted e.key ++ ':' :: (e.text ++ c :: rest), false⟩ =
      ⟨quoted e.key ++ ':' :: (e.text ++ c :: rest), false⟩ := skipWs_cons (by decide) _ _
  have hquote : peek ⟨quoted e.key ++ ':' :: (e.text ++ c :: rest), false⟩ = '"' := rfl
  have hcolon : Parser.skipWs ⟨':' :: (e.text ++ c :: rest), false⟩ =
      ⟨':' :: (e.text ++ c :: rest), false⟩ := skipWs_cons (by decide) _ _
  have hval := h.parse m hm (c :: rest) (stops_cons hc rest)
  have hsep : peek ⟨':' :: (e.text ++ c :: rest), false⟩ = ':' := rfl
  have hend : peek ⟨c :: rest, false⟩ = c := rfl
  rw [htext]
  simp only [objectLoop, hws, hquote, parseString_body hkey.readerBody, hcolon, hsep, Parser.next,
    List.tail_cons, hval, skipWs_cons hspace, hend, Parser.fail]
  rfl

theorem objectLoop_commaSep (hm : n ≤ m) {es : List (Member F)}
    (h : ∀ e ∈ es, Plain e.key ∧ Reads stod n e.text e.value) (hne : es ≠ [])
    (hk : es.length ≤ k) (obj : List (String × Value F)) (rest : List Char) :
    objectLoop (parseValue stod m) k obj
        ⟨commaSep ((es.map Member.entry).map entryText) ++ '\x7d' :: rest, false⟩ =
      .ok (.object (assignAll obj (es.map fun e => (String.ofList e.key, e.value))),
        ⟨rest, false⟩) := by
  induction es generalizing k obj with
  | nil => exact absurd rfl hne
  | cons e es ih =>
    obtain ⟨⟨hkey, he⟩, hes⟩ := List.forall_mem_cons.mp h
    rw [List.length_cons] at hk
    obtain ⟨k, rfl⟩ := Nat.exists_eq_succ_of_ne_zero (by omega : k ≠ 0)
    cases es with
    | nil =>
      have hlast := objectLoop_member (k := k) hkey he hm obj (c := '\x7d') (by decide)
        (by decide) rest
      simpa [commaSep, assignAll] using hlast
    | cons e' es =>
      have hrest := ih hes (by simp) (k := k) (by omega)
        (assign (String.ofList e.key) e.value obj)
      rw [List.map_cons, List.map_cons, List.map_cons, List.map_cons, commaSep_cons_cons,
        List.append_assoc, List.cons_append, objectLoop_member hkey he hm obj (by decide)
        (by decide), if_pos rfl]
      exact hrest

theorem parseValue_brace (m : ℕ) (cs : List Char) :
    parseValue stod (m + 1) ⟨'\x7b' :: cs, false⟩ =
      parseObject (parseValue stod m) ⟨'\x7b' :: cs, false⟩ := by
  have hws : Parser.skipWs ⟨'\x7b' :: cs, false⟩ = ⟨'\x7b' :: cs, false⟩ :=
    skipWs_cons (by decide) _ _
  have hpeek : peek ⟨'\x7b' :: cs, false⟩ = '\x7b' := rfl
  simp only [parseValue, hws, hpeek, if_true]

theorem reads_object {es : List (Member F)}
    (h : ∀ e ∈ es, Plain e.key ∧ Reads stod n e.text e.value) :
    Reads stod (n + 1) (objectText (es.map Member.entry)) (.object (Member.assignAll es)) := by
  refine ⟨⟨'\x7b', rfl, by decide, by decide⟩, fun m hm rest _ => ?_⟩
  obtain ⟨m, rfl⟩ := Nat.exists_eq_succ_of_ne_zero (by omega : m ≠ 0)
  have htext : objectText (es.map Member.entry) ++ rest =
      '\x7b' :: (commaSep ((es.map Member.entry).map entryText) ++ '\x7d' :: rest) := by
    simp [objectText]
  rw [htext, parseValue_brace]
  simp only [parseObject, Parser.next, List.tail_cons]
  cases es with
  | nil =>
    have hclose : Parser.skipWs ⟨'\x7d' :: rest, false⟩ = ⟨'\x7d' :: rest, false⟩ :=
      skipWs_cons (by decide) _ _
    simp [commaSep, hclose, peek, Member.assignAll, assignAll]
  | cons e es =>
    obtain ⟨tail, htail⟩ := commaSep_cons (entryText e.entry) ((es.map Member.entry).map entryText)
    have hlen := length_le_commaSep (((e :: es).map Member.entry).map entryText)
    have hloop := objectLoop_commaSep
      (k := (commaSep (((e :: es).map Member.entry).map entryText) ++ '\x7d' :: rest).length + 1)
      (by omega : n ≤ m) h (by simp) (by simp at hlen ⊢; omega) [] rest
    have hquote : '"' ≠ '\x7d' := by decide
    rw [List.map_cons, List.map_cons, htail, entryText, quoted, List.cons_append, List.cons_append,
      List.cons_append, List.cons_append] at hloop ⊢
    simp only [skipWs_cons (by decide : isspace '"' = false), peek, List.headD_cons,
      if_neg hquote]
    exact hloop

theorem length_objectText_cons (e : List Char × List Char) (es : List (List Char × List Char)) :
    5 ≤ (objectText (e :: es)).length := by
  obtain ⟨tail, htail⟩ := commaSep_cons (entryText e) (es.map entryText)
  rw [objectText, List.map_cons, htail]
  simp [entryText, quoted]
  omega

end Containers

theorem parse_of_reads {n : ℕ} {text : List Char} {v : Value F} (h : Reads stod n text v)
    (hn : n ≤ text.length + 1) : parse stod (String.ofList text) = .ok (v, true) := by
  have hparse := h.parse (text.length + 1) hn [] (by simp [Stops])
  rw [List.append_nil] at hparse
  rw [parse, String.toList_ofList, hparse]
  rfl

end Dee.Json
