import Dee.JsonText

/-! JSON by its tokens: structural characters, words, numbers and strings, with white space
around them, and the values that sequences of tokens denote. How the escapes of a string are
read is left to a dialect. -/
namespace Dee.Json
open OrderedMap Dee.Json.Parser

inductive Token
  | mark (c : Char)
  | word (cs : List Char)
  | number (cs : List Char)
  | string (body : List Char)

def Token.text : Token → List Char
  | mark c => [c]
  | word cs => cs
  | number cs => cs
  | string body => quoted body

/-- The tokens in their order, white space `sp` before each, then `rest`. -/
inductive Spaced (sp : Char → Bool) (rest : List Char) : List Token → List Char → Prop
  | nil : Spaced sp rest [] rest
  | cons {ws text : List Char} {t : Token} {ts : List Token} (hws : ws.all sp = true)
      (h : Spaced sp rest ts text) : Spaced sp rest (t :: ts) (ws ++ (t.text ++ text))

/-! Numbers -/

/-- A number by its parts: an exponent is its letter, its sign and its digits. -/
structure Number where
  neg : Bool
  int : List Char
  frac : Option (List Char)
  exp : Option (Char × List Char × List Char)

namespace Number

def IsDigits (ds : List Char) : Prop := ds ≠ [] ∧ ∀ c ∈ ds, c.isDigit = true

/-- The number grammar: no leading zero, and no empty part. -/
structure Valid (n : Number) : Prop where
  int : IsDigits n.int ∧ (n.int.head? = some '0' → n.int = ['0'])
  frac : ∀ ds ∈ n.frac, IsDigits ds
  exp : ∀ e ∈ n.exp, (e.1 = 'e' ∨ e.1 = 'E') ∧ (e.2.1 = [] ∨ e.2.1 = ['+'] ∨ e.2.1 = ['-']) ∧
    IsDigits e.2.2

def sign (n : Number) : List Char := if n.neg then ['-'] else []

def fracText (n : Number) : List Char :=
  match n.frac with
  | none => []
  | some ds => '.' :: ds

def expText (n : Number) : List Char :=
  match n.exp with
  | none => []
  | some e => e.1 :: (e.2.1 ++ e.2.2)

def text (n : Number) : List Char := n.sign ++ (n.int ++ (n.fracText ++ n.expText))

def toInt (n : Number) : ℤ :=
  if n.neg then -Nat.ofDigitChars 10 n.int 0 else Nat.ofDigitChars 10 n.int 0

/-- Without fraction and exponent a signed 64-bit integer, else a float. -/
def value {F : Type*} (stod : String → Option F) (n : Number) : Option (Value F) :=
  if n.frac = none ∧ n.exp = none then
    if -2 ^ 63 ≤ n.toInt ∧ n.toInt < 2 ^ 63 then some (.int (Int64.ofInt n.toInt)) else none
  else (stod (String.ofList n.text)).map .float

end Number

/-! Values -/

def boolText (b : Bool) : List Char := if b then "true".toList else "false".toList

/-- How a string is read, and whether `null` is a value. -/
structure Dialect where
  body : List Char → List Char → Prop
  null : Prop

section Denotes
variable {F : Type*} (stod : String → Option F) (d : Dialect)

mutual

/-- The value that tokens denote. Of two members with one key the last one counts. -/
inductive Denotes : List Token → Value F → Prop
  | null (h : d.null) : Denotes [.word "null".toList] .null
  | bool (b : Bool) : Denotes [.word (boolText b)] (.bool b)
  | number {n : Number} {v : Value F} (hn : n.Valid) (hv : n.value stod = some v) :
      Denotes [.number n.text] v
  | str {body out : List Char} (h : d.body body out) :
      Denotes [.string body] (.str (String.ofList out))
  | emptyArray : Denotes [.mark '[', .mark ']'] (.array [])
  | array {ts : List Token} {vs : List (Value F)} (h : Elements ts vs) :
      Denotes (.mark '[' :: (ts ++ [.mark ']'])) (.array vs)
  | emptyObject : Denotes [.mark '\x7b', .mark '\x7d'] (.object [])
  | object {ts : List Token} {es : List (String × Value F)} (h : Members ts es) :
      Denotes (.mark '\x7b' :: (ts ++ [.mark '\x7d'])) (.object (assignAll [] es))

inductive Elements : List Token → List (Value F) → Prop
  | one {ts : List Token} {v : Value F} (h : Denotes ts v) : Elements ts [v]
  | more {ts ts' : List Token} {v : Value F} {vs : List (Value F)} (h : Denotes ts v)
      (hs : Elements ts' vs) : Elements (ts ++ .mark ',' :: ts') (v :: vs)

inductive Members : List Token → List (String × Value F) → Prop
  | one {body key : List Char} {ts : List Token} {v : Value F} (hk : d.body body key)
      (h : Denotes ts v) : Members (.string body :: .mark ':' :: ts) [(String.ofList key, v)]
  | more {body key : List Char} {ts ts' : List Token} {v : Value F}
      {es : List (String × Value F)} (hk : d.body body key) (h : Denotes ts v)
      (hs : Members ts' es) :
      Members (.string body :: .mark ':' :: (ts ++ .mark ',' :: ts'))
        ((String.ofList key, v) :: es)

end

end Denotes

/-- What the reader accepts. -/
def readerDialect : Dialect := ⟨ReaderBody, False⟩

/-! Numbers as `parse_number` reads them -/

namespace Number
variable {n : Number}

theorem text_head (hn : n.Valid) : ∃ c ∈ n.text.head?, c = '-' ∨ c.isDigit = true := by
  obtain ⟨c, cs, hcs⟩ := List.exists_cons_of_ne_nil hn.int.1.1
  have hc := hn.int.1.2 c (by simp [hcs])
  unfold text sign
  split_ifs
  · exact ⟨'-', rfl, Or.inl rfl⟩
  · exact ⟨c, by simp [hcs], Or.inr hc⟩

theorem isNumberChar_of_isDigit {c : Char} (h : c.isDigit = true) : isNumberChar c = true := by
  simp [isNumberChar, h]

theorem isNumberChar_text (hn : n.Valid) : ∀ c ∈ n.text, isNumberChar c = true := by
  intro c hc
  simp only [text, List.mem_append] at hc
  rcases hc with hc | hc | hc | hc
  · unfold sign at hc
    split_ifs at hc
    · rw [List.mem_singleton.mp hc]
      decide
    · cases hc
  · exact isNumberChar_of_isDigit (hn.int.1.2 c hc)
  · unfold fracText at hc
    split at hc
    · cases hc
    · next ds hds =>
      rcases List.mem_cons.mp hc with rfl | hc
      · decide
      · exact isNumberChar_of_isDigit ((hn.frac ds hds).2 c hc)
  · unfold expText at hc
    split at hc
    · cases hc
    · next e he =>
      obtain ⟨hletter, hsign, hdigits⟩ := hn.exp e he
      rcases List.mem_cons.mp hc with rfl | hc
      · rcases hletter with hletter | hletter <;> rw [hletter] <;> decide
      rcases List.mem_append.mp hc with hc | hc
      · rcases hsign with hsign | hsign | hsign <;> rw [hsign] at hc
        · cases hc
        · rw [List.mem_singleton.mp hc]
          decide
        · rw [List.mem_singleton.mp hc]
          decide
      · exact isNumberChar_of_isDigit (hdigits.2 c hc)

/-- The test that makes a number a float. -/
def isFloatChar (c : Char) : Bool := c = '.' || c = 'e' || c = 'E'

theorem any_isFloatChar (hn : n.Valid) :
    n.text.any isFloatChar = true ↔ ¬ (n.frac = none ∧ n.exp = none) := by
  have hdigits : ∀ ds, (∀ c ∈ ds, Char.isDigit c = true) →
      List.any ds isFloatChar = false := by
    intro ds hds
    rw [List.any_eq_false]
    intro c hc
    have hd := hds c hc
    have h1 : c ≠ '.' := ByteText.ne_of_isDigit hd (by decide)
    have h2 : c ≠ 'e' := ByteText.ne_of_isDigit hd (by decide)
    have h3 : c ≠ 'E' := ByteText.ne_of_isDigit hd (by decide)
    simp [isFloatChar, h1, h2, h3]
  have hsign : n.sign.any isFloatChar = false := by
    unfold sign
    split_ifs <;> decide
  rw [text, List.any_append, List.any_append, List.any_append, hsign, hdigits _ hn.int.1.2]
  cases hf : n.frac with
  | some ds => simp [fracText, hf, isFloatChar]
  | none =>
    cases he : n.exp with
    | none => simp [fracText, expText, hf, he]
    | some e =>
      rcases (hn.exp e he).1 with hletter | hletter <;>
        simp [fracText, expText, hf, he, isFloatChar, hletter]

theorem text_of_int (hf : n.frac = none) (he : n.exp = none) : n.text = n.sign ++ n.int := by
  simp [text, fracText, expText, hf, he]

/-- The reader takes a whole number where nothing goes on with it. -/
theorem parseNumber_text {F : Type*} {stod : String → Option F} (hn : n.Valid)
    {rest : List Char} (h : Stops rest) (e : Bool) (v : Value F) (q : Parser) :
    parseNumber stod ⟨n.text ++ rest, e⟩ = .ok (v, q) ↔
      n.value stod = some v ∧ q = ⟨rest, e⟩ := by
  obtain ⟨c, hc, -⟩ := text_head hn
  have hne : n.text ≠ [] := by
    intro hnil
    rw [hnil] at hc
    cases hc
  have hfloat : (n.text.any fun c => c = '.' || c = 'e' || c = 'E') = true ↔
      ¬ (n.frac = none ∧ n.exp = none) := any_isFloatChar hn
  simp only [parseNumber, numberText_append hne (isNumberChar_text hn) h, hfloat, value, ite_not]
  by_cases hint : n.frac = none ∧ n.exp = none
  · have hstoll := stoll_digits n.neg hn.int.1.1 hn.int.1.2
    rw [← sign, ← text_of_int hint.1 hint.2, ← toInt] at hstoll
    simp only [if_pos hint, hstoll]
    split_ifs with hrange
    · simp [eq_comm]
    · simp
  · simp only [if_neg hint]
    cases hstod : stod (String.ofList n.text) with
    | none => simp
    | some f => simp [eq_comm]

end Number

end Dee.Json
