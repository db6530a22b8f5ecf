import Dee.OrderedMap

/-! The JSON reader of the shard headers. It keeps one error flag that is never cleared,
and goes on after an error. A `std::string` is its sequence of bytes, each as a character. -/
namespace Dee.Json
open OrderedMap

inductive Value (F : Type*)
  | null
  | bool (b : Bool)
  | int (i : Int64)
  | float (f : F)
  | str (s : String)
  | array (arr : List (Value F))
  | object (obj : List (String × Value F))

/-- What ends a call by an exception. `fuel` is not of the source. -/
inductive Throw
  | invalidArgument | outOfRange | lengthError | fuel
  deriving DecidableEq, Repr

namespace Value
variable {F : Type*}

/-- The field `i` of a value that is not an integer keeps its default. -/
def i : Value F → Int64
  | int i => i
  | _ => 0

def isInt : Value F → Bool
  | int _ => true
  | _ => false

def isObject : Value F → Bool
  | object _ => true
  | _ => false

def find (v : Value F) (key : String) : Option (Value F) :=
  match v with
  | object obj => find? key obj
  | _ => none

theorem isObject_of_find {v w : Value F} {key : String} (h : v.find key = some w) :
    v.isObject = true := by
  cases v with
  | object obj => rfl
  | _ => cases h

end Value

/-- `std::isspace` in the C locale. -/
def isspace (c : Char) : Bool := c = ' ' || 9 ≤ c.toNat && c.toNat ≤ 13

/-- The text from the read position on, and the error flag. -/
structure Parser where
  rest : List Char
  error : Bool

namespace Parser

def skipWs (p : Parser) : Parser := { p with rest := p.rest.dropWhile isspace }

def peek (p : Parser) : Char := p.rest.headD (Char.ofNat 0)

/-- `++i` -/
def next (p : Parser) : Parser := { p with rest := p.rest.tail }

def fail (p : Parser) : Parser := { p with error := true }

def escape (e : Char) : Char :=
  if e = 'n' then '\n' else if e = 't' then '\t' else if e = 'r' then '\r' else e

/-- The loop of `parse_string`, with its closing quote. -/
def scanString : List Char → List Char × List Char
  | [] => ([], [])
  | c :: cs =>
    if c = '"' then ([], cs)
    else if c = '\\' then
      match cs with
      -- the terminator of the text is read and appended
      | [] => ([Char.ofNat 0], [])
      | e :: cs => (escape e :: (scanString cs).1, (scanString cs).2)
    else (c :: (scanString cs).1, (scanString cs).2)

def parseString (p : Parser) : String × Parser :=
  let r := scanString p.next.rest
  (String.ofList r.1, { p with rest := r.2 })

/-- `std::stoll` on a text without blanks. -/
def stoll (num : List Char) : Except Throw Int64 :=
  let (neg, ds) := match num with
    | [] => (false, [])
    | c :: cs => if c = '-' then (true, cs) else if c = '+' then (false, cs) else (false, c :: cs)
  let digits := ds.takeWhile Char.isDigit
  let n : ℤ := if neg then -Nat.ofDigitChars 10 digits 0 else Nat.ofDigitChars 10 digits 0
  if digits = [] then .error .invalidArgument
  else if -2 ^ 63 ≤ n ∧ n < 2 ^ 63 then .ok (Int64.ofInt n)
  else .error .outOfRange

def isNumberChar (c : Char) : Bool :=
  c.isDigit || c = '.' || c = 'e' || c = 'E' || c = '+' || c = '-'

/-- The text from `start` to where the loop of `parse_number` ends. -/
def numberText (p : Parser) : List Char × Parser :=
  if p.peek = '-' then
    ('-' :: p.next.rest.takeWhile isNumberChar,
      { p with rest := p.next.rest.dropWhile isNumberChar })
  else (p.rest.takeWhile isNumberChar, { p with rest := p.rest.dropWhile isNumberChar })

variable {F : Type*} (stod : String → Option F)

def parseNumber (p : Parser) : Except Throw (Value F × Parser) :=
  let r := p.numberText
  if r.1.any fun c => c = '.' || c = 'e' || c = 'E' then
    match stod (String.ofList r.1) with
    -- which of its exceptions `stod` throws, no caller asks
    | none => .error .outOfRange
    | some f => .ok (.float f, r.2)
  else
    match stoll r.1 with
    | .error t => .error t
    | .ok i => .ok (.int i, r.2)

def parseBool (p : Parser) : Value F × Parser :=
  if "true".toList.isPrefixOf p.rest then (.bool true, { p with rest := p.rest.drop 4 })
  else if "false".toList.isPrefixOf p.rest then (.bool false, { p with rest := p.rest.drop 5 })
  else (.null, p.fail)

section Containers
variable (pv : Parser → Except Throw (Value F × Parser))

/-- The loop of `parse_object`, where `pv` parses the values. -/
def objectLoop : ℕ → List (String × Value F) → Parser → Except Throw (Value F × Parser)
  | 0, _, _ => .error .fuel
  | n + 1, obj, p =>
    let p := p.skipWs
    if p.peek ≠ '"' then .ok (.object obj, p.fail)
    else
      let (key, p) := p.parseString
      let p := p.skipWs
      if p.peek ≠ ':' then .ok (.object obj, p.fail)
      else
        match pv p.next with
        | .error t => .error t
        | .ok (val, p) =>
          let obj := assign key val obj
          let p := p.skipWs
          if p.peek = ',' then objectLoop n obj p.next
          else if p.peek = '}' then .ok (.object obj, p.next)
          else .ok (.object obj, p.fail)

def parseObject (p : Parser) : Except Throw (Value F × Parser) :=
  let p := p.next.skipWs
  if p.peek = '}' then .ok (.object [], p.next)
  else objectLoop pv (p.rest.length + 1) [] p

/-- The loop of `parse_array`. -/
def arrayLoop : ℕ → List (Value F) → Parser → Except Throw (Value F × Parser)
  | 0, _, _ => .error .fuel
  | n + 1, arr, p =>
    match pv p with
    | .error t => .error t
    | .ok (val, p) =>
      let arr := arr ++ [val]
      let p := p.skipWs
      if p.peek = ',' then arrayLoop n arr p.next
      else if p.peek = ']' then .ok (.array arr, p.next)
      else .ok (.array arr, p.fail)

def parseArray (p : Parser) : Except Throw (Value F × Parser) :=
  let p := p.next.skipWs
  if p.peek = ']' then .ok (.array [], p.next)
  else arrayLoop pv (p.rest.length + 1) [] p

end Containers

/-- The fuel bounds the nesting. -/
def parseValue : ℕ → Parser → Except Throw (Value F × Parser)
  | 0, _ => .error .fuel
  | n + 1, p =>
    let p := p.skipWs
    let c := p.peek
    if c = '{' then parseObject (parseValue n) p
    else if c = '[' then parseArray (parseValue n) p
    else if c = '"' then .ok (.str p.parseString.1, p.parseString.2)
    else if c = 't' ∨ c = 'f' then .ok p.parseBool
    else if c = '-' ∨ c.isDigit = true then parseNumber stod p
    else .ok (.null, p.fail)

end Parser

/-- `json::parse`: the value, and whether no error was met. -/
def parse {F : Type*} (stod : String → Option F) (text : String) : Except Throw (Value F × Bool) :=
  match Parser.parseValue stod (text.toList.length + 1) ⟨text.toList, false⟩ with
  | .error t => .error t
  | .ok (v, p) => .ok (v, !p.error)

/-- The entries of an object are sorted. -/
def Value.KeysSorted {F : Type*} : Value F → Prop
  | .object obj => Sorted obj
  | _ => True

namespace Parser
variable {F : Type*} {stod : String → Option F} {p : Parser}

/-- The fuel was enough, at most `m` characters are left, and an object is sorted. -/
def Ends (m : ℕ) : Except Throw (Value F × Parser) → Prop
  | .error t => t ≠ .fuel
  | .ok (v, q) => q.rest.length ≤ m ∧ v.KeysSorted

theorem Ends.mono {m m' : ℕ} {x : Except Throw (Value F × Parser)} (h : Ends m x) (hm : m ≤ m') :
    Ends m' x := by
  match x with
  | .error t => exact h
  | .ok (v, q) => exact ⟨h.1.trans hm, h.2⟩

theorem length_skipWs (p : Parser) : p.skipWs.rest.length ≤ p.rest.length :=
  List.length_dropWhile_le _ _

theorem length_next (p : Parser) : p.next.rest.length ≤ p.rest.length := by
  simp [next]

/-- A step past a character other than the terminator gets closer to the end. -/
theorem length_next_lt {c : Char} (h : p.peek = c) (hc : c ≠ Char.ofNat 0) :
    p.next.rest.length < p.rest.length := by
  cases hr : p.rest with
  | nil => exact absurd (by rw [← h, peek, hr]; rfl) hc
  | cons d ds => simp [next, hr]

theorem length_scanString (cs : List Char) : (scanString cs).2.length ≤ cs.length := by
  fun_induction scanString cs with
  | case1 => exact le_rfl
  | case2 => simp
  | case3 => simp
  | case4 _ e cs ih =>
    simp only [List.length_cons]
    omega
  | case5 c cs _ _ ih =>
    simp only [List.length_cons]
    omega

theorem length_parseString (p : Parser) : p.parseString.2.rest.length ≤ p.rest.length :=
  (length_scanString _).trans (length_next p)

theorem length_numberText (p : Parser) : p.numberText.2.rest.length ≤ p.rest.length := by
  unfold numberText
  split_ifs
  · exact (List.length_dropWhile_le _ _).trans (length_next p)
  · exact List.length_dropWhile_le _ _

theorem stoll_ne_fuel {num : List Char} {t : Throw} (h : stoll num = .error t) : t ≠ .fuel := by
  intro ht
  subst ht
  simp only [stoll] at h
  split_ifs at h <;> cases h

theorem parseNumber_ends (p : Parser) : Ends p.rest.length (parseNumber stod p) := by
  have hlen := length_numberText p
  simp only [parseNumber]
  split_ifs
  · split
    · simp [Ends]
    · exact ⟨hlen, trivial⟩
  · split
    · next t ht => exact stoll_ne_fuel ht
    · exact ⟨hlen, trivial⟩

theorem parseBool_ends (p : Parser) : Ends p.rest.length (.ok (p.parseBool (F := F))) := by
  unfold parseBool
  split_ifs
  · exact ⟨by simp, trivial⟩
  · exact ⟨by simp, trivial⟩
  · exact ⟨le_rfl, trivial⟩

variable {pv : Parser → Except Throw (Value F × Parser)} {b : ℕ}

theorem arrayLoop_ends (hpv : ∀ p, p.rest.length < b → Ends p.rest.length (pv p)) {n : ℕ}
    (arr : List (Value F)) {p : Parser} (hn : p.rest.length < n) (hb : p.rest.length < b) :
    Ends p.rest.length (arrayLoop pv n arr p) := by
  induction n generalizing arr p with
  | zero => omega
  | succ n ih =>
    have hval := hpv p hb
    simp only [arrayLoop]
    cases hx : pv p with
    | error t => rwa [hx] at hval
    | ok r =>
      rw [hx] at hval
      have hws : r.2.skipWs.rest.length ≤ p.rest.length := (length_skipWs _).trans hval.1
      dsimp only
      split_ifs with hcomma
      · -- the comma is one character
        have hlt := length_next_lt hcomma (by decide)
        exact (ih _ (by omega) (by omega)).mono (by omega)
      · exact ⟨(length_next _).trans hws, trivial⟩
      · exact ⟨hws, trivial⟩

theorem objectLoop_ends (hpv : ∀ p, p.rest.length < b → Ends p.rest.length (pv p)) {n : ℕ}
    {obj : List (String × Value F)} (hobj : Sorted obj) {p : Parser} (hn : p.rest.length < n)
    (hb : p.rest.length < b) : Ends p.rest.length (objectLoop pv n obj p) := by
  induction n generalizing obj p with
  | zero => omega
  | succ n ih =>
    have hws := length_skipWs p
    have hkey := (length_skipWs p.skipWs.parseString.2).trans
      ((length_parseString p.skipWs).trans hws)
    simp only [objectLoop]
    by_cases hquote : p.skipWs.peek ≠ '"'
    · rw [if_pos hquote]
      exact ⟨hws, hobj⟩
    by_cases hcolon : p.skipWs.parseString.2.skipWs.peek ≠ ':'
    · rw [if_neg hquote, if_pos hcolon]
      exact ⟨hkey, hobj⟩
    rw [if_neg hquote, if_neg hcolon]
    have hnext := length_next p.skipWs.parseString.2.skipWs
    have hval := hpv p.skipWs.parseString.2.skipWs.next (by omega)
    cases hx : pv p.skipWs.parseString.2.skipWs.next with
    | error t => rwa [hx] at hval
    | ok r =>
      rw [hx] at hval
      have hrest : r.2.skipWs.rest.length ≤ p.rest.length :=
        ((length_skipWs _).trans hval.1).trans (hnext.trans hkey)
      have hsorted := hobj.assign p.skipWs.parseString.1 r.1
      dsimp only
      split_ifs with hcomma
      · have hlt := length_next_lt hcomma (by decide)
        exact (ih hsorted (by omega) (by omega)).mono (by omega)
      · exact ⟨(length_next _).trans hrest, hsorted⟩
      · exact ⟨hrest, hsorted⟩

theorem parseArray_ends (hpv : ∀ p, p.rest.length < b → Ends p.rest.length (pv p)) {p : Parser}
    (hb : p.next.rest.length < b) : Ends p.rest.length (parseArray pv p) := by
  have hws := (length_skipWs p.next).trans (length_next p)
  have hws' := length_skipWs p.next
  simp only [parseArray]
  split_ifs
  · exact ⟨(length_next _).trans hws, trivial⟩
  · exact (arrayLoop_ends hpv [] (Nat.lt_succ_self _) (by omega)).mono hws

theorem parseObject_ends (hpv : ∀ p, p.rest.length < b → Ends p.rest.length (pv p)) {p : Parser}
    (hb : p.next.rest.length < b) : Ends p.rest.length (parseObject pv p) := by
  have hws := (length_skipWs p.next).trans (length_next p)
  have hws' := length_skipWs p.next
  simp only [parseObject]
  split_ifs
  · exact ⟨(length_next _).trans hws, List.Pairwise.nil⟩
  · exact (objectLoop_ends hpv List.Pairwise.nil (Nat.lt_succ_self _) (by omega)).mono hws

/-- Each level of nesting takes one character. -/
theorem parseValue_ends {n : ℕ} {p : Parser} (hn : p.rest.length < n) :
    Ends p.rest.length (parseValue stod n p) := by
  induction n generalizing p with
  | zero => omega
  | succ n ih =>
    have hws := length_skipWs p
    simp only [parseValue]
    split_ifs with hbrace hbracket
    · have hlt := length_next_lt hbrace (by decide)
      exact (parseObject_ends (fun q hq => ih hq) (by omega)).mono hws
    · have hlt := length_next_lt hbracket (by decide)
      exact (parseArray_ends (fun q hq => ih hq) (by omega)).mono hws
    · exact ⟨(length_parseString _).trans hws, trivial⟩
    · exact (parseBool_ends _).mono hws
    · exact (parseNumber_ends _).mono hws
    · exact ⟨hws, trivial⟩

theorem parseText_ends (stod : String → Option F) (text : String) :
    Ends text.toList.length
      (parseValue stod (text.toList.length + 1) ⟨text.toList, false⟩) :=
  parseValue_ends (Nat.lt_succ_self _)

end Parser

/-- The parser comes to an end on every text, with a value or by an exception of the
source. -/
theorem parse_ne_fuel {F : Type*} (stod : String → Option F) (text : String) :
    parse stod text ≠ .error .fuel := by
  have hends := Parser.parseText_ends stod text
  unfold parse
  cases hx : Parser.parseValue stod (text.toList.length + 1) ⟨text.toList, false⟩ with
  | error t =>
    rw [hx] at hends
    intro h
    cases h
    exact hends rfl
  | ok r => simp

theorem parse_sorted {F : Type*} {stod : String → Option F} {text : String} {ok : Bool}
    {obj : List (String × Value F)} (h : parse stod text = .ok (.object obj, ok)) :
    Sorted obj := by
  have hends := Parser.parseText_ends stod text
  unfold parse at h
  cases hx : Parser.parseValue stod (text.toList.length + 1) ⟨text.toList, false⟩ with
  | error t => rw [hx] at h; cases h
  | ok r =>
    rw [hx] at h hends
    have hv : r.1 = .object obj := congrArg Prod.fst (Except.ok.inj h)
    have hsorted := hends.2
    rwa [hv] at hsorted

end Dee.Json
