import Dee.JsonMin
import Dee.WhileLoops

/-! The JSON reader as the source has it: the whole text, with an index as the read position.
A backslash at the end of the text moves the index past the end. -/
namespace Dee.Json
open OrderedMap WhileLoops

/-- `i` and `error` of the parser. -/
structure Cursor where
  i : ℕ
  error : Bool

namespace Cursor

/-- `++i` -/
def next (p : Cursor) : Cursor := { p with i := p.i + 1 }

def fail (p : Cursor) : Cursor := { p with error := true }

@[simp] theorem next_i (p : Cursor) : p.next.i = p.i + 1 := rfl

section Text
variable (s : List Char)

/-- `s[i]`, where the terminator follows the text. -/
def charAt (i : ℕ) : Char := s.getD i (Char.ofNat 0)

def skipWs (p : Cursor) : Cursor :=
  { p with i := p.i + ((s.drop p.i).takeWhile isspace).length }

def peek (p : Cursor) : Char := if p.i < s.length then charAt s p.i else Char.ofNat 0

/-- A turn of the loop of `parse_string`, on the index and `out`. -/
def stringTurn (t : ℕ × List Char) : Except Throw (Turn (ℕ × List Char) (ℕ × List Char)) :=
  if t.1 < s.length ∧ charAt s t.1 ≠ '"' then
    if charAt s t.1 = '\\' then
      .ok (.again (t.1 + 2, t.2 ++ [Parser.escape (charAt s (t.1 + 1))]))
    else .ok (.again (t.1 + 1, t.2 ++ [charAt s t.1]))
  else .ok (.exit t)

/-- `s.compare(i, w.size(), w) == 0` -/
def compareAt (i : ℕ) (w : List Char) : Except Throw Bool :=
  if s.length < i then .error .outOfRange else .ok (decide ((s.drop i).take w.length = w))

/-- The index where the loop of `parse_number` ends. -/
def numberEnd (p : Cursor) : ℕ :=
  let i := if peek s p = '-' then p.i + 1 else p.i
  i + ((s.drop i).takeWhile Parser.isNumberChar).length

end Text

section Reader
variable {F : Type*} (s : List Char) (stod : String → Option F) (k : ℕ)

/-- `k` bounds the turns of each loop. -/
def parseString (p : Cursor) : Except Throw (String × Cursor) :=
  match loop .fuel (stringTurn s) k (p.next.i, []) with
  | .error t => .error t
  -- the closing quote, where there is one
  | .ok (j, out) => .ok (String.ofList out, { p with i := if j < s.length then j + 1 else j })

def parseBool (p : Cursor) : Except Throw (Value F × Cursor) :=
  match compareAt s p.i "true".toList with
  | .error t => .error t
  | .ok true => .ok (.bool true, { p with i := p.i + 4 })
  | .ok false =>
    match compareAt s p.i "false".toList with
    | .error t => .error t
    | .ok true => .ok (.bool false, { p with i := p.i + 5 })
    | .ok false => .ok (.null, p.fail)

def parseNumber (p : Cursor) : Except Throw (Value F × Cursor) :=
  let q : Cursor := { p with i := numberEnd s p }
  let num := (s.drop p.i).take (q.i - p.i)
  if num.any fun c => c = '.' || c = 'e' || c = 'E' then
    match stod (String.ofList num) with
    | none => .error .outOfRange
    | some f => .ok (.float f, q)
  else
    match Parser.stoll num with
    | .error t => .error t
    | .ok i => .ok (.int i, q)

section Containers
variable (pv : Cursor → Except Throw (Value F × Cursor))

/-- A turn of the loop of `parse_object`, where `pv` parses the values. -/
def objectTurn (l : List (String × Value F) × Cursor) :
    Except Throw (Turn (List (String × Value F) × Cursor) (Value F × Cursor)) :=
  let p := skipWs s l.2
  if peek s p ≠ '"' then .ok (.exit (.object l.1, p.fail))
  else
    match parseString s k p with
    | .error t => .error t
    | .ok (key, p) =>
      let p := skipWs s p
      if peek s p ≠ ':' then .ok (.exit (.object l.1, p.fail))
      else
        match pv p.next with
        | .error t => .error t
        | .ok (val, p) =>
          let obj := assign key val l.1
          let p := skipWs s p
          if peek s p = ',' then .ok (.again (obj, p.next))
          else if peek s p = '}' then .ok (.exit (.object obj, p.next))
          else .ok (.exit (.object obj, p.fail))

def parseObject (p : Cursor) : Except Throw (Value F × Cursor) :=
  let p := skipWs s p.next
  if peek s p = '}' then .ok (.object [], p.next)
  else loop .fuel (objectTurn s k pv) k ([], p)

/-- A turn of the loop of `parse_array`. -/
def arrayTurn (l : List (Value F) × Cursor) :
    Except Throw (Turn (List (Value F) × Cursor) (Value F × Cursor)) :=
  match pv l.2 with
  | .error t => .error t
  | .ok (val, p) =>
    let arr := l.1 ++ [val]
    let p := skipWs s p
    if peek s p = ',' then .ok (.again (arr, p.next))
    else if peek s p = ']' then .ok (.exit (.array arr, p.next))
    else .ok (.exit (.array arr, p.fail))

def parseArray (p : Cursor) : Except Throw (Value F × Cursor) :=
  let p := skipWs s p.next
  if peek s p = ']' then .ok (.array [], p.next)
  else loop .fuel (arrayTurn s pv) k ([], p)

end Containers

/-- The branches of `parse_value`. -/
def parseValueWith (object array : Cursor → Except Throw (Value F × Cursor)) (p : Cursor) :
    Except Throw (Value F × Cursor) :=
  let p := skipWs s p
  let c := peek s p
  if c = '{' then object p
  else if c = '[' then array p
  else if c = '"' then
    match parseString s k p with
    | .error t => .error t
    | .ok (str, q) => .ok (.str str, q)
  else if c = 't' ∨ c = 'f' then parseBool s p
  else if c = '-' ∨ c.isDigit = true then parseNumber s stod p
  else .ok (.null, p.fail)

/-- The depth bounds how many calls of `parse_object` and `parse_array` are open at once. -/
def parseValue : ℕ → Cursor → Except Throw (Value F × Cursor)
  | 0 => parseValueWith s stod k (fun _ => .error .fuel) fun _ => .error .fuel
  | depth + 1 => parseValueWith s stod k (parseObject s k (parseValue depth))
      (parseArray s k (parseValue depth))

end Reader

/-- `json::parse`, with a bound on the turns of each loop and one on the nesting. -/
def parse {F : Type*} (stod : String → Option F) (k depth : ℕ) (text : String) :
    Except Throw (Value F × Bool) :=
  match parseValue text.toList stod k depth ⟨0, false⟩ with
  | .error t => .error t
  | .ok (v, p) => .ok (v, !p.error)

theorem stringTurn_ne_error {s : List Char} (t : ℕ × List Char) (e : Throw) :
    stringTurn s t ≠ .error e := by
  unfold stringTurn
  split_ifs <;> simp

theorem compareAt_of_lt {s : List Char} {i : ℕ} (hi : i < s.length) (w : List Char) :
    compareAt s i w = .ok (decide ((s.drop i).take w.length = w)) := by
  rw [compareAt, if_neg (by omega)]

/-- From `p` to `q` the index does not decrease, and it stays at most one past the end. -/
def Moves (s : List Char) (p q : Cursor) : Prop :=
  p.i ≤ q.i ∧ (p.i ≤ s.length + 1 → q.i ≤ s.length + 1)

section Moves
variable {s : List Char} {p q r : Cursor}

theorem Moves.refl (p : Cursor) : Moves s p p := ⟨le_rfl, id⟩

theorem Moves.trans (hpq : Moves s p q) (hqr : Moves s q r) : Moves s p r :=
  ⟨hpq.1.trans hqr.1, fun hp => hqr.2 (hpq.2 hp)⟩

/-- An error moves nothing. -/
theorem Moves.fail (h : Moves s p q) : Moves s p q.fail := h

theorem moves_of_le (hpq : p.i ≤ q.i) (hq : q.i ≤ max p.i s.length) : Moves s p q :=
  ⟨hpq, by omega⟩

theorem length_takeWhile_drop_le (f : Char → Bool) (i : ℕ) :
    i + ((s.drop i).takeWhile f).length ≤ max i s.length := by
  have h := ((s.drop i).takeWhile_sublist f).length_le
  rw [List.length_drop] at h
  omega

theorem moves_skipWs (p : Cursor) : Moves s p (skipWs s p) :=
  moves_of_le (Nat.le_add_right _ _) (length_takeWhile_drop_le isspace p.i)

/-- What is read and is not the terminator stands in the text. -/
theorem lt_of_peek {c : Char} (h : peek s p = c) (hc : c ≠ Char.ofNat 0) : p.i < s.length := by
  by_contra hp
  rw [peek, if_neg hp] at h
  exact hc h.symm

theorem lt_of_peek_or {c d : Char} (h : peek s p = c ∨ peek s p = d) (hc : c ≠ Char.ofNat 0)
    (hd : d ≠ Char.ofNat 0) : p.i < s.length := by
  rcases h with h | h
  · exact lt_of_peek h hc
  · exact lt_of_peek h hd

theorem moves_next {c : Char} (h : peek s p = c) (hc : c ≠ Char.ofNat 0) : Moves s p p.next := by
  have hlt := lt_of_peek h hc
  exact moves_of_le (Nat.le_succ _) (by simp only [next_i]; omega)

end Moves

end Cursor

end Dee.Json
