import Dee.JsonCursor

/-! The reader with an index agrees with the reader on the rest of the text: the rest is what
the index leaves of the text. -/
namespace Dee.Json.Cursor
open OrderedMap WhileLoops

/-- What the index leaves. -/
def toParser (s : List Char) (p : Cursor) : Parser := ⟨s.drop p.i, p.error⟩

section Steps
variable (s : List Char) (p : Cursor)

theorem drop_length_takeWhile (f : Char → Bool) (l : List Char) :
    l.drop (l.takeWhile f).length = l.dropWhile f :=
  calc l.drop (l.takeWhile f).length
      = (l.takeWhile f ++ l.dropWhile f).drop (l.takeWhile f).length := by
        rw [List.takeWhile_append_dropWhile]
    _ = l.dropWhile f := List.drop_left

theorem take_length_takeWhile (f : Char → Bool) (l : List Char) :
    l.take (l.takeWhile f).length = l.takeWhile f :=
  calc l.take (l.takeWhile f).length
      = (l.takeWhile f ++ l.dropWhile f).take (l.takeWhile f).length := by
        rw [List.takeWhile_append_dropWhile]
    _ = l.takeWhile f := List.take_left

@[simp] theorem toParser_skipWs : (toParser s p).skipWs = toParser s (skipWs s p) := by
  simp only [toParser, Parser.skipWs, skipWs, ← List.drop_drop, drop_length_takeWhile]

@[simp] theorem toParser_next : (toParser s p).next = toParser s p.next := by
  simp only [toParser, Parser.next, next, List.tail_drop]

@[simp] theorem toParser_fail : (toParser s p).fail = toParser s p.fail := rfl

theorem drop_of_lt {i : ℕ} (h : i < s.length) : s.drop i = charAt s i :: s.drop (i + 1) := by
  rw [charAt, List.getD_eq_getElem _ _ h]
  exact List.drop_eq_getElem_cons h

theorem drop_of_le {i : ℕ} (h : s.length ≤ i) : s.drop i = [] :=
  List.drop_eq_nil_of_le h

@[simp] theorem toParser_peek : (toParser s p).peek = peek s p := by
  unfold Parser.peek toParser peek
  split_ifs with h
  · rw [drop_of_lt s h, List.headD_cons]
  · rw [drop_of_le s (not_lt.mp h), List.headD_nil]

end Steps

section Strings
variable {s : List Char}

theorem scanString_of_ne {c : Char} {cs : List Char} (hq : c ≠ '"') (he : c ≠ '\\') :
    Parser.scanString (c :: cs) = (c :: (Parser.scanString cs).1, (Parser.scanString cs).2) := by
  rw [Parser.scanString.eq_def]
  simp [hq, he]

/-- What the loop of `parse_string` has read, with what it still has to read. -/
def stringRest (s : List Char) (t : ℕ × List Char) : List Char × List Char :=
  (t.2 ++ (Parser.scanString (s.drop t.1)).1, (Parser.scanString (s.drop t.1)).2)

theorem stringTurn_rest {t t' : ℕ × List Char} (h : stringTurn s t = .ok (.again t')) :
    stringRest s t' = stringRest s t := by
  unfold stringTurn at h
  split_ifs at h with hin hesc
  · cases h
    unfold stringRest
    rw [drop_of_lt s hin.1, hesc]
    by_cases hnext : t.1 + 1 < s.length
    · rw [drop_of_lt s hnext]
      simp [Parser.scanString]
    · -- the terminator is read
      have hchar : charAt s (t.1 + 1) = Char.ofNat 0 := List.getD_eq_default _ _ (by omega)
      rw [drop_of_le s (not_lt.mp hnext), drop_of_le s (by omega), hchar]
      simp [Parser.scanString, Parser.escape]
  · cases h
    unfold stringRest
    rw [drop_of_lt s hin.1, scanString_of_ne hin.2 hesc]
    simp
  · cases h

theorem stringTurn_done {t t' : ℕ × List Char} (h : stringTurn s t = .ok (.exit t')) :
    stringRest s t = (t'.2, s.drop (if t'.1 < s.length then t'.1 + 1 else t'.1)) := by
  unfold stringTurn at h
  by_cases hin : t.1 < s.length ∧ charAt s t.1 ≠ '"'
  · rw [if_pos hin] at h
    split_ifs at h <;> cases h
  rw [if_neg hin] at h
  cases h
  unfold stringRest
  split_ifs with hlt
  · have hquote : charAt s t.1 = '"' := by
      by_contra hne
      exact hin ⟨hlt, hne⟩
    rw [drop_of_lt s hlt, hquote, Parser.scanString.eq_def]
    simp
  · rw [drop_of_le s (not_lt.mp hlt)]
    simp [Parser.scanString]

end Strings

section Agreement
variable {α F : Type*} {s : List Char} {stod : String → Option F} {k : ℕ} {p : Cursor}

/-- The two readers agree, where both get by with their bounds. -/
inductive Agrees (s : List Char) : Except Throw (α × Cursor) → Except Throw (α × Parser) → Prop
  | left (y) : Agrees s (.error .fuel) y
  | right (x) : Agrees s x (.error .fuel)
  | error (t) : Agrees s (.error t) (.error t)
  | ok (v q) : Agrees s (.ok (v, q)) (.ok (v, toParser s q))

theorem Agrees.eq {x : Except Throw (α × Cursor)} {y : Except Throw (α × Parser)}
    (h : Agrees s x y) (hx : x ≠ .error .fuel) (hy : y ≠ .error .fuel) :
    y = x.map fun r => (r.1, toParser s r.2) := by
  cases h with
  | left y => exact absurd rfl hx
  | right x => exact absurd rfl hy
  | error t => rfl
  | ok v q => rfl

theorem parseString_agrees (s : List Char) (k : ℕ) (p : Cursor) :
    Agrees s (parseString s k p) (.ok (toParser s p).parseString) := by
  unfold parseString
  cases hx : loop .fuel (stringTurn s) k (p.next.i, []) with
  | error t =>
    cases eq_out_of_loop stringTurn_ne_error hx
    exact .left _
  | ok r =>
    have hr : stringRest s (p.next.i, []) =
        (r.2, s.drop (if r.1 < s.length then r.1 + 1 else r.1)) := by
      refine loop_invariant (P := fun t => stringRest s t = stringRest s (p.next.i, []))
        (Q := fun r => stringRest s (p.next.i, []) =
          (r.2, s.drop (if r.1 < s.length then r.1 + 1 else r.1))) ?_ ?_ rfl hx
      · exact fun t t' hP ht => (stringTurn_rest ht).trans hP
      · exact fun t r hP ht => hP ▸ stringTurn_done ht
    have hscan : Parser.scanString (s.drop p.next.i) =
        (r.2, s.drop (if r.1 < s.length then r.1 + 1 else r.1)) := hr
    have hparse : (toParser s p).parseString = (String.ofList r.2,
        toParser s { p with i := if r.1 < s.length then r.1 + 1 else r.1 }) := by
      unfold Parser.parseString
      rw [toParser_next]
      simp only [toParser, hscan]
    rw [hparse]
    exact .ok _ _

theorem parseBool_agrees (hp : p.i < s.length) :
    Agrees s (parseBool s p) (.ok ((toParser s p).parseBool (F := F))) := by
  have hcompare : ∀ w, compareAt s p.i w = .ok (w.isPrefixOf (toParser s p).rest) := by
    intro w
    rw [compareAt_of_lt hp]
    congr 1
    rw [Bool.eq_iff_iff, decide_eq_true_iff, List.isPrefixOf_iff_prefix, List.prefix_iff_eq_take]
    exact eq_comm
  unfold parseBool Parser.parseBool
  rw [hcompare, hcompare]
  cases "true".toList.isPrefixOf (toParser s p).rest with
  | true =>
    simp only [toParser, List.drop_drop]
    exact .ok _ _
  | false =>
    cases "false".toList.isPrefixOf (toParser s p).rest with
    | true =>
      simp only [toParser, List.drop_drop]
      exact .ok _ _
    | false => exact .ok _ _

theorem numberText_toParser (s : List Char) (p : Cursor) :
    (toParser s p).numberText = ((s.drop p.i).take (numberEnd s p - p.i),
      toParser s { p with i := numberEnd s p }) := by
  unfold Parser.numberText
  rw [toParser_peek]
  by_cases hminus : peek s p = '-'
  · have hlt := lt_of_peek hminus (by decide)
    have hchar : charAt s p.i = '-' := by rwa [peek, if_pos hlt] at hminus
    have hend : numberEnd s p - p.i =
        ((s.drop (p.i + 1)).takeWhile Parser.isNumberChar).length + 1 := by
      simp only [numberEnd, if_pos hminus]
      omega
    rw [if_pos hminus, hend, drop_of_lt s hlt, hchar, List.take_succ_cons,
      take_length_takeWhile, toParser_next]
    simp only [toParser, numberEnd, if_pos hminus, ← List.drop_drop, drop_length_takeWhile,
      next_i]
  · have hend : numberEnd s p - p.i =
        ((s.drop p.i).takeWhile Parser.isNumberChar).length := by
      simp only [numberEnd, if_neg hminus]
      omega
    rw [if_neg hminus, hend, take_length_takeWhile]
    simp only [toParser, numberEnd, if_neg hminus, ← List.drop_drop, drop_length_takeWhile]

theorem parseNumber_agrees (s : List Char) (p : Cursor) :
    Agrees s (parseNumber s stod p) (Parser.parseNumber stod (toParser s p)) := by
  simp only [parseNumber, Parser.parseNumber, numberText_toParser]
  split_ifs
  · cases stod (String.ofList ((s.drop p.i).take (numberEnd s p - p.i))) with
    | none => exact .error _
    | some f => exact .ok _ _
  · cases Parser.stoll ((s.drop p.i).take (numberEnd s p - p.i)) with
    | error t => exact .error _
    | ok i => exact .ok _ _

variable {pv : Cursor → Except Throw (Value F × Cursor)}
  {pv' : Parser → Except Throw (Value F × Parser)}

theorem arrayLoop_agrees (hpv : ∀ q, Agrees s (pv q) (pv' (toParser s q))) (n k : ℕ)
    (arr : List (Value F)) (p : Cursor) :
    Agrees s (loop .fuel (arrayTurn s pv) k (arr, p))
      (Parser.arrayLoop pv' n arr (toParser s p)) := by
  induction n generalizing k arr p with
  | zero => exact .right _
  | succ n ih =>
    cases k with
    | zero => exact .left _
    | succ k =>
      have hval := hpv p
      rw [loop, arrayTurn, Parser.arrayLoop]
      dsimp only
      generalize pv p = x at hval ⊢
      generalize pv' (toParser s p) = y at hval ⊢
      cases hval with
      | left y => exact .left _
      | right x => exact .right _
      | error t => exact .error _
      | ok v q =>
        simp only [toParser_skipWs, toParser_peek, toParser_next, toParser_fail]
        split_ifs
        · exact ih k _ _
        · exact .ok _ _
        · exact .ok _ _

theorem objectLoop_agrees (hpv : ∀ q, Agrees s (pv q) (pv' (toParser s q))) (n m : ℕ)
    (obj : List (String × Value F)) (p : Cursor) :
    Agrees s (loop .fuel (objectTurn s k pv) m (obj, p))
      (Parser.objectLoop pv' n obj (toParser s p)) := by
  induction n generalizing m obj p with
  | zero => exact .right _
  | succ n ih =>
    cases m with
    | zero => exact .left _
    | succ m =>
      rw [loop, objectTurn, Parser.objectLoop]
      simp only [toParser_skipWs, toParser_peek, toParser_fail]
      by_cases hquote : peek s (skipWs s p) ≠ '"'
      · simp only [if_pos hquote]
        exact .ok _ _
      simp only [if_neg hquote]
      have hkey := parseString_agrees s k (skipWs s p)
      generalize parseString s k (skipWs s p) = x at hkey ⊢
      generalize (toParser s (skipWs s p)).parseString = y at hkey ⊢
      cases hkey with
      | left => exact .left _
      | ok key q =>
        simp only [toParser_skipWs, toParser_peek, toParser_fail, toParser_next]
        by_cases hcolon : peek s (skipWs s q) ≠ ':'
        · simp only [if_pos hcolon]
          exact .ok _ _
        simp only [if_neg hcolon]
        have hval := hpv (skipWs s q).next
        generalize pv (skipWs s q).next = x at hval ⊢
        generalize pv' (toParser s (skipWs s q).next) = y at hval ⊢
        cases hval with
        | left y => exact .left _
        | right x => exact .right _
        | error t => exact .error _
        | ok v r =>
          simp only [toParser_skipWs, toParser_peek, toParser_next, toParser_fail]
          split_ifs
          · exact ih m _ _
          · exact .ok _ _
          · exact .ok _ _

theorem parseArray_agrees (hpv : ∀ q, Agrees s (pv q) (pv' (toParser s q))) (p : Cursor) :
    Agrees s (parseArray s k pv p) (Parser.parseArray pv' (toParser s p)) := by
  simp only [parseArray, Parser.parseArray, toParser_next, toParser_skipWs, toParser_peek]
  split_ifs
  · exact .ok _ _
  · exact arrayLoop_agrees hpv _ _ _ _

theorem parseObject_agrees (hpv : ∀ q, Agrees s (pv q) (pv' (toParser s q))) (p : Cursor) :
    Agrees s (parseObject s k pv p) (Parser.parseObject pv' (toParser s p)) := by
  simp only [parseObject, Parser.parseObject, toParser_next, toParser_skipWs, toParser_peek]
  split_ifs
  · exact .ok _ _
  · exact objectLoop_agrees hpv _ _ _ _

theorem parseValueWith_agrees {object array : Cursor → Except Throw (Value F × Cursor)} {n : ℕ}
    (hobject : ∀ q, Agrees s (object q)
      (Parser.parseObject (Parser.parseValue stod n) (toParser s q)))
    (harray : ∀ q, Agrees s (array q)
      (Parser.parseArray (Parser.parseValue stod n) (toParser s q))) (p : Cursor) :
    Agrees s (parseValueWith s stod k object array p)
      (Parser.parseValue stod (n + 1) (toParser s p)) := by
  simp only [parseValueWith, Parser.parseValue, toParser_skipWs, toParser_peek]
  split_ifs with hbrace hbracket hquote hword
  · exact hobject _
  · exact harray _
  · have hstr := parseString_agrees s k (skipWs s p)
    generalize parseString s k (skipWs s p) = x at hstr ⊢
    generalize (toParser s (skipWs s p)).parseString = y at hstr ⊢
    cases hstr with
    | left => exact .left _
    | ok str q => exact .ok _ _
  · exact parseBool_agrees (lt_of_peek_or hword (by decide) (by decide))
  · exact parseNumber_agrees _ _
  · exact .ok _ _

theorem parseValue_agrees (depth n : ℕ) (p : Cursor) :
    Agrees s (parseValue s stod k depth p) (Parser.parseValue stod n (toParser s p)) := by
  induction depth generalizing n p with
  | zero =>
    cases n with
    | zero => exact .right _
    | succ n => exact parseValueWith_agrees (fun _ => .left _) (fun _ => .left _) p
  | succ depth ih =>
    cases n with
    | zero => exact .right _
    | succ n =>
      exact parseValueWith_agrees (parseObject_agrees (ih n)) (parseArray_agrees (ih n)) p

end Agreement

end Dee.Json.Cursor
