import Dee.JsonCursorText

/-! Every call of the JSON reader comes to an end. The turns of a loop are bounded by the text
left of the index, the nesting by the opening braces and brackets in it. -/
namespace Dee.Json.Cursor
open OrderedMap WhileLoops

/-- How many braces and brackets a text opens. -/
def opens (s : List Char) : ℕ := s.countP fun c => c = '{' ∨ c = '['

theorem opens_drop_le {i j : ℕ} (hij : i ≤ j) (s : List Char) :
    opens (s.drop j) ≤ opens (s.drop i) := by
  obtain ⟨m, rfl⟩ := Nat.exists_eq_add_of_le hij
  rw [← List.drop_drop]
  exact (List.drop_sublist m _).countP_le

variable {s : List Char} {k depth : ℕ} {p q : Cursor}

theorem drop_of_peek {c : Char} (h : peek s p = c) (hc : c ≠ Char.ofNat 0) :
    s.drop p.i = c :: s.drop (p.i + 1) := by
  have hlt := lt_of_peek h hc
  rw [peek, if_pos hlt] at h
  rw [drop_of_lt s hlt, h]

theorem opens_next (h : peek s p = '{' ∨ peek s p = '[') :
    opens (s.drop p.i) = opens (s.drop p.next.i) + 1 := by
  rcases h with h | h <;> rw [drop_of_peek h (by decide)] <;> simp [opens]

/-- The two bounds are enough for what is read from `p` on. -/
structure Fits (s : List Char) (k depth : ℕ) (p : Cursor) : Prop where
  turns : s.length + 1 < k
  index : p.i ≤ s.length + 1
  nesting : opens (s.drop p.i) ≤ depth

theorem Fits.moves (h : Fits s k depth p) (hpq : Moves s p q) : Fits s k depth q :=
  ⟨h.turns, hpq.2 h.index, (opens_drop_le hpq.1 s).trans h.nesting⟩

/-- An opening brace or bracket takes one level. -/
theorem Fits.next (h : Fits s k (depth + 1) p) (hp : peek s p = '{' ∨ peek s p = '[') :
    Fits s k depth p.next := by
  have hlt := lt_of_peek_or hp (by decide) (by decide)
  have hnest := h.nesting
  rw [opens_next hp] at hnest
  exact ⟨h.turns, by simp only [next_i]; omega, by omega⟩

theorem not_fits_zero (hp : peek s p = '{' ∨ peek s p = '[') : ¬ Fits s k 0 p := by
  intro h
  have hnest := h.nesting
  rw [opens_next hp] at hnest
  omega

section Outcomes
variable {α β : Type*} {fits fits' : Prop}

/-- A call at `p` moves forward, and where `fits` holds no bound is reached. -/
def Ends (s : List Char) (fits : Prop) (p : Cursor) : Except Throw (α × Cursor) → Prop
  | .error t => fits → t ≠ .fuel
  | .ok r => Moves s p r.2

/-- A turn at `p` that is not the last one moves by at least one character. -/
def TurnEnds (s : List Char) (fits : Prop) (p : Cursor) :
    Except Throw (Turn (α × Cursor) (β × Cursor)) → Prop
  | .error t => fits → t ≠ .fuel
  | .ok (.again l) => Moves s p l.2 ∧ p.i < l.2.i
  | .ok (.exit r) => Moves s p r.2

theorem Ends.of_moves {x : Except Throw (α × Cursor)} (h : Ends s fits q x) (hpq : Moves s p q)
    (hfits : fits' → fits) : Ends s fits' p x := by
  cases x with
  | error t => exact fun hf => h (hfits hf)
  | ok r => exact hpq.trans h

theorem Ends.ne_fuel {x : Except Throw (α × Cursor)} (h : Ends s fits p x) (hf : fits) :
    x ≠ .error .fuel := by
  intro hx
  subst hx
  exact h hf rfl

/-- A loop whose turns are as they should be ends, within as many turns as there are indices. -/
theorem loop_ends {body : α × Cursor → Except Throw (Turn (α × Cursor) (β × Cursor))}
    (hturn : ∀ l, TurnEnds s (Fits s k depth l.2) l.2 (body l)) (l : α × Cursor) :
    Ends s (Fits s k depth l.2) l.2 (loop .fuel body k l) := by
  have hagain : ∀ m m', Moves s l.2 m.2 → body m = .ok (.again m') →
      Moves s l.2 m'.2 ∧ m.2.i < m'.2.i := by
    intro m m' hm hb
    have ht := hturn m
    rw [hb] at ht
    exact ⟨hm.trans ht.1, ht.2⟩
  cases hx : loop .fuel body k l with
  | error t =>
    intro hfits ht
    subst ht
    refine loop_ne_out (P := fun m => Moves s l.2 m.2) (m := fun m => s.length + 1 - m.2.i)
      ?_ ?_ (Moves.refl _) ?_ hx
    · intro m m' hm hb
      obtain ⟨hm', hlt⟩ := hagain m m' hm hb
      have hi := hm'.2 hfits.index
      exact ⟨hm', by omega⟩
    · intro m hm hb
      have ht := hturn m
      rw [hb] at ht
      exact ht (hfits.moves hm) rfl
    · have := hfits.turns
      omega
  | ok r =>
    refine loop_invariant (P := fun m => Moves s l.2 m.2) (Q := fun r => Moves s l.2 r.2)
      ?_ ?_ (Moves.refl _) hx
    · exact fun m m' hm hb => (hagain m m' hm hb).1
    · intro m r hm hb
      have ht := hturn m
      rw [hb] at ht
      exact hm.trans ht

end Outcomes

section Leaves
variable {F : Type*} {stod : String → Option F}

theorem stringTurn_again {t t' : ℕ × List Char} (h : stringTurn s t = .ok (.again t')) :
    t.1 < s.length ∧ t.1 < t'.1 ∧ t'.1 ≤ t.1 + 2 := by
  unfold stringTurn at h
  split_ifs at h with hin hesc
  · cases h
    exact ⟨hin.1, by omega, le_rfl⟩
  · cases h
    exact ⟨hin.1, by omega, by omega⟩
  · cases h

theorem stringTurn_exit {t t' : ℕ × List Char} (h : stringTurn s t = .ok (.exit t')) : t' = t := by
  unfold stringTurn at h
  split_ifs at h <;> cases h
  rfl

/-- A string starts in the text, and ends at most one past its end. -/
theorem parseString_ends (hp : p.i < s.length) :
    Ends s (s.length + 1 < k) p (parseString s k p) := by
  unfold parseString
  cases hx : loop .fuel (stringTurn s) k (p.next.i, []) with
  | error t =>
    intro hk ht
    subst ht
    refine loop_ne_out (P := fun t => t.1 ≤ s.length + 1) (m := fun t => s.length + 1 - t.1)
      ?_ ?_ ?_ ?_ hx
    · intro t t' _ ht
      obtain ⟨hin, hlt, hle⟩ := stringTurn_again ht
      exact ⟨by omega, by omega⟩
    · exact fun t _ => stringTurn_ne_error t _
    · simp only [next_i]
      omega
    · simp only [next_i]
      omega
  | ok r =>
    have hr : p.i + 1 ≤ r.1 ∧ r.1 ≤ s.length + 1 := by
      refine loop_invariant (P := fun t => p.i + 1 ≤ t.1 ∧ t.1 ≤ s.length + 1)
        (Q := fun r => p.i + 1 ≤ r.1 ∧ r.1 ≤ s.length + 1) ?_ ?_ ?_ hx
      · intro t t' hP ht
        obtain ⟨hin, hlt, hle⟩ := stringTurn_again ht
        omega
      · intro t r hP ht
        rwa [stringTurn_exit ht]
      · simp only [next_i]
        omega
    refine ⟨?_, fun _ => ?_⟩ <;> dsimp only <;> split_ifs <;> omega

theorem compareAt_ne_error {w : List Char} {e : Throw} (hp : p.i < s.length) :
    compareAt s p.i w ≠ .error e := by
  rw [compareAt_of_lt hp]
  simp

/-- A word that is found stands in the text. -/
theorem add_length_le_of_compareAt {w : List Char} {i : ℕ} (h : compareAt s i w = .ok true)
    (hw : w ≠ []) : i + w.length ≤ s.length := by
  unfold compareAt at h
  split_ifs at h with hi
  have htake := of_decide_eq_true (Except.ok.inj h)
  have hlen := congrArg List.length htake
  have hpos := List.length_pos_iff.mpr hw
  rw [List.length_take, List.length_drop] at hlen
  omega

/-- Where a word begins, `compare` does not throw. -/
theorem parseBool_ok (hp : p.i < s.length) :
    ∃ v q, parseBool (F := F) s p = .ok (v, q) ∧ Moves s p q := by
  unfold parseBool
  cases htrue : compareAt s p.i "true".toList with
  | error t => exact absurd htrue (compareAt_ne_error hp)
  | ok b =>
    cases b with
    | true =>
      have hle := add_length_le_of_compareAt htrue (by decide)
      exact ⟨_, _, rfl, moves_of_le (Nat.le_add_right _ _) (le_max_of_le_right hle)⟩
    | false =>
      cases hfalse : compareAt s p.i "false".toList with
      | error t => exact absurd hfalse (compareAt_ne_error hp)
      | ok b =>
        cases b with
        | true =>
          have hle := add_length_le_of_compareAt hfalse (by decide)
          exact ⟨_, _, rfl, moves_of_le (Nat.le_add_right _ _) (le_max_of_le_right hle)⟩
        | false => exact ⟨_, _, rfl, (Moves.refl p).fail⟩

theorem moves_numberEnd (p : Cursor) : Moves s p { p with i := numberEnd s p } := by
  by_cases hminus : peek s p = '-'
  · have hlt := lt_of_peek hminus (by decide)
    have hle := length_takeWhile_drop_le (s := s) Parser.isNumberChar (p.i + 1)
    refine moves_of_le ?_ ?_ <;> simp only [numberEnd, if_pos hminus] <;> omega
  · have hle := length_takeWhile_drop_le (s := s) Parser.isNumberChar p.i
    refine moves_of_le ?_ ?_ <;> simp only [numberEnd, if_neg hminus] <;> omega

/-- The exceptions of the conversions are of the source. -/
theorem parseNumber_ends (p : Cursor) : Ends s True p (parseNumber s stod p) := by
  have hmoves := moves_numberEnd (s := s) p
  simp only [parseNumber]
  split_ifs
  · split
    · simp [Ends]
    · exact hmoves
  · split
    · next t ht => exact fun _ => Parser.stoll_ne_fuel ht
    · exact hmoves

end Leaves

section Containers
variable {F : Type*} {stod : String → Option F}
  {pv : Cursor → Except Throw (Value F × Cursor)}

/-- What follows a value. The value may have consumed nothing, the comma is one character. -/
theorem separator_ends {α β : Type*} {fits : Prop} (hpq : Moves s p q) {close : Char}
    (hclose : close ≠ Char.ofNat 0) (a : α) (b : β) :
    TurnEnds s fits p
      (if peek s q = ',' then .ok (.again (a, q.next))
      else if peek s q = close then .ok (.exit (b, q.next))
      else .ok (.exit (b, q.fail))) := by
  split_ifs with hcomma hq
  · refine ⟨hpq.trans (moves_next hcomma (by decide)), ?_⟩
    exact Nat.lt_succ_of_le hpq.1
  · exact hpq.trans (moves_next hq hclose)
  · exact hpq.fail

theorem arrayTurn_ends (hpv : ∀ q, Ends s (Fits s k depth q) q (pv q))
    (l : List (Value F) × Cursor) :
    TurnEnds s (Fits s k depth l.2) l.2 (arrayTurn s pv l) := by
  have hval := hpv l.2
  unfold arrayTurn
  cases hx : pv l.2 with
  | error t => rwa [hx] at hval
  | ok r =>
    rw [hx] at hval
    exact separator_ends (hval.trans (moves_skipWs _)) (by decide) _ _

theorem objectTurn_ends (hpv : ∀ q, Ends s (Fits s k depth q) q (pv q))
    (l : List (String × Value F) × Cursor) :
    TurnEnds s (Fits s k depth l.2) l.2 (objectTurn s k pv l) := by
  have hws := moves_skipWs (s := s) l.2
  simp only [objectTurn]
  by_cases hquote : peek s (skipWs s l.2) ≠ '"'
  · rw [if_pos hquote]
    exact hws.fail
  rw [if_neg hquote]
  have hkey := parseString_ends (k := k) (lt_of_peek (not_not.mp hquote) (by decide))
  cases hx : parseString s k (skipWs s l.2) with
  | error t =>
    rw [hx] at hkey
    exact fun hfits => hkey hfits.turns
  | ok key =>
    rw [hx] at hkey
    have hcolonAt : Moves s l.2 (skipWs s key.2) := (hws.trans hkey).trans (moves_skipWs _)
    dsimp only
    by_cases hcolon : peek s (skipWs s key.2) ≠ ':'
    · rw [if_pos hcolon]
      exact hcolonAt.fail
    rw [if_neg hcolon]
    have hnext := hcolonAt.trans (moves_next (not_not.mp hcolon) (by decide))
    have hval := hpv (skipWs s key.2).next
    cases hy : pv (skipWs s key.2).next with
    | error t =>
      rw [hy] at hval
      exact fun hfits => hval (hfits.moves hnext)
    | ok r =>
      rw [hy] at hval
      exact separator_ends ((hnext.trans hval).trans (moves_skipWs _)) (by decide) _ _

/-- An empty container ends at once, another one with its loop. -/
theorem container_ends {α : Type*}
    {body : α × Cursor → Except Throw (Turn (α × Cursor) (Value F × Cursor))}
    (hturn : ∀ l, TurnEnds s (Fits s k depth l.2) l.2 (body l))
    (hp : peek s p = '{' ∨ peek s p = '[') {close : Char} (hclose : close ≠ Char.ofNat 0)
    (v : Value F) (a : α) :
    Ends s (Fits s k (depth + 1) p) p
      (if peek s (skipWs s p.next) = close then .ok (v, (skipWs s p.next).next)
      else loop .fuel body k (a, skipWs s p.next)) := by
  have hlt := lt_of_peek_or hp (by decide) (by decide)
  have hnext : Moves s p p.next := moves_of_le (Nat.le_succ _) (le_max_of_le_right hlt)
  have hws := hnext.trans (moves_skipWs p.next)
  split_ifs with hq
  · exact hws.trans (moves_next hq hclose)
  · exact (loop_ends hturn (a, skipWs s p.next)).of_moves hws
      fun hfits => (hfits.next hp).moves (moves_skipWs _)

theorem parseArray_ends (hpv : ∀ q, Ends s (Fits s k depth q) q (pv q)) (hp : peek s p = '[') :
    Ends s (Fits s k (depth + 1) p) p (parseArray s k pv p) :=
  container_ends (arrayTurn_ends hpv) (.inr hp) (by decide) _ _

theorem parseObject_ends (hpv : ∀ q, Ends s (Fits s k depth q) q (pv q)) (hp : peek s p = '{') :
    Ends s (Fits s k (depth + 1) p) p (parseObject s k pv p) :=
  container_ends (objectTurn_ends hpv) (.inl hp) (by decide) _ _

theorem parseValueWith_ends {object array : Cursor → Except Throw (Value F × Cursor)}
    (hobject : ∀ q, peek s q = '{' → Ends s (Fits s k depth q) q (object q))
    (harray : ∀ q, peek s q = '[' → Ends s (Fits s k depth q) q (array q)) (p : Cursor) :
    Ends s (Fits s k depth p) p (parseValueWith s stod k object array p) := by
  have hws := moves_skipWs (s := s) p
  have hfits : Fits s k depth p → Fits s k depth (skipWs s p) := fun h => h.moves hws
  simp only [parseValueWith]
  split_ifs with hbrace hbracket hquote hword hnumber
  · exact (hobject _ hbrace).of_moves hws hfits
  · exact (harray _ hbracket).of_moves hws hfits
  · have hstr := parseString_ends (k := k) (lt_of_peek hquote (by decide))
    cases hx : parseString s k (skipWs s p) with
    | error t =>
      rw [hx] at hstr
      exact fun h => hstr h.turns
    | ok r =>
      rw [hx] at hstr
      exact hws.trans hstr
  · have hlt := lt_of_peek_or hword (by decide) (by decide)
    obtain ⟨v, q, hx, hq⟩ := parseBool_ok (F := F) hlt
    rw [hx]
    exact hws.trans hq
  · exact (parseNumber_ends _).of_moves hws fun _ => trivial
  · exact hws.fail

/-- Each level of nesting takes an opening brace or bracket. -/
theorem parseValue_ends (depth : ℕ) (p : Cursor) :
    Ends s (Fits s k depth p) p (parseValue s stod k depth p) := by
  induction depth generalizing p with
  | zero =>
    refine parseValueWith_ends ?_ ?_ p
    · exact fun q hq hfits => absurd hfits (not_fits_zero (.inl hq))
    · exact fun q hq hfits => absurd hfits (not_fits_zero (.inr hq))
  | succ depth ih =>
    exact parseValueWith_ends (fun q => parseObject_ends ih) (fun q => parseArray_ends ih) p

end Containers

section Runs
variable {F : Type*} (stod : String → Option F)

/-- With enough turns and levels the bounds make no difference. -/
theorem parse_eq {text : String} (hk : text.toList.length + 1 < k)
    (hdepth : opens text.toList ≤ depth) : parse stod k depth text = Json.parse stod text := by
  have hfits : Fits text.toList k depth ⟨0, false⟩ := ⟨hk, Nat.zero_le _, hdepth⟩
  have hends : Ends text.toList (Fits text.toList k depth ⟨0, false⟩) ⟨0, false⟩
      (parseValue text.toList stod k depth ⟨0, false⟩) := parseValue_ends depth _
  have hrest := Parser.parseText_ends stod text
  have hagrees : Agrees text.toList (parseValue text.toList stod k depth ⟨0, false⟩)
      (Parser.parseValue stod (text.toList.length + 1) (toParser text.toList ⟨0, false⟩)) :=
    parseValue_agrees depth _ _
  have heq := hagrees.eq (hends.ne_fuel hfits) fun h => by
    rw [toParser, List.drop_zero] at h
    rw [h] at hrest
    exact hrest rfl
  rw [toParser, List.drop_zero] at heq
  unfold parse Json.parse
  rw [heq]
  cases parseValue text.toList stod k depth ⟨0, false⟩ with
  | error t => rfl
  | ok r => rfl

/-- What every call, and every turn that is not the last of its loop, does to the cursor. An
inner value that consumes nothing makes no difference. -/
structure Advances (s : List Char) (k depth : ℕ) : Prop where
  value : ∀ p v q, parseValue s stod k depth p = .ok (v, q) → Moves s p q
  string : ∀ p str q, peek s p = '"' → parseString s k p = .ok (str, q) → Moves s p q
  object : ∀ p v q, peek s p = '{' →
    parseObject s k (parseValue s stod k depth) p = .ok (v, q) → Moves s p q
  array : ∀ p v q, peek s p = '[' →
    parseArray s k (parseValue s stod k depth) p = .ok (v, q) → Moves s p q
  bool : ∀ p, peek s p = 't' ∨ peek s p = 'f' →
    ∃ v q, parseBool (F := F) s p = .ok (v, q) ∧ Moves s p q
  number : ∀ p v q, parseNumber s stod p = .ok (v, q) → Moves s p q
  stringLoop : ∀ t t', stringTurn s t = .ok (.again t') → t.1 < t'.1
  objectLoop : ∀ l l', objectTurn s k (parseValue s stod k depth) l = .ok (.again l') →
    l.2.i < l'.2.i
  arrayLoop : ∀ l l', arrayTurn s (parseValue s stod k depth) l = .ok (.again l') →
    l.2.i < l'.2.i

theorem Ends.of_ok {α : Type*} {fits : Prop} {x : Except Throw (α × Cursor)}
    (h : Ends s fits p x) {v : α} (hx : x = .ok (v, q)) : Moves s p q := by
  subst hx
  exact h

theorem TurnEnds.of_again {α β : Type*} {fits : Prop}
    {x : Except Throw (Turn (α × Cursor) (β × Cursor))} (h : TurnEnds s fits p x)
    {l : α × Cursor} (hx : x = .ok (.again l)) : p.i < l.2.i := by
  subst hx
  exact h.2

theorem advances (s : List Char) (k depth : ℕ) : Advances stod s k depth where
  value p v q h := (parseValue_ends depth p).of_ok h
  string p str q hp h := (parseString_ends (lt_of_peek hp (by decide))).of_ok h
  object p v q hp h := (parseObject_ends (parseValue_ends depth) hp).of_ok h
  array p v q hp h := (parseArray_ends (parseValue_ends depth) hp).of_ok h
  bool p hp := parseBool_ok (lt_of_peek_or hp (by decide) (by decide))
  number p v q h := (parseNumber_ends p).of_ok h
  stringLoop t t' h := (stringTurn_again h).2.1
  objectLoop l l' h := (objectTurn_ends (parseValue_ends depth) l).of_again h
  arrayLoop l l' h := (arrayTurn_ends (parseValue_ends depth) l).of_again h

/-- The reader comes to one and the same end with any bounds from these on: as many turns as
there are indices, and as many levels as the text opens. -/
theorem parse_terminates (text : String) :
    (∃ r : Except Throw (Value F × Bool), r ≠ .error .fuel ∧
      ∀ k depth, text.toList.length + 1 < k → opens text.toList ≤ depth →
        parse stod k depth text = r) ∧
    ∀ k depth, Advances stod text.toList k depth ∧
      ∀ v q, parseValue text.toList stod k depth ⟨0, false⟩ = .ok (v, q) →
        q.i ≤ text.toList.length + 1 := by
  refine ⟨⟨Json.parse stod text, parse_ne_fuel stod text, ?_⟩, ?_⟩
  · intro k depth hk hdepth
    exact parse_eq stod hk hdepth
  · intro k depth
    have hadv := advances stod text.toList k depth
    exact ⟨hadv, fun v q h => (hadv.value _ v q h).2 (Nat.zero_le _)⟩

/-- A backslash at the end of a string takes the index past the end of the text. -/
example : (parseValue ['"', '\\'] (fun _ => (none : Option Unit)) 4 0 ⟨0, false⟩).map
    (fun r => r.2.i) = .ok 3 := by
  rfl

end Runs

end Dee.Json.Cursor
