import Mathlib

/-! Runs of a deterministic step function. A guard restricts the operation that
may be applied in each state; invariants and refinements need only be checked
for one guarded step. -/
namespace Dee.GuardedRuns
variable {σ τ α β : Type*}

/-- The state reached by applying the operations from left to right. -/
def run (step : σ → α → σ) (s : σ) (ops : List α) : σ := ops.foldl step s

/-- Every operation meets the guard in the state it is applied to. -/
def Guarded (step : σ → α → σ) (G : σ → α → Prop) : σ → List α → Prop
  | _, [] => True
  | s, op :: ops => G s op ∧ Guarded step G (step s op) ops

@[simp] theorem run_nil (step : σ → α → σ) (s : σ) : run step s [] = s := rfl

@[simp] theorem run_cons (step : σ → α → σ) (s : σ) (op : α) (ops : List α) :
    run step s (op :: ops) = run step (step s op) ops := rfl

@[simp] theorem run_append (step : σ → α → σ) (s : σ) (ops ops' : List α) :
    run step s (ops ++ ops') = run step (run step s ops) ops' := by
  simp [run, List.foldl_append]

theorem guarded_append {step : σ → α → σ} {G : σ → α → Prop} {s : σ} {ops ops' : List α} :
    Guarded step G s (ops ++ ops') ↔
      Guarded step G s ops ∧ Guarded step G (run step s ops) ops' := by
  induction ops generalizing s with
  | nil => simp [Guarded]
  | cons op ops ih => simp only [List.cons_append, Guarded, ih, run_cons, and_assoc]

theorem Guarded.and {step : σ → α → σ} {G H : σ → α → Prop} {s : σ} {ops : List α}
    (hg : Guarded step G s ops) (hh : Guarded step H s ops) :
    Guarded step (fun s op => G s op ∧ H s op) s ops := by
  induction ops generalizing s with
  | nil => trivial
  | cons op ops ih => exact ⟨⟨hg.1, hh.1⟩, ih hg.2 hh.2⟩

/-- What the operations meet in every state holds along the run. -/
theorem guarded_of_always {step : σ → α → σ} {G : σ → α → Prop} {s : σ} {ops : List α}
    (h : ∀ op ∈ ops, ∀ s, G s op) : Guarded step G s ops := by
  induction ops generalizing s with
  | nil => trivial
  | cons op ops ih =>
    exact ⟨h op (by simp) s, ih fun op' hop => h op' (by simp [hop])⟩

/-- A guard on the operation alone holds along a run as soon as it holds of each operation. -/
theorem guarded_of_forall {step : σ → α → σ} {G : α → Prop} {s : σ} {ops : List α}
    (h : ∀ op ∈ ops, G op) : Guarded step (fun _ op => G op) s ops :=
  guarded_of_always fun op hop _ => h op hop

/-- The run lemma of an invariant: one guarded step preserves it, so a guarded run does. -/
theorem invariant_run {step : σ → α → σ} {G : σ → α → Prop} {P : σ → Prop}
    (hstep : ∀ s op, P s → G s op → P (step s op)) {s : σ} {ops : List α}
    (h0 : P s) (hg : Guarded step G s ops) : P (run step s ops) := by
  induction ops generalizing s with
  | nil => exact h0
  | cons op ops ih => exact ih (hstep s op h0 hg.1) hg.2

/-- An invariant that every step preserves holds after every run. -/
theorem invariant_run_of_step {step : σ → α → σ} {P : σ → Prop}
    (hstep : ∀ s op, P s → P (step s op)) {s : σ} (h0 : P s) (ops : List α) :
    P (run step s ops) := by
  induction ops generalizing s with
  | nil => exact h0
  | cons op ops ih => exact ih (hstep s op h0)

/-- A property that a step restores exactly when its guard holds: it holds all along a
run exactly when the run is guarded. -/
theorem forall_prefix_iff_guarded {step : σ → α → σ} {P Q : σ → Prop} {C : α → Prop}
    {G : σ → α → Prop} (hinv : ∀ s op, P s → C op → P (step s op))
    (hstep : ∀ s op, P s → C op → Q s → (Q (step s op) ↔ G s op)) {s : σ} {ops : List α}
    (hP : P s) (hQ : Q s) (hC : ∀ op ∈ ops, C op) :
    (∀ pre, pre <+: ops → Q (run step s pre)) ↔ Guarded step G s ops := by
  induction ops generalizing s with
  | nil =>
    simp only [List.prefix_nil, forall_eq, run_nil, Guarded, iff_true]
    exact hQ
  | cons op ops ih =>
    obtain ⟨hop, hops⟩ := List.forall_mem_cons.mp hC
    constructor
    · intro h
      have h1 : Q (step s op) := h [op] (by simp)
      refine ⟨(hstep s op hP hop hQ).mp h1, (ih (hinv s op hP hop) h1 hops).mp ?_⟩
      intro pre hpre
      exact h (op :: pre) (List.cons_prefix_cons.mpr ⟨rfl, hpre⟩)
    · intro ⟨hg, hgs⟩ pre hpre
      have h1 : Q (step s op) := (hstep s op hP hop hQ).mpr hg
      rcases List.prefix_cons_iff.mp hpre with rfl | ⟨pre, rfl, htail⟩
      · exact hQ
      · exact (ih (hinv s op hP hop) h1 hops).mpr hgs pre htail

/-- Some step of the run met `S`, and since then none has met `C`. -/
def Since (step : σ → α → σ) (S C : σ → α → Prop) (s : σ) (ops : List α) : Prop :=
  ∃ pre op post, ops = pre ++ op :: post ∧ S (run step s pre) op ∧
    Guarded step (fun s op => ¬ C s op) (run step s (pre ++ [op])) post

theorem not_since_nil {step : σ → α → σ} {S C : σ → α → Prop} {s : σ} :
    ¬ Since step S C s [] := by
  rintro ⟨pre, op, post, h, -⟩
  simp at h

theorem since_concat {step : σ → α → σ} {S C : σ → α → Prop} {s : σ} {ops : List α} {op : α} :
    Since step S C s (ops ++ [op]) ↔
      S (run step s ops) op ∨ Since step S C s ops ∧ ¬ C (run step s ops) op := by
  constructor
  · rintro ⟨pre, o, post, h, hS, hC⟩
    rcases List.eq_nil_or_concat' post with rfl | ⟨post, o', rfl⟩
    · obtain ⟨rfl, heq⟩ := List.append_inj' h rfl
      cases heq
      exact Or.inl hS
    · rw [← List.cons_append, ← List.append_assoc] at h
      obtain ⟨rfl, heq⟩ := List.append_inj' h rfl
      cases heq
      obtain ⟨hpost, hlast, -⟩ := guarded_append.mp hC
      rw [← run_append, List.append_assoc, List.singleton_append] at hlast
      exact Or.inr ⟨⟨pre, o, post, rfl, hS, hpost⟩, hlast⟩
  · rintro (hS | ⟨⟨pre, o, post, rfl, hS, hC⟩, hlast⟩)
    · exact ⟨ops, op, [], rfl, hS, trivial⟩
    · refine ⟨pre, o, post ++ [op], by simp, hS, guarded_append.mpr ⟨hC, ?_, trivial⟩⟩
      rw [← run_append, List.append_assoc, List.singleton_append]
      exact hlast

/-- A property that some steps set, and others clear, holds after a run exactly when it has
been set and not cleared since. -/
theorem holds_run_iff_since {step : σ → α → σ} {P Q : σ → Prop} {G S C : σ → α → Prop}
    (hinv : ∀ s op, P s → G s op → P (step s op))
    (hstep : ∀ s op, P s → G s op → (Q (step s op) ↔ S s op ∨ Q s ∧ ¬ C s op)) {s : σ} (h0 : P s)
    (hno : ¬ Q s) {ops : List α} (hg : Guarded step G s ops) :
    Q (run step s ops) ↔ Since step S C s ops := by
  induction ops using List.reverseRecOn with
  | nil => exact iff_of_false hno not_since_nil
  | append_singleton ops op ih =>
    obtain ⟨hbefore, hop, -⟩ := guarded_append.mp hg
    rw [run_append, run_cons, run_nil, since_concat, ← ih hbefore]
    exact hstep _ op (invariant_run hinv h0 hbefore) hop

/-- Two guards that agree in the states of an invariant where a third one holds: they
hold along the same runs. -/
theorem guarded_iff_guarded {step : σ → α → σ} {P : σ → Prop} {C : α → Prop}
    {K G H : σ → α → Prop} (hinv : ∀ s op, P s → C op → P (step s op))
    (hiff : ∀ s op, P s → C op → K s op → (G s op ↔ H s op)) {s : σ} {ops : List α}
    (hP : P s) (hC : ∀ op ∈ ops, C op) (hK : Guarded step K s ops) :
    Guarded step G s ops ↔ Guarded step H s ops := by
  induction ops generalizing s with
  | nil => exact Iff.rfl
  | cons op ops ih =>
    obtain ⟨hop, hops⟩ := List.forall_mem_cons.mp hC
    exact and_congr (hiff s op hP hop hK.1) (ih (hinv s op hP hop) hops hK.2)

/-- Two steps that agree in the states of an invariant where the guard holds run alike. -/
theorem run_congr {step step' : σ → α → σ} {P : σ → Prop} {G : σ → α → Prop}
    (hinv : ∀ s op, P s → G s op → P (step s op))
    (heq : ∀ s op, P s → G s op → step s op = step' s op) {s : σ} {ops : List α} (h0 : P s)
    (hg : Guarded step G s ops) : run step s ops = run step' s ops := by
  induction ops generalizing s with
  | nil => rfl
  | cons op ops ih =>
    rw [run_cons, run_cons, ih (hinv s op h0 hg.1) hg.2, heq s op h0 hg.1]

/-- A path of a relational step: the specification may choose among several results. -/
inductive Path (R : τ → α → τ → Prop) : τ → List α → τ → Prop
  | nil (t) : Path R t [] t
  | cons {t u v op ops} : R t op u → Path R u ops v → Path R t (op :: ops) v

/-- Under an invariant of the run, the abstraction function turns it into a path of
the specification. -/
theorem path_of_run {step : σ → α → σ} {P : σ → Prop} {R : τ → α → τ → Prop} {f : σ → τ}
    (hinv : ∀ s op, P s → P (step s op)) (hsim : ∀ s op, P s → R (f s) op (f (step s op)))
    {s : σ} (h0 : P s) (ops : List α) : Path R (f s) ops (f (run step s ops)) := by
  induction ops generalizing s with
  | nil => exact .nil _
  | cons op ops ih => exact .cons (hsim s op h0) (ih (hinv s op h0))

/-- What the steps of a run put out, one after the other. -/
def outputs (out : σ → α → List β) (step : σ → α → σ) : σ → List α → List β
  | _, [] => []
  | s, op :: ops => out s op ++ outputs out step (step s op) ops

/-- Steps that agree, and put out the same, put out the same along the run. -/
theorem outputs_congr {step step' : σ → α → σ} {out out' : σ → α → List β} {P : σ → Prop}
    {G : σ → α → Prop} (hinv : ∀ s op, P s → G s op → P (step s op))
    (heq : ∀ s op, P s → G s op → out s op = out' s op ∧ step s op = step' s op) {s : σ}
    {ops : List α} (h0 : P s) (hg : Guarded step G s ops) :
    outputs out step s ops = outputs out' step' s ops := by
  induction ops generalizing s with
  | nil => rfl
  | cons op ops ih =>
    obtain ⟨hout, hstep⟩ := heq s op h0 hg.1
    rw [outputs, outputs, ih (hinv s op h0 hg.1) hg.2, hout, hstep]

/-- A part of the state that each step folds its outputs into. -/
theorem run_eq_foldl_outputs {out : σ → α → List β} {step : σ → α → σ} (f : τ → β → τ)
    (part : σ → τ) (hstep : ∀ s op, part (step s op) = (out s op).foldl f (part s)) (s : σ)
    (ops : List α) : part (run step s ops) = (outputs out step s ops).foldl f (part s) := by
  induction ops generalizing s with
  | nil => rfl
  | cons op ops ih => rw [run_cons, ih, outputs, List.foldl_append, hstep]

/-- Outputs whose keys fall between the marks of the states around their step, in order
within each step, are in order along the run. -/
theorem pairwise_outputs {out : σ → α → List β} {step : σ → α → σ} {G : σ → α → Prop}
    {P : σ → ℕ → Prop} (key : β → ℕ)
    (hstep : ∀ s m op, P s m → G s op → ∃ m', m ≤ m' ∧ P (step s op) m' ∧
      (out s op).Pairwise (fun b b' => key b < key b') ∧ ∀ b ∈ out s op, m ≤ key b ∧ key b < m')
    {s : σ} {m : ℕ} {ops : List α} (h0 : P s m) (hg : Guarded step G s ops) :
    (outputs out step s ops).Pairwise (fun b b' => key b < key b') ∧
      ∀ b ∈ outputs out step s ops, m ≤ key b := by
  induction ops generalizing s m with
  | nil => exact ⟨List.Pairwise.nil, by simp [outputs]⟩
  | cons op ops ih =>
    obtain ⟨m', hm, hP, hpair, hkeys⟩ := hstep s m op h0 hg.1
    obtain ⟨hpairs, hlater⟩ := ih hP hg.2
    refine ⟨List.pairwise_append.mpr ⟨hpair, hpairs, fun b hb b' hb' => ?_⟩, fun b hb => ?_⟩
    · exact (hkeys b hb).2.trans_le (hlater b' hb')
    · rcases List.mem_append.mp hb with hb | hb
      · exact (hkeys b hb).1
      · exact hm.trans (hlater b hb)

/-- A step that can fail never does so on states that it keeps. -/
theorem foldlM_ok {ε : Type*} {step : σ → α → Except ε σ} {P : σ → Prop}
    (hstep : ∀ s op, P s → ∃ s', step s op = .ok s' ∧ P s') {s : σ} (h0 : P s) (ops : List α) :
    ∃ s', ops.foldlM step s = .ok s' ∧ P s' := by
  induction ops generalizing s with
  | nil => exact ⟨s, rfl, h0⟩
  | cons op ops ih =>
    obtain ⟨s₁, h1, hp⟩ := hstep s op h0
    obtain ⟨s₂, h2, hp₂⟩ := ih hp
    refine ⟨s₂, ?_, hp₂⟩
    rw [List.foldlM_cons, h1]
    exact h2

/-- The same, when what is kept depends on the operations so far. -/
theorem foldlM_ok_prefix {ε : Type*} {step : σ → α → Except ε σ} {P : List α → σ → Prop}
    {ops : List α} (hstep : ∀ pre s, ∀ op ∈ ops, P pre s →
      ∃ s', step s op = .ok s' ∧ P (pre ++ [op]) s') (pre : List α) {s : σ} (h0 : P pre s) :
    ∃ s', ops.foldlM step s = .ok s' ∧ P (pre ++ ops) s' := by
  induction ops generalizing pre s with
  | nil => exact ⟨s, rfl, by rwa [List.append_nil]⟩
  | cons op ops ih =>
    obtain ⟨s₁, h1, hp⟩ := hstep pre s op List.mem_cons_self h0
    obtain ⟨s₂, h2, hp₂⟩ :=
      ih (fun pre s op hop => hstep pre s op (List.mem_cons_of_mem _ hop)) _ hp
    refine ⟨s₂, ?_, by simpa using hp₂⟩
    rw [List.foldlM_cons, h1]
    exact h2

end Dee.GuardedRuns
