import Mathlib.Data.List.Infix

/-!
# Runs of a partial step function

A component is a state and a step that may refuse an operation (`none`). Runs
are finite lists of operations; every rule below turns a fact about one step
into a fact about all states met along a run.
-/
namespace ChromiumUI.Runs

variable {σ : Type*} {α : Type*}

/-- Execute the operations in order; `none` means one of them was refused. -/
def run (step : σ → α → Option σ) : List α → σ → Option σ
  | [], s => some s
  | a :: as, s => (step s a).bind (run step as)

section

variable (step : σ → α → Option σ)
include step

@[simp] theorem run_nil (s : σ) : run step [] s = some s := rfl

@[simp] theorem run_cons (a : α) (as : List α) (s : σ) :
    run step (a :: as) s = (step s a).bind (run step as) := rfl

theorem run_append (as bs : List α) (s : σ) :
    run step (as ++ bs) s = (run step as s).bind (run step bs) := by
  induction as generalizing s with
  | nil => rfl
  | cons a as ih =>
    simp only [List.cons_append, run_cons]
    cases step s a with
    | none => rfl
    | some t => exact ih t

theorem run_concat (as : List α) (a : α) (s : σ) :
    run step (as ++ [a]) s = (run step as s).bind (fun t => step t a) := by
  rw [run_append]
  cases run step as s with
  | none => rfl
  | some t =>
    simp only [Option.bind_some, run_cons]
    cases step t a <;> rfl

end

/-- Peel the first operation off an allowed run. -/
theorem run_cons_some {step : σ → α → Option σ} {a : α} {as : List α} {s u : σ}
    (h : run step (a :: as) s = some u) : ∃ t, step s a = some t ∧ run step as t = some u :=
  Option.bind_eq_some_iff.mp h

/-- Cut an allowed run into an allowed first part and an allowed rest. -/
theorem run_append_some {step : σ → α → Option σ} {as bs : List α} {s u : σ}
    (h : run step (as ++ bs) s = some u) :
    ∃ t, run step as s = some t ∧ run step bs t = some u := by
  rw [run_append] at h
  exact Option.bind_eq_some_iff.mp h

/-- Cut an allowed run around one of its operations. -/
theorem run_append_cons_some {step : σ → α → Option σ} {as bs : List α} {a : α} {s u : σ}
    (h : run step (as ++ a :: bs) s = some u) :
    ∃ t v, run step as s = some t ∧ step t a = some v ∧ run step bs v = some u := by
  obtain ⟨t, ht, hrest⟩ := run_append_some h
  obtain ⟨v, hv, hu⟩ := run_cons_some hrest
  exact ⟨t, v, ht, hv, hu⟩

/-- Cut the last operation off an allowed run. -/
theorem run_concat_some {step : σ → α → Option σ} {as : List α} {a : α} {s u : σ}
    (h : run step (as ++ [a]) s = some u) : ∃ t, run step as s = some t ∧ step t a = some u := by
  rw [run_concat] at h
  exact Option.bind_eq_some_iff.mp h

/-- Every prefix of an allowed run is allowed. -/
theorem run_prefix {step : σ → α → Option σ} {pre as : List α} {s u : σ}
    (h : run step as s = some u) (hp : pre <+: as) : ∃ t, run step pre s = some t := by
  obtain ⟨rest, rfl⟩ := hp
  obtain ⟨t, ht, -⟩ := run_append_some h
  exact ⟨t, ht⟩

/-- `P` holds of every state met along the run, first and last included. -/
def Throughout (step : σ → α → Option σ) (P : σ → Prop) (as : List α) (s : σ) : Prop :=
  ∀ pre, pre <+: as → ∀ t, run step pre s = some t → P t

@[simp] theorem throughout_nil (step : σ → α → Option σ) (P : σ → Prop) (s : σ) :
    Throughout step P [] s ↔ P s := by
  constructor
  · intro h
    exact h [] (List.prefix_refl []) s rfl
  · intro h pre hp t ht
    obtain rfl := List.prefix_nil.mp hp
    cases ht
    exact h

theorem throughout_cons {step : σ → α → Option σ} {P : σ → Prop} {a : α} {as : List α}
    {s t : σ} (hs : step s a = some t) :
    Throughout step P (a :: as) s ↔ P s ∧ Throughout step P as t := by
  constructor
  · intro h
    refine ⟨h [] (List.nil_prefix) s rfl, ?_⟩
    intro pre hp u hu
    exact h (a :: pre) (List.cons_prefix_cons.mpr ⟨rfl, hp⟩) u (by simp [hs, hu])
  · rintro ⟨h₀, h⟩ pre hp u hu
    cases pre with
    | nil =>
      cases hu
      exact h₀
    | cons b pre =>
      obtain ⟨rfl, hpre⟩ := List.cons_prefix_cons.mp hp
      rw [run_cons, hs] at hu
      exact h pre hpre u hu

/-- The invariant rule: what one step preserves holds after every run. -/
theorem run_invariant {step : σ → α → Option σ} {P : σ → Prop}
    (hstep : ∀ s a t, P s → step s a = some t → P t) {as : List α} {s u : σ}
    (h : run step as s = some u) (hs : P s) : P u := by
  induction as generalizing s with
  | nil =>
    cases h
    exact hs
  | cons a as ih =>
    obtain ⟨t, ht, hu⟩ := run_cons_some h
    exact ih hu (hstep s a t hs ht)

/-- The history rule: the invariant may speak of the operations executed so far. -/
theorem run_history {step : σ → α → Option σ} {P : List α → σ → Prop} {s : σ} (hinit : P [] s)
    (hstep : ∀ as t a u, P as t → step t a = some u → P (as ++ [a]) u)
    {as : List α} {u : σ} (h : run step as s = some u) : P as u := by
  induction as using List.reverseRecOn generalizing u with
  | nil =>
    cases h
    exact hinit
  | append_singleton as a ih =>
    obtain ⟨t, ht, hu⟩ := run_concat_some h
    exact hstep as t a u (ih ht) hu

/-- `C` holds of every operation of the run in the state in which it is executed. -/
def EachStep (step : σ → α → Option σ) (C : σ → α → Prop) : List α → σ → Prop
  | [], _ => True
  | a :: as, s => C s a ∧ ∀ t, step s a = some t → EachStep step C as t

theorem eachStep_of_forall {step : σ → α → Option σ} {C : σ → α → Prop} {as : List α}
    (h : ∀ a ∈ as, ∀ s, C s a) (s : σ) : EachStep step C as s := by
  induction as generalizing s with
  | nil => trivial
  | cons a as ih =>
    exact ⟨h a List.mem_cons_self s, fun t _ => ih (fun b hb => h b (List.mem_cons_of_mem _ hb)) t⟩

theorem eachStep_append {step : σ → α → Option σ} {C : σ → α → Prop} {as bs : List α} {s : σ}
    (has : EachStep step C as s) (hbs : ∀ t, run step as s = some t → EachStep step C bs t) :
    EachStep step C (as ++ bs) s := by
  induction as generalizing s with
  | nil => exact hbs s rfl
  | cons a as ih =>
    refine ⟨has.1, fun t ht => ih (has.2 t ht) fun u hu => hbs u ?_⟩
    rw [run_cons, ht]
    exact hu

/-- Two conditions that agree wherever the invariant holds agree along every run. -/
theorem eachStep_iff {step : σ → α → Option σ} {C D : σ → α → Prop} {P : σ → Prop}
    (hiff : ∀ s a, P s → (C s a ↔ D s a))
    (hstep : ∀ s a t, P s → C s a → step s a = some t → P t) {as : List α} {s : σ} (hs : P s) :
    EachStep step C as s ↔ EachStep step D as s := by
  induction as generalizing s with
  | nil => exact Iff.rfl
  | cons a as ih =>
    constructor
    · rintro ⟨hC, hrest⟩
      exact ⟨(hiff s a hs).mp hC, fun t ht => (ih (hstep s a t hs hC ht)).mp (hrest t ht)⟩
    · rintro ⟨hD, hrest⟩
      have hC := (hiff s a hs).mpr hD
      exact ⟨hC, fun t ht => (ih (hstep s a t hs hC ht)).mpr (hrest t ht)⟩

/-- The invariant rule for runs whose operations meet a condition. -/
theorem run_invariant_of_each {step : σ → α → Option σ} {C : σ → α → Prop} {P : σ → Prop}
    (hstep : ∀ s a t, P s → C s a → step s a = some t → P t) {as : List α} {s u : σ}
    (h : run step as s = some u) (heach : EachStep step C as s) (hs : P s) : P u := by
  induction as generalizing s with
  | nil =>
    cases h
    exact hs
  | cons a as ih =>
    obtain ⟨t, ht, hu⟩ := run_cons_some h
    exact ih hu (heach.2 t ht) (hstep s a t hs heach.1 ht)

/-- Where each operation is refused exactly when it does not meet a condition, a run gets to its
end exactly when all its operations meet it. -/
theorem run_some_iff_each {step : σ → α → Option σ} {L C : σ → α → Prop} {P : σ → Prop}
    (hsome : ∀ s a, P s → L s a → C s a → ∃ t, step s a = some t ∧ P t)
    (hnone : ∀ s a, P s → L s a → ¬ C s a → step s a = none) {as : List α} {s : σ}
    (hs : P s) (hL : EachStep step L as s) :
    (∃ u, run step as s = some u) ↔ EachStep step C as s := by
  induction as generalizing s with
  | nil => exact ⟨fun _ => trivial, fun _ => ⟨s, rfl⟩⟩
  | cons a as ih =>
    by_cases hC : C s a
    · obtain ⟨t, ht, hPt⟩ := hsome s a hs hL.1 hC
      rw [run_cons, ht, Option.bind_some, ih hPt (hL.2 t ht)]
      constructor
      · intro h
        refine ⟨hC, fun t' ht' => ?_⟩
        cases ht.symm.trans ht'
        exact h
      · exact fun h => h.2 t ht
    · rw [run_cons, hnone s a hs hL.1 hC]
      exact ⟨fun ⟨u, hu⟩ => (nomatch hu), fun h => absurd h.1 hC⟩

end ChromiumUI.Runs
