import Mathlib.Data.List.Basic

/-!
# Chains of edits

A list of edits leads from one value to another when each edit leads from where the one
before it stops. `Leads e t t'` is left open: it is what undoing and redoing `e` rely on.
-/
namespace ChromiumUI.EditChains

variable {E T : Type*}

inductive Chain (Leads : E → T → T → Prop) : T → List E → T → Prop
  | nil (t : T) : Chain Leads t [] t
  | cons {e : E} {es : List E} {t t' t'' : T} (he : Leads e t t')
      (hes : Chain Leads t' es t'') : Chain Leads t (e :: es) t''

variable {Leads : E → T → T → Prop}

@[simp] theorem chain_nil {t t' : T} : Chain Leads t [] t' ↔ t = t' := by
  constructor
  · rintro ⟨⟩
    rfl
  · rintro rfl
    exact .nil t

theorem chain_cons {e : E} {es : List E} {t t'' : T} :
    Chain Leads t (e :: es) t'' ↔ ∃ t', Leads e t t' ∧ Chain Leads t' es t'' := by
  constructor
  · rintro (_ | ⟨he, hes⟩)
    exact ⟨_, he, hes⟩
  · rintro ⟨t', he, hes⟩
    exact .cons he hes

theorem chain_append {as bs : List E} {t t'' : T} :
    Chain Leads t (as ++ bs) t'' ↔ ∃ t', Chain Leads t as t' ∧ Chain Leads t' bs t'' := by
  induction as generalizing t with
  | nil => simp
  | cons a as ih =>
    rw [List.cons_append, chain_cons]
    constructor
    · rintro ⟨t', ha, h⟩
      obtain ⟨u, has, hbs⟩ := ih.mp h
      exact ⟨u, .cons ha has, hbs⟩
    · rintro ⟨u, has, hbs⟩
      obtain ⟨t', ha, h⟩ := chain_cons.mp has
      exact ⟨t', ha, ih.mpr ⟨u, h, hbs⟩⟩

/-- A chain by its last edit. -/
theorem chain_concat {as : List E} {b : E} {t t'' : T} :
    Chain Leads t (as ++ [b]) t'' ↔ ∃ t', Chain Leads t as t' ∧ Leads b t' t'' := by
  simp [chain_append, chain_cons]

/-- Where each edit can lead to one value only, so can the chain. -/
theorem Chain.unique (hunique : ∀ e t a b, Leads e t a → Leads e t b → a = b)
    {es : List E} {t a b : T} (ha : Chain Leads t es a) (hb : Chain Leads t es b) : a = b := by
  induction ha with
  | nil t => exact chain_nil.mp hb
  | cons he hes ih =>
    obtain ⟨t', he', hes'⟩ := chain_cons.mp hb
    obtain rfl := hunique _ _ _ _ he he'
    exact ih hes'

end ChromiumUI.EditChains
