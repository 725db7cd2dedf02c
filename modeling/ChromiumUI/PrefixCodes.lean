import Mathlib.Data.List.Basic

/-!
# Prefix codes

Symbols written as words of which none is the beginning of another. `Decodes` reads a list front
to back, giving up a few units wherever no word stands.
-/
namespace ChromiumUI.PrefixCodes

open List

variable {σ α : Type*}

/-- The words of the valid symbols are no beginnings of each other. -/
structure PrefixCode (code : σ → List α) (Valid : σ → Prop) : Prop where
  ne_nil : ∀ {a}, Valid a → code a ≠ []
  unique : ∀ {a b r r'}, Valid a → Valid b → code a ++ r = code b ++ r' → a = b

/-- A list that is nothing but words. -/
def WellFormed (code : σ → List α) (Valid : σ → Prop) (s : List α) : Prop :=
  ∃ as : List σ, (∀ a ∈ as, Valid a) ∧ s = as.flatMap code

/-- Front to back, the symbol of each word, and `none` for units that no word starts. -/
inductive Decodes (code : σ → List α) (Valid : σ → Prop) : List α → List (Option σ) → Prop
  | nil : Decodes code Valid [] []
  | word {a : σ} {s : List α} {as : List (Option σ)} (ha : Valid a) (h : Decodes code Valid s as) :
      Decodes code Valid (code a ++ s) (some a :: as)
  | bad {b s : List α} {as : List (Option σ)} (hne : b ≠ [])
      (hb : ∀ a, Valid a → ¬code a <+: b ++ s) (h : Decodes code Valid s as) :
      Decodes code Valid (b ++ s) (none :: as)

variable {code : σ → List α} {Valid : σ → Prop}

theorem WellFormed.flatMap {τ : Type*} {f : τ → σ} {ts : List τ} (h : ∀ t ∈ ts, Valid (f t)) :
    WellFormed code Valid (ts.flatMap fun t => code (f t)) := by
  refine ⟨ts.map f, fun a ha => ?_, (flatMap_map ..).symm⟩
  obtain ⟨t, ht, rfl⟩ := mem_map.mp ha
  exact h t ht

/-- Words that begin other words are written by symbols that begin the other symbols. -/
theorem PrefixCode.isPrefix (hcode : PrefixCode code Valid) {as bs : List σ}
    (has : ∀ a ∈ as, Valid a) (hbs : ∀ b ∈ bs, Valid b)
    (h : as.flatMap code <+: bs.flatMap code) : as <+: bs := by
  induction as generalizing bs with
  | nil => exact nil_prefix
  | cons a as ih =>
    obtain ⟨ha, has⟩ := forall_mem_cons.mp has
    cases bs with
    | nil =>
      rw [flatMap_cons, flatMap_nil, prefix_nil, append_eq_nil_iff] at h
      exact absurd h.1 (hcode.ne_nil ha)
    | cons b bs =>
      obtain ⟨hb, hrest⟩ := forall_mem_cons.mp hbs
      obtain ⟨r, hr⟩ := h
      rw [flatMap_cons, flatMap_cons, append_assoc] at hr
      obtain rfl := hcode.unique ha hb hr
      exact (prefix_cons_inj a).mpr (ih has hrest ⟨r, append_cancel_left hr⟩)

variable {as : List (Option σ)}

theorem Decodes.valid {s : List α} (h : Decodes code Valid s as) : ∀ a ∈ as, ∀ b ∈ a, Valid b := by
  induction h with
  | nil => exact nofun
  | word ha _ ih =>
    intro o ho b hb
    rcases mem_cons.mp ho with rfl | ho
    · obtain rfl := Option.mem_some.mp hb
      exact ha
    · exact ih o ho b hb
  | bad _ _ _ ih =>
    intro o ho b hb
    rcases mem_cons.mp ho with rfl | ho
    · cases hb
    · exact ih o ho b hb

/-- What decodes without a gap is what its symbols are written as. -/
theorem Decodes.eq_flatMap {s : List α} (h : Decodes code Valid s as) (hall : ∀ a ∈ as, a.isSome) :
    ∃ bs : List σ, (∀ b ∈ bs, Valid b) ∧ as = bs.map some ∧
      s = bs.flatMap code := by
  induction h with
  | nil => exact ⟨[], nofun, rfl, rfl⟩
  | @word a s as ha _ ih =>
    obtain ⟨bs, hbs, rfl, rfl⟩ := ih fun b hb => hall b (mem_cons_of_mem _ hb)
    refine ⟨a :: bs, ?_, rfl, flatMap_cons.symm⟩
    intro b hb
    rcases mem_cons.mp hb with rfl | hb
    · exact ha
    · exact hbs b hb
  | bad _ _ _ _ => exact absurd (hall none mem_cons_self) (by simp)

/-- Written symbols decode to themselves. -/
theorem Decodes.of_flatMap (hcode : PrefixCode code Valid) {bs : List σ}
    (h : Decodes code Valid (bs.flatMap code) as) (hbs : ∀ b ∈ bs, Valid b) : as = bs.map some := by
  generalize hs : bs.flatMap code = s at h
  induction h generalizing bs with
  | nil =>
    cases bs with
    | nil => rfl
    | cons b bs =>
      rw [flatMap_cons, append_eq_nil_iff] at hs
      exact absurd hs.1 (hcode.ne_nil (hbs b mem_cons_self))
  | @word a s as ha _ ih =>
    cases bs with
    | nil =>
      have := (append_eq_nil_iff.mp hs.symm).1
      exact absurd this (hcode.ne_nil ha)
    | cons b bs =>
      rw [flatMap_cons] at hs
      obtain rfl := hcode.unique (hbs b mem_cons_self) ha hs
      rw [ih (fun c hc => hbs c (mem_cons_of_mem _ hc)) (append_cancel_left hs)]
      rfl
  | @bad b' s as hne hb _ ih =>
    cases bs with
    | nil => exact absurd (append_eq_nil_iff.mp hs.symm).1 hne
    | cons b bs =>
      rw [flatMap_cons] at hs
      exact absurd ⟨_, hs⟩ (hb b (hbs b mem_cons_self))

/-- A list decodes without a gap exactly when it is well formed. -/
theorem Decodes.wellFormed_iff (hcode : PrefixCode code Valid) {s : List α}
    (h : Decodes code Valid s as) : WellFormed code Valid s ↔ ∀ a ∈ as, a.isSome := by
  constructor
  · rintro ⟨bs, hbs, rfl⟩
    rw [h.of_flatMap hcode hbs]
    simp
  · intro hall
    obtain ⟨bs, hbs, -, hs⟩ := h.eq_flatMap hall
    exact ⟨bs, hbs, hs⟩

end ChromiumUI.PrefixCodes
