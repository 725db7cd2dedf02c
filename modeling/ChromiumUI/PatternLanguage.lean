import Mathlib.Data.List.Basic

/-!
# Patterns with wildcards

A pattern is a list of tokens: a symbol for itself, one for any sequence, one for at most one
symbol. `Matches` is the language of a pattern.
-/
namespace ChromiumUI.PatternLanguage

variable {σ : Type*}

inductive Token (σ : Type*) where
  | literal : σ → Token σ
  | sequence : Token σ
  | optional : Token σ

def Token.isWild : Token σ → Bool
  | literal _ => false
  | _ => true

inductive Matches : List (Token σ) → List σ → Prop
  | nil : Matches [] []
  | literal {a : σ} {tokens : List (Token σ)} {s : List σ} (h : Matches tokens s) :
      Matches (.literal a :: tokens) (a :: s)
  | sequence {tokens : List (Token σ)} {s : List σ} (front : List σ) (h : Matches tokens s) :
      Matches (.sequence :: tokens) (front ++ s)
  | absent {tokens : List (Token σ)} {s : List σ} (h : Matches tokens s) :
      Matches (.optional :: tokens) s
  | present {tokens : List (Token σ)} {s : List σ} (a : σ) (h : Matches tokens s) :
      Matches (.optional :: tokens) (a :: s)

variable {tokens wilds : List (Token σ)} {s : List σ}

theorem matches_nil_iff : Matches [] s ↔ s = [] :=
  ⟨fun h => by cases h; rfl, fun h => h ▸ .nil⟩

theorem matches_literal_iff {a : σ} :
    Matches (.literal a :: tokens) s ↔ ∃ rest, s = a :: rest ∧ Matches tokens rest := by
  constructor
  · rintro (_ | h)
    exact ⟨_, rfl, h⟩
  · rintro ⟨rest, rfl, h⟩
    exact .literal h

theorem matches_optional_iff :
    Matches (.optional :: tokens) s ↔
      Matches tokens s ∨ ∃ a rest, s = a :: rest ∧ Matches tokens rest := by
  constructor
  · rintro (_ | _ | _ | h | ⟨a, h⟩)
    · exact Or.inl h
    · exact Or.inr ⟨a, _, rfl, h⟩
  · rintro (h | ⟨a, rest, rfl, h⟩)
    · exact .absent h
    · exact .present a h

theorem matches_sequence_iff :
    Matches (.sequence :: tokens) s ↔ ∃ front rest, s = front ++ rest ∧ Matches tokens rest := by
  constructor
  · rintro (_ | _ | ⟨front, h⟩)
    exact ⟨front, _, rfl, h⟩
  · rintro ⟨front, rest, rfl, h⟩
    exact .sequence front h

/-- Nothing is matched by wildcards alone. -/
theorem matches_empty_iff : Matches tokens [] ↔ ∀ t ∈ tokens, t.isWild = true := by
  induction tokens with
  | nil => exact ⟨fun _ => nofun, fun _ => .nil⟩
  | cons t tokens ih =>
    rw [List.forall_mem_cons, ← ih]
    cases t with
    | literal a =>
      rw [matches_literal_iff]
      constructor
      · rintro ⟨_, h, -⟩
        cases h
      · rintro ⟨h, -⟩
        cases h
    | sequence =>
      rw [matches_sequence_iff]
      constructor
      · rintro ⟨front, rest, h, hrest⟩
        rw [(List.append_eq_nil_iff.mp h.symm).2] at hrest
        exact ⟨rfl, hrest⟩
      · exact fun h => ⟨[], [], rfl, h.2⟩
    | optional =>
      rw [matches_optional_iff]
      constructor
      · rintro (h | ⟨_, _, h, _⟩)
        · exact ⟨rfl, h⟩
        · cases h
      · exact fun h => Or.inl h.2

/-- Wildcards behind a sequence say nothing more. -/
theorem matches_sequence_wilds (hwilds : ∀ t ∈ wilds, t.isWild = true) :
    Matches (.sequence :: (wilds ++ tokens)) s ↔
      ∃ front rest, s = front ++ rest ∧ Matches tokens rest := by
  rw [matches_sequence_iff]
  constructor
  · rintro ⟨front, rest, rfl, h⟩
    induction wilds generalizing front rest with
    | nil => exact ⟨front, rest, rfl, h⟩
    | cons t wilds ih =>
      obtain ⟨ht, hrest⟩ := List.forall_mem_cons.mp hwilds
      cases t with
      | literal => cases ht
      | sequence =>
        obtain ⟨more, rest, rfl, hmore⟩ := matches_sequence_iff.mp h
        rw [← List.append_assoc]
        exact ih hrest _ _ hmore
      | optional =>
        rcases matches_optional_iff.mp h with habsent | ⟨a, rest, rfl, hpresent⟩
        · exact ih hrest _ _ habsent
        · rw [List.append_cons]
          exact ih hrest _ _ hpresent
  · rintro ⟨front, rest, rfl, h⟩
    refine ⟨front, rest, rfl, ?_⟩
    induction wilds with
    | nil => exact h
    | cons t wilds ih =>
      obtain ⟨ht, hrest⟩ := List.forall_mem_cons.mp hwilds
      cases t with
      | literal => cases ht
      | sequence => exact matches_sequence_iff.mpr ⟨[], rest, rfl, ih hrest⟩
      | optional => exact .absent (ih hrest)

end ChromiumUI.PatternLanguage
