import Mathlib.Data.List.DropRight
import Mathlib.Data.List.Infix

/-!
# MatchVlogPattern

The loop up to the next star, and the search behind it among the suffixes that are not empty.
-/
namespace ChromiumUI.Logging

open List

def isStar (c : UInt8) : Bool := c == 0x2a

def isSlash (c : UInt8) : Bool := c == 0x2f || c == 0x5c

/-- The switch: does a character of the pattern that is no star match one of the text? -/
def accepts (p s : UInt8) : Bool :=
  if isSlash p then isSlash s else p == 0x3f || p == s

/-- `while (!p.empty() && !s.empty() && (p[0] != '*'))`; `none` is `return false`. -/
def consume : List UInt8 → List UInt8 → Option (List UInt8 × List UInt8)
  | s :: string, p :: pattern =>
    if isStar p then some (s :: string, p :: pattern)
    else if accepts p s then consume string pattern
    else none
  | string, pattern => some (string, pattern)

theorem consume_cons {string pattern s p : List UInt8} {c : UInt8}
    (h : consume string pattern = some (c :: s, p)) :
    p.length ≤ pattern.length ∧ (p = [] ∨ ∃ a p', p = a :: p' ∧ isStar a) := by
  fun_induction consume string pattern with
  | case1 d string a pattern hstar =>
    cases h
    exact ⟨Nat.le_refl _, Or.inr ⟨a, pattern, rfl, hstar⟩⟩
  | case2 d string a pattern _ _ ih => exact ⟨Nat.le_succ_of_le (ih h).1, (ih h).2⟩
  | case3 => cases h
  | case4 string pattern hends =>
    obtain ⟨rfl, rfl⟩ := Prod.mk.inj (Option.some.inj h)
    cases pattern with
    | nil => exact ⟨Nat.le_refl _, Or.inl rfl⟩
    | cons a pattern => exact (hends c s a pattern rfl rfl).elim

/-- A pattern that is left with a star in front gets shorter past its stars. -/
theorem length_dropWhile_consume {string pattern s p : List UInt8} {c : UInt8}
    (h : consume string pattern = some (c :: s, p)) (hp : p ≠ []) :
    (p.dropWhile isStar).length < pattern.length := by
  obtain ⟨hle, rfl | ⟨a, p', rfl, hstar⟩⟩ := consume_cons h
  · exact absurd rfl hp
  · rw [dropWhile_cons_of_pos hstar]
    exact Nat.lt_of_le_of_lt (dropWhile_sublist isStar).length_le hle

def matchVlogPattern (string pattern : List UInt8) : Bool :=
  match _h : consume string pattern with
  | none => false
  | some ([], p) => p.isEmpty || (p.dropWhile isStar).isEmpty
  | some (c :: s, p) =>
    if _hp : p = [] then false
    else
      (p.dropWhile isStar).isEmpty ||
        (c :: s).tails.any fun t => !t.isEmpty && matchVlogPattern t (p.dropWhile isStar)
termination_by pattern.length
decreasing_by exact length_dropWhile_consume _h _hp

/-- A star stands for any sequence, `?` for a character, a slash for one of either kind, and any
other character for itself. -/
inductive Belongs : List UInt8 → List UInt8 → Prop
  | nil : Belongs [] []
  | star {pattern s : List UInt8} (front : List UInt8) (h : Belongs pattern s) :
      Belongs (0x2a :: pattern) (front ++ s)
  | question {pattern s : List UInt8} (a : UInt8) (h : Belongs pattern s) :
      Belongs (0x3f :: pattern) (a :: s)
  | slash {pattern s : List UInt8} {p a : UInt8} (hp : isSlash p) (ha : isSlash a)
      (h : Belongs pattern s) : Belongs (p :: pattern) (a :: s)
  | literal {pattern s : List UInt8} {a : UInt8} (hstar : a ≠ 0x2a) (hquestion : a ≠ 0x3f)
      (hslash : isSlash a = false) (h : Belongs pattern s) : Belongs (a :: pattern) (a :: s)

variable {string pattern s p : List UInt8}

theorem belongs_star_iff :
    Belongs (0x2a :: p) s ↔ ∃ front rest, s = front ++ rest ∧ Belongs p rest := by
  constructor
  · intro h
    cases h with
    | star front h => exact ⟨front, _, rfl, h⟩
    | slash hp => cases hp
    | literal hstar => exact absurd rfl hstar
  · rintro ⟨front, rest, rfl, h⟩
    exact .star front h

theorem belongs_nil_iff : Belongs [] s ↔ s = [] :=
  ⟨fun h => by cases h; rfl, fun h => h ▸ .nil⟩

/-- What is no star takes one character, the one the switch accepts. -/
theorem belongs_cons_iff {a : UInt8} (ha : isStar a = false) :
    Belongs (a :: p) s ↔ ∃ c rest, s = c :: rest ∧ accepts a c ∧ Belongs p rest := by
  constructor
  · intro h
    cases h with
    | star front h => cases ha
    | question c h => exact ⟨c, _, rfl, rfl, h⟩
    | slash hp hc h => exact ⟨_, _, rfl, by rw [accepts, if_pos hp]; exact hc, h⟩
    | literal hstar hquestion hslash h =>
      refine ⟨a, _, rfl, ?_, h⟩
      rw [accepts, if_neg (ne_true_of_eq_false hslash), beq_self_eq_true, Bool.or_true]
  · rintro ⟨c, rest, rfl, haccepts, h⟩
    rw [accepts] at haccepts
    split_ifs at haccepts with hslash
    · exact .slash hslash haccepts h
    · rcases Bool.or_eq_true_iff.mp haccepts with hquestion | hsame
      · rw [beq_iff_eq.mp hquestion]
        exact .question c h
      · rw [← beq_iff_eq.mp hsame]
        by_cases hquestion : a = 0x3f
        · rw [hquestion]
          exact .question _ h
        · exact .literal (fun hstar => by rw [hstar] at ha; cases ha) hquestion
            (eq_false_of_ne_true hslash) h

/-- The stars in front of a pattern say as much as one. -/
theorem belongs_stars_iff {a : UInt8} (ha : isStar a) :
    Belongs (a :: p) s ↔ ∃ front rest, s = front ++ rest ∧ Belongs (p.dropWhile isStar) rest := by
  obtain rfl := beq_iff_eq.mp ha
  rw [belongs_star_iff]
  induction p generalizing s with
  | nil => rfl
  | cons b p ih =>
    by_cases hb : isStar b
    · obtain rfl := beq_iff_eq.mp hb
      rw [dropWhile_cons_of_pos hb, ← ih]
      constructor
      · rintro ⟨front, rest, rfl, h⟩
        obtain ⟨more, rest, rfl, hmore⟩ := belongs_star_iff.mp h
        exact ⟨front ++ more, rest, (append_assoc ..).symm, hmore⟩
      · rintro ⟨front, rest, rfl, h⟩
        exact ⟨front, rest, rfl, .star [] h⟩
    · rw [dropWhile_cons_of_neg hb]

theorem belongs_empty_iff : Belongs p [] ↔ p.dropWhile isStar = [] := by
  induction p with
  | nil => exact iff_of_true .nil rfl
  | cons a p ih =>
    by_cases ha : isStar a
    · rw [dropWhile_cons_of_pos ha, ← ih, beq_iff_eq.mp ha, belongs_star_iff]
      constructor
      · rintro ⟨front, rest, hnil, h⟩
        exact (append_eq_nil_iff.mp hnil.symm).2 ▸ h
      · exact fun h => ⟨[], [], rfl, h⟩
    · rw [belongs_cons_iff (eq_false_of_ne_true ha), dropWhile_cons_of_neg ha]
      exact iff_of_false (fun ⟨_, _, h, _⟩ => nomatch h) nofun

/-- What is left after the loop is what is asked. -/
theorem consume_belongs :
    Belongs pattern string ↔ ∃ s p, consume string pattern = some (s, p) ∧ Belongs p s := by
  fun_induction consume string pattern with
  | case1 c string a pattern =>
    exact ⟨fun h => ⟨_, _, rfl, h⟩, fun ⟨_, _, h, hb⟩ => by cases h; exact hb⟩
  | case2 c string a pattern hstar haccepts ih =>
    rw [belongs_cons_iff (eq_false_of_ne_true hstar), ← ih]
    constructor
    · rintro ⟨_, _, h, -, hrest⟩
      cases h
      exact hrest
    · exact fun h => ⟨c, string, rfl, haccepts, h⟩
  | case3 c string a pattern hstar haccepts =>
    rw [belongs_cons_iff (eq_false_of_ne_true hstar)]
    constructor
    · rintro ⟨_, _, h, hc, -⟩
      cases h
      exact absurd hc haccepts
    · rintro ⟨_, _, h, -⟩
      cases h
  | case4 string pattern =>
    exact ⟨fun h => ⟨_, _, rfl, h⟩, fun ⟨_, _, h, hb⟩ => by cases h; exact hb⟩

theorem belongs_consumed (h : consume string pattern = some (s, p)) :
    Belongs pattern string ↔ Belongs p s := by
  rw [consume_belongs, h]
  simp

/-- MatchVlogPattern decides the language of the pattern. -/
theorem matchVlogPattern_iff (string pattern : List UInt8) :
    matchVlogPattern string pattern = true ↔ Belongs pattern string := by
  fun_induction matchVlogPattern string pattern with
  | case1 string pattern h =>
    rw [consume_belongs, h]
    simp
  | case2 string pattern p h =>
    rw [belongs_consumed h, belongs_empty_iff]
    cases p <;> simp
  | case3 string pattern c s h => simp [belongs_consumed h, belongs_nil_iff]
  | case4 string pattern c s p h hp ih =>
    obtain ⟨-, rfl | ⟨a, p, rfl, ha⟩⟩ := consume_cons h
    · exact absurd rfl hp
    rw [belongs_consumed h, belongs_stars_iff ha, dropWhile_cons_of_pos ha, Bool.or_eq_true,
      List.isEmpty_iff, any_eq_true]
    rw [dropWhile_cons_of_pos ha] at ih
    constructor
    · rintro (hempty | ⟨t, ht, hmatch⟩)
      · exact ⟨c :: s, [], (append_nil _).symm, hempty ▸ .nil⟩
      · obtain ⟨front, hfront⟩ := (mem_tails t _).mp ht
        exact ⟨front, t, hfront.symm, (ih t).mp (Bool.and_eq_true_iff.mp hmatch).2⟩
    · rintro ⟨front, rest, hsplit, hrest⟩
      cases rest with
      | nil => exact Or.inl (dropWhile_idempotent isStar p ▸ belongs_empty_iff.mp hrest)
      | cons d rest =>
        exact Or.inr ⟨d :: rest, (mem_tails _ _).mpr ⟨front, hsplit.symm⟩, (ih _).mpr hrest⟩

end ChromiumUI.Logging
