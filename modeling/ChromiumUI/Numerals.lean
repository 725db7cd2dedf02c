import Mathlib.Data.Nat.Digits.Lemmas

/-!
# Positional numerals

Digit lists with the highest digit first, read from left to right.
-/
namespace ChromiumUI.Numerals

open List Nat

variable {b : Nat}

/-- The number that these digits denote. -/
def value (b : Nat) (ds : List Nat) : Nat := Nat.ofDigits b ds.reverse

@[simp] theorem value_nil : value b [] = 0 := ofDigits_nil

@[simp] theorem value_singleton (d : Nat) : value b [d] = d := ofDigits_singleton

theorem value_append (p q : List Nat) :
    value b (p ++ q) = value b p * b ^ q.length + value b q := by
  rw [value, reverse_append, ofDigits_append, length_reverse, value, value,
    mul_comm, add_comm]

/-- What one more digit makes of a number. -/
theorem value_concat (p : List Nat) (d : Nat) : value b (p ++ [d]) = value b p * b + d := by
  rw [value_append, value_singleton, length_singleton, pow_one]

theorem value_lt (hb : 1 < b) {ds : List Nat} (h : ∀ d ∈ ds, d < b) :
    value b ds < b ^ ds.length := by
  have hlt := ofDigits_lt_base_pow_length hb fun d hd => h d (mem_reverse.mp hd)
  rwa [length_reverse] at hlt

/-- A number has at least the value of what its first digits denote. -/
theorem value_le_of_isPrefix (hb : 0 < b) {p ds : List Nat} (h : p <+: ds) :
    value b p ≤ value b ds := by
  obtain ⟨q, rfl⟩ := h
  rw [value_append]
  calc value b p ≤ value b p * b ^ q.length := Nat.le_mul_of_pos_right _ (Nat.pow_pos hb)
    _ ≤ value b p * b ^ q.length + value b q := le_add_right _ _

theorem value_eq_zero (hb : 0 < b) {ds : List Nat} : value b ds = 0 ↔ ∀ d ∈ ds, d = 0 := by
  induction ds with
  | nil => simp
  | cons d ds ih =>
    have happ := value_append (b := b) [d] ds
    rw [singleton_append, value_singleton] at happ
    rw [happ, Nat.add_eq_zero_iff, ih, Nat.mul_eq_zero]
    simp [hb.ne']

/-- One digit or more, and no redundant zero in front. -/
structure Canonical (ds : List Nat) : Prop where
  ne_nil : ds ≠ []
  zero : ds.head? = some 0 → ds = [0]

theorem Canonical.eq_zero (hb : 0 < b) {ds : List Nat} (h : Canonical ds)
    (hvalue : value b ds = 0) : ds = [0] := by
  obtain ⟨d, tail, rfl⟩ := exists_cons_of_ne_nil h.ne_nil
  refine h.zero ?_
  rw [(value_eq_zero hb).mp hvalue d mem_cons_self]
  rfl

/-- A number has one numeral. -/
theorem Canonical.eq_of_value_eq (hb : 1 < b) {ds ds' : List Nat} (h : Canonical ds)
    (h' : Canonical ds') (hlt : ∀ d ∈ ds, d < b) (hlt' : ∀ d ∈ ds', d < b)
    (hvalue : value b ds = value b ds') : ds = ds' := by
  have hpos : 0 < b := by omega
  have hds {ds : List Nat} (h : Canonical ds) (hlt : ∀ d ∈ ds, d < b)
      (hne : value b ds ≠ 0) : Nat.digits b (value b ds) = ds.reverse := by
    refine digits_ofDigits b hb _ (fun d hd => hlt d (mem_reverse.mp hd)) fun hne' => ?_
    rw [getLast_reverse]
    intro hzero
    have hhead : ds.head? = some 0 := by
      rw [← hzero]
      exact List.head?_eq_some_head _
    rw [h.zero hhead, value_singleton] at hne
    exact hne rfl
  by_cases hzero : value b ds = 0
  · rw [h.eq_zero hpos hzero, h'.eq_zero hpos (hvalue ▸ hzero)]
  · have hsame := hds h hlt hzero
    rw [hvalue, hds h' hlt' (hvalue ▸ hzero)] at hsame
    exact (reverse_injective hsame).symm

/-- The digit that has `r` behind it. -/
theorem value_div_mod (hb : 1 < b) {q r : List Nat} {d : Nat} (hd : d < b)
    (hr : ∀ e ∈ r, e < b) : value b (q ++ d :: r) / b ^ r.length % b = d := by
  have hlt := value_lt hb hr
  have hpos : 0 < b ^ r.length := Nat.pow_pos (by omega)
  have hsplit : value b (q ++ d :: r) = value b (q ++ [d]) * b ^ r.length + value b r := by
    rw [← value_append, append_assoc, singleton_append]
  rw [hsplit, mul_comm, mul_add_div hpos, div_eq_of_lt hlt, add_zero, value_concat,
    mul_comm, mul_add_mod, mod_eq_of_lt hd]

/-- Whether one more digit leads beyond a maximum can be told before it is appended. -/
theorem exceeds_iff {v d max : Nat} (hd : d < b) :
    (max / b < v ∨ v = max / b ∧ max % b < d) ↔ max < v * b + d := by
  have hmax := div_add_mod max b
  have hmod : max % b < b := mod_lt _ (by omega)
  rw [mul_comm] at hmax
  rcases lt_trichotomy v (max / b) with hlt | rfl | hgt
  · have hmul : (v + 1) * b ≤ max / b * b := mul_le_mul_right b hlt
    rw [succ_mul] at hmul
    omega
  · omega
  · have hmul : (max / b + 1) * b ≤ v * b := mul_le_mul_right b hgt
    rw [succ_mul] at hmul
    omega

end ChromiumUI.Numerals
