import ChromiumUI.Elisions

/-!
# Truncated texts

ElideText with TRUNCATE_AT_END, for a font in which the width of a text is that of its parts. The
search starts over with half of a cut that has no width, and with nothing it ends.
-/
namespace ChromiumUI.Ui

open Gfx Views List Nat
open ChromiumUI.Base (Target)
open ChromiumUI.Fuel

structure Additive (width : String16 → Int) : Prop where
  append : ∀ s s', width (s ++ s') = width s + width s'
  pos : ∀ s, s ≠ [] → 0 < width s

variable {t : Target} {width : String16 → Int} {available : Int} {text : String16} {m p q : Nat}

namespace Additive

section

variable (h : Additive width)
include h

theorem nil : width [] = 0 := by
  have hnil := h.append [] []
  rw [append_nil] at hnil
  omega

theorem nonneg (s : String16) : 0 ≤ width s := by
  by_cases hs : s = []
  · rw [hs, h.nil]
  · exact Int.le_of_lt (h.pos s hs)

theorem take_mono (s : String16) (hle : p ≤ q) : width (s.take p) ≤ width (s.take q) := by
  have hsplit := take_append_drop p (s.take q)
  rw [take_take, min_eq_left hle] at hsplit
  have hrest := h.nonneg ((s.take q).drop p)
  rw [← hsplit, h.append]
  omega

theorem eq_zero_iff (s : String16) : width s = 0 ↔ s = [] := by
  constructor
  · intro hzero
    by_contra hs
    have hpos := h.pos s hs
    omega
  · rintro rfl
    exact h.nil

end

end Additive

theorem monospace_additive : Additive monospace where
  append s s' := by
    unfold monospace
    rw [length_append]
    omega
  pos s hs := by
    have hlen := length_pos_iff.mpr hs
    unfold monospace
    omega

/-- How many units the first character takes. -/
def firstLength (text : String16) : Nat := if InsidePair text 1 then 2 else 1

/-- A text that ends where a character does, at most as wide as there is room, or empty. -/
structure Truncation (width : String16 → Int) (available : Int) (text result : String16) :
    Prop where
  cut : ∃ p ≤ text.length, result = text.take p ∧ ¬ InsidePair text p
  fits : result = [] ∨ width result ≤ available

/-- No longer truncation exists. -/
structure Longest (width : String16 → Int) (available : Int) (text result : String16) : Prop
    extends Truncation width available text result where
  most : ∀ p ≤ text.length, ¬ InsidePair text p → width (text.take p) ≤ available →
    p ≤ result.length

/-- One of the guesses, (n + 1) / 2 ^ j - 1 while nothing has fit, is of a cut that fits and is not
empty. -/
def Meets (width : String16 → Int) (available : Int) (text : String16) (m : Nat) : Prop :=
  ∃ j, 1 ≤ j ∧ firstLength text ≤ m / 2 ^ j - 1 ∧
    width (text.take (findValidBoundaryBefore text (m / 2 ^ j - 1))) ≤ available

/-- When ElideText finds the longest beginning that fits. -/
def Truncates (width : String16 → Int) (available : Int) (text : String16) : Prop :=
  width text ≤ available ∨ available < width (text.take (firstLength text)) ∨
    (width kEllipsis ≤ available ∧ Meets width available text (text.length + 1))

/-! ## The cuts -/

abbrev truncatedCut (t : Target) (text : String16) (length : Nat) : String16 :=
  cutString t text kEllipsis false length false

theorem truncatedCut_eq (t : Target) (text : String16) (length : Nat) :
    truncatedCut t text length = text.take (findValidBoundaryBefore text length) := by
  simp [truncatedCut, cutString]

theorem firstLength_le (hempty : text ≠ []) : 1 ≤ firstLength text ∧
    firstLength text ≤ text.length := by
  have hlen : 1 ≤ text.length := length_pos_iff.mpr hempty
  unfold firstLength
  split_ifs with h
  · refine ⟨by omega, ?_⟩
    by_contra hshort
    exact not_insidePair_of_length_le (by omega) h
  · exact ⟨le_refl 1, hlen⟩

theorem not_insidePair_firstLength (text : String16) : ¬ InsidePair text (firstLength text) := by
  unfold firstLength
  split_ifs with h
  · exact not_insidePair_succ h
  · exact h

/-- Only the cuts of less than a character are empty. -/
theorem findValidBoundaryBefore_eq_zero {g : Nat} :
    findValidBoundaryBefore text g = 0 ↔ g < firstLength text := by
  rw [findValidBoundaryBefore_eq, firstLength]
  by_cases h0 : g = 0
  · subst h0
    have hin : ¬ InsidePair text 0 := fun h => absurd h.1 (lt_irrefl 0)
    simp only [if_neg hin, true_iff]
    split <;> omega
  · by_cases h1 : g = 1
    · subst h1
      split <;> simp
    · split <;> split <;> omega

theorem truncatedCut_eq_nil {g : Nat} (hempty : text ≠ []) :
    truncatedCut t text g = [] ↔ g < firstLength text := by
  rw [truncatedCut_eq, take_eq_nil_iff, or_iff_left hempty, findValidBoundaryBefore_eq_zero]

theorem truncatedCut_pos (h : Additive width) (hempty : text ≠ []) {g : Nat}
    (hg : firstLength text ≤ g) : 0 < width (truncatedCut t text g) := by
  refine h.pos _ fun hnil => ?_
  rw [truncatedCut_eq_nil hempty] at hnil
  omega

theorem truncatedCut_mono (h : Additive width) {g g' : Nat} (hle : g ≤ g') :
    width (truncatedCut t text g) ≤ width (truncatedCut t text g') := by
  rw [truncatedCut_eq, truncatedCut_eq]
  exact h.take_mono text (findValidBoundaryBefore_mono hle)

/-! ## The search -/

/-- The guesses only get smaller. -/
theorem not_meets_of_short (hshort : m / 2 - 1 < firstLength text) :
    ¬ Meets width available text m := by
  rintro ⟨j, hj, hlong, -⟩
  have hle : m / 2 ^ j ≤ m / 2 ^ 1 :=
    Nat.div_le_div_left (Nat.pow_le_pow_right (by omega) hj) (by omega)
  rw [pow_one] at hle
  omega

/-- When the first guess does not fit, the others are those of half as much. -/
theorem meets_half (hfits : ¬ width (truncatedCut t text (m / 2 - 1)) ≤ available) :
    Meets width available text (m / 2) ↔ Meets width available text m := by
  constructor
  · rintro ⟨j, hj, hmeet⟩
    rw [Nat.div_div_eq_div_mul, ← Nat.pow_succ'] at hmeet
    exact ⟨j + 1, by omega, hmeet⟩
  · rintro ⟨j, hj, hlong, hmeet⟩
    obtain _ | j := j
    · omega
    have hj0 : j ≠ 0 := by
      rintro rfl
      rw [zero_add, pow_one, ← truncatedCut_eq t] at hmeet
      exact hfits hmeet
    rw [Nat.pow_succ', ← Nat.div_div_eq_div_mul] at hlong hmeet
    exact ⟨j, by omega, hlong, hmeet⟩

/-- Where the search ends: with the longest cut that fits if one of the guesses meets it, else
with an empty cut. -/
theorem search_truncates (h : Additive width) (hempty : text ≠ [])
    (hsize : 2 * text.length < 2 ^ t.sizeBits) {fuel : Nat} (hm : 2 ≤ m) (hfuel : m - 1 < fuel)
    (hbracket : Bracket text.length
      (fun g => width (truncatedCut t text g) ≤ available) ⟨0, m - 2⟩) :
    (Meets width available text m ∧ ∃ g,
      search t width (truncatedCut t text) available fuel ⟨0, m - 2⟩ = some (.settled g) ∧
        g < text.length ∧ width (truncatedCut t text g) ≤ available ∧
          ∀ g', g < g' → g' < text.length → available < width (truncatedCut t text g')) ∨
    (¬ Meets width available text m ∧ ∃ g, g < firstLength text ∧
      search t width (truncatedCut t text) available fuel ⟨0, m - 2⟩ = some (.overflowed g)) := by
  have hmono : ∀ g g', g ≤ g' → g' < text.length → width (truncatedCut t text g') ≤ available →
      width (truncatedCut t text g) ≤ available := fun g g' hle _ hfits =>
    Int.le_trans (truncatedCut_mono h hle) hfits
  have hfirst := (firstLength_le hempty).1
  induction fuel generalizing m with
  | zero => omega
  | succ fuel ih =>
    have hguess : Bounds.guess t ⟨0, m - 2⟩ = m / 2 - 1 := by
      rw [hbracket.guess_eq hsize]
      dsimp only
      omega
    have hhi := hbracket.hi_lt
    rw [search, if_pos (zero_le _)]
    rw [hguess]
    by_cases hshort : m / 2 - 1 < firstLength text
    · -- this cut is empty, and so are those of all smaller guesses
      right
      refine ⟨not_meets_of_short hshort, m / 2 - 1, hshort, ?_⟩
      rw [(truncatedCut_eq_nil hempty).mpr hshort, if_pos (by rw [h.nil])]
    · have hpos := @truncatedCut_pos t _ _ h hempty _ (not_lt.mp hshort)
      rw [if_neg (by omega)]
      by_cases hfits : width (truncatedCut t text (m / 2 - 1)) ≤ available
      · left
        refine ⟨⟨1, le_refl 1, by rw [pow_one]; omega, ?_⟩, ?_⟩
        · rw [pow_one, ← truncatedCut_eq t]
          exact hfits
        · have hnext := (hbracket.next hsize (zero_le _) hmono fun hno =>
            absurd (hguess ▸ hfits) hno).1
          rw [hguess] at hnext
          have hlo : (Bounds.next t ⟨0, m - 2⟩
              (decide (width (truncatedCut t text (m / 2 - 1)) ≤ available))) =
                ⟨m / 2 - 1 + 1, m - 2⟩ := by
            rw [decide_eq_true hfits, hbracket.next_true hsize (zero_le _), hguess]
          rw [hlo] at hnext ⊢
          obtain ⟨g, hg, hfit, hmore, hsearch⟩ := @search_settles t width _ available text.length
            (firstLength text) _ hsize hmono (fun g hg _ => truncatedCut_pos h hempty hg) hnext
            (by dsimp only; omega) (fun h0 => by dsimp only at h0; omega)
          exact ⟨g, hsearch fuel (by dsimp only; omega), hg, hfit, hmore⟩
      · have hnext := (hbracket.next hsize (zero_le _) hmono fun _ => by
          rw [hguess]
          omega).1
        rw [hguess] at hnext
        have hhalf : (Bounds.next t ⟨0, m - 2⟩
            (decide (width (truncatedCut t text (m / 2 - 1)) ≤ available))) =
              ⟨0, m / 2 - 2⟩ := by
          rw [decide_eq_false hfits, hbracket.next_false hsize (zero_le _) (by omega), hguess]
          rfl
        rw [hhalf] at hnext ⊢
        rw [← meets_half hfits]
        exact ih (by omega) (by omega) hnext

/-! ## ElideText -/

theorem elideText_nil (behavior : ElideBehavior) (fuel : Nat) :
    elideText t width available behavior (fuel + 1) [] = some [] := rfl

theorem longest_of_fits (hfits : width text ≤ available) : Longest width available text text where
  cut := ⟨text.length, le_refl _, take_length.symm,
    not_insidePair_of_length_le (le_refl _)⟩
  fits := Or.inr hfits
  most := fun _ hp _ _ => hp

theorem truncation_nil : Truncation width available text [] where
  cut := ⟨0, zero_le _, rfl, fun h => lt_irrefl 0 h.1⟩
  fits := Or.inl rfl

/-- Nothing is the longest truncation exactly where the first character does not fit. -/
theorem longest_nil_iff (h : Additive width) (hempty : text ≠ []) :
    Longest width available text [] ↔ available < width (text.take (firstLength text)) := by
  have hfirst := firstLength_le hempty
  constructor
  · intro hlongest
    by_contra hfits
    have hmost := hlongest.most _ hfirst.2 (not_insidePair_firstLength text) (by omega)
    rw [length_nil] at hmost
    omega
  · intro hunfit
    refine ⟨truncation_nil, fun p hp hbound hfits => ?_⟩
    by_contra hpos
    have hlong : firstLength text ≤ p := by
      by_contra hshort
      have hzero := findValidBoundaryBefore_eq_zero.mpr (not_le.mp hshort)
      rw [findValidBoundaryBefore_eq, if_neg hbound] at hzero
      rw [length_nil] at hpos
      omega
    have hle := h.take_mono text hlong
    omega

/-- What the search settles on, for a text that does not fit. -/
theorem longest_of_settled {g : Nat} (hunfit : available < width text) (hg : g < text.length)
    (hfits : width (truncatedCut t text g) ≤ available)
    (hmore : ∀ g', g < g' → g' < text.length → available < width (truncatedCut t text g')) :
    Longest width available text (truncatedCut t text g) := by
  have hle := (findValidBoundaryBefore_le text g).1
  refine ⟨⟨⟨findValidBoundaryBefore text g, by omega, truncatedCut_eq t text g,
    not_insidePair_before text g⟩, Or.inr hfits⟩, fun p hp hbound hfitsp => ?_⟩
  have hsame : findValidBoundaryBefore text p = p := by
    rw [findValidBoundaryBefore_eq, if_neg hbound]
  have hne : p ≠ text.length := by
    rintro rfl
    rw [take_length] at hfitsp
    omega
  have hpg : p ≤ g := by
    by_contra hlt
    have hunfitp := hmore p (by omega) (by omega)
    rw [truncatedCut_eq, hsame] at hunfitp
    omega
  have hmono : findValidBoundaryBefore text p ≤ findValidBoundaryBefore text g :=
    findValidBoundaryBefore_mono hpg
  rw [truncatedCut_eq, length_take]
  omega

theorem elideText_of_truncated (hpos : 0 < width text) (hunfit : available < width text)
    (hellipsis : width kEllipsis ≤ available) (hempty : text ≠ [])
    (hsize : 2 * text.length < 2 ^ t.sizeBits) (fuel : Nat) :
    elideText t width available .truncateAtEnd (fuel + 1) text =
      elideSearched t width available .truncateAtEnd text fuel
        (search t width (truncatedCut t text) available fuel ⟨0, text.length + 1 - 2⟩) :=
  elideText_of_search hpos hunfit hellipsis hempty hsize fuel

/-- Where nothing is returned. -/
theorem longest_nil_iff_truncates (h : Additive width) (hempty : text ≠ [])
    (hunfit : available < width text)
    (hmeets : ¬ (width kEllipsis ≤ available ∧ Meets width available text (text.length + 1))) :
    Longest width available text [] ↔ Truncates width available text := by
  rw [longest_nil_iff h hempty, Truncates, or_iff_left hmeets]
  constructor
  · exact Or.inr
  · rintro (hfits | hfirst)
    · omega
    · exact hfirst

/-- ElideText ends, with a truncation; and with the longest one exactly where it meets it. -/
theorem elideText_truncation (h : Additive width) (hsize : 2 * text.length < 2 ^ t.sizeBits) :
    ∃ result, (∀ fuel, text.length + 2 ≤ fuel →
      elideText t width available .truncateAtEnd fuel text = some result) ∧
      Truncation width available text result ∧
      (Longest width available text result ↔ Truncates width available text) ∧
      (result = [] ∨ Truncates width available text) := by
  by_cases hempty : text = []
  · subst hempty
    refine ⟨[], fun fuel hfuel => ?_, truncation_nil, iff_of_true ?_ ?_, Or.inl rfl⟩
    · obtain _ | fuel := fuel
      · omega
      rfl
    · exact ⟨truncation_nil, fun p hp _ _ => hp⟩
    · rw [Truncates, take_nil, h.nil]
      omega
  have hlen : 1 ≤ text.length := length_pos_iff.mpr hempty
  by_cases hfits : width text ≤ available
  · refine ⟨text, fun fuel hfuel => ?_, (longest_of_fits hfits).toTruncation,
      iff_of_true (longest_of_fits hfits) (Or.inl hfits), Or.inr (Or.inl hfits)⟩
    obtain _ | fuel := fuel
    · omega
    exact elideText_of_fits (h.pos text) hfits fuel
  have hunfit : available < width text := by omega
  by_cases hellipsis : available < width kEllipsis
  · refine ⟨[], fun fuel hfuel => ?_, truncation_nil,
      longest_nil_iff_truncates h hempty hunfit fun hno => by omega, Or.inl rfl⟩
    obtain _ | fuel := fuel
    · omega
    exact elideText_of_ellipsis (h.pos text hempty) hunfit hellipsis fuel
  have hstart : Bracket text.length (fun g => width (truncatedCut t text g) ≤ available)
      ⟨0, text.length + 1 - 2⟩ := start_bracket _ hlen
  have hsearch := fun fuel (hfuel : text.length + 1 ≤ fuel) =>
    @search_truncates t width available text (text.length + 1) h hempty hsize fuel (by omega)
      (by omega) hstart
  have helide := @elideText_of_truncated t width available text (h.pos text hempty) hunfit
    (Int.not_lt.mp hellipsis) hempty hsize
  by_cases hmeets : Meets width available text (text.length + 1)
  · obtain ⟨-, g, -, hg, hfit, hmore⟩ :=
      (hsearch _ (le_refl _)).resolve_right fun hno => hno.1 hmeets
    have hlongest := longest_of_settled hunfit hg hfit hmore
    have htruncates : Truncates width available text :=
      Or.inr (Or.inr ⟨Int.not_lt.mp hellipsis, hmeets⟩)
    refine ⟨truncatedCut t text g, fun fuel hfuel => ?_, hlongest.toTruncation,
      iff_of_true hlongest htruncates, Or.inr htruncates⟩
    obtain _ | fuel := fuel
    · omega
    obtain ⟨-, g', hsettled, hg', hfit', hmore'⟩ :=
      (hsearch fuel (by omega)).resolve_right fun hno => hno.1 hmeets
    have hsame := settled_unique hg hg' hfit hmore hfit' hmore'
    subst hsame
    rw [helide, hsettled]
    rfl
  · refine ⟨[], fun fuel hfuel => ?_, truncation_nil,
      longest_nil_iff_truncates h hempty hunfit fun hno => hmeets hno.2, Or.inl rfl⟩
    obtain _ | fuel := fuel
    · omega
    obtain ⟨-, g, hshort, hover⟩ :=
      (hsearch fuel (by omega)).resolve_left fun hyes => hmeets hyes.1
    have hnil : truncatedCut t text (g / 2) = [] := (truncatedCut_eq_nil hempty).mpr (by omega)
    rw [helide, hover]
    change elideText t width available .truncateAtEnd fuel (truncatedCut t text (g / 2)) = _
    rw [hnil]
    obtain _ | fuel := fuel
    · omega
    exact elideText_nil _ _

/-! ## Eliding an e-mail address

ElideEmail: the width that is left beside the at sign is shared out between the username and the
domain, and each is elided for itself. -/

open ChromiumUI.Base (Target)
open ChromiumUI.Fuel

/-- U+0040 -/
def kAtSign : String16 := [0x40]

/-- string16::find_last_of, for one character. -/
def findLastOf (c : UInt16) : String16 → Option Nat
  | [] => none
  | d :: s =>
    match findLastOf c s with
    | some i => some (i + 1)
    | none => if d = c then some 0 else none

/-- Fit the username in the width that remains beside this domain. -/
def elideUsername (t : Target) (width : String16 → Int) (available : Int) (fuel : Nat)
    (username domain : String16) : Option String16 :=
  match elideText t width (available - width domain) .elideAtEnd fuel username with
  | none => none
  | some username => some (username ++ kAtSign ++ domain)

/-- ElideEmail, once the width of the at sign is subtracted. -/
def elideParts (t : Target) (width : String16 → Int) (available : Int) (fuel : Nat)
    (username domain : String16) : Option String16 :=
  let fullUsernameWidth := width username
  let availableDomainWidth :=
    available - min fullUsernameWidth (width (username.take 1 ++ kEllipsis))
  if width domain > availableDomainWidth then
    let desiredDomainWidth :=
      min availableDomainWidth (max (available - fullUsernameWidth) (available.tdiv 2))
    match elideText t width desiredDomainWidth .elideInMiddle fuel domain with
    | none => none
    | some domain =>
      if domain.length ≤ 1 then some kEllipsis
      else elideUsername t width available fuel username domain
  else elideUsername t width available fuel username domain

def elideEmail (t : Target) (width : String16 → Int) (available : Int) (fuel : Nat)
    (email : String16) : Option String16 :=
  if width email ≤ available then some email
  else
    match findLastOf 0x40 email with
    | some splitIndex =>
      elideParts t width (available - width kAtSign) fuel (email.take splitIndex)
        (email.drop (splitIndex + 1))
    -- npos, and npos + 1 is 0
    | none => elideParts t width (available - width kAtSign) fuel email email

/-- What is left of a part of the address: all of it, or some of its characters and an ellipsis. -/
def Keeps (part result : String16) : Prop :=
  (part ≠ [] ∧ result = part) ∨ ∃ p q, 1 ≤ p + (part.length - q) ∧ p ≤ q ∧ q ≤ part.length ∧
    result = part.take p ++ kEllipsis ++ part.drop q

variable {t : Target} {width : String16 → Int} {available : Int}
  {text username domain : String16} {behavior : ElideBehavior}

/-! ## The at sign -/

theorem findLastOf_of_notMem {c : UInt16} {s : String16} (h : c ∉ s) : findLastOf c s = none := by
  induction s with
  | nil => rfl
  | cons d s ih =>
    rw [mem_cons, not_or] at h
    rw [findLastOf, ih h.2]
    exact if_neg (Ne.symm h.1)

theorem findLastOf_append {c : UInt16} {s s' : String16} (h : c ∉ s') :
    findLastOf c (s ++ c :: s') = some s.length := by
  induction s with
  | nil =>
    rw [nil_append, findLastOf, findLastOf_of_notMem h]
    exact if_pos rfl
  | cons d s ih => rw [cons_append, findLastOf, ih, length_cons]

theorem elideEmail_of_unfit (hat : (0x40 : UInt16) ∉ domain)
    (hunfit : available < width (username ++ kAtSign ++ domain)) (fuel : Nat) :
    elideEmail t width available fuel (username ++ kAtSign ++ domain) =
      elideParts t width (available - width kAtSign) fuel username domain := by
  have hsplit : username ++ kAtSign ++ domain = username ++ 0x40 :: domain := by
    rw [append_assoc]
    rfl
  rw [hsplit] at hunfit
  rw [hsplit, elideEmail, if_neg (by omega), findLastOf_append hat]
  simp only [take_left, drop_append, Nat.add_sub_cancel_left, drop_succ_cons,
    drop_zero]
  rw [drop_of_length_le (le_succ _), nil_append]

/-! ## One part -/

namespace Additive

theorem drop_anti (h : Additive width) (s : String16) {p q : Nat} (hle : p ≤ q) :
    width (s.drop q) ≤ width (s.drop p) := by
  have hsplit := take_append_drop (q - p) (s.drop p)
  rw [drop_drop, Nat.add_sub_cancel' hle] at hsplit
  have hrest := h.nonneg ((s.drop p).take (q - p))
  rw [← hsplit, h.append]
  omega

/-- A cut that keeps more is wider. -/
theorem ellipsisCut_mono (h : Additive width) (hsize : 2 * text.length < 2 ^ t.sizeBits)
    {m n : Nat} (hle : m ≤ n) (hn : n < text.length) :
    width (ellipsisCut t text behavior m) ≤ width (ellipsisCut t text behavior n) := by
  have hprefix : prefixEnd text (behavior = .elideInMiddle) m ≤
      prefixEnd text (behavior = .elideInMiddle) n := by
    refine findValidBoundaryBefore_mono ?_
    split <;> omega
  have hsuf : suffixStart text (behavior = .elideInMiddle) n ≤
      suffixStart text (behavior = .elideInMiddle) m := by
    unfold suffixStart
    split
    · exact findValidBoundaryAfter_mono (by omega)
    · exact le_refl _
  have htake := h.take_mono text hprefix
  have hdrop := h.drop_anti text hsuf
  rw [ellipsisCut_eq hsize (by omega), ellipsisCut_eq hsize (by omega), h.append, h.append,
    h.append, h.append]
  omega

/-- What ElideText makes of a part of the address. -/
theorem elideText_part (h : Additive width) (hbeh : behavior ≠ .truncateAtEnd)
    (hsize : 2 * text.length < 2 ^ t.sizeBits) :
    ∃ result, (∀ fuel, text.length + 2 ≤ fuel →
      elideText t width available behavior fuel text = some result) ∧
      (width text ≤ available → result = text) ∧
      (available < width text → available < width kEllipsis → result = []) ∧
      (available < width text → width kEllipsis ≤ available →
        ∃ p q, Elision t width available behavior text result p q) := by
  obtain ⟨result, hrun, hfits, hdots, helide⟩ := elideText_run h.eq_zero_iff h.nonneg hbeh
    (fun m n hle hn => h.ellipsisCut_mono hsize hle hn) hsize
  exact ⟨result, hrun, hfits, hdots, fun hunfit hle => (helide hunfit hle).1⟩

end Additive

theorem Elision.keeps {result : String16} {p q : Nat}
    (h : Elision t width available behavior text result p q)
    (hkept : 1 ≤ p + (text.length - q)) : Keeps text result :=
  Or.inr ⟨p, q, hkept, h.order.1, h.order.2, h.result_eq⟩

/-- The domain does not fit. -/
theorem elideText_domain (h : Additive width) (hunfit : available < width domain)
    (hsize : 2 * domain.length < 2 ^ t.sizeBits) :
    ∃ result, (∀ fuel, domain.length + 2 ≤ fuel →
      elideText t width available .elideInMiddle fuel domain = some result) ∧
      (1 < result.length → width result ≤ available ∧ Keeps domain result) := by
  obtain ⟨result, hrun, -, hdots, helide⟩ :=
    @Additive.elideText_part t width available domain .elideInMiddle h (by decide) hsize
  refine ⟨result, hrun, fun hlong => ?_⟩
  by_cases hellipsis : available < width kEllipsis
  · rw [hdots hunfit hellipsis] at hlong
    cases hlong
  · obtain ⟨p, q, helision⟩ := helide hunfit (Int.not_lt.mp hellipsis)
    refine ⟨helision.fits, helision.keeps ?_⟩
    rw [helision.result_eq, length_append, length_append, length_take,
      length_drop, kEllipsis, length_singleton] at hlong
    omega

/-- There is room for the first character and an ellipsis, or for all of the username. -/
theorem elideText_username (h : Additive width) (husername : username ≠ [])
    (hbmp : ∀ c ∈ username, isLead c = false ∧ isTrail c = false)
    (hroom : min (width username) (width (username.take 1 ++ kEllipsis)) ≤ available)
    (hsize : 2 * username.length < 2 ^ t.sizeBits) :
    ∃ result, (∀ fuel, username.length + 2 ≤ fuel →
      elideText t width available .elideAtEnd fuel username = some result) ∧
      width result ≤ available ∧ Keeps username result := by
  obtain ⟨result, hrun, hfits, -, helide⟩ :=
    @Additive.elideText_part t width available username .elideAtEnd h (by decide) hsize
  refine ⟨result, hrun, ?_⟩
  by_cases hwhole : width username ≤ available
  · rw [hfits hwhole]
    exact ⟨hwhole, Or.inl ⟨husername, rfl⟩⟩
  have hfirst : width (username.take 1 ++ kEllipsis) ≤ available := by omega
  have hsum := h.append (username.take 1) kEllipsis
  have htake := h.nonneg (username.take 1)
  have hellipsis := h.nonneg kEllipsis
  obtain ⟨p, q, helision⟩ := helide (by omega) (by omega)
  refine ⟨helision.fits, helision.keeps ?_⟩
  -- a username of one character would be the narrower of the two
  have hlen : 1 < username.length := by
    by_contra hshort
    rw [take_of_length_le (by omega)] at hsum
    rw [take_of_length_le (by omega)] at hfirst
    omega
  have hbound : findValidBoundaryBefore username 1 = 1 := by
    rw [findValidBoundaryBefore_eq, if_neg]
    rintro ⟨-, -, htrail⟩
    rw [List.getElem?_eq_getElem hlen, Option.any_some] at htrail
    rw [(hbmp _ (getElem_mem hlen)).2] at htrail
    cases htrail
  have hcut : ellipsisCut t username .elideAtEnd 1 = username.take 1 ++ kEllipsis := by
    rw [ellipsisCut_eq hsize (by omega)]
    simp [prefixEnd, suffixStart, hbound]
  have hmost := helision.largest 1 hlen (by rw [hcut]; exact hfirst)
  have hone : 1 ≤ kept username false 1 := by
    rw [kept, prefixEnd, if_neg (by decide), hbound]
    omega
  exact le_trans hone hmost

/-! ## The address -/

/-- The parts of an address that is elided and fits. -/
structure ElidedEmail (width : String16 → Int) (available : Int)
    (username domain result : String16) : Prop where
  fits : width result ≤ available
  parts : ∃ username' domain', Keeps username username' ∧ Keeps domain domain' ∧
    result = username' ++ kAtSign ++ domain'

/-- The domain leaves the room that the username needs. -/
theorem elideUsername_elides (h : Additive width) {domain' : String16} (husername : username ≠ [])
    (hbmp : ∀ c ∈ username, isLead c = false ∧ isTrail c = false)
    (hroom : min (width username) (width (username.take 1 ++ kEllipsis)) ≤
      available - width domain')
    (hkeeps : Keeps domain domain') (hsize : 2 * username.length < 2 ^ t.sizeBits) :
    ∃ result, (∀ fuel, username.length + 2 ≤ fuel →
      elideUsername t width available fuel username domain' = some result) ∧
      ElidedEmail width (available + width kAtSign) username domain result := by
  obtain ⟨username', hrun, hfits, hkept⟩ := elideText_username h husername hbmp hroom hsize
  refine ⟨username' ++ kAtSign ++ domain', fun fuel hfuel => ?_, ⟨?_, _, _, hkept, hkeeps, rfl⟩⟩
  · rw [elideUsername, hrun fuel hfuel]
  · rw [h.append, h.append]
    omega

theorem elideParts_elides (h : Additive width) (husername : username ≠ []) (hdomain : domain ≠ [])
    (hbmp : ∀ c ∈ username, isLead c = false ∧ isTrail c = false)
    (husize : 2 * username.length < 2 ^ t.sizeBits) (hdsize : 2 * domain.length < 2 ^ t.sizeBits) :
    ∃ result, (∀ fuel, username.length + domain.length + 2 ≤ fuel →
      elideParts t width available fuel username domain = some result) ∧
      (result = kEllipsis ∨
        ElidedEmail width (available + width kAtSign) username domain result) := by
  by_cases hunfit : available - min (width username) (width (username.take 1 ++ kEllipsis)) <
      width domain
  · obtain ⟨domain', hrun, hlong⟩ := @elideText_domain t width
      (min (available - min (width username) (width (username.take 1 ++ kEllipsis)))
        (max (available - width username) (available.tdiv 2))) domain h (by omega) hdsize
    by_cases hshort : domain'.length ≤ 1
    · refine ⟨kEllipsis, fun fuel hfuel => ?_, Or.inl rfl⟩
      rw [elideParts]
      dsimp only
      rw [if_pos hunfit, hrun fuel (by omega)]
      exact if_pos hshort
    · obtain ⟨hfits, hkept⟩ := hlong (by omega)
      obtain ⟨result, helide, hres⟩ :=
        @elideUsername_elides t width available username domain h domain' husername hbmp
          (by omega) hkept husize
      refine ⟨result, fun fuel hfuel => ?_, Or.inr hres⟩
      rw [elideParts]
      dsimp only
      rw [if_pos hunfit, hrun fuel (by omega)]
      dsimp only
      rw [if_neg hshort, helide fuel (by omega)]
  · obtain ⟨result, helide, hres⟩ :=
      @elideUsername_elides t width available username domain h domain husername hbmp
        (by omega) (Or.inl ⟨hdomain, rfl⟩) husize
    refine ⟨result, fun fuel hfuel => ?_, Or.inr hres⟩
    rw [elideParts]
    rw [if_neg hunfit, helide fuel (by omega)]

/-- An address that does not fit becomes an ellipsis, or keeps a character on each side of its
last at sign. The bytes of it can be counted in a size_t. -/
theorem elideEmail_elides (h : Additive width) (husername : username ≠ []) (hdomain : domain ≠ [])
    (hat : (0x40 : UInt16) ∉ domain)
    (hbmp : ∀ c ∈ username ++ domain, isLead c = false ∧ isTrail c = false)
    (hsize : 2 * (username ++ kAtSign ++ domain).length < 2 ^ t.sizeBits) :
    ∃ result, Computes (fun fuel =>
        elideEmail t width available fuel (username ++ kAtSign ++ domain)) result ∧
      (width (username ++ kAtSign ++ domain) ≤ available →
        result = username ++ kAtSign ++ domain) ∧
      (available < width (username ++ kAtSign ++ domain) →
        result = kEllipsis ∨ ElidedEmail width available username domain result) := by
  by_cases hfits : width (username ++ kAtSign ++ domain) ≤ available
  · exact ⟨_, ⟨0, fun fuel _ => if_pos hfits⟩, fun _ => rfl, fun hunfit => by omega⟩
  · rw [length_append, length_append] at hsize
    obtain ⟨result, hrun, hresult⟩ := @elideParts_elides t width (available - width kAtSign)
      username domain h husername hdomain (fun c hc => hbmp c (mem_append_left _ hc)) (by omega)
      (by omega)
    rw [Int.sub_add_cancel] at hresult
    refine ⟨result, ⟨username.length + domain.length + 2, fun fuel hfuel => ?_⟩,
      fun hle => absurd hle hfits, fun _ => hresult⟩
    have hparts := hrun fuel hfuel
    rwa [← elideEmail_of_unfit hat (Int.not_le.mp hfits)] at hparts

/-- "ga@co.ca", in the width of "ga@c…a". -/
theorem elideEmail_elides_six : ∃ result,
    Computes (fun fuel => elideEmail .lp64 monospace 6 fuel
      ([103, 97] ++ kAtSign ++ [99, 111, 46, 99, 97])) result ∧
      (result = kEllipsis ∨
        ElidedEmail monospace 6 [103, 97] [99, 111, 46, 99, 97] result) := by
  obtain ⟨result, hrun, -, hresult⟩ := @elideEmail_elides .lp64 monospace 6 [103, 97]
    [99, 111, 46, 99, 97] monospace_additive (by decide) (by decide) (by decide)
    (by simp [isLead, isTrail]; decide) (by decide)
  exact ⟨result, hrun, hresult (by decide)⟩

end ChromiumUI.Ui
