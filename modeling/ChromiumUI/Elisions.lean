import ChromiumUI.Utf16Indexing

/-!
# The search of ElideText

The bounds always bracket the longest cut that fits, and never leave the cuts there are.
-/
namespace ChromiumUI.Ui

open Gfx Views Nat
open ChromiumUI.Base (Target)
open ChromiumUI.Fuel

variable {t : Target} {width : String16 → Int} {cut : Nat → String16} {available : Int}
  {n c : Nat} {b : Bounds}

/-- The bounds the loop goes through. -/
inductive Visited (t : Target) (width : String16 → Int) (cut : Nat → String16) (available : Int)
    (b₀ : Bounds) : Bounds → Prop
  | start : Visited t width cut available b₀ b₀
  | step {b : Bounds} (h : Visited t width cut available b₀ b) (hle : b.lo ≤ b.hi)
      (hpos : 0 < width (cut (b.guess t))) :
      Visited t width cut available b₀ (b.next t (width (cut (b.guess t)) ≤ available))

/-- Of the cuts of fewer than `n` characters those below `lo` fit, and those above `hi` do not. -/
structure Bracket (n : Nat) (fits : Nat → Prop) (b : Bounds) : Prop where
  lo_le : b.lo ≤ b.hi + 1
  hi_lt : b.hi < n
  below : ∀ g, g < b.lo → fits g
  above : ∀ g, b.hi < g → g < n → ¬ fits g

/-- No sum, successor or predecessor that is formed from the bounds wraps. -/
structure Exact (t : Target) (cut : Nat → String16) (width : String16 → Int) (available : Int)
    (b : Bounds) : Prop where
  guess : b.guess t = (b.lo + b.hi) / 2
  fits : b.lo ≤ b.hi → width (cut (b.guess t)) ≤ available →
    b.next t true = ⟨b.guess t + 1, b.hi⟩
  unfit : b.lo ≤ b.hi → available < width (cut (b.guess t)) →
    0 < b.guess t ∧ b.next t false = ⟨b.lo, b.guess t - 1⟩

section

variable {fits : Nat → Prop}

theorem Bracket.guess_eq (h : Bracket n fits b) (hsize : 2 * n < 2 ^ t.sizeBits) :
    b.guess t = (b.lo + b.hi) / 2 := by
  have hlo := h.lo_le
  have hhi := h.hi_lt
  have hcast : (b.lo : Int) + b.hi = ((b.lo + b.hi : Nat) : Int) := by omega
  rw [Bounds.guess, hcast, Base.sizeT_of_lt_bits (by omega)]

theorem Bracket.next_true (h : Bracket n fits b) (hsize : 2 * n < 2 ^ t.sizeBits)
    (hle : b.lo ≤ b.hi) : b.next t true = ⟨b.guess t + 1, b.hi⟩ := by
  have hguess := h.guess_eq hsize
  have hhi := h.hi_lt
  have hcast : (b.guess t : Int) + 1 = ((b.guess t + 1 : Nat) : Int) := by omega
  simp only [Bounds.next, if_true, hcast]
  rw [Base.sizeT_of_lt_bits (by omega)]

theorem Bracket.next_false (h : Bracket n fits b) (hsize : 2 * n < 2 ^ t.sizeBits)
    (hle : b.lo ≤ b.hi) (hpos : 0 < b.guess t) : b.next t false = ⟨b.lo, b.guess t - 1⟩ := by
  have hguess := h.guess_eq hsize
  have hhi := h.hi_lt
  have hsub : t.sizeT ((b.guess t : Int) - 1) = b.guess t - 1 :=
    sizeT_sub (show 1 ≤ b.guess t by omega) (by omega)
  simp [Bounds.next, hsub]

variable [DecidablePred fits]

/-- The step of the loop. -/
theorem Bracket.next (h : Bracket n fits b) (hsize : 2 * n < 2 ^ t.sizeBits) (hle : b.lo ≤ b.hi)
    (hmono : ∀ g g', g ≤ g' → g' < n → fits g' → fits g)
    (hpos : ¬ fits (b.guess t) → 0 < b.guess t) :
    Bracket n fits (b.next t (fits (b.guess t))) ∧ b.lo ≤ (b.next t (fits (b.guess t))).lo ∧
      (b.next t (fits (b.guess t))).hi + 1 - (b.next t (fits (b.guess t))).lo <
        b.hi + 1 - b.lo := by
  have hguess := h.guess_eq hsize
  have hhi := h.hi_lt
  by_cases hfits : fits (b.guess t)
  · rw [decide_eq_true hfits, h.next_true hsize hle]
    refine ⟨⟨?_, h.hi_lt, ?_, h.above⟩, ?_, ?_⟩
    · dsimp only
      omega
    · intro g hg
      exact hmono g _ (le_of_lt_succ hg) (by omega) hfits
    · dsimp only
      omega
    · dsimp only
      omega
  · have hpos := hpos hfits
    rw [decide_eq_false hfits, h.next_false hsize hle hpos]
    refine ⟨⟨?_, ?_, h.below, ?_⟩, le_refl _, ?_⟩
    · dsimp only
      omega
    · dsimp only
      omega
    · intro g hg hn hfit
      exact hfits (hmono _ g (by dsimp only at hg; omega) hn hfit)
    · dsimp only
      omega

end

/-- With every cut from `c` on having a width, and the search being at `c` or behind it, the loop
ends at the longest cut that fits. -/
theorem search_settles (hsize : 2 * n < 2 ^ t.sizeBits)
    (hmono : ∀ g g', g ≤ g' → g' < n → width (cut g') ≤ available → width (cut g) ≤ available)
    (hwidth : ∀ g, c ≤ g → g < n → 0 < width (cut g))
    (h : Bracket n (fun g => width (cut g) ≤ available) b) (hc : c ≤ b.lo)
    (hzero : b.lo = 0 → width (cut 0) ≤ available) :
    ∃ g, g < n ∧ width (cut g) ≤ available ∧
      (∀ g', g < g' → g' < n → available < width (cut g')) ∧
        ∀ fuel, b.hi + 1 - b.lo < fuel →
          search t width cut available fuel b = some (.settled g) := by
  induction hk : b.hi + 1 - b.lo using Nat.strong_induction_on generalizing b with
  | _ k ih =>
    have hguess := h.guess_eq hsize
    have hhi := h.hi_lt
    have hlo := h.lo_le
    by_cases hle : b.lo ≤ b.hi
    · have hpos : ¬ width (cut (b.guess t)) ≤ available → 0 < b.guess t := by
        intro hfits
        by_contra h0
        have hguess0 : b.guess t = 0 := by omega
        rw [hguess0] at hfits
        exact hfits (hzero (by omega))
      obtain ⟨hnext, hlo', hfewer⟩ := h.next hsize hle hmono hpos
      obtain ⟨g, hg, hfit, hmore, hsearch⟩ :=
        ih _ (by omega) hnext (by omega) (fun h0 => hzero (by omega)) rfl
      refine ⟨g, hg, hfit, hmore, fun fuel hfuel => ?_⟩
      obtain _ | fuel := fuel
      · omega
      have hguessWidth := hwidth (b.guess t) (by omega) (by omega)
      rw [search, if_pos hle, if_neg (by omega)]
      exact hsearch fuel (by omega)
    · have hend : b.lo = b.hi + 1 := by omega
      have hsettled : b.guess t = b.hi := by omega
      refine ⟨b.hi, hhi, h.below _ (by omega), fun g' hlt hn => Int.not_le.mp (h.above g' hlt hn),
        fun fuel hfuel => ?_⟩
      obtain _ | fuel := fuel
      · omega
      rw [search, if_neg hle, hsettled]

theorem settled_unique {g g' : Nat} (hg : g < n) (hg' : g' < n) (hfits : width (cut g) ≤ available)
    (hmore : ∀ k, g < k → k < n → available < width (cut k)) (hfits' : width (cut g') ≤ available)
    (hmore' : ∀ k, g' < k → k < n → available < width (cut k)) : g' = g := by
  rcases lt_trichotomy g' g with hlt | heq | hlt
  · have hunfit := hmore' g hlt hg
    omega
  · exact heq
  · have hunfit := hmore g' hlt hg'
    omega

/-- With enough fuel the loop ends, and always with the same guess. -/
theorem start_bracket (fits : Nat → Prop) (hn : 0 < n) : Bracket n fits ⟨0, n - 1⟩ where
  lo_le := zero_le _
  hi_lt := sub_lt hn one_pos
  below := fun _ hg => absurd hg (not_lt_zero _)
  above := fun _ hlt hn' => by
    dsimp only at hlt
    omega

/-- The run of the loop. -/
theorem visited_bracket (hn : 0 < n) (hsize : 2 * n < 2 ^ t.sizeBits)
    (hmono : ∀ g g', g ≤ g' → g' < n → width (cut g') ≤ available → width (cut g) ≤ available)
    (hzero : width (cut 0) ≤ available) (h : Visited t width cut available ⟨0, n - 1⟩ b) :
    Bracket n (fun g => width (cut g) ≤ available) b := by
  induction h with
  | start => exact start_bracket _ hn
  | @step b _ hle _ ih =>
    refine (ih.next hsize hle hmono fun hfits => ?_).1
    by_contra h0
    have hguess0 : b.guess t = 0 := by omega
    rw [hguess0] at hfits
    exact hfits hzero

theorem visited_exact (hn : 0 < n) (hsize : 2 * n < 2 ^ t.sizeBits)
    (hmono : ∀ g g', g ≤ g' → g' < n → width (cut g') ≤ available → width (cut g) ≤ available)
    (hzero : width (cut 0) ≤ available)
    (h : Visited t width cut available ⟨0, n - 1⟩ b) : Exact t cut width available b := by
  have hbracket := visited_bracket hn hsize hmono hzero h
  have hpos : available < width (cut (b.guess t)) → 0 < b.guess t := by
    intro hfits
    by_contra h0
    have hguess0 : b.guess t = 0 := by omega
    rw [hguess0] at hfits
    omega
  exact ⟨hbracket.guess_eq hsize, fun hle _ => hbracket.next_true hsize hle, fun hle hunfit =>
    ⟨hpos hunfit, hbracket.next_false hsize hle (hpos hunfit)⟩⟩

/-! ## Elisions with an ellipsis

What ElideText makes of a text that does not fit, with the ellipsis at its end or in its middle. -/

variable {t : Target} {width : String16 → Int} {available : Int} {text : String16}
  {behavior : ElideBehavior}

/-- The cuts ElideText looks at. -/
abbrev ellipsisCut (t : Target) (text : String16) (behavior : ElideBehavior) (length : Nat) :
    String16 :=
  cutString t text kEllipsis (behavior = .elideInMiddle) length true

/-- The result keeps all before `p` and all from `q` on. -/
structure Elision (t : Target) (width : String16 → Int) (available : Int)
    (behavior : ElideBehavior) (text result : String16) (p q : Nat) : Prop where
  result_eq : result = text.take p ++ kEllipsis ++ text.drop q
  order : p ≤ q ∧ q ≤ text.length
  atEnd : behavior = .elideAtEnd → q = text.length
  /-- In the middle, it is the cut of some number of characters. -/
  cut : ∃ length < text.length, result = ellipsisCut t text behavior length
  fits : width result ≤ available
  /-- A cut that keeps more does not fit. -/
  largest : ∀ length < text.length, width (ellipsisCut t text behavior length) ≤ available →
    kept text (behavior = .elideInMiddle) length ≤ p + (text.length - q)
  whole : ¬ InsidePair text p ∧ ¬ InsidePair text q

theorem elideText_of_fits (hpos : text ≠ [] → 0 < width text) (hfits : width text ≤ available)
    (fuel : Nat) : elideText t width available behavior (fuel + 1) text = some text := by
  by_cases hempty : text = []
  · rw [elideText, if_pos hempty]
  · have hwidth := hpos hempty
    rw [elideText, if_neg hempty]
    rw [if_neg (by omega), if_pos hfits]

theorem elideText_of_ellipsis (hpos : 0 < width text) (hunfit : available < width text)
    (hellipsis : available < width kEllipsis) (fuel : Nat) :
    elideText t width available behavior (fuel + 1) text = some [] := by
  by_cases hempty : text = []
  · rw [elideText, if_pos hempty, hempty]
  · rw [elideText, if_neg hempty]
    rw [if_neg (by omega), if_neg (by omega), if_pos hellipsis]

/-- What ElideText does with what the search has found. -/
def elideSearched (t : Target) (width : String16 → Int) (available : Int)
    (behavior : ElideBehavior) (text : String16) (fuel : Nat) : Option Searched → Option String16
  | none => none
  | some (.overflowed guess) =>
    elideText t width available behavior fuel
      (cutString t text kEllipsis (behavior = .elideInMiddle) (guess / 2) false)
  | some (.settled guess) =>
    some (cutString t text kEllipsis (behavior = .elideInMiddle) guess
      (behavior ≠ .truncateAtEnd))

/-- The search, for a text that does not fit. -/
theorem elideText_of_search (hpos : 0 < width text) (hunfit : available < width text)
    (hellipsis : width kEllipsis ≤ available) (hempty : text ≠ [])
    (hsize : 2 * text.length < 2 ^ t.sizeBits) (fuel : Nat) :
    elideText t width available behavior (fuel + 1) text =
      elideSearched t width available behavior text fuel (search t width
        (cutString t text kEllipsis (behavior = .elideInMiddle) · (behavior ≠ .truncateAtEnd))
        available fuel ⟨0, text.length - 1⟩) := by
  have hlen : 1 ≤ text.length := List.length_pos_iff.mpr hempty
  have hhi : t.sizeT ((text.length : Int) - 1) = text.length - 1 := sizeT_sub hlen (by omega)
  rw [elideText, if_neg hempty]
  rw [if_neg (by omega), if_neg (by omega), if_neg (by omega), hhi]
  rfl

theorem elideText_of_settled (hpos : 0 < width text) (hunfit : available < width text)
    (hellipsis : width kEllipsis ≤ available) (hempty : text ≠ [])
    (hbeh : behavior ≠ .truncateAtEnd) (hsize : 2 * text.length < 2 ^ t.sizeBits)
    {fuel g : Nat} (hsearch : search t width (ellipsisCut t text behavior) available fuel
      ⟨0, text.length - 1⟩ = some (.settled g)) :
    elideText t width available behavior (fuel + 1) text =
      some (ellipsisCut t text behavior g) := by
  have hinsert : decide (behavior ≠ .truncateAtEnd) = true := decide_eq_true hbeh
  rw [elideText_of_search hpos hunfit hellipsis hempty hsize, hinsert, hsearch, elideSearched,
    hinsert]

section

variable (hsize : 2 * text.length < 2 ^ t.sizeBits)
include hsize

theorem ellipsisCut_eq {m : Nat}
    (hm : m ≤ text.length) : ellipsisCut t text behavior m =
      text.take (prefixEnd text (behavior = .elideInMiddle) m) ++ kEllipsis ++
        text.drop (suffixStart text (behavior = .elideInMiddle) m) :=
  cutString_eq kEllipsis true hm hsize

theorem ellipsisCut_ne_nil {m : Nat}
    (hm : m ≤ text.length) : ellipsisCut t text behavior m ≠ [] := by
  rw [ellipsisCut_eq hsize hm]
  simp [kEllipsis]

/-- The longest cut that fits is an elision. -/
theorem elision_of_longest {g : Nat}
    (hg : g < text.length) (hfit : width (ellipsisCut t text behavior g) ≤ available)
    (hmore : ∀ g', g < g' → g' < text.length →
      available < width (ellipsisCut t text behavior g')) :
    Elision t width available behavior text (ellipsisCut t text behavior g)
      (prefixEnd text (behavior = .elideInMiddle) g)
      (suffixStart text (behavior = .elideInMiddle) g) where
  result_eq := ellipsisCut_eq hsize (le_of_lt hg)
  order := ⟨prefixEnd_le_suffixStart (le_of_lt hg), suffixStart_le _ _ _⟩
  atEnd := by
    rintro rfl
    rfl
  cut := ⟨g, hg, rfl⟩
  fits := hfit
  largest := fun m hm hfitm => by
    refine kept_mono (not_lt.mp fun hlt => ?_)
    have hunfit := hmore m hlt hm
    omega
  whole := ⟨not_insidePair_prefixEnd _ _ _, not_insidePair_suffixStart _ _ _⟩

end

/-- What ElideText ends with, and when. -/
theorem elideText_run (hzero : ∀ s, width s = 0 ↔ s = []) (hnneg : ∀ s, 0 ≤ width s)
    (hbeh : behavior ≠ .truncateAtEnd)
    (hmono : ∀ m n, m ≤ n → n < text.length →
      width (ellipsisCut t text behavior m) ≤ width (ellipsisCut t text behavior n))
    (hsize : 2 * text.length < 2 ^ t.sizeBits) :
    ∃ result, (∀ fuel, text.length + 2 ≤ fuel →
      elideText t width available behavior fuel text = some result) ∧
      (width text ≤ available → result = text) ∧
      (available < width text → available < width kEllipsis → result = []) ∧
      (available < width text → width kEllipsis ≤ available →
        (∃ p q, Elision t width available behavior text result p q) ∧
        ∀ b, Visited t width (ellipsisCut t text behavior) available
          ⟨0, t.sizeT ((text.length : Int) - 1)⟩ b →
            b.hi < text.length ∧
              Exact t (ellipsisCut t text behavior) width available b) := by
  have hwidth : ∀ s, s ≠ [] → 0 < width s := fun s hs => by
    have hne : width s ≠ 0 := fun h => hs ((hzero s).mp h)
    have hle := hnneg s
    omega
  by_cases hfits : width text ≤ available
  · refine ⟨text, fun fuel hfuel => ?_, fun _ => rfl, fun h => by omega, fun h => by omega⟩
    obtain _ | fuel := fuel
    · omega
    exact elideText_of_fits (hwidth text) hfits fuel
  by_cases hellipsis : available < width kEllipsis
  · refine ⟨[], fun fuel hfuel => ?_, fun h => absurd h hfits, fun _ _ => rfl,
      fun _ h => by omega⟩
    obtain _ | fuel := fuel
    · omega
    by_cases hempty : text = []
    · subst hempty
      rfl
    · exact elideText_of_ellipsis (hwidth text hempty) (by omega) hellipsis fuel
  have havailable : 0 < available := by
    have hpos := hwidth kEllipsis (by decide)
    omega
  have hempty : text ≠ [] := by
    rintro rfl
    rw [(hzero []).mpr rfl] at hfits
    omega
  have hlen : 0 < text.length := List.length_pos_iff.mpr hempty
  have hhi : t.sizeT ((text.length : Int) - 1) = text.length - 1 := sizeT_sub hlen (by omega)
  have hcutZero : width (ellipsisCut t text behavior 0) ≤ available := by
    have h0 : ellipsisCut t text behavior 0 = kEllipsis := cutString_zero kEllipsis hsize
    rw [h0]
    omega
  have hfitMono : ∀ g g', g ≤ g' → g' < text.length →
      width (ellipsisCut t text behavior g') ≤ available →
        width (ellipsisCut t text behavior g) ≤ available := fun g g' hle hlt h =>
    Int.le_trans (hmono g g' hle hlt) h
  obtain ⟨g, hg, hfit, hmore, hsearch⟩ := @search_settles t width
    (ellipsisCut t text behavior) available text.length 0 ⟨0, text.length - 1⟩ hsize hfitMono
    (fun m _ hm => hwidth _ (ellipsisCut_ne_nil hsize (le_of_lt hm)))
    (start_bracket _ hlen) (Nat.zero_le _) fun _ => hcutZero
  refine ⟨ellipsisCut t text behavior g, fun fuel hfuel => ?_, fun h => absurd h hfits,
    fun _ h => by omega,
    fun _ _ => ⟨⟨_, _, elision_of_longest hsize hg hfit hmore⟩, fun b hvisited => ?_⟩⟩
  · obtain _ | fuel := fuel
    · omega
    exact elideText_of_settled (hwidth text hempty) (by omega) (by omega) hempty hbeh hsize
      (hsearch fuel (by dsimp only; omega))
  · rw [hhi] at hvisited
    exact ⟨(visited_bracket hlen hsize hfitMono hcutZero hvisited).hi_lt,
      visited_exact hlen hsize hfitMono hcutZero hvisited⟩

/-- An elision keeps as many characters as fit, and no half of a surrogate pair. The bytes of a
string can be counted in a size_t. -/
theorem elideText_elides (hzero : ∀ s, width s = 0 ↔ s = []) (hnonneg : ∀ s, 0 ≤ width s)
    (hbehavior : behavior ≠ .truncateAtEnd)
    (hmono : ∀ m n, m ≤ n → n < text.length →
      width (ellipsisCut t text behavior m) ≤ width (ellipsisCut t text behavior n))
    (hsize : 2 * text.length < 2 ^ t.sizeBits) :
    ∃ result, Computes (fun fuel => elideText t width available behavior fuel text) result ∧
      (width text ≤ available → result = text) ∧
      (available < width text → available < width kEllipsis → result = []) ∧
      (available < width text → width kEllipsis ≤ available →
        (∃ p q, Elision t width available behavior text result p q) ∧
        ∀ b, Visited t width (ellipsisCut t text behavior) available
          ⟨0, t.sizeT ((text.length : Int) - 1)⟩ b →
            b.hi < text.length ∧
              Exact t (ellipsisCut t text behavior) width available b) := by
  obtain ⟨result, hrun, hrest⟩ := elideText_run hzero hnonneg hbehavior hmono hsize
  exact ⟨result, ⟨_, hrun⟩, hrest⟩

/-- Every character is as wide as every other. -/
def monospace (s : String16) : Int := s.length

theorem monospace_eq_zero (s : String16) : monospace s = 0 ↔ s = [] := by simp [monospace]

theorem elideText_elides_middle :
    ∃ result, Computes (fun fuel =>
        elideText .lp64 monospace 3 .elideInMiddle fuel [65, 66, 67, 68]) result ∧
      ∃ p q, Elision .lp64 monospace 3 .elideInMiddle [65, 66, 67, 68] result p q := by
  have hmono : ∀ n < 4, ∀ m ≤ n,
      monospace (ellipsisCut .lp64 [65, 66, 67, 68] .elideInMiddle m) ≤
        monospace (ellipsisCut .lp64 [65, 66, 67, 68] .elideInMiddle n) := by decide
  obtain ⟨result, hresult, -, -, helide⟩ := @elideText_elides .lp64 monospace 3
    [65, 66, 67, 68] .elideInMiddle monospace_eq_zero
    (fun s => Int.natCast_nonneg _) (by decide) (fun m n hle hlt => hmono n hlt m hle)
    (by decide)
  exact ⟨result, hresult, (helide (by decide) (by decide)).1⟩

end ChromiumUI.Ui
