import ChromiumUI.TextfieldEdits
import ChromiumUI.Fuel
import ChromiumUI.PickleBuffers

/-!
# Indices and offsets of a UTF-16 string

UTF16IndexToOffset counts the valid code point indices between two indices, UTF16OffsetToIndex
walks over as many. Of two neighbouring indices one at least is valid.
-/
namespace ChromiumUI.Ui

open Gfx Views

variable {s : String16}

/-- What a turn of the loops adds to the offset, or takes from it. -/
def step (s : String16) (index : Nat) : Int := if isValidCodePointIndex s index then 1 else 0

/-- while (base < pos), of so many turns. -/
def countForward (s : String16) : Nat → Nat → Int → Int
  | 0, _, delta => delta
  | n + 1, base, delta => countForward s n (base + 1) (delta + step s base)

/-- while (pos < base), of so many turns. -/
def countBackward (s : String16) : Nat → Nat → Int → Int
  | 0, _, delta => delta
  | n + 1, pos, delta => countBackward s n (pos + 1) (delta - step s pos)

def utf16IndexToOffset (s : String16) (base pos : Nat) : Int :=
  let delta := countForward s (pos - base) base 0
  -- the first loop leaves base where pos is, if it was before it
  countBackward s (max base pos - pos) pos delta

/-- while (offset > 0 && pos < s.length()), with the positions left in the string. -/
def walkForward (s : String16) : Nat → Nat → Int → Nat × Int
  | 0, pos, offset => (pos, offset)
  | n + 1, pos, offset =>
    if offset > 0 then walkForward s n (pos + 1) (offset - step s pos) else (pos, offset)

/-- while (offset < 0 && pos > 0). -/
def walkBackward (s : String16) : Nat → Int → Nat
  | 0, _ => 0
  | pos + 1, offset => if offset < 0 then walkBackward s pos (offset + step s pos) else pos + 1

def utf16OffsetToIndex (s : String16) (base : Nat) (offset : Int) : Nat :=
  let walked := walkForward s (s.length - base) base offset
  let pos := walkBackward s walked.1 walked.2
  if isValidCodePointIndex s pos then pos else pos + 1

/-! ## Valid indices -/

theorem isTrail_not_isLead {c : UInt16} (h : isTrail c = true) : isLead c = false := by
  simp only [isTrail, isLead, beq_iff_eq] at *
  rw [h]
  decide

theorem isValidCodePointIndex_length (s : String16) : isValidCodePointIndex s s.length = true := by
  simp [isValidCodePointIndex]

/-- Behind the middle of a surrogate pair the next code point starts, or the string ends. -/
theorem isValidCodePointIndex_succ {index : Nat} (h : isValidCodePointIndex s index = false) :
    isValidCodePointIndex s (index + 1) = true := by
  simp only [isValidCodePointIndex, Bool.or_eq_false_iff, Bool.not_eq_false',
    Bool.and_eq_true] at h
  obtain ⟨-, htrail, -⟩ := h
  simp only [isValidCodePointIndex, Nat.add_sub_cancel, Bool.or_eq_true, Bool.not_eq_true',
    Bool.and_eq_false_iff]
  refine Or.inr (Or.inr ?_)
  cases hc : s[index]? with
  | none => rfl
  | some c =>
    rw [hc] at htrail
    exact isTrail_not_isLead htrail

/-! ## Offsets -/

/-- The valid indices before this one. -/
def validBefore (s : String16) (index : Nat) : Nat :=
  Nat.count (fun i => isValidCodePointIndex s i = true) index

theorem validBefore_succ (s : String16) (index : Nat) :
    (validBefore s (index + 1) : Int) = validBefore s index + step s index := by
  rw [validBefore, Nat.count_succ, step, validBefore]
  split_ifs <;> simp

theorem validBefore_mono {i j : Nat} (h : i ≤ j) : validBefore s i ≤ validBefore s j :=
  Nat.count_monotone _ h

theorem countForward_eq (n base : Nat) (delta : Int) :
    countForward s n base delta = delta + (validBefore s (base + n) - validBefore s base) := by
  induction n generalizing base delta with
  | zero => simp [countForward]
  | succ n ih =>
    rw [countForward, ih, ← Nat.add_assoc, Nat.add_right_comm, Int.add_assoc]
    have := validBefore_succ s base
    omega

theorem countBackward_eq (n pos : Nat) (delta : Int) :
    countBackward s n pos delta = delta - (validBefore s (pos + n) - validBefore s pos) := by
  induction n generalizing pos delta with
  | zero => simp [countBackward]
  | succ n ih =>
    rw [countBackward, ih, ← Nat.add_assoc, Nat.add_right_comm]
    have := validBefore_succ s pos
    omega

/-- Both loops together: the difference of the valid indices before the two. -/
theorem utf16IndexToOffset_eq (s : String16) (base pos : Nat) :
    utf16IndexToOffset s base pos = validBefore s pos - validBefore s base := by
  rw [utf16IndexToOffset, countForward_eq, countBackward_eq]
  rcases Nat.le_total base pos with hle | hle
  · rw [Nat.max_eq_right hle, Nat.sub_self, Nat.add_zero, Nat.add_sub_cancel' hle]
    omega
  · rw [Nat.max_eq_left hle, Nat.sub_eq_zero_of_le hle, Nat.add_zero, Nat.add_sub_cancel' hle]
    omega

/-! ## Walks -/

variable {pos : Nat}

/-- Forward to the first index with as many valid ones before it as the target has. -/
theorem walkForward_target {n target : Nat} (hn : target ≤ pos + n) (hle : pos ≤ target) :
    ∃ q, walkForward s n pos (validBefore s target - validBefore s pos) = (q, 0) ∧ q ≤ target ∧
      validBefore s q = validBefore s target := by
  induction n generalizing pos with
  | zero =>
    obtain rfl : pos = target := by omega
    exact ⟨pos, by rw [walkForward, Int.sub_self], le_refl _, rfl⟩
  | succ n ih =>
    rw [walkForward]
    by_cases hoff : (validBefore s target : Int) - validBefore s pos > 0
    · have hne : pos ≠ target := by
        rintro rfl
        omega
      have hstep : (validBefore s target : Int) - validBefore s pos - step s pos =
          validBefore s target - validBefore s (pos + 1) := by
        rw [validBefore_succ]
        omega
      rw [if_pos hoff, hstep]
      exact ih (by omega) (by omega)
    · have hmono := validBefore_mono (s := s) hle
      rw [if_neg hoff]
      refine ⟨pos, ?_, hle, by omega⟩
      rw [show (validBefore s target : Int) - validBefore s pos = 0 by omega]

/-- Backward to the last index with as many valid ones before it as the target has. -/
theorem walkBackward_target {target : Nat} (hle : target ≤ pos) :
    target ≤ walkBackward s pos (validBefore s target - validBefore s pos) ∧
      validBefore s (walkBackward s pos (validBefore s target - validBefore s pos)) =
        validBefore s target := by
  induction pos with
  | zero =>
    obtain rfl : target = 0 := by omega
    exact ⟨le_refl _, rfl⟩
  | succ pos ih =>
    rw [walkBackward]
    have hmono := validBefore_mono (s := s) hle
    by_cases hoff : (validBefore s target : Int) - validBefore s (pos + 1) < 0
    · have hne : target ≠ pos + 1 := by
        rintro rfl
        omega
      have hstep : (validBefore s target : Int) - validBefore s (pos + 1) + step s pos =
          validBefore s target - validBefore s pos := by
        rw [validBefore_succ]
        omega
      rw [if_pos hoff, hstep]
      exact ih (by omega)
    · rw [if_neg hoff]
      exact ⟨hle, by omega⟩

variable {offset : Int}

theorem walkForward_le {n : Nat} : (walkForward s n pos offset).1 ≤ pos + n := by
  induction n generalizing pos offset with
  | zero => exact le_refl _
  | succ n ih =>
    rw [walkForward]
    split_ifs
    · exact ih.trans (by omega)
    · omega

theorem walkForward_of_nonpos {n : Nat} (h : offset ≤ 0) :
    walkForward s n pos offset = (pos, offset) := by
  cases n with
  | zero => rfl
  | succ n => rw [walkForward, if_neg (by omega)]

theorem walkBackward_le : walkBackward s pos offset ≤ pos := by
  induction pos generalizing offset with
  | zero => exact le_refl _
  | succ pos ih =>
    rw [walkBackward]
    split_ifs
    · exact ih.trans (by omega)
    · omega

theorem walkBackward_of_nonneg (h : 0 ≤ offset) : walkBackward s pos offset = pos := by
  cases pos with
  | zero => rfl
  | succ pos => rw [walkBackward, if_neg (by omega)]

/-- Two indices with as many valid ones before them are one, or the second half of a surrogate pair
stands between them. -/
theorem eq_or_between {i j : Nat} (hle : i ≤ j) (h : validBefore s i = validBefore s j) :
    i = j ∨ j = i + 1 ∧ isValidCodePointIndex s i = false := by
  by_cases heq : i = j
  · exact Or.inl heq
  · have hfirst := validBefore_succ s i
    have hmono := validBefore_mono (s := s) (show i + 1 ≤ j by omega)
    have hi : isValidCodePointIndex s i = false := by
      by_contra hvalid
      rw [step, if_pos (by simpa using hvalid)] at hfirst
      omega
    have hzero : step s i = 0 := by rw [step, hi, if_neg Bool.false_ne_true]
    refine Or.inr ⟨?_, hi⟩
    by_contra hne
    have hsecond := validBefore_succ s (i + 1)
    have hmono' := validBefore_mono (s := s) (show i + 1 + 1 ≤ j by omega)
    rw [step, if_pos (isValidCodePointIndex_succ hi)] at hsecond
    omega

/-- The valid index that is meant by an index: itself, or the one behind the surrogate pair. -/
def validFrom (s : String16) (pos : Nat) : Nat :=
  if isValidCodePointIndex s pos then pos else pos + 1

theorem validFrom_congr {i j : Nat} (hle : i ≤ j) (h : validBefore s i = validBefore s j) :
    validFrom s i = validFrom s j := by
  rcases eq_or_between hle h with rfl | ⟨rfl, hi⟩
  · rfl
  · rw [validFrom, hi, if_neg Bool.false_ne_true, validFrom, if_pos (isValidCodePointIndex_succ hi)]

theorem utf16OffsetToIndex_indexToOffset {base : Nat} (hbase : base ≤ s.length)
    (hpos : pos ≤ s.length) :
    utf16OffsetToIndex s base (utf16IndexToOffset s base pos) = validFrom s pos := by
  rw [utf16IndexToOffset_eq]
  show validFrom s (walkBackward s _ _) = validFrom s pos
  rcases Nat.le_total base pos with hle | hle
  · obtain ⟨q, hwalk, hq, hcount⟩ :=
      walkForward_target (s := s) (n := s.length - base) (by omega) hle
    rw [hwalk, walkBackward_of_nonneg (le_refl _)]
    exact validFrom_congr hq hcount
  · have hmono := validBefore_mono (s := s) hle
    rw [walkForward_of_nonpos (by omega)]
    obtain ⟨hq, hcount⟩ := walkBackward_target (s := s) hle
    exact (validFrom_congr hq hcount.symm).symm

theorem utf16OffsetToIndex_valid {base : Nat} (hbase : base ≤ s.length) (offset : Int) :
    isValidCodePointIndex s (utf16OffsetToIndex s base offset) = true ∧
      utf16OffsetToIndex s base offset ≤ s.length := by
  have hfrom : utf16OffsetToIndex s base offset = validFrom s
      (walkBackward s (walkForward s (s.length - base) base offset).1
        (walkForward s (s.length - base) base offset).2) := rfl
  rw [hfrom]
  generalize hq : walkBackward s (walkForward s (s.length - base) base offset).1
    (walkForward s (s.length - base) base offset).2 = q
  have hle : q ≤ s.length := by
    rw [← hq]
    exact walkBackward_le.trans (walkForward_le.trans (by omega))
  rw [validFrom]
  split_ifs with hvalid
  · exact ⟨hvalid, hle⟩
  · have hinvalid : isValidCodePointIndex s q = false := by simpa using hvalid
    have hne : q ≠ s.length := by
      rintro rfl
      exact hvalid (isValidCodePointIndex_length s)
    exact ⟨isValidCodePointIndex_succ hinvalid, by omega⟩

/-- Offsets are additive and antisymmetric, and lead back to the index they were counted to, or
behind the surrogate pair that it is in the middle of; every offset leads to a valid index. -/
theorem utf16_indexing (s : String16) :
    (∀ a b c, a ≤ s.length → b ≤ s.length → c ≤ s.length →
      utf16IndexToOffset s a c = utf16IndexToOffset s a b + utf16IndexToOffset s b c) ∧
    (∀ a b, a ≤ s.length → b ≤ s.length →
      utf16IndexToOffset s a b = -utf16IndexToOffset s b a) ∧
    (∀ base pos, base ≤ s.length → pos ≤ s.length →
      utf16OffsetToIndex s base (utf16IndexToOffset s base pos) =
        if isValidCodePointIndex s pos then pos else pos + 1) ∧
    (∀ base offset, base ≤ s.length →
      isValidCodePointIndex s (utf16OffsetToIndex s base offset) = true ∧
        utf16OffsetToIndex s base offset ≤ s.length) := by
  refine ⟨fun a b c _ _ _ => ?_, fun a b _ _ => ?_,
    fun base pos hbase hpos => utf16OffsetToIndex_indexToOffset hbase hpos,
    fun base offset hbase => utf16OffsetToIndex_valid hbase offset⟩
  · simp only [utf16IndexToOffset_eq]
    omega
  · simp only [utf16IndexToOffset_eq]
    omega

/-- A surrogate pair between two letters: from the first letter to the middle of the pair. -/
theorem utf16_indexing_pair :
    utf16OffsetToIndex [0x61, 0xd800, 0xdc00, 0x62] 0
      (utf16IndexToOffset [0x61, 0xd800, 0xdc00, 0x62] 0 2) = 3 :=
  (utf16_indexing [0x61, 0xd800, 0xdc00, 0x62]).2.2.1 0 2 (by decide) (by decide)

/-! ## Eliding a text

StringSlicer and ElideText. The font is what it says of the width of a string. -/

open Nat Bool
open ChromiumUI.Base (Target)
open ChromiumUI.Fuel

/-- U+2026 -/
def kEllipsis : String16 := [0x2026]

inductive ElideBehavior where
  | elideInMiddle | elideAtEnd | truncateAtEnd
  deriving DecidableEq, Repr

/-! ## StringSlicer -/

/-- U16_SET_CP_START -/
def setCpStart (s : String16) (i : Nat) : Nat :=
  if s[i]?.any isTrail && (0 < i && s[i - 1]?.any isLead) then i - 1 else i

/-- U16_SET_CP_LIMIT -/
def setCpLimit (s : String16) (i : Nat) : Nat :=
  if 0 < i && (i < s.length && (s[i - 1]?.any isLead && s[i]?.any isTrail)) then i + 1 else i

/-- Returns a valid cut boundary at or before `index`. -/
def findValidBoundaryBefore (text : String16) (index : Nat) : Nat :=
  if index ≠ text.length then setCpStart text index else index

/-- Returns a valid cut boundary at or after `index`. -/
def findValidBoundaryAfter (text : String16) (index : Nat) : Nat :=
  if index ≠ text.length then setCpLimit text index else index

def cutString (t : Target) (text ellipsis : String16) (elideInMiddle : Bool) (length : Nat)
    (insertEllipsis : Bool) : String16 :=
  let ellipsisText := if insertEllipsis then ellipsis else []
  if !elideInMiddle then text.take (findValidBoundaryBefore text length) ++ ellipsisText
  else
    let halfLength := length / 2
    let prefixLength := findValidBoundaryBefore text (t.sizeT ((length : Int) - halfLength))
    let suffixStartGuess := t.sizeT ((text.length : Int) - halfLength)
    let suffixStart := findValidBoundaryAfter text suffixStartGuess
    -- the inner difference is negative where the boundary moved
    let suffixLength :=
      t.sizeT ((halfLength : Int) - t.sizeT ((suffixStartGuess : Int) - suffixStart))
    text.take prefixLength ++ ellipsisText ++ (text.drop suffixStart).take suffixLength

/-! ## The search -/

structure Bounds where
  lo : Nat
  hi : Nat
  deriving DecidableEq, Repr

def Bounds.guess (t : Target) (b : Bounds) : Nat := t.sizeT ((b.lo : Int) + b.hi) / 2

/-- The bounds when the cut of that guess is found to fit, or not to. -/
def Bounds.next (t : Target) (b : Bounds) (fits : Bool) : Bounds :=
  if fits then { b with lo := t.sizeT ((b.guess t : Int) + 1) }
  else { b with hi := t.sizeT ((b.guess t : Int) - 1) }

inductive Searched where
  /-- This cut has no width. -/
  | overflowed (guess : Nat)
  | settled (guess : Nat)
  deriving DecidableEq, Repr

/-- The loop of ElideText. -/
def search (t : Target) (width : String16 → Int) (cut : Nat → String16) (available : Int) :
    Nat → Bounds → Option Searched
  | 0, _ => none
  | fuel + 1, b =>
    if b.lo ≤ b.hi then
      let guessLength := width (cut (b.guess t))
      if guessLength ≤ 0 then some (.overflowed (b.guess t))
      else search t width cut available fuel (b.next t (guessLength ≤ available))
    else some (.settled (b.guess t))

def elideText (t : Target) (width : String16 → Int) (available : Int) (behavior : ElideBehavior) :
    Nat → String16 → Option String16
  | 0, _ => none
  | fuel + 1, text =>
    if text = [] then some text
    else
      let cut := cutString t text kEllipsis (behavior = .elideInMiddle)
      let insertEllipsis : Bool := behavior ≠ .truncateAtEnd
      if width text ≤ 0 then elideText t width available behavior fuel (cut (text.length / 2) false)
      else if width text ≤ available then some text
      else if width kEllipsis > available then some []
      else
        match search t width (cut · insertEllipsis) available fuel
            ⟨0, t.sizeT ((text.length : Int) - 1)⟩ with
        | none => none
        | some (.overflowed guess) =>
          elideText t width available behavior fuel (cut (guess / 2) false)
        | some (.settled guess) => some (cut guess insertEllipsis)

/-! ## Boundaries -/

variable {text : String16} {i j : Nat}

theorem findValidBoundaryBefore_le (text : String16) (i : Nat) :
    findValidBoundaryBefore text i ≤ i ∧ i ≤ findValidBoundaryBefore text i + 1 := by
  unfold findValidBoundaryBefore setCpStart
  split_ifs <;> omega

theorem le_findValidBoundaryAfter (text : String16) (i : Nat) :
    i ≤ findValidBoundaryAfter text i ∧ findValidBoundaryAfter text i ≤ i + 1 := by
  unfold findValidBoundaryAfter setCpLimit
  split_ifs <;> omega

theorem findValidBoundaryAfter_le_length (h : i ≤ text.length) :
    findValidBoundaryAfter text i ≤ text.length := by
  unfold findValidBoundaryAfter setCpLimit
  split_ifs with hne hpair
  · simp only [and_eq_true, decide_eq_true_eq] at hpair
    omega
  · exact h
  · exact h

theorem findValidBoundaryBefore_mono (h : i ≤ j) :
    findValidBoundaryBefore text i ≤ findValidBoundaryBefore text j := by
  rcases eq_or_lt_of_le h with rfl | hlt
  · exact le_refl _
  · have hi := (findValidBoundaryBefore_le text i).1
    have hj := (findValidBoundaryBefore_le text j).2
    omega

theorem findValidBoundaryAfter_mono (h : i ≤ j) :
    findValidBoundaryAfter text i ≤ findValidBoundaryAfter text j := by
  rcases eq_or_lt_of_le h with rfl | hlt
  · exact le_refl _
  · have hi := (le_findValidBoundaryAfter text i).2
    have hj := (le_findValidBoundaryAfter text j).1
    omega

/-- The second unit of a pair is no boundary. -/
def InsidePair (text : String16) (i : Nat) : Prop :=
  0 < i ∧ text[i - 1]?.any isLead = true ∧ text[i]?.any isTrail = true

instance : Decidable (InsidePair text i) := by
  unfold InsidePair
  infer_instance

theorem any_getElem?_of_length_le {f : UInt16 → Bool} (h : text.length ≤ i) :
    text[i]?.any f = false := by
  rw [List.getElem?_eq_none h]
  rfl

theorem not_insidePair_of_length_le (h : text.length ≤ i) : ¬ InsidePair text i := by
  rintro ⟨-, -, htrail⟩
  rw [any_getElem?_of_length_le h] at htrail
  cases htrail

/-- Of two neighbours at most one is inside a pair. -/
theorem not_insidePair_pred (h : InsidePair text i) : ¬ InsidePair text (i - 1) := by
  rintro ⟨hpos, -, htrail⟩
  have hlead := h.2.1
  cases hunit : text[i - 1]? with
  | none =>
    rw [hunit] at hlead
    cases hlead
  | some c =>
    rw [hunit, Option.any_some] at hlead htrail
    rw [isTrail_not_isLead htrail] at hlead
    cases hlead

theorem not_insidePair_succ (h : InsidePair text i) : ¬ InsidePair text (i + 1) :=
  fun h' => not_insidePair_pred h' h

theorem findValidBoundaryBefore_eq (text : String16) (i : Nat) :
    findValidBoundaryBefore text i = if InsidePair text i then i - 1 else i := by
  by_cases hlen : i = text.length
  · rw [findValidBoundaryBefore, if_neg (by simpa using hlen),
      if_neg (not_insidePair_of_length_le (le_of_eq hlen.symm))]
  · rw [findValidBoundaryBefore, if_pos hlen, setCpStart]
    refine if_congr ?_ rfl rfl
    simp only [and_eq_true, decide_eq_true_eq, InsidePair]
    tauto

theorem findValidBoundaryAfter_eq (text : String16) (i : Nat) :
    findValidBoundaryAfter text i = if InsidePair text i then i + 1 else i := by
  by_cases hlen : text.length ≤ i
  · rw [if_neg (not_insidePair_of_length_le hlen), findValidBoundaryAfter, setCpLimit]
    split_ifs with hne hpair
    · simp only [and_eq_true, decide_eq_true_eq] at hpair
      omega
    · rfl
    · rfl
  · rw [findValidBoundaryAfter, if_pos (by omega), setCpLimit]
    refine if_congr ?_ rfl rfl
    simp only [and_eq_true, decide_eq_true_eq, InsidePair]
    constructor
    · tauto
    · intro h
      exact ⟨h.1, by omega, h.2⟩

theorem not_insidePair_before (text : String16) (i : Nat) :
    ¬ InsidePair text (findValidBoundaryBefore text i) := by
  rw [findValidBoundaryBefore_eq]
  split_ifs with h
  · exact not_insidePair_pred h
  · exact h

theorem not_insidePair_after (text : String16) (i : Nat) :
    ¬ InsidePair text (findValidBoundaryAfter text i) := by
  rw [findValidBoundaryAfter_eq]
  split_ifs with h
  · exact not_insidePair_succ h
  · exact h

/-! ## Cuts -/

/-- Where the kept beginning of a cut ends. -/
def prefixEnd (text : String16) (middle : Bool) (length : Nat) : Nat :=
  findValidBoundaryBefore text (if middle then length - length / 2 else length)

/-- Where the kept end of a cut starts. -/
def suffixStart (text : String16) (middle : Bool) (length : Nat) : Nat :=
  if middle then findValidBoundaryAfter text (text.length - length / 2) else text.length

/-- How many characters a cut keeps. -/
def kept (text : String16) (middle : Bool) (length : Nat) : Nat :=
  prefixEnd text middle length + (text.length - suffixStart text middle length)

variable {t : Target} {middle : Bool} {length : Nat}

theorem two_pow_sizeBits_pos (t : Target) : 2 ≤ 2 ^ t.sizeBits := by
  rcases t.sizeBits_eq with h | h <;> rw [h] <;> decide

theorem sizeT_sub {m n : Nat} (hle : n ≤ m) (hm : m < 2 ^ t.sizeBits) :
    t.sizeT ((m : Int) - n) = m - n := by
  have hcast : (m : Int) - n = ((m - n : Nat) : Int) := by omega
  rw [hcast]
  exact Base.sizeT_of_lt_bits (by omega)

/-- A difference that wraps wraps back. -/
theorem sizeT_sub_sizeT (half start guess : Nat) (hle : guess ≤ start)
    (hlt : half + (start - guess) < 2 ^ t.sizeBits) :
    t.sizeT ((half : Int) - t.sizeT ((guess : Int) - start)) = half + (start - guess) := by
  have hpos : 2 ^ t.sizeBits ≠ 0 := by
    omega
  have hinner : (t.sizeT ((guess : Int) - start) : Int) =
      ((guess : Int) - start) % (2 ^ t.sizeBits : Nat) :=
    Int.toNat_of_nonneg (Int.emod_nonneg _ (by exact_mod_cast hpos))
  have houter : t.sizeT ((half : Int) - ((guess : Int) - start) % (2 ^ t.sizeBits : Nat)) =
      t.sizeT ((half + (start - guess) : Nat) : Int) := by
    have hcast : ((half + (start - guess) : Nat) : Int) = half - ((guess : Int) - start) := by
      omega
    rw [Target.sizeT, Target.sizeT, Int.sub_emod_emod, hcast]
  rw [hinner, houter]
  exact Base.sizeT_of_lt_bits hlt

theorem cutString_eq (ellipsis : String16) (insertEllipsis : Bool) (hlen : length ≤ text.length)
    (hsize : 2 * text.length < 2 ^ t.sizeBits) :
    cutString t text ellipsis middle length insertEllipsis =
      text.take (prefixEnd text middle length) ++ (if insertEllipsis then ellipsis else []) ++
        text.drop (suffixStart text middle length) := by
  cases middle with
  | false => simp [cutString, prefixEnd, suffixStart]
  | true =>
    have hhalf : length / 2 ≤ length := div_le_self _ _
    have hstart := le_findValidBoundaryAfter text (text.length - length / 2)
    have htwo := two_pow_sizeBits_pos t
    have hfront : t.sizeT ((length : Int) - (length / 2 : Nat)) = length - length / 2 :=
      sizeT_sub hhalf (by omega)
    have hback : t.sizeT ((text.length : Int) - (length / 2 : Nat)) = text.length - length / 2 :=
      sizeT_sub (by omega) (by omega)
    simp only [cutString, Bool.not_true, Bool.false_eq_true, if_false, hfront, hback]
    have hrest := @sizeT_sub_sizeT t (length / 2)
      (findValidBoundaryAfter text (text.length - length / 2)) _ hstart.1 (by omega)
    have htake : ∀ n, text.length - findValidBoundaryAfter text (text.length - length / 2) ≤ n →
        (text.drop (findValidBoundaryAfter text (text.length - length / 2))).take n =
          text.drop (findValidBoundaryAfter text (text.length - length / 2)) := fun n hn =>
      List.take_of_length_le (by rwa [List.length_drop])
    rw [hrest, htake _ (by omega)]
    rfl

theorem prefixEnd_le (text : String16) (middle : Bool) (length : Nat) :
    prefixEnd text middle length ≤ length := by
  refine le_trans (findValidBoundaryBefore_le _ _).1 ?_
  split <;> omega

theorem suffixStart_le (text : String16) (middle : Bool) (length : Nat) :
    suffixStart text middle length ≤ text.length := by
  cases middle with
  | false => exact le_refl _
  | true => exact findValidBoundaryAfter_le_length (sub_le _ _)

theorem prefixEnd_le_suffixStart (hlen : length ≤ text.length) :
    prefixEnd text middle length ≤ suffixStart text middle length := by
  cases middle with
  | false => exact le_trans (prefixEnd_le _ _ _) hlen
  | true =>
    have hpre := (findValidBoundaryBefore_le text (length - length / 2)).1
    have hafter := (le_findValidBoundaryAfter text (text.length - length / 2)).1
    simp only [prefixEnd, suffixStart, if_true]
    omega

theorem kept_mono {m n : Nat} (h : m ≤ n) : kept text middle m ≤ kept text middle n := by
  refine Nat.add_le_add (findValidBoundaryBefore_mono ?_) (Nat.sub_le_sub_left ?_ _)
  · split <;> omega
  · cases middle with
    | false => exact le_refl _
    | true => exact findValidBoundaryAfter_mono (by omega)

/-- No surrogate pair has one half in the beginning or the end that is kept, and the other not. -/
theorem not_insidePair_prefixEnd (text : String16) (middle : Bool) (length : Nat) :
    ¬ InsidePair text (prefixEnd text middle length) := not_insidePair_before _ _

theorem not_insidePair_suffixStart (text : String16) (middle : Bool) (length : Nat) :
    ¬ InsidePair text (suffixStart text middle length) := by
  cases middle with
  | false => exact not_insidePair_of_length_le (le_refl _)
  | true => exact not_insidePair_after _ _

theorem prefixEnd_zero (text : String16) (middle : Bool) : prefixEnd text middle 0 = 0 :=
  le_zero.mp (prefixEnd_le text middle 0)

theorem suffixStart_zero (text : String16) (middle : Bool) :
    suffixStart text middle 0 = text.length := by
  cases middle with
  | false => rfl
  | true => simp [suffixStart, findValidBoundaryAfter]

/-- Nothing is kept of a cut of length 0. -/
theorem cutString_zero (ellipsis : String16) (hsize : 2 * text.length < 2 ^ t.sizeBits) :
    cutString t text ellipsis middle 0 true = ellipsis := by
  rw [cutString_eq ellipsis true (zero_le _) hsize, prefixEnd_zero, suffixStart_zero]
  simp

end ChromiumUI.Ui
