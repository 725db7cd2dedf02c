import Mathlib.Data.List.Range

/-!
# The searches of StringPiece

The loops over the text beside the members of std::string with their names. `none` is `npos`.
-/
namespace ChromiumUI.StringPieces

open List

abbrev Text := List UInt8

/-- The first position from `lo` on in front of `hi`. -/
def firstIn (p : Nat → Bool) (lo hi : Nat) : Option Nat := (range' lo (hi - lo)).find? p

/-- The last position in front of `hi`. -/
def lastBelow (p : Nat → Bool) (hi : Nat) : Option Nat := (range hi).reverse.find? p

/-- Is `s` at a position of the text? -/
def isAt (text s : Text) (i : Nat) : Bool := s.isPrefixOf (text.drop i)

/-- Has a position a character that passes? -/
def passes (text : Text) (p : UInt8 → Bool) (i : Nat) : Bool := text[i]?.any p

/-! ## std::string -/

namespace StdString

variable (text s : Text) (p : UInt8 → Bool) (pos : Nat)

def find : Option Nat := firstIn (isAt text s) pos (text.length + 1 - s.length)

def rfind : Option Nat := lastBelow (isAt text s) (min (pos + 1) (text.length + 1 - s.length))

/-- find_first_of and find_first_not_of; find of a character, too. -/
def findFirst : Option Nat := firstIn (passes text p) pos text.length

/-- find_last_of and find_last_not_of; rfind of a character, too. -/
def findLast : Option Nat := lastBelow (passes text p) (min (pos + 1) text.length)

end StdString

/-! ## StringPiece -/

namespace StringPiece

/-- std::search, from a position of the text to its end. -/
def stdSearch (self s : Text) (pos : Nat) : Nat :=
  (firstIn (isAt self s) pos (self.length + 1 - s.length)).getD self.length

/-- std::find -/
def stdFind (self : Text) (c : UInt8) (pos : Nat) : Nat :=
  (firstIn (passes self (· == c)) pos self.length).getD self.length

/-- std::find_end, from the start of the text to `last`, for a string that is not empty. -/
def stdFindEnd (self s : Text) (last : Nat) : Nat :=
  (lastBelow (isAt self s) (last + 1 - s.length)).getD last

/-- `for (i = pos; i < size; ++i) if (p(data[i])) return i;` over the rest of the text -/
def scan (p : UInt8 → Bool) : Nat → Text → Option Nat
  | _, [] => none
  | i, c :: rest => if p c then some i else scan p (i + 1) rest

/-- `for (;; --i) { if (p(data[i])) return i; if (i == 0) break; }` -/
def scanBack (self : Text) (p : UInt8 → Bool) : Nat → Option Nat
  | 0 => if passes self p 0 then some 0 else none
  | i + 1 => if passes self p (i + 1) then some (i + 1) else scanBack self p i

def buildLookupTable (s : Text) : UInt8 → Bool :=
  s.foldl (fun table c => Function.update table c true) fun _ => false

variable (self s : Text) (c : UInt8) (pos : Nat)

def find : Option Nat :=
  if self.length < pos then none
  else
    let xpos := stdSearch self s pos
    if xpos + s.length ≤ self.length then some xpos else none

def findChar : Option Nat :=
  if self.length ≤ pos then none
  else
    let result := stdFind self c pos
    if result ≠ self.length then some result else none

def rfind : Option Nat :=
  if self.length < s.length then none
  else if s.isEmpty then some (min self.length pos)
  else
    let last := min (self.length - s.length) pos + s.length
    let result := stdFindEnd self s last
    if result ≠ last then some result else none

def rfindChar : Option Nat :=
  if self.length = 0 then none else scanBack self (· == c) (min pos (self.length - 1))

def findFirstOf : Option Nat :=
  if self.length = 0 ∨ s.length = 0 then none
  else if s.length = 1 then findChar self s.head! pos
  else scan (buildLookupTable s) pos (self.drop pos)

def findFirstNotOfChar : Option Nat :=
  if self.length = 0 then none else scan (· != c) pos (self.drop pos)

def findFirstNotOf : Option Nat :=
  if self.length = 0 then none
  else if s.length = 0 then some 0
  else if s.length = 1 then findFirstNotOfChar self s.head! pos
  else scan (fun c => !buildLookupTable s c) pos (self.drop pos)

def findLastOf : Option Nat :=
  if self.length = 0 ∨ s.length = 0 then none
  else if s.length = 1 then rfindChar self s.head! pos
  else scanBack self (buildLookupTable s) (min pos (self.length - 1))

def findLastNotOfChar : Option Nat :=
  if self.length = 0 then none else scanBack self (· != c) (min pos (self.length - 1))

def findLastNotOf : Option Nat :=
  if self.length = 0 then none
  else if s.length = 0 then some (min pos (self.length - 1))
  else if s.length = 1 then findLastNotOfChar self s.head! pos
  else scanBack self (fun c => !buildLookupTable s c) (min pos (self.length - 1))

def substr (n : Nat) : Text :=
  let pos := if self.length < pos then self.length else pos
  let n := if self.length - pos < n then self.length - pos else n
  (self.drop pos).take n

end StringPiece

open StdString StringPiece

variable {p : Nat → Bool} {lo hi i : Nat}

theorem firstIn_of_le (h : hi ≤ lo) : firstIn p lo hi = none := by
  rw [firstIn, Nat.sub_eq_zero_of_le h]
  rfl

theorem firstIn_of_lt (h : lo < hi) :
    firstIn p lo hi = if p lo then some lo else firstIn p (lo + 1) hi := by
  obtain ⟨n, hn⟩ : ∃ n, hi - lo = n + 1 := ⟨hi - lo - 1, by omega⟩
  rw [firstIn, hn, range'_succ, find?_cons, firstIn, show hi - (lo + 1) = n by omega]
  cases p lo <;> rfl

theorem lt_of_firstIn (h : firstIn p lo hi = some i) : i < hi := by
  have hmem := mem_range'_1.mp (mem_of_find?_eq_some h)
  omega

theorem lastBelow_succ (p : Nat → Bool) (n : Nat) :
    lastBelow p (n + 1) = if p n then some n else lastBelow p n := by
  rw [lastBelow, range_succ, reverse_concat, find?_cons]
  cases p n <;> rfl

theorem lt_of_lastBelow (h : lastBelow p hi = some i) : i < hi :=
  mem_range.mp (mem_reverse.mp (mem_of_find?_eq_some h))

variable {text s rest : Text} {c : UInt8} {pos n : Nat}

theorem scan_eq (p : UInt8 → Bool) (h : text.drop pos = rest) :
    scan p pos rest = firstIn (passes text p) pos text.length := by
  induction rest generalizing pos with
  | nil => exact (firstIn_of_le (drop_eq_nil_iff.mp h)).symm
  | cons c rest ih =>
    have hlt : pos < text.length := by
      by_contra hge
      rw [drop_of_length_le (Nat.le_of_not_lt hge)] at h
      cases h
    rw [drop_eq_getElem_cons hlt] at h
    obtain ⟨rfl, hrest⟩ := List.cons.inj h
    rw [scan, firstIn_of_lt hlt, ih hrest, passes, getElem?_eq_getElem hlt]
    rfl

theorem scanBack_eq (p : UInt8 → Bool) (i : Nat) :
    scanBack text p i = lastBelow (passes text p) (i + 1) := by
  induction i with
  | zero => rw [scanBack, lastBelow_succ]; rfl
  | succ i ih => rw [scanBack, lastBelow_succ, ih]

theorem buildLookupTable_eq (s : Text) : buildLookupTable s = s.contains := by
  have hfold (table : UInt8 → Bool) (d : UInt8) :
      s.foldl (fun table c => Function.update table c true) table d = (table d || s.contains d) := by
    induction s generalizing table with
    | nil => simp
    | cons a s ih =>
      rw [foldl_cons, ih, Function.update_apply, contains_cons]
      by_cases hd : d = a
      · simp [hd]
      · rw [if_neg hd, beq_false_of_ne hd, Bool.false_or]
  funext d
  simp [buildLookupTable, hfold]

/-! ## The searches -/

theorem find_agrees : StringPiece.find text s pos = StdString.find text s pos := by
  rw [StringPiece.find, StdString.find, stdSearch]
  split_ifs with hpos
  · exact (firstIn_of_le (by omega)).symm
  · cases hfirst : firstIn (isAt text s) pos (text.length + 1 - s.length) with
    | some i =>
      have hlt := lt_of_firstIn hfirst
      exact if_pos (by rw [Option.getD_some]; omega)
    | none =>
      refine if_neg fun hle => ?_
      rw [Option.getD_none] at hle
      obtain rfl : s = [] := length_eq_zero_iff.mp (by omega)
      rw [firstIn_of_lt (by rw [length_nil]; omega)] at hfirst
      cases hfirst

theorem findChar_agrees : findChar text c pos = findFirst text (· == c) pos := by
  rw [findChar, findFirst, stdFind]
  split_ifs with hpos
  · exact (firstIn_of_le hpos).symm
  · cases hfirst : firstIn (passes text (· == c)) pos text.length with
    | some i => exact if_pos (Nat.ne_of_lt (lt_of_firstIn hfirst))
    | none => exact if_neg (not_not.mpr rfl)

theorem rfind_agrees : StringPiece.rfind text s pos = StdString.rfind text s pos := by
  rw [StringPiece.rfind, StdString.rfind]
  split_ifs with hshort hempty
  · rw [show min (pos + 1) (text.length + 1 - s.length) = 0 by omega]
    rfl
  · obtain rfl := isEmpty_iff.mp hempty
    rw [length_nil, show min (pos + 1) (text.length + 1 - 0) = min text.length pos + 1 by omega,
      lastBelow_succ]
    rfl
  · have hpos : 0 < s.length := length_pos_iff.mpr fun hnil => hempty (isEmpty_iff.mpr hnil)
    have hend : min (text.length - s.length) pos + s.length + 1 - s.length =
        min (pos + 1) (text.length + 1 - s.length) := by omega
    simp only [stdFindEnd, hend]
    cases hlast : lastBelow (isAt text s) (min (pos + 1) (text.length + 1 - s.length)) with
    | some i =>
      have hlt := lt_of_lastBelow hlast
      exact if_pos (by rw [Option.getD_some]; omega)
    | none => exact if_neg (not_not.mpr rfl)

theorem scanBack_agrees (p : UInt8 → Bool) :
    (if text.length = 0 then none
      else scanBack text p (min pos (text.length - 1))) =
        findLast text p pos := by
  rw [findLast]
  split_ifs with hempty
  · rw [hempty, Nat.min_zero]
    rfl
  · rw [scanBack_eq, show min pos (text.length - 1) + 1 = min (pos + 1) text.length by omega]

theorem scan_agrees (p : UInt8 → Bool) :
    (if text.length = 0 then none else scan p pos (text.drop pos)) =
      findFirst text p pos := by
  rw [scan_eq p rfl, findFirst]
  split_ifs with hempty
  · exact (firstIn_of_le (by omega)).symm
  · rfl

theorem passes_nil (text : Text) (i : Nat) : ¬passes text ([] : Text).contains i = true := by
  cases h : text[i]? <;> simp [passes, h]

theorem eq_singleton_head (h : s.length = 1) : s.contains = (· == s.head!) := by
  obtain ⟨a, rfl⟩ := length_eq_one_iff.mp h
  funext d
  rw [Bool.eq_iff_iff]
  simp

theorem findFirstOf_agrees : findFirstOf text s pos = findFirst text s.contains pos := by
  rw [findFirstOf]
  split_ifs with hempty hone
  · rcases hempty with hempty | hempty
    · exact (firstIn_of_le (by omega)).symm
    · obtain rfl := length_eq_zero_iff.mp hempty
      exact (find?_eq_none.mpr fun i _ => passes_nil text i).symm
  · rw [eq_singleton_head hone, findChar_agrees]
  · rw [← scan_agrees, if_neg fun h => hempty (Or.inl h), buildLookupTable_eq]

theorem findLastOf_agrees : findLastOf text s pos = findLast text s.contains pos := by
  rw [findLastOf]
  split_ifs with hempty hone
  · rcases hempty with hempty | hempty
    · rw [← scanBack_agrees, if_pos hempty]
    · obtain rfl := length_eq_zero_iff.mp hempty
      exact (find?_eq_none.mpr fun i _ => passes_nil text i).symm
  · rw [eq_singleton_head hone, rfindChar, scanBack_agrees]
  · rw [← scanBack_agrees, if_neg fun h => hempty (Or.inl h), buildLookupTable_eq]

theorem findLastNotOf_agrees :
    findLastNotOf text s pos = findLast text (fun c => !s.contains c) pos := by
  rw [← scanBack_agrees, findLastNotOf]
  split_ifs with hempty hnil hone
  · rfl
  · obtain rfl := length_eq_zero_iff.mp hnil
    have hlt : min pos (text.length - 1) < text.length := by omega
    rw [scanBack_eq, lastBelow_succ, if_pos]
    rw [passes, getElem?_eq_getElem hlt]
    rfl
  · rw [findLastNotOfChar, if_neg hempty, eq_singleton_head hone]
    rfl
  · rw [buildLookupTable_eq]

/-- An empty set of characters is the exception. -/
theorem findFirstNotOf_agrees_iff :
    findFirstNotOf text s pos =
        findFirst text (fun c => !s.contains c) pos ↔
      ¬(s = [] ∧ text ≠ [] ∧ pos ≠ 0) := by
  rw [← scan_agrees, findFirstNotOf]
  split_ifs with hempty hnil hone
  · rw [length_eq_zero_iff.mp hempty]
    simp
  · obtain rfl := length_eq_zero_iff.mp hnil
    have htext : text ≠ [] := fun h => hempty (by rw [h, length_nil])
    rw [scan_eq _ rfl]
    constructor
    · rintro hsame ⟨-, -, hpos⟩
      have hfound := find?_eq_some_iff_append.mp hsame.symm
      have hmem := mem_range'_1.mp (mem_of_find?_eq_some hsame.symm)
      omega
    · intro hnot
      obtain rfl : pos = 0 := by
        by_contra hpos
        exact hnot ⟨rfl, htext, hpos⟩
      rw [firstIn_of_lt (Nat.pos_of_ne_zero hempty), if_pos]
      rw [passes, getElem?_eq_getElem (Nat.pos_of_ne_zero hempty)]
      rfl
  · rw [findFirstNotOfChar, if_neg hempty, eq_singleton_head hone]
    refine iff_of_true rfl fun h => ?_
    rw [h.1] at hone
    cases hone
  · rw [buildLookupTable_eq]
    exact iff_of_true rfl fun h => hnil (by rw [h.1, length_nil])

/-- Every search gives what the member of std::string with its name gives; substr is asked for no
position behind the end. -/
structure Agrees (text s : Text) (c : UInt8) (pos n : Nat) : Prop where
  find : StringPiece.find text s pos = StdString.find text s pos
  findChar : findChar text c pos = findFirst text (· == c) pos
  rfind : StringPiece.rfind text s pos = StdString.rfind text s pos
  rfindChar : rfindChar text c pos = findLast text (· == c) pos
  findFirstOf : findFirstOf text s pos = findFirst text s.contains pos
  findFirstNotOf : findFirstNotOf text s pos =
    findFirst text (fun d => !s.contains d) pos
  findFirstNotOfChar : findFirstNotOfChar text c pos =
    findFirst text (· != c) pos
  findLastOf : findLastOf text s pos = findLast text s.contains pos
  findLastNotOf : findLastNotOf text s pos =
    findLast text (fun d => !s.contains d) pos
  findLastNotOfChar : findLastNotOfChar text c pos =
    findLast text (· != c) pos
  substr : pos ≤ text.length → substr text pos n = (text.drop pos).take n

/-- All the searches agree but where find_first_not_of is asked for an empty set behind the start of
a text. -/
theorem agrees_iff (text s : Text) (c : UInt8) (pos n : Nat) :
    Agrees text s c pos n ↔ ¬(s = [] ∧ text ≠ [] ∧ pos ≠ 0) := by
  refine ⟨fun h => findFirstNotOf_agrees_iff.mp h.findFirstNotOf, fun h => ?_⟩
  refine ⟨find_agrees, findChar_agrees, rfind_agrees, scanBack_agrees _, findFirstOf_agrees,
    findFirstNotOf_agrees_iff.mpr h, scan_agrees _, findLastOf_agrees, findLastNotOf_agrees,
    scanBack_agrees _, fun hpos => ?_⟩
  rw [substr, if_neg (Nat.not_lt.mpr hpos)]
  split_ifs with hn
  · rw [← length_drop, take_length, take_of_length_le (by rw [length_drop]; omega)]
  · rfl

/-- The start of the text is found behind it. -/
theorem agrees_empty_set : ¬Agrees [0x61, 0x62] [] 0x61 1 2 :=
  fun h => absurd h.findFirstNotOf (by decide)

end ChromiumUI.StringPieces
