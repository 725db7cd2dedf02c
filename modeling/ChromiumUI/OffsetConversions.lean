import ChromiumUI.Pickle
import ChromiumUI.UtfConversions

/-!
# UTF8ToUTF16AndAdjustOffsets and UTF16ToUTF8AndAdjustOffsets

ConvertUnicode with offsets into the source, which OffsetAdjuster maps into the result from the
lengths that each character had before and after.
-/
namespace ChromiumUI.Base.UtfOffsets

open List Nat

section Definitions

variable {α δ : Type} (target : Target)

abbrev SizeT := BitVec target.sizeBits

def npos : SizeT target := BitVec.allOnes target.sizeBits

variable {target}

/-- Of a substring, where it stands and its lengths before and after. -/
structure Adjustment (target : Target) where
  originalOffset : SizeT target
  originalLength : SizeT target
  outputLength : SizeT target

/-- LimitOffset. -/
def limitOffset (limit : Nat) (offset : SizeT target) : SizeT target :=
  if offset.toNat ≥ limit then npos target else offset

/-- The loop of AdjustOffset. -/
def adjustLoop (offset adjustment : SizeT target) : List (Adjustment target) → SizeT target
  | [] => offset - adjustment
  | a :: adjustments =>
    if offset = a.originalOffset ∧ a.outputLength = 0 then npos target
    else if offset ≤ a.originalOffset then offset - adjustment
    else if offset < a.originalOffset + a.originalLength then npos target
    else adjustLoop offset (adjustment + (a.originalLength - a.outputLength)) adjustments

def adjustOffset (adjustments : List (Adjustment target)) (offset : SizeT target) : SizeT target :=
  if offset = npos target then offset else adjustLoop offset 0 adjustments

/-- What the destructor of OffsetAdjuster leaves. -/
def adjustOffsets (adjustments : List (Adjustment target)) (offsets : List (SizeT target)) :
    List (SizeT target) :=
  if adjustments.isEmpty then offsets else offsets.map (adjustOffset adjustments)

/-- The loop of ConvertUnicode. -/
def convertLoop (target : Target) (read : Nat → Bool × Nat × Nat) (write : Nat → List δ)
    (srcLen32 : Nat) : Nat → Nat → Bool → List δ → List (Adjustment target) →
      Bool × List δ × List (Adjustment target)
  | 0, _, success, output, adjustments => (success, output, adjustments)
  | fuel + 1, i, success, output, adjustments =>
    if i < srcLen32 then
      let (valid, codePoint, last) := read i
      let chars := write (if valid then codePoint else 0xfffd)
      let adjustment := ⟨.ofNat _ i, .ofNat _ last - .ofNat _ i + 1, .ofNat _ chars.length⟩
      convertLoop target read write srcLen32 fuel (last + 1) (success && valid) (output ++ chars)
        (adjustments ++ [adjustment])
    else (success, output, adjustments)

/-- ConvertUnicode: its result, the string and the offsets. -/
def convertUnicode (read : List α → Nat → Nat → Bool × Nat × Nat) (write : Nat → List δ)
    (src : List α) (offsets : List (SizeT target)) : Bool × List δ × List (SizeT target) :=
  let srcLen32 := (wrapInt src.length).toNat
  let (success, output, adjustments) :=
    convertLoop target (read src srcLen32) write srcLen32 src.length 0 true [] []
  (success, output, adjustOffsets adjustments (offsets.map (limitOffset src.length)))

def utf8ToUTF16AndAdjustOffsets (src : Bytes) (offsets : List (SizeT target)) :
    List UInt16 × List (SizeT target) :=
  (convertUnicode readUnicodeCharacter writeUnicodeCharacter16 src offsets).2

def utf16ToUTF8AndAdjustOffsets (src : List UInt16) (offsets : List (SizeT target)) :
    Bytes × List (SizeT target) :=
  (convertUnicode readUnicodeCharacter16 writeUnicodeCharacter src offsets).2

/-- Where a reader that goes on from one character to the next comes to. -/
inductive Boundary (read : Nat → Bool × Nat × Nat) (length : Nat) : Nat → Prop
  | start : Boundary read length 0
  | next {i : Nat} (h : Boundary read length i) (hi : i < length) :
      Boundary read length ((read i).2.2 + 1)

/-- A character of the source: where it begins, where the next one begins, and what is written. -/
structure SourceUnit (δ : Type) where
  start : Nat
  stop : Nat
  chars : List δ

/-- The characters from a place of the source on. -/
inductive Units (read : Nat → Bool × Nat × Nat) (write : Nat → List δ) (length : Nat) :
    Nat → List (SourceUnit δ) → Prop
  | done {i : Nat} (hi : length ≤ i) : Units read write length i []
  | unit {i : Nat} {us : List (SourceUnit δ)} (hi : i < length)
      (h : Units read write length ((read i).2.2 + 1) us) :
      Units read write length i
        (⟨i, (read i).2.2 + 1, write (if (read i).1 then (read i).2.1 else 0xfffd)⟩ :: us)

def SourceUnit.adjustment (target : Target) (u : SourceUnit δ) : Adjustment target :=
  ⟨.ofNat _ u.start, .ofNat _ (u.stop - 1) - .ofNat _ u.start + 1, .ofNat _ u.chars.length⟩

end Definitions

/-! ## The loop goes over the characters -/

section Loop

variable {α δ : Type} {target : Target} {read : Nat → Bool × Nat × Nat} {write : Nat → List δ}
  {length : Nat}

theorem Units.unique {i : Nat} {us us' : List (SourceUnit δ)} (h : Units read write length i us)
    (h' : Units read write length i us') : us = us' := by
  induction h generalizing us' with
  | done hi =>
    cases h' with
    | done => rfl
    | unit hi' => omega
  | unit hi _ ih =>
    cases h' with
    | done hi' => omega
    | unit _ h' => rw [ih h']

theorem convertLoop_units (hread : ∀ i < length, i ≤ (read i).2.2) {fuel i : Nat}
    (hfuel : length ≤ fuel + i) (success : Bool) (output : List δ)
    (adjustments : List (Adjustment target)) :
    ∃ us, Units read write length i us ∧
      (convertLoop target read write length fuel i success output adjustments).2 =
        (output ++ us.flatMap SourceUnit.chars,
          adjustments ++ us.map (SourceUnit.adjustment target)) := by
  induction fuel generalizing i success output adjustments with
  | zero => exact ⟨[], .done (by omega), by simp [convertLoop]⟩
  | succ fuel ih =>
    rw [convertLoop]
    by_cases hi : i < length
    · have hle := hread i hi
      obtain ⟨us, hus, hloop⟩ := ih (i := (read i).2.2 + 1) (by omega) (success && (read i).1)
        (output ++ write (if (read i).1 then (read i).2.1 else 0xfffd)) _
      refine ⟨_, .unit hi hus, ?_⟩
      rw [if_pos hi]
      rw [hloop]
      simp [SourceUnit.adjustment]
    · exact ⟨[], .done (by omega), by rw [if_neg hi]; simp⟩

/-- The string is the one of the conversion without offsets. -/
theorem convertLoop_plain (fuel i : Nat) (success : Bool) (output : List δ)
    (adjustments : List (Adjustment target)) :
    (convertLoop target read write length fuel i success output adjustments).1 =
        (Base.convertLoop read write length fuel i success output).1 ∧
      (convertLoop target read write length fuel i success output adjustments).2.1 =
        (Base.convertLoop read write length fuel i success output).2 := by
  induction fuel generalizing i success output adjustments with
  | zero => exact ⟨rfl, rfl⟩
  | succ fuel ih =>
    rw [convertLoop, Base.convertLoop]
    by_cases hi : i < length
    · rw [if_pos hi, if_pos hi]
      dsimp only
      cases hvalid : (read i).1 with
      | true =>
        rw [if_pos rfl, if_pos rfl, Bool.and_true]
        exact ih _ _ _ _
      | false =>
        rw [if_neg Bool.false_ne_true, if_neg Bool.false_ne_true, Bool.and_false]
        exact ih _ _ _ _
    · rw [if_neg hi, if_neg hi]
      exact ⟨rfl, rfl⟩

theorem Units.lt_stop (hread : ∀ i < length, i ≤ (read i).2.2) {i : Nat}
    {us : List (SourceUnit δ)} (h : Units read write length i us) : ∀ u ∈ us, i < u.stop := by
  induction h with
  | done => exact nofun
  | unit hi _ ih =>
    have hle := hread _ hi
    refine forall_mem_cons.mpr ⟨by dsimp only; omega, fun u hu => ?_⟩
    have := ih u hu
    omega

/-- The places that a reader comes to from here are where the characters stop. -/
theorem Units.boundary {i k : Nat} {us : List (SourceUnit δ)} (h : Units read write length i us)
    (hi : Boundary read length i) (hk : k = i ∨ ∃ u ∈ us, u.stop = k) : Boundary read length k := by
  induction h with
  | done =>
    rcases hk with rfl | ⟨u, hu, -⟩
    · exact hi
    · cases hu
  | unit hlt _ ih =>
    rcases hk with rfl | ⟨u, hu, hstop⟩
    · exact hi
    · rcases mem_cons.mp hu with rfl | hu
      · exact hstop ▸ hi.next hlt
      · exact ih (hi.next hlt) (Or.inr ⟨u, hu, hstop⟩)

theorem Units.of_boundary {k : Nat} {us : List (SourceUnit δ)} (h : Units read write length 0 us)
    (hk : Boundary read length k) : k = 0 ∨ ∃ u ∈ us, u.stop = k := by
  have hrest : ∃ rest, Units read write length k rest ∧ rest <:+ us ∧
      (k = 0 ∨ ∃ u ∈ us, u.stop = k) := by
    induction hk with
    | start => exact ⟨us, h, suffix_refl us, .inl rfl⟩
    | @next i _ hi ih =>
      obtain ⟨rest, hrest, hsuf, -⟩ := ih
      cases hrest with
      | done hle => omega
      | unit _ hrest =>
        exact ⟨_, hrest, (suffix_cons _ _).trans hsuf,
          .inr ⟨_, hsuf.subset mem_cons_self, rfl⟩⟩
  exact hrest.choose_spec.2.2

end Loop

/-! ## The offsets -/

section Offsets

variable {α δ : Type} {target : Target} {read : Nat → Bool × Nat × Nat} {write : Nat → List δ}
  {length : Nat}

/-- A writer writes something, and not more than four units. -/
def Writes (write : Nat → List δ) : Prop := ∀ c, 0 < (write c).length ∧ (write c).length ≤ 4

theorem two_pow_sizeBits (target : Target) : 2 ^ 31 < 2 ^ target.sizeBits := by
  rcases target.sizeBits_eq with h | h <;> rw [h] <;> decide

theorem toNat_ofNat_sizeT {n : Nat} (h : n < 2 ^ 31) :
    (BitVec.ofNat target.sizeBits n).toNat = n := by
  rw [BitVec.toNat_ofNat]
  exact mod_eq_of_lt (h.trans (two_pow_sizeBits target))

/-- The written characters that stop at a place or before it. -/
def charsUpTo (us : List (SourceUnit δ)) (k : Nat) : List δ :=
  (us.filter fun u => u.stop ≤ k).flatMap SourceUnit.chars

theorem originalLength_eq {start stop : Nat} (h : start < stop) :
    (BitVec.ofNat target.sizeBits (stop - 1) - BitVec.ofNat target.sizeBits start + 1) =
      BitVec.ofNat target.sizeBits stop - BitVec.ofNat target.sizeBits start := by
  obtain ⟨n, rfl⟩ : ∃ n, stop = n + 1 := ⟨stop - 1, by omega⟩
  have hone : BitVec.ofNat target.sizeBits 1 = 1 := rfl
  rw [Nat.add_sub_cancel, BitVec.ofNat_add, hone]
  ring

/-- One turn of AdjustOffset, past a character that was written as one to four units. -/
theorem adjustLoop_cons {u : SourceUnit δ} (hstop : u.start < u.stop) (hlt : u.stop < 2 ^ 31)
    (hpos : 0 < u.chars.length) (hfour : u.chars.length ≤ 4) (offset : SizeT target)
    (written : Nat) (adjustments : List (Adjustment target)) :
    adjustLoop offset (.ofNat _ u.start - .ofNat _ written)
        (u.adjustment target :: adjustments) =
      if offset.toNat ≤ u.start then offset - (.ofNat _ u.start - .ofNat _ written)
      else if offset.toNat < u.stop then npos target
      else adjustLoop offset (.ofNat _ u.stop - .ofNat _ (written + u.chars.length))
        adjustments := by
  have hchars : BitVec.ofNat target.sizeBits u.chars.length ≠ 0 := by
    intro hzero
    have hnat := congrArg BitVec.toNat hzero
    rw [toNat_ofNat_sizeT (by omega)] at hnat
    exact absurd hnat (pos_iff_ne_zero.mp hpos)
  have hsum : BitVec.ofNat target.sizeBits u.start + (.ofNat _ u.stop - .ofNat _ u.start) =
      .ofNat _ u.stop := by ring
  have hnext : (BitVec.ofNat target.sizeBits u.start - .ofNat _ written) +
      (.ofNat _ u.stop - .ofNat _ u.start - .ofNat _ u.chars.length) =
      .ofNat _ u.stop - .ofNat _ (written + u.chars.length) := by
    rw [BitVec.ofNat_add written]
    ring
  rw [adjustLoop, SourceUnit.adjustment]
  rw [originalLength_eq hstop, if_neg fun h => hchars h.2, hsum, hnext]
  simp only [BitVec.le_def, BitVec.lt_def]
  rw [toNat_ofNat_sizeT (by omega), toNat_ofNat_sizeT hlt]

/-- From a character on, AdjustOffset takes a place between two characters to the written units in
front of it. -/
theorem adjustLoop_units (hread : ∀ i < length, i ≤ (read i).2.2 ∧ (read i).2.2 < length)
    (hwrite : Writes write) (hlen : length < 2 ^ 31) {offset : SizeT target} {i : Nat}
    {us : List (SourceUnit δ)} (h : Units read write length i us) (written : Nat)
    (hoff : i ≤ offset.toNat) (hlt : offset.toNat < length) :
    (offset.toNat = i ∨ (∃ u ∈ us, u.stop = offset.toNat) →
      adjustLoop offset (.ofNat _ i - .ofNat _ written) (us.map (SourceUnit.adjustment target)) =
        .ofNat _ (written + (charsUpTo us offset.toNat).length)) ∧
    (¬(offset.toNat = i ∨ ∃ u ∈ us, u.stop = offset.toNat) →
      adjustLoop offset (.ofNat _ i - .ofNat _ written) (us.map (SourceUnit.adjustment target)) =
        npos target) := by
  induction h generalizing written with
  | done hi => omega
  | @unit i us hi hus ih =>
    obtain ⟨hle, hlast⟩ := hread i hi
    have hstops := hus.lt_stop fun j hj => (hread j hj).1
    obtain ⟨u, hu⟩ : ∃ u : SourceUnit δ, u = ⟨i, (read i).2.2 + 1,
        write (if (read i).1 then (read i).2.1 else 0xfffd)⟩ := ⟨_, rfl⟩
    obtain ⟨hpos, hfour⟩ : 0 < u.chars.length ∧ u.chars.length ≤ 4 := hu ▸ hwrite _
    have hstart : u.start = i := hu ▸ rfl
    have hstop : u.stop = (read i).2.2 + 1 := hu ▸ rfl
    rw [← hu, map_cons, ← hstart, adjustLoop_cons (by omega) (by omega) hpos hfour]
    rw [← hstop] at ih hstops
    rcases eq_or_lt_of_le hoff with heq | hbehind
    · -- In front of this character, and so of all that follow.
      have hnone : charsUpTo (u :: us) offset.toNat = [] := by
        rw [charsUpTo, filter_eq_nil_iff.mpr, flatMap_nil]
        refine forall_mem_cons.mpr ⟨by simp; omega, fun v hv => ?_⟩
        have := hstops v hv
        simp
        omega
      have hself : offset = .ofNat _ u.start := by
        rw [hstart, heq, BitVec.ofNat_toNat, BitVec.setWidth_eq]
      rw [if_pos (by omega), hnone]
      refine ⟨fun _ => ?_, fun hnot => absurd (Or.inl (by omega)) hnot⟩
      rw [hself, length_nil, add_zero]
      ring
    · rw [if_neg (by omega)]
      rcases lt_or_ge offset.toNat u.stop with hin | hafter
      · rw [if_pos hin]
        refine ⟨fun hbound => ?_, fun _ => rfl⟩
        rcases hbound with hbound | ⟨v, hv, hbound⟩
        · omega
        · rcases mem_cons.mp hv with rfl | hv
          · omega
          · have := hstops v hv
            omega
      · have hcons : charsUpTo (u :: us) offset.toNat = u.chars ++ charsUpTo us offset.toNat := by
          rw [charsUpTo, filter_cons_of_pos (by simpa using hafter), flatMap_cons]
          rfl
        have hbound : (offset.toNat = u.start ∨ ∃ v ∈ u :: us, v.stop = offset.toNat) ↔
            (offset.toNat = u.stop ∨ ∃ v ∈ us, v.stop = offset.toNat) := by
          rw [exists_mem_cons_iff, eq_comm (a := u.stop), or_iff_right (by omega)]
        rw [if_neg (by omega), hbound, hcons, length_append, ← add_assoc]
        exact ih _ hafter

end Offsets

/-! ## The conversion of a prefix -/

/-- A reader goes on inside the source, and reads in a prefix what it reads in the whole when that
ends in the prefix. -/
structure PrefixReader {α : Type} (read : List α → Nat → Nat → Bool × Nat × Nat) : Prop where
  bounds : ∀ {src : List α} {i : Nat}, i < src.length →
    i ≤ (read src src.length i).2.2 ∧ (read src src.length i).2.2 < src.length
  take : ∀ {src : List α} {k i : Nat}, k ≤ src.length → i < k →
    (read src src.length i).2.2 < k → read (src.take k) k i = read src src.length i

/-- What an offset is to become. -/
def MapsOffset {α δ : Type} {target : Target} (read : List α → Nat → Nat → Bool × Nat × Nat)
    (convert : List α → List δ) (src : List α) (offset offset' : SizeT target) : Prop :=
  (offset.toNat < src.length ∧ Boundary (read src src.length) src.length offset.toNat →
    offset' = .ofNat _ (convert (src.take offset.toNat)).length) ∧
  (¬(offset.toNat < src.length ∧ Boundary (read src src.length) src.length offset.toNat) →
    offset' = npos target)

section Prefixes

variable {α δ : Type} {target : Target} {read : List α → Nat → Nat → Bool × Nat × Nat}
  {write : Nat → List δ} {src : List α}

section

variable (hreader : PrefixReader read)
include hreader

theorem Units.take {i k : Nat} {us : List (SourceUnit δ)}
    (h : Units (read src src.length) write src.length i us) (hk : k ≤ src.length) (hi : i ≤ k)
    (hbound : k = i ∨ ∃ u ∈ us, u.stop = k) :
    Units (read (src.take k) k) write k i (us.filter fun u => u.stop ≤ k) := by
  induction h with
  | done hle => exact .done (by omega)
  | @unit i us hlt hus ih =>
    have hstops := hus.lt_stop fun j hj => (hreader.bounds hj).1
    have hle := (hreader.bounds hlt).1
    rcases eq_or_lt_of_le hi with rfl | hbehind
    · rw [filter_eq_nil_iff.mpr]
      · exact .done (le_refl _)
      · refine forall_mem_cons.mpr ⟨by simp; omega, fun u hu => ?_⟩
        have := hstops u hu
        simp
        omega
    · have hnext : k = (read src src.length i).2.2 + 1 ∨ ∃ u ∈ us, u.stop = k := by
        rcases hbound with hbound | ⟨u, hu, hbound⟩
        · omega
        · rcases mem_cons.mp hu with rfl | hu
          · exact .inl hbound.symm
          · exact .inr ⟨u, hu, hbound⟩
      have hstop : (read src src.length i).2.2 + 1 ≤ k := by
        rcases hnext with hnext | ⟨u, hu, hnext⟩
        · omega
        · have := hstops u hu
          omega
      have hread := hreader.take hk hbehind hstop
      rw [filter_cons_of_pos (by simpa using hstop), ← hread]
      refine .unit hbehind ?_
      rw [hread]
      exact ih hstop hnext

/-- The loop of a conversion without offsets writes the characters. -/
theorem convertUnicode_units (hlen : src.length < 2 ^ 31)
    {us : List (SourceUnit δ)} (hus : Units (read src src.length) write src.length 0 us) :
    (Base.convertUnicode (read src) write src.length).2 = us.flatMap SourceUnit.chars := by
  obtain ⟨us', hus', hloop⟩ := @convertLoop_units _ .lp64 _ write src.length
    (fun i hi => (hreader.bounds hi).1) src.length 0 (le_refl _) true [] []
  have hplain := (@convertLoop_plain _ .lp64 (read src src.length) write src.length src.length 0
    true [] []).2
  rw [Base.convertUnicode, wrapInt_of_lt hlen, ← hplain, hloop, hus'.unique hus]
  rfl

theorem mapsOffset_adjust (hwrite : Writes write)
    (hlen : src.length < 2 ^ 31) {us : List (SourceUnit δ)}
    (hus : Units (read src src.length) write src.length 0 us) (offset : SizeT target) :
    MapsOffset read (fun s => (Base.convertUnicode (read s) write s.length).2) src offset
      (if (us.map (SourceUnit.adjustment target)).isEmpty then limitOffset src.length offset
        else adjustOffset (us.map (SourceUnit.adjustment target))
          (limitOffset src.length offset)) := by
  rw [limitOffset]
  rcases lt_or_ge offset.toNat src.length with hlt | hge
  · have hne : us ≠ [] := by
      rintro rfl
      cases hus
      omega
    have hnpos : offset ≠ npos target := by
      rintro rfl
      have := two_pow_sizeBits target
      rw [npos, BitVec.toNat_allOnes] at hlt
      omega
    have hzero : BitVec.ofNat target.sizeBits 0 - BitVec.ofNat target.sizeBits 0 = 0 :=
      BitVec.sub_self _
    obtain ⟨hon, hoff⟩ := adjustLoop_units (fun i hi => hreader.bounds hi) hwrite hlen hus 0
      (zero_le _) hlt
    rw [if_neg (by simpa using hne), if_neg (by omega), adjustOffset, if_neg hnpos, ← hzero]
    constructor
    · rintro ⟨-, hbound⟩
      have hstops := hus.of_boundary hbound
      have htake := hus.take hreader (le_of_lt hlt) (zero_le _) hstops
      have htaken : (src.take offset.toNat).length = offset.toNat :=
        length_take_of_le (le_of_lt hlt)
      have hconvert := @convertUnicode_units _ _ _ write (src.take offset.toNat) hreader
        (by omega) _ (by rw [htaken]; exact htake)
      dsimp only
      rw [hon hstops, hconvert, zero_add]
      rfl
    · intro hnot
      refine hoff fun hstops => hnot ⟨hlt, hus.boundary .start hstops⟩
  · rw [if_pos hge]
    refine ⟨fun h => absurd h.1 (by omega), fun _ => ?_⟩
    split
    · rfl
    · rw [adjustOffset, if_pos rfl]

end

/-- ConvertUnicode gives the string of the plain conversion, and takes an offset at a character to
the length of the conversion of what stands in front of it. -/
theorem convertUnicode_spec (hreader : PrefixReader read) (hwrite : Writes write)
    (hlen : src.length < 2 ^ 31) (offsets : List (SizeT target)) :
    (convertUnicode read write src offsets).2.1 =
        (Base.convertUnicode (read src) write src.length).2 ∧
      List.Forall₂
        (MapsOffset read (fun s => (Base.convertUnicode (read s) write s.length).2) src)
        offsets (convertUnicode read write src offsets).2.2 := by
  obtain ⟨us, hus, hloop⟩ := @convertLoop_units _ target _ write src.length
    (fun i hi => (hreader.bounds hi).1) src.length 0 (le_refl _) true [] []
  obtain ⟨houtput, hadjustments⟩ := Prod.ext_iff.mp hloop
  rw [convertUnicode, wrapInt_of_lt hlen]
  dsimp only
  rw [houtput, hadjustments, convertUnicode_units hreader hlen hus]
  refine ⟨rfl, ?_⟩
  dsimp only
  rw [nil_append]
  have hmap : adjustOffsets (us.map (SourceUnit.adjustment target))
      (offsets.map (limitOffset src.length)) = offsets.map fun offset =>
        if (us.map (SourceUnit.adjustment target)).isEmpty then limitOffset src.length offset
        else adjustOffset (us.map (SourceUnit.adjustment target))
          (limitOffset src.length offset) := by
    rw [adjustOffsets]
    split <;> simp
  rw [hmap, forall₂_map_right_iff, forall₂_same]
  exact fun offset _ => mapsOffset_adjust hreader hwrite hlen hus offset

end Prefixes

/-! ## The readers -/

variable {mem : ByteMemory.Memory} {i : Nat}

theorem skipTrailBytes_of_le {m n : Nat} (hmn : m ≤ n) (h : skipTrailBytes mem n i ≤ i + m) :
    skipTrailBytes mem m i = skipTrailBytes mem n i := by
  induction m generalizing n i with
  | zero =>
    have := (skipTrailBytes_le mem n i).1
    rw [skipTrailBytes]
    omega
  | succ m ih =>
    obtain ⟨n, rfl⟩ : ∃ n', n = n' + 1 := ⟨n - 1, by omega⟩
    rw [skipTrailBytes] at h ⊢
    rw [skipTrailBytes]
    split
    · rename_i htrail
      rw [if_pos htrail] at h
      exact ih (by omega) (by omega)
    · rfl

variable {mem' : ByteMemory.Memory}

theorem skipTrailBytes_congr {n : Nat} (h : ∀ j < i + n, mem j = mem' j) :
    skipTrailBytes mem n i = skipTrailBytes mem' n i := by
  induction n generalizing i with
  | zero => rfl
  | succ n ih => rw [skipTrailBytes, skipTrailBytes, h i (by omega), ih fun j hj => h j (by omega)]

theorem takeTrails_congr {c n : Nat} (h : ∀ j < i + n, mem j = mem' j) :
    takeTrails mem c i n = takeTrails mem' c i n := by
  unfold takeTrails
  split
  · simp only [takeTrail, h i (by omega)]
  · simp only [takeTrail, h i (by omega), h (i + 1) (by omega)]
  · simp only [takeTrail, h i (by omega), h (i + 1) (by omega), h (i + 1 + 1) (by omega)]
    rfl
  · rfl

/-- Trail bytes that are all legal are all taken. -/
theorem takeTrails_index {c n : Nat} (h : (takeTrails mem c i n).2.1 = false) :
    (takeTrails mem c i n).2.2 = i + n := by
  unfold takeTrails at h ⊢
  split at h
  · rfl
  · rfl
  · dsimp only at h ⊢
    split at h
    · rename_i hsmall
      rw [if_pos hsmall]
      rfl
    · cases h
  · cases h

/-- CBU8_NEXT looks at no byte behind the end it is given. -/
theorem cbu8Next_congr {length : Nat} (hi : i < length) (h : ∀ j < length, mem j = mem' j) :
    cbu8Next mem i length = cbu8Next mem' i length := by
  rw [cbu8Next, cbu8Next, h i hi, nextCharSafeBody, nextCharSafeBody]
  by_cases hroom : i + 1 + countTrailBytes (mem' i) ≤ length
  · rw [takeTrails_congr fun j hj => h j (by omega),
      skipTrailBytes_congr (n := countTrailBytes (mem' i)) fun j hj => h j (by omega), if_pos hroom,
      if_pos hroom]
  · rw [if_neg hroom, if_neg hroom, skipTrailBytes_congr fun j hj => h j (by omega)]

/-- A character that ends in front of a nearer end is read there as well. -/
theorem cbu8Next_nearer {k length : Nat} (hk : k ≤ length) (hi : i < k)
    (h : (cbu8Next mem i length).2 ≤ k) : cbu8Next mem i k = cbu8Next mem i length := by
  rw [cbu8Next] at h ⊢
  rw [cbu8Next]
  by_cases hhigh : mem i ≥ 0x80
  · by_cases hlead : isLeadByte (mem i) = true
    · simp only [if_pos hhigh, if_pos hlead] at h ⊢
      rw [nextCharSafeBody] at h ⊢
      rw [nextCharSafeBody]
      dsimp only at h ⊢
      by_cases hroom : i + 1 + countTrailBytes (mem i) ≤ length
      · rw [if_pos hroom] at h ⊢
        by_cases hroom' : i + 1 + countTrailBytes (mem i) ≤ k
        · rw [if_pos hroom']
        · rw [if_neg hroom']
          split at h
          · rename_i hillegal
            rw [if_pos hillegal, skipTrailBytes_of_le (m := k - (i + 1))
              (n := countTrailBytes (mem i)) (by omega) (by omega)]
          · rename_i hlegal
            simp only [Bool.or_eq_true, not_or, Bool.not_eq_true] at hlegal
            have hindex := takeTrails_index hlegal.1.1
            have hend := le_trans (le_of_eq hindex.symm) h
            omega
      · rw [if_neg hroom] at h ⊢
        rw [if_neg (by omega), skipTrailBytes_of_le (m := k - (i + 1)) (n := length - (i + 1))
          (by omega) (by omega)]
    · simp only [if_pos hhigh, if_neg hlead]
  · simp only [if_neg hhigh]

theorem prefixReader_readUnicodeCharacter : PrefixReader readUnicodeCharacter where
  bounds := fun hi => ⟨(readUnicodeCharacter_readsAt hi).le, (readUnicodeCharacter_readsAt hi).lt⟩
  take := by
    intro src k i hk hi hstop
    have hend : (cbu8Next (ByteMemory.ofBytes src) i src.length).2 ≤ k := by
      rw [readUnicodeCharacter] at hstop
      dsimp only at hstop
      omega
    have hsame : cbu8Next (ByteMemory.ofBytes (src.take k)) i k =
        cbu8Next (ByteMemory.ofBytes src) i src.length := by
      rw [← cbu8Next_nearer hk hi hend]
      refine cbu8Next_congr hi fun j hj => ?_
      rw [ByteMemory.ofBytes, ByteMemory.ofBytes, getElem?_take_of_lt hj]
    rw [readUnicodeCharacter, readUnicodeCharacter, hsame]

theorem prefixReader_readUnicodeCharacter16 : PrefixReader readUnicodeCharacter16 where
  bounds := fun hi =>
    ⟨(readUnicodeCharacter16_readsAt hi).le, (readUnicodeCharacter16_readsAt hi).lt⟩
  take := by
    intro src k i hk hi hstop
    have hunit : (src.take k).getD i 0 = src.getD i 0 := by
      simp only [getD_eq_getElem?_getD, getElem?_take_of_lt hi]
    rcases lt_or_ge (i + 1) k with hnext | hlast
    · have hunit' : (src.take k).getD (i + 1) 0 = src.getD (i + 1) 0 := by
        simp only [getD_eq_getElem?_getD, getElem?_take_of_lt hnext]
      rw [readUnicodeCharacter16, readUnicodeCharacter16, hunit, hunit']
      have hends : decide (i + 1 ≥ k) = decide (i + 1 ≥ src.length) := by
        rw [decide_eq_decide]
        omega
      rw [hends]
    · -- The unit in front of the end is no lead of a pair, which would stop behind it.
      rw [readUnicodeCharacter16] at hstop ⊢
      rw [readUnicodeCharacter16, hunit]
      split
      · rename_i hs
        rw [if_pos hs] at hstop
        split at hstop
        · rename_i hbad
          rw [if_pos hbad, if_pos (by simp [hlast])]
        · dsimp only at hstop
          omega
      · rfl

theorem writes_writeUnicodeCharacter16 : Writes writeUnicodeCharacter16 := by
  intro c
  unfold writeUnicodeCharacter16
  split <;> simp

theorem writes_writeUnicodeCharacter : Writes writeUnicodeCharacter := by
  intro c
  rw [writeUnicodeCharacter_eq]
  unfold appendUnsafe
  split_ifs <;> simp

/-! ## Both conversions -/

/-- Of a source of fewer than 2 ^ 31 units the string is the one of the plain conversion; an offset
at a character becomes the length of the conversion of what stands in front of it, and every other
offset becomes npos. -/
theorem adjust_offsets (target : Target) :
    (∀ src : Bytes, src.length < 2 ^ 31 → ∀ offsets : List (SizeT target),
      (utf8ToUTF16AndAdjustOffsets src offsets).1 = (utf8ToUTF16 src).2 ∧
      List.Forall₂ (MapsOffset readUnicodeCharacter (fun s => (utf8ToUTF16 s).2) src) offsets
        (utf8ToUTF16AndAdjustOffsets src offsets).2) ∧
    (∀ src : List UInt16, src.length < 2 ^ 31 → ∀ offsets : List (SizeT target),
      (utf16ToUTF8AndAdjustOffsets src offsets).1 = (utf16ToUTF8 src).2 ∧
      List.Forall₂ (MapsOffset readUnicodeCharacter16 (fun s => (utf16ToUTF8 s).2) src) offsets
        (utf16ToUTF8AndAdjustOffsets src offsets).2) :=
  ⟨fun _ hlength offsets => convertUnicode_spec prefixReader_readUnicodeCharacter
      writes_writeUnicodeCharacter16 hlength offsets,
    fun _ hlength offsets => convertUnicode_spec prefixReader_readUnicodeCharacter16
      writes_writeUnicodeCharacter hlength offsets⟩

theorem adjust_offsets_accent :
    List.Forall₂ (MapsOffset readUnicodeCharacter (fun s => (utf8ToUTF16 s).2) [0xc3, 0xa9, 0x61])
      [2, 0, 1, 3] (@utf8ToUTF16AndAdjustOffsets .lp64 [0xc3, 0xa9, 0x61] [2, 0, 1, 3]).2 :=
  ((adjust_offsets .lp64).1 [0xc3, 0xa9, 0x61] (by decide) [2, 0, 1, 3]).2

/-- The length of 2 GiB is negative as an `int32`: nothing is converted, and an offset inside a
character stays. -/
theorem adjust_offsets_long :
    (@utf8ToUTF16AndAdjustOffsets .lp64
        (0xc3 :: 0xa9 :: replicate (2 ^ 31 - 2) 0x61) [1]).2 = [1] ∧
      ¬List.Forall₂ (MapsOffset readUnicodeCharacter (fun s => (utf8ToUTF16 s).2)
        (0xc3 :: 0xa9 :: replicate (2 ^ 31 - 2) 0x61)) [1]
        (@utf8ToUTF16AndAdjustOffsets .lp64
          (0xc3 :: 0xa9 :: replicate (2 ^ 31 - 2) 0x61) [1]).2 := by
  generalize hsrc : (0xc3 :: 0xa9 :: replicate (2 ^ 31 - 2) 0x61 : Bytes) = src
  have hlength : src.length = 2 ^ 31 := by
    rw [← hsrc, length_cons, length_cons, length_replicate]
    rfl
  have hkeeps : (@utf8ToUTF16AndAdjustOffsets .lp64 src [1]).2 = [1] := by
    have hwrap : (wrapInt ((2 ^ 31 : Nat) : Int)).toNat = 0 := by decide
    have hnone : ∀ fuel, convertLoop Target.lp64 (readUnicodeCharacter src 0)
        writeUnicodeCharacter16 0 fuel 0 true [] [] = (true, [], []) := by
      intro fuel
      cases fuel <;> rfl
    rw [utf8ToUTF16AndAdjustOffsets, convertUnicode, hlength, hwrap, hnone]
    rfl
  refine ⟨hkeeps, ?_⟩
  rw [hkeeps, forall₂_cons]
  rintro ⟨⟨-, hoff⟩, -⟩
  have hread : (readUnicodeCharacter src src.length 0).2.2 = 1 := by
    have htaken : appendUnsafe 0xe9 <+: src.drop 0 := by
      rw [← hsrc]
      exact ⟨replicate (2 ^ 31 - 2) 0x61, rfl⟩
    rw [readUnicodeCharacter, cbu8Next_of_isPrefix (isScalar_iff.mpr (by omega)) htaken]
    rfl
  have hboundary : ∀ k, Boundary (readUnicodeCharacter src src.length) src.length k →
      k = 0 ∨ 2 ≤ k := by
    intro k hk
    induction hk with
    | start => exact .inl rfl
    | next _ hi ih =>
      rcases ih with rfl | hle
      · rw [hread]
        exact .inr (le_refl 2)
      · have := (readUnicodeCharacter_readsAt hi).le
        omega
  have hnpos := hoff fun h => by
    rcases hboundary _ h.2 with hzero | htwo
    · exact absurd hzero (by decide)
    · exact absurd htwo (by decide)
  exact absurd hnpos (by decide)

end ChromiumUI.Base.UtfOffsets
