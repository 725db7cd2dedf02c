import ChromiumUI.UtfConversions

/-!
# TruncateUTF8ToByteSize

IsStringUTF8 reads a string front to back, TruncateUTF8ToByteSize looks for the last character
that ends in front of the limit. Both have an `int32` for an index.
-/
namespace ChromiumUI.Base

open ByteMemory PrefixCodes List Option Nat

/-- The loop of IsStringUTF8, of which each turn goes on by a byte at least. -/
def isStringUTF8Loop (src : Bytes) (srcLen : Nat) : Nat → Nat → Bool
  | 0, _ => true
  | fuel + 1, charIndex =>
    if charIndex < srcLen then
      let next := cbu8Next (ofBytes src) charIndex srcLen
      if !isValidCharacter (next.1.getD 0xffffffff) then false
      else isStringUTF8Loop src srcLen fuel next.2
    else true

def isStringUTF8 (str : Bytes) : Bool :=
  let srcLen := (wrapInt str.length).toNat
  isStringUTF8Loop str srcLen srcLen 0

/-- The loop of TruncateUTF8ToByteSize from the index one below this: where the character that it
breaks at ends. -/
def truncateLoop (data : Bytes) (truncationLength : Nat) : Nat → Option Nat
  | 0 => none
  | charIndex + 1 =>
    let next := cbu8Next (ofBytes data) charIndex truncationLength
    let codePoint := next.1.getD 0xffffffff
    if !isValidCharacter codePoint || !isValidCodepoint codePoint then
      truncateLoop data truncationLength charIndex
    else some next.2

def truncateUTF8ToByteSize (input : Bytes) (byteSize : Nat) : Bytes :=
  if byteSize > input.length then input
  else
    let truncationLength := (wrapInt byteSize).toNat
    match truncateLoop input truncationLength truncationLength with
    | some charIndex => input.take charIndex
    | none => []

/-! ## IsStringUTF8 -/

/-- UTF-8 of characters that IsValidCharacter admits. -/
abbrev ValidUTF8 (s : Bytes) : Prop := WellFormed appendUnsafe (isValidCharacter · = true) s

theorem isValidCharacter_error : isValidCharacter 0xffffffff = false := by decide

/-- Where CBU8_NEXT reads a code point, its bytes come next. -/
theorem drop_of_cbu8Next {src : Bytes} {i c j : Nat} {length : Nat} (hlen : length ≤ src.length)
    (h : cbu8Next (ofBytes src) i length = (some c, j)) (hi : i < length) :
    IsScalar c ∧ j = i + (appendUnsafe c).length ∧ j ≤ length ∧
      src.drop i = appendUnsafe c ++ src.drop j := by
  obtain ⟨hc, hload, rfl, hle⟩ := cbu8Next_iff.mp h
  have hend : i + (appendUnsafe c).length ≤ length := by
    rcases hle with hle | hone
    · exact hle
    · rw [appendUnsafe_one hone]
      exact hi
  rw [load_ofBytes_drop src (by omega)] at hload
  refine ⟨hc, rfl, hend, ?_⟩
  conv => lhs; rw [← take_append_drop (appendUnsafe c).length (src.drop i)]
  rw [hload, drop_drop]

theorem isStringUTF8Loop_iff {src : Bytes} {fuel i : Nat} (hfuel : src.length ≤ fuel + i) :
    isStringUTF8Loop src src.length fuel i = true ↔ ValidUTF8 (src.drop i) := by
  induction fuel generalizing i with
  | zero =>
    rw [drop_of_length_le (by omega)]
    exact ⟨fun _ => ⟨[], nofun, rfl⟩, fun _ => rfl⟩
  | succ fuel ih =>
    rw [isStringUTF8Loop]
    by_cases hi : i < src.length
    · rw [if_pos hi]
      dsimp only
      constructor
      · intro h
        split at h
        · cases h
        · rename_i hvalid
          rw [Bool.not_eq_true', Bool.not_eq_false] at hvalid
          cases hnext : (cbu8Next (ofBytes src) i src.length).1 with
          | none =>
            rw [hnext, getD_none, isValidCharacter_error] at hvalid
            cases hvalid
          | some c =>
            rw [hnext, getD_some] at hvalid
            obtain ⟨-, -, -, hdrop⟩ := drop_of_cbu8Next (Nat.le_refl _) (Prod.ext hnext rfl) hi
            have hbounds := (@cbu8Next_bounds (ofBytes src) i src.length hi).1
            obtain ⟨cs, hcs, hrest⟩ := (ih (by omega)).mp h
            refine ⟨c :: cs, forall_mem_cons.mpr ⟨hvalid, hcs⟩, ?_⟩
            rw [hdrop, hrest, flatMap_cons]
      · rintro ⟨cs, hcs, hdrop⟩
        cases cs with
        | nil =>
          have := congrArg length hdrop
          rw [length_drop, flatMap_nil, length_nil] at this
          omega
        | cons c cs =>
          obtain ⟨hc, hcs⟩ := forall_mem_cons.mp hcs
          rw [flatMap_cons] at hdrop
          rw [cbu8Next_of_isPrefix (isValidCharacter_isScalar hc) ⟨_, hdrop.symm⟩,
            getD_some, hc, Bool.not_true, if_neg Bool.false_ne_true]
          have hpos := length_appendUnsafe_pos c
          refine (ih (by omega)).mpr ⟨cs, hcs, ?_⟩
          rw [← drop_drop, hdrop, drop_left]
    · rw [if_neg hi, drop_of_length_le (by omega)]
      exact ⟨fun _ => ⟨[], nofun, rfl⟩, fun _ => rfl⟩

/-- Of a string that an `int32` can count, IsStringUTF8 decides that it is UTF-8. -/
theorem isStringUTF8_iff {str : Bytes} (h : str.length < 2 ^ 31) :
    isStringUTF8 str = true ↔ ValidUTF8 str := by
  rw [isStringUTF8, wrapInt_of_lt h]
  exact isStringUTF8Loop_iff (Nat.le_refl _)

/-! ## Where characters begin -/

theorem isTrailByte_mod (x : Nat) : isTrailByte (UInt8.ofNat (x % 64 + 0x80)) = true := by
  rw [isTrailByte_iff, toNat_ofNat_lt (by omega)]
  omega

/-- Behind its first byte a character has trail bytes only. -/
theorem isTrailByte_of_mem_tail {c : Nat} (hc : IsScalar c) :
    ∀ b ∈ (appendUnsafe c).tail, isTrailByte b = true := by
  rcases Nat.lt_or_ge 0x7f c with h₁ | h₁
  · rcases Nat.lt_or_ge 0x7ff c with h₂ | h₂
    · rcases Nat.lt_or_ge 0xffff c with h₃ | h₃
      · rw [appendUnsafe_four h₃ hc.1]
        simp only [tail_cons, forall_mem_cons, isTrailByte_mod, true_and]
        exact nofun
      · rw [appendUnsafe_three h₂ h₃]
        simp only [tail_cons, forall_mem_cons, isTrailByte_mod, true_and]
        exact nofun
    · rw [appendUnsafe_two h₁ h₂]
      exact forall_mem_singleton.mpr (isTrailByte_mod c)
  · rw [appendUnsafe_one h₁]
    exact nofun

theorem not_isTrailByte_of_cbu8Next {mem : Memory} {i length c j : Nat}
    (h : cbu8Next mem i length = (some c, j)) : isTrailByte (mem i) = false := by
  have hhead := (cbu8Next_iff.mp h).head
  rw [Bool.eq_false_iff, Ne, isTrailByte_iff]
  omega

/-- Where no trail byte stands, a character begins. -/
theorem begins_of_not_trail {cs : List Nat} (hcs : ∀ c ∈ cs, IsScalar c) {i : Nat} {b : UInt8}
    (hb : (cs.flatMap appendUnsafe)[i]? = some b) (htrail : isTrailByte b = false) :
    ∃ front c back, cs = front ++ c :: back ∧ i = (front.flatMap appendUnsafe).length := by
  induction cs generalizing i with
  | nil => cases hb
  | cons c cs ih =>
    obtain ⟨hc, hcs⟩ := forall_mem_cons.mp hcs
    rw [flatMap_cons] at hb
    rcases Nat.lt_or_ge i (appendUnsafe c).length with hin | hout
    · cases i with
      | zero => exact ⟨[], c, cs, rfl, rfl⟩
      | succ i =>
        rw [getElem?_append_left hin, ← getElem?_tail] at hb
        rw [isTrailByte_of_mem_tail hc b (mem_of_getElem? hb)] at htrail
        cases htrail
    · rw [getElem?_append_right hout] at hb
      obtain ⟨front, d, back, rfl, hi⟩ := ih hcs hb
      refine ⟨c :: front, d, back, rfl, ?_⟩
      rw [flatMap_cons, length_append]
      omega

/-! ## TruncateUTF8ToByteSize -/

/-- Whether the loop breaks at an index. -/
def breaksAt (data : Bytes) (truncationLength charIndex : Nat) : Prop :=
  ∃ c, (cbu8Next (ofBytes data) charIndex truncationLength).1 = some c ∧
    isValidCharacter c = true

theorem breaksAt_iff {data : Bytes} {length i : Nat} :
    breaksAt data length i ↔
      (!isValidCharacter ((cbu8Next (ofBytes data) i length).1.getD 0xffffffff) ||
        !isValidCodepoint ((cbu8Next (ofBytes data) i length).1.getD 0xffffffff)) = false := by
  rw [Bool.or_eq_false_iff, Bool.not_eq_false', Bool.not_eq_false', breaksAt]
  cases (cbu8Next (ofBytes data) i length).1 with
  | none =>
    constructor
    · rintro ⟨_, h, -⟩
      cases h
    · intro h
      cases isValidCharacter_error.symm.trans h.1
  | some c =>
    constructor
    · rintro ⟨d, hd, hc⟩
      cases hd
      exact ⟨hc, isValidCodepoint_iff.mpr (isValidCharacter_isScalar hc)⟩
    · intro h
      exact ⟨c, rfl, h.1⟩

/-- The loop breaks at the last index where it can. -/
theorem truncateLoop_eq (data : Bytes) (length n : Nat) :
    (truncateLoop data length n = none ∧ ∀ i < n, ¬breaksAt data length i) ∨
      ∃ i < n, breaksAt data length i ∧ (∀ j, i < j → j < n → ¬breaksAt data length j) ∧
        truncateLoop data length n = some (cbu8Next (ofBytes data) i length).2 := by
  induction n with
  | zero => exact .inl ⟨rfl, nofun⟩
  | succ n ih =>
    rw [truncateLoop]
    by_cases hbreaks : breaksAt data length n
    · refine .inr ⟨n, lt_succ_self n, hbreaks, fun j hj hj' => absurd hj (by omega), ?_⟩
      rw [breaksAt_iff] at hbreaks
      exact if_neg (by simpa using hbreaks)
    · have hnext := hbreaks
      rw [breaksAt_iff] at hnext
      rw [if_pos (Bool.not_eq_false _ ▸ hnext)]
      rcases ih with ⟨hnone, hall⟩ | ⟨i, hi, hbreak, hlast, hsome⟩
      · refine .inl ⟨hnone, fun i hi => ?_⟩
        rcases Nat.lt_succ_iff_lt_or_eq.mp hi with hi | rfl
        · exact hall i hi
        · exact hbreaks
      · refine .inr ⟨i, by omega, hbreak, fun j hj hj' => ?_, hsome⟩
        rcases Nat.lt_succ_iff_lt_or_eq.mp hj' with hj' | rfl
        · exact hlast j hj hj'
        · exact hbreaks

section Characters

variable {cs : List Nat} {length : Nat}

/-- The loop breaks in front of a character that ends before the limit. -/
theorem breaksAt_character {front back : List Nat} {c : Nat}
    (hcs : ∀ d ∈ front ++ c :: back, isValidCharacter d = true)
    (hend : (front.flatMap appendUnsafe).length + (appendUnsafe c).length ≤ length) :
    breaksAt ((front ++ c :: back).flatMap appendUnsafe) length
      (front.flatMap appendUnsafe).length := by
  have hc : isValidCharacter c = true := hcs c (by simp)
  refine ⟨c, congrArg Prod.fst (cbu8Next_iff.mpr ⟨isValidCharacter_isScalar hc, ?_, rfl,
    .inl hend⟩), hc⟩
  rw [load_ofBytes_drop _ (by simp), flatMap_append, drop_left, flatMap_cons,
    take_left]

/-- Of characters in front of the limit the loop breaks at the last one. -/
theorem breaksAt_last (hcs : ∀ d ∈ cs, isValidCharacter d = true) {ds : List Nat} {d : Nat}
    (hds : ds ++ [d] <+: cs) (hle : ((ds ++ [d]).flatMap appendUnsafe).length ≤ length) :
    (ds.flatMap appendUnsafe).length < length ∧
      breaksAt (cs.flatMap appendUnsafe) length (ds.flatMap appendUnsafe).length := by
  obtain ⟨back, rfl⟩ := hds
  have hpos := length_appendUnsafe_pos d
  have hboth : ((ds ++ [d]).flatMap appendUnsafe).length =
      (ds.flatMap appendUnsafe).length + (appendUnsafe d).length := by simp
  rw [append_assoc] at hcs ⊢
  exact ⟨by omega, breaksAt_character hcs (by omega)⟩

/-- Where the loop breaks a character begins, and the index goes to its end. -/
theorem character_of_breaksAt (hcs : ∀ d ∈ cs, isValidCharacter d = true) {i : Nat}
    (hi : i < length) (hlen : length ≤ (cs.flatMap appendUnsafe).length)
    (h : breaksAt (cs.flatMap appendUnsafe) length i) :
    ∃ front c back, cs = front ++ c :: back ∧ i = (front.flatMap appendUnsafe).length ∧
      (cbu8Next (ofBytes (cs.flatMap appendUnsafe)) i length).2 =
        ((front ++ [c]).flatMap appendUnsafe).length ∧
      ((front ++ [c]).flatMap appendUnsafe).length ≤ length := by
  have hscalars : ∀ d ∈ cs, IsScalar d := fun d hd => isValidCharacter_isScalar (hcs d hd)
  obtain ⟨c, hnext, -⟩ := h
  have hpair : cbu8Next (ofBytes (cs.flatMap appendUnsafe)) i length =
      (some c, (cbu8Next (ofBytes (cs.flatMap appendUnsafe)) i length).2) := Prod.ext hnext rfl
  obtain ⟨hc, hj, hle, hdrop⟩ := drop_of_cbu8Next hlen hpair hi
  have htrail := not_isTrailByte_of_cbu8Next hpair
  have hget : (cs.flatMap appendUnsafe)[i]? =
      some (ofBytes (cs.flatMap appendUnsafe) i) := by
    rw [ofBytes, getElem?_eq_getElem (by omega)]
    rfl
  obtain ⟨front, d, back, rfl, rfl⟩ := begins_of_not_trail hscalars hget htrail
  have hd : IsScalar d := hscalars d (by simp)
  have hcd : c = d := by
    rw [flatMap_append, drop_left, flatMap_cons] at hdrop
    exact prefixCode_appendUnsafe.unique hc hd hdrop.symm
  have hboth : ((front ++ [d]).flatMap appendUnsafe).length =
      (front.flatMap appendUnsafe).length + (appendUnsafe d).length := by simp
  rw [hcd] at hj
  exact ⟨front, d, back, rfl, rfl, hj.trans hboth.symm, by omega⟩

end Characters

/-- A prefix that is accepted is of the first characters. -/
theorem characters_of_accepted {cs : List Nat} (hcs : ∀ d ∈ cs, isValidCharacter d = true)
    {s : Bytes} (hs : s <+: cs.flatMap appendUnsafe) (hshort : s.length < 2 ^ 31)
    (hacc : isStringUTF8 s = true) : ∃ ds, ds <+: cs ∧ s = ds.flatMap appendUnsafe := by
  obtain ⟨ds, hds, rfl⟩ := (isStringUTF8_iff hshort).mp hacc
  exact ⟨ds, prefixCode_appendUnsafe.isPrefix
    (fun d hd => isValidCharacter_isScalar (hds d hd))
    (fun d hd => isValidCharacter_isScalar (hcs d hd)) hs, rfl⟩

/-- The longest prefix of at most this many bytes that IsStringUTF8 accepts. -/
structure LongestUTF8 (input : Bytes) (byteSize : Nat) (output : Bytes) : Prop where
  isPrefix : output <+: input
  length_le : output.length ≤ byteSize
  accepted : isStringUTF8 output = true
  longest : ∀ s, s <+: input → s.length ≤ byteSize → isStringUTF8 s = true →
    s.length ≤ output.length

/-- TruncateUTF8ToByteSize keeps the characters that end in front of the limit. -/
theorem longestUTF8_truncate {input : Bytes} (h : ValidUTF8 input) {byteSize : Nat}
    (hsize : byteSize < 2 ^ 31) :
    LongestUTF8 input byteSize (truncateUTF8ToByteSize input byteSize) := by
  obtain ⟨cs, hcs, rfl⟩ := h
  rw [truncateUTF8ToByteSize]
  split
  · rename_i hlong
    have hshort : (cs.flatMap appendUnsafe).length < 2 ^ 31 := by omega
    exact ⟨prefix_refl _, by omega, (isStringUTF8_iff hshort).mpr ⟨cs, hcs, rfl⟩,
      fun s hs _ _ => hs.length_le⟩
  · rename_i hlimit
    rw [wrapInt_of_lt hsize]
    dsimp only
    rcases truncateLoop_eq (cs.flatMap appendUnsafe) byteSize byteSize with
      ⟨hnone, hall⟩ | ⟨i, hi, hbreaks, hlast, hsome⟩
    · rw [hnone]
      refine ⟨List.nil_prefix, zero_le _,
        (@isStringUTF8_iff [] (Nat.two_pow_pos 31)).mpr ⟨[], nofun, rfl⟩,
        fun s hs hle hacc => ?_⟩
      obtain ⟨ds, hds, rfl⟩ := characters_of_accepted hcs hs (by omega) hacc
      rcases eq_nil_or_concat ds with rfl | ⟨ds, d, rfl⟩
      · exact Nat.le_refl 0
      · rw [concat_eq_append] at hds hle
        obtain ⟨hlt, hbreak⟩ := breaksAt_last hcs hds hle
        exact absurd hbreak (hall _ hlt)
    · obtain ⟨front, c, back, rfl, rfl, hend, hle⟩ :=
        character_of_breaksAt hcs hi (Nat.not_lt.mp hlimit) hbreaks
      have houtput : ((front ++ c :: back).flatMap appendUnsafe).take
          ((front ++ [c]).flatMap appendUnsafe).length = (front ++ [c]).flatMap appendUnsafe := by
        have hsplit : (front ++ c :: back).flatMap appendUnsafe =
            (front ++ [c]).flatMap appendUnsafe ++ back.flatMap appendUnsafe := by simp
        rw [hsplit, take_left]
      rw [hsome, hend]
      dsimp only
      rw [houtput]
      have hfront : front ++ [c] <+: front ++ c :: back := ⟨back, by simp⟩
      refine ⟨houtput ▸ take_prefix _ _, hle, (isStringUTF8_iff (by omega)).mpr
        ⟨front ++ [c], fun d hd => hcs d (hfront.subset hd), rfl⟩, fun s hs hle' hacc => ?_⟩
      obtain ⟨ds, hds, rfl⟩ := characters_of_accepted hcs hs (by omega) hacc
      rcases prefix_or_prefix_of_prefix hds hfront with hshort | ⟨more, rfl⟩
      · obtain ⟨more, hmore⟩ := hshort
        rw [← hmore, flatMap_append, length_append]
        exact le_add_right _ _
      · rcases eq_nil_or_concat more with rfl | ⟨more, d, rfl⟩
        · simp
        · rw [concat_eq_append, ← append_assoc] at hds hle'
          obtain ⟨hlt, hbreak⟩ := breaksAt_last hcs hds hle'
          have hpos := length_appendUnsafe_pos c
          exact absurd hbreak (hlast _ (by simp; omega) hlt)

/-- Of UTF-8, which IsStringUTF8 tells in a string of fewer than 2 ^ 31 bytes, the longest prefix
of at most `byteSize` bytes that is UTF-8 again. -/
theorem truncate_utf8 (input : Bytes) {byteSize : Nat} (hsize : byteSize < 2 ^ 31) :
    (input.length < 2 ^ 31 → (isStringUTF8 input = true ↔ ValidUTF8 input)) ∧
      (ValidUTF8 input → LongestUTF8 input byteSize (truncateUTF8ToByteSize input byteSize)) :=
  ⟨isStringUTF8_iff, fun h => longestUTF8_truncate h hsize⟩

theorem truncate_utf8_two :
    LongestUTF8 [0x61, 0xc3, 0xa9] 2 (truncateUTF8ToByteSize [0x61, 0xc3, 0xa9] 2) := by
  have htwo : 2 < 2 ^ 31 := by decide
  have hspec := truncate_utf8 [0x61, 0xc3, 0xa9] htwo
  exact hspec.2 ((hspec.1 (by decide)).mp (by decide))

/-- The length of 2 GiB is negative as an `int32`: IsStringUTF8 reads none of them, and the prefix
that is kept has a byte which is not UTF-8. -/
theorem truncate_utf8_long :
    isStringUTF8 ([0x61, 0xff, 0x62] ++ replicate (2 ^ 31 - 3) 0x61) = true ∧
      isStringUTF8 (truncateUTF8ToByteSize
        ([0x61, 0xff, 0x62] ++ replicate (2 ^ 31 - 3) 0x61) 3) = false := by
  have hlength : ([0x61, 0xff, 0x62] ++ replicate (2 ^ 31 - 3) (0x61 : UInt8)).length =
      2 ^ 31 := by
    rw [length_append, length_replicate]
    rfl
  constructor
  · rw [isStringUTF8, hlength]
    rfl
  · have hnext : cbu8Next (ofBytes ([0x61, 0xff, 0x62] ++
        replicate (2 ^ 31 - 3) (0x61 : UInt8))) 2 3 = (some 0x62, 3) :=
      cbu8Next_iff.mpr (readsScalar_single (by decide))
    have hloop : truncateLoop ([0x61, 0xff, 0x62] ++ replicate (2 ^ 31 - 3) (0x61 : UInt8))
        3 3 = some 3 := by
      rw [truncateLoop, hnext]
      rfl
    have hwrap : (wrapInt ((3 : Nat) : Int)).toNat = 3 := by decide
    rw [truncateUTF8ToByteSize, hlength, if_neg (by decide), hwrap]
    dsimp only
    rw [hloop]
    dsimp only
    rw [take_append_of_le_length (by decide)]
    decide

end ChromiumUI.Base
