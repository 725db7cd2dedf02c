import Mathlib

/-!
# CollapseWhitespace

CollapseWhitespaceT writes over a buffer of the text's size, at a position that is an `int`. A
write outside the buffer, and a position that leaves the `int`, give no result.
-/
namespace ChromiumUI.Base.CollapseWhitespace

open List Option Bool Nat

/-- A character type of a string, with the wchar_t that each character becomes and the one that a
resized string is filled with. -/
structure WideChar (CHAR : Type) where
  toWide : CHAR → Int
  nul : CHAR
  space : CHAR
  toWide_space : toWide space = 0x20

/-- char, which is signed. -/
def charType : WideChar Int8 := ⟨Int8.toInt, 0, 0x20, rfl⟩

/-- char16, which is wchar_t where that is UTF-16. -/
def char16Type : WideChar UInt16 := ⟨fun c => c.toNat, 0, 0x20, rfl⟩

/-- wchar_t of 32 bits. -/
def wcharType : WideChar Int32 := ⟨Int32.toInt, 0, 0x20, rfl⟩

/-- With the terminator, which wcschr finds as it finds the others. -/
def kWhitespaceWide : List Int :=
  [0x0009, 0x000a, 0x000b, 0x000c, 0x000d, 0x0020, 0x0085, 0x00a0, 0x1680, 0x180e, 0x2000, 0x2001,
    0x2002, 0x2003, 0x2004, 0x2005, 0x2006, 0x2007, 0x2008, 0x2009, 0x200a, 0x200c, 0x2028, 0x2029,
    0x202f, 0x205f, 0x3000, 0]

section Definitions

variable {CHAR : Type} (T : WideChar CHAR)

def isWhitespace (c : CHAR) : Bool := kWhitespaceWide.contains (T.toWide c)

/-- Whether the character is CR or LF. -/
def isLineBreak (c : CHAR) : Bool := T.toWide c == 0x0a || T.toWide c == 0x0d

/-- The locals of CollapseWhitespaceT. -/
structure Locals (CHAR : Type) where
  result : List CHAR
  charsWritten : Int
  inWhitespace : Bool
  alreadyTrimmed : Bool

/-- `result[chars_written++] = c`. -/
def put (c : CHAR) (l : Locals CHAR) : Option (Locals CHAR) :=
  if 0 ≤ l.charsWritten ∧ l.charsWritten < l.result.length ∧ l.charsWritten + 1 < 2 ^ 31 then
    some { l with
      result := l.result.set l.charsWritten.toNat c, charsWritten := l.charsWritten + 1 }
  else none

/-- All whitespace sequences to a single space. -/
def enterWhitespace (l : Locals CHAR) : Option (Locals CHAR) :=
  if !l.inWhitespace then put T.space { l with inWhitespace := true } else some l

section

variable (trimSequencesWithLineBreaks : Bool)

/-- Whitespace sequences containing CR or LF are eliminated entirely. -/
def trimLineBreak (c : CHAR) (l : Locals CHAR) :
    Locals CHAR :=
  if trimSequencesWithLineBreaks && !l.alreadyTrimmed && isLineBreak T c then
    { l with alreadyTrimmed := true, charsWritten := l.charsWritten - 1 }
  else l

/-- One turn of the loop. -/
def step (l : Locals CHAR) (c : CHAR) :
    Option (Locals CHAR) :=
  if isWhitespace T c then
    (enterWhitespace T l).map (trimLineBreak T trimSequencesWithLineBreaks c)
  else put c { l with inWhitespace := false, alreadyTrimmed := false }

/-- The loop over characters of a text of this size. -/
def loop (size : Nat) (text : List CHAR) :
    Option (Locals CHAR) :=
  text.foldlM (step T trimSequencesWithLineBreaks)
    ⟨replicate size T.nul, 0, true, true⟩

def collapseWhitespaceT (text : List CHAR) :
    Option (List CHAR) := do
  let l ← loop T trimSequencesWithLineBreaks text.length text
  let charsWritten :=
    if l.inWhitespace && !l.alreadyTrimmed then l.charsWritten - 1 else l.charsWritten
  if 0 ≤ charsWritten ∧ charsWritten ≤ l.result.length then
    some (l.result.take charsWritten.toNat)
  else none

end

/-! ## The words of a text -/

/-- A text that begins with a word, as its words with the whitespace behind each. -/
inductive Words : List CHAR → List (List CHAR × List CHAR) → Prop
  | nil : Words [] []
  | last {word run : List CHAR} (hne : word ≠ [])
      (hword : ∀ c ∈ word, isWhitespace T c = false) (hrun : ∀ c ∈ run, isWhitespace T c = true) :
      Words (word ++ run) [(word, run)]
  | cons {word run text : List CHAR} {next : List CHAR × List CHAR}
      {words : List (List CHAR × List CHAR)} (hne : word ≠ [])
      (hword : ∀ c ∈ word, isWhitespace T c = false) (hspace : run ≠ [])
      (hrun : ∀ c ∈ run, isWhitespace T c = true) (h : Words text (next :: words)) :
      Words (word ++ (run ++ text)) ((word, run) :: next :: words)

/-- What is left of the whitespace between two words. -/
def separator (trimSequencesWithLineBreaks : Bool) (run : List CHAR) : List CHAR :=
  if trimSequencesWithLineBreaks && run.any (isLineBreak T) then [] else [T.space]

/-- The words with their separators. -/
def joined (trimSequencesWithLineBreaks : Bool) : List (List CHAR × List CHAR) → List CHAR
  | [] => []
  | [(word, _)] => word
  | (word, run) :: words =>
    word ++ separator T trimSequencesWithLineBreaks run ++ joined trimSequencesWithLineBreaks words

/-- How many characters the words, their separators and a space for the whitespace behind the last
word are. -/
def room (trimSequencesWithLineBreaks : Bool) : List (List CHAR × List CHAR) → Nat
  | [] => 0
  | [(word, run)] => word.length + if run = [] then 0 else 1
  | (word, run) :: words =>
    word.length + (separator T trimSequencesWithLineBreaks run).length +
      room trimSequencesWithLineBreaks words

end Definitions

variable {CHAR : Type} {T : WideChar CHAR} {b : Bool}

theorem isWhitespace_space (T : WideChar CHAR) : isWhitespace T T.space = true := by
  rw [isWhitespace, T.toWide_space]
  rfl

theorem isLineBreak_space (T : WideChar CHAR) : isLineBreak T T.space = false := by
  rw [isLineBreak, T.toWide_space]
  rfl

theorem joined_cons (b : Bool) (word run : List CHAR) (next : List CHAR × List CHAR)
    (words : List (List CHAR × List CHAR)) :
    joined T b ((word, run) :: next :: words) =
      word ++ separator T b run ++ joined T b (next :: words) :=
  joined.eq_3 T b word run (next :: words) (cons_ne_nil next words)

theorem room_cons (b : Bool) (word run : List CHAR) (next : List CHAR × List CHAR)
    (words : List (List CHAR × List CHAR)) :
    room T b ((word, run) :: next :: words) =
      word.length + (separator T b run).length + room T b (next :: words) :=
  room.eq_3 T b word run (next :: words) (cons_ne_nil next words)

/-- Every text is whitespace, and then words with whitespace behind each. -/
theorem words_exist (T : WideChar CHAR) (text : List CHAR) :
    ∃ lead rest words, text = lead ++ rest ∧ (∀ c ∈ lead, isWhitespace T c = true) ∧
      Words T rest words := by
  induction text with
  | nil => exact ⟨[], [], [], rfl, nofun, .nil⟩
  | cons c text ih =>
    obtain ⟨lead, rest, words, rfl, hlead, hwords⟩ := ih
    by_cases hc : isWhitespace T c = true
    · exact ⟨c :: lead, rest, words, rfl, forall_mem_cons.mpr ⟨hc, hlead⟩, hwords⟩
    · have hword : ∀ d ∈ [c], isWhitespace T d = false :=
        forall_mem_singleton.mpr (not_eq_true _ ▸ hc)
      cases lead with
      | cons d lead =>
        cases hwords with
        | nil => exact ⟨[], _, _, rfl, nofun, by simpa using Words.last (by simp) hword hlead⟩
        | last hne hw hr =>
          exact ⟨[], _, _, rfl, nofun,
            Words.cons (by simp) hword (by simp) hlead (Words.last hne hw hr)⟩
        | cons hne hw hs hr h =>
          exact ⟨[], _, _, rfl, nofun,
            Words.cons (by simp) hword (by simp) hlead (Words.cons hne hw hs hr h)⟩
      | nil =>
        cases hwords with
        | nil => exact ⟨[], [c], [([c], [])], rfl, nofun, Words.last (by simp) hword nofun⟩
        | @last word run hne hw hr =>
          exact ⟨[], (c :: word) ++ run, [(c :: word, run)], rfl, nofun,
            .last (cons_ne_nil c _)
              (forall_mem_cons.mpr ⟨not_eq_true _ ▸ hc, hw⟩) hr⟩
        | @cons word run text next words hne hw hs hr h =>
          exact ⟨[], (c :: word) ++ (run ++ text), (c :: word, run) :: next :: words, rfl, nofun,
            .cons (cons_ne_nil c _)
              (forall_mem_cons.mpr ⟨not_eq_true _ ▸ hc, hw⟩) hs hr h⟩

/-! ## The write position -/

/-- The position is inside what has been read, and behind the space of a run. -/
structure Placed (size read : Nat) (l : Locals CHAR) : Prop where
  size_eq : l.result.length = size
  nonneg : 0 ≤ l.charsWritten
  le_read : l.charsWritten ≤ read
  behind_space : l.inWhitespace = true → l.alreadyTrimmed = false → 1 ≤ l.charsWritten

variable {size : Nat} {l : Locals CHAR}

theorem put_placed {read : Nat} {l' : Locals CHAR} {c : CHAR} (hsize : l.result.length = size)
    (hread : l.charsWritten ≤ read) (h : put c l = some l') :
    Placed size (read + 1) l' ∧ 1 ≤ l'.charsWritten ∧ l'.inWhitespace = l.inWhitespace ∧
      l'.alreadyTrimmed = l.alreadyTrimmed := by
  rw [put] at h
  split at h
  · cases h
    exact ⟨⟨by simpa using hsize, by dsimp only; omega, by push_cast; omega,
      fun _ _ => by dsimp only; omega⟩, by dsimp only; omega, rfl, rfl⟩
  · cases h

theorem enterWhitespace_placed {read : Nat} {l' : Locals CHAR} (hl : Placed size read l)
    (h : enterWhitespace T l = some l') :
    Placed size (read + 1) l' ∧ (l'.alreadyTrimmed = false → 1 ≤ l'.charsWritten) := by
  obtain ⟨hsize, hnneg, hread, hbehind⟩ := hl
  rw [enterWhitespace] at h
  split at h
  · obtain ⟨hplaced, hone, -⟩ :=
      put_placed (l := { l with inWhitespace := true }) hsize hread h
    exact ⟨hplaced, fun _ => hone⟩
  · rename_i hin
    cases h
    rw [not_eq_true', not_eq_false] at hin
    exact ⟨⟨hsize, hnneg, by push_cast; omega, hbehind⟩, hbehind hin⟩

theorem trimLineBreak_placed {read : Nat} {c : CHAR} (hl : Placed size read l)
    (hone : l.alreadyTrimmed = false → 1 ≤ l.charsWritten) :
    Placed size read (trimLineBreak T b c l) := by
  rw [trimLineBreak]
  split
  · rename_i htrim
    simp only [and_eq_true, not_eq_true'] at htrim
    have hpos := hone htrim.1.2
    have hle := hl.le_read
    exact ⟨hl.size_eq, by dsimp only; omega, by dsimp only; omega, nofun⟩
  · exact hl

theorem step_placed {read : Nat} {l' : Locals CHAR} {c : CHAR} (hl : Placed size read l)
    (h : step T b l c = some l') : Placed size (read + 1) l' := by
  rw [step] at h
  split at h
  · obtain ⟨m, hm, rfl⟩ := map_eq_some_iff.mp h
    obtain ⟨hplaced, hone⟩ := enterWhitespace_placed hl hm
    exact trimLineBreak_placed hplaced hone
  · exact (put_placed (l := { l with inWhitespace := false, alreadyTrimmed := false })
      hl.size_eq hl.le_read h).1

variable {text : List CHAR}

/-- Over a run of turns. -/
theorem loop_placed (h : loop T b size text = some l) : Placed size text.length l := by
  rw [loop] at h
  have hrun : ∀ (rest : List CHAR) (read : Nat) (m : Locals CHAR), Placed size read m →
      rest.foldlM (step T b) m = some l → Placed size (read + rest.length) l := by
    intro rest
    induction rest with
    | nil =>
      intro read m hm h
      cases h
      exact hm
    | cons c rest ih =>
      intro read m hm h
      rw [foldlM_cons] at h
      obtain ⟨m', hm', h⟩ := bind_eq_some_iff.mp h
      have := ih (read + 1) m' (step_placed hm hm') h
      rwa [length_cons, Nat.add_comm rest.length, ← Nat.add_assoc]
  have hstart : Placed size 0 (⟨replicate size T.nul, 0, true, true⟩ : Locals CHAR) :=
    ⟨length_replicate, Int.le_refl 0, Int.le_refl 0, nofun⟩
  simpa using hrun text 0 _ hstart h

/-! ## What has been written -/

/-- The buffer begins with this and the position is behind it. -/
structure Wrote (size : Nat) (l : Locals CHAR) (out : List CHAR) : Prop where
  size_eq : l.result.length = size
  isPrefix : out <+: l.result
  charsWritten_eq : l.charsWritten = out.length

variable {out : List CHAR}

theorem put_wrote (c : CHAR) (hl : Wrote size l out) (hroom : out.length < size) :
    (out.length + 1 < 2 ^ 31 → ∃ l', put c l = some l' ∧ Wrote size l' (out ++ [c]) ∧
      l'.inWhitespace = l.inWhitespace ∧ l'.alreadyTrimmed = l.alreadyTrimmed) ∧
    (2 ^ 31 ≤ out.length + 1 → put c l = none) := by
  obtain ⟨hsize, ⟨rest, hrest⟩, hwrit⟩ := hl
  rw [put, hwrit, hsize]
  constructor
  · intro hshort
    rw [if_pos (by omega)]
    refine ⟨_, rfl, ⟨by simpa using hsize, ?_, by simp⟩, rfl, rfl⟩
    cases rest with
    | nil =>
      rw [append_nil] at hrest
      rw [← hrest] at hsize
      omega
    | cons x rest =>
      refine ⟨rest, ?_⟩
      rw [← hrest, Int.toNat_natCast, set_append_right _ _ (Nat.le_refl _), Nat.sub_self,
        set_cons_zero, append_assoc]
      rfl
  · intro hlong
    rw [if_neg (by omega)]

/-- Back by the one character that was written last. -/
theorem Wrote.back {c : CHAR} (h : Wrote size l (out ++ [c])) (inWhitespace alreadyTrimmed : Bool) :
    Wrote size ⟨l.result, l.charsWritten - 1, inWhitespace, alreadyTrimmed⟩ out := by
  refine ⟨h.size_eq, (prefix_append out [c]).trans h.isPrefix, ?_⟩
  dsimp only
  rw [h.charsWritten_eq, length_append, length_singleton]
  omega

theorem foldlM_word {word : List CHAR} (hword : ∀ c ∈ word, isWhitespace T c = false)
    (hl : Wrote size l out) (hroom : out.length + word.length ≤ size) (hshort : out.length < 2 ^ 31)
    :
    (out.length + word.length < 2 ^ 31 → ∃ l', word.foldlM (step T b) l = some l' ∧
      Wrote size l' (out ++ word) ∧
      (word ≠ [] → l'.inWhitespace = false ∧ l'.alreadyTrimmed = false)) ∧
    (2 ^ 31 ≤ out.length + word.length → word.foldlM (step T b) l = none) := by
  induction word generalizing l out with
  | nil =>
    refine ⟨fun _ => ⟨l, rfl, by rwa [append_nil], fun h => absurd rfl h⟩, fun h => ?_⟩
    rw [length_nil] at h
    omega
  | cons c word ih =>
    obtain ⟨hc, hword⟩ := forall_mem_cons.mp hword
    rw [length_cons] at hroom ⊢
    have hstep : step T b l c =
        put c { l with inWhitespace := false, alreadyTrimmed := false } := if_neg (by simp [hc])
    have hl' : Wrote size { l with inWhitespace := false, alreadyTrimmed := false } out :=
      ⟨hl.size_eq, hl.isPrefix, hl.charsWritten_eq⟩
    obtain ⟨hput, hnone⟩ := put_wrote c hl' (by omega)
    rw [foldlM_cons, hstep]
    rcases Nat.lt_or_ge (out.length + 1) (2 ^ 31) with hlt | hge
    · obtain ⟨m, hm, hwrote, hin, htrimmed⟩ := hput hlt
      have hlen : (out ++ [c]).length = out.length + 1 := by simp
      obtain ⟨hsome, hnone⟩ := ih hword hwrote (by omega) (by omega)
      rw [hm]
      constructor
      · intro h
        obtain ⟨l', hl', hwrote', hflags⟩ := hsome (by omega)
        refine ⟨l', hl', by simpa using hwrote', fun _ => ?_⟩
        cases word with
        | nil =>
          cases hl'
          exact ⟨hin, htrimmed⟩
        | cons d word => exact hflags (cons_ne_nil d word)
      · intro h
        exact hnone (by omega)
    · rw [hnone hge]
      exact ⟨fun h => by omega, fun _ => rfl⟩

/-- In whitespace behind what has been written, whose space stands or has been trimmed. -/
structure Behind (T : WideChar CHAR) (size : Nat) (l : Locals CHAR) (out : List CHAR)
    (trimmed : Bool) : Prop where
  wrote : Wrote size l (out ++ if trimmed then [] else [T.space])
  inWhitespace : l.inWhitespace = true
  alreadyTrimmed : l.alreadyTrimmed = trimmed

theorem Behind.trimLineBreak {trimmed : Bool} (h : Behind T size l out trimmed) (c : CHAR) :
    Behind T size (trimLineBreak T b c l) out (trimmed || (b && isLineBreak T c)) := by
  obtain ⟨hwrote, hin, htrimmed⟩ := h
  rw [CollapseWhitespace.trimLineBreak, htrimmed]
  cases trimmed with
  | true =>
    rw [Bool.not_true, Bool.and_false, Bool.false_and, if_neg Bool.false_ne_true, Bool.true_or]
    exact ⟨hwrote, hin, htrimmed⟩
  | false =>
    rw [Bool.not_false, Bool.and_true, Bool.false_or]
    split
    · rename_i htrim
      rw [htrim]
      exact ⟨by simpa using hwrote.back l.inWhitespace true, hin, rfl⟩
    · rename_i htrim
      rw [not_eq_true] at htrim
      rw [htrim]
      exact ⟨hwrote, hin, htrimmed⟩

theorem foldlM_behind {run : List CHAR} {trimmed : Bool} (hrun : ∀ c ∈ run, isWhitespace T c = true)
    (h : Behind T size l out trimmed) :
    ∃ l', run.foldlM (step T b) l = some l' ∧
      Behind T size l' out (trimmed || (b && run.any (isLineBreak T))) := by
  induction run generalizing l trimmed with
  | nil => exact ⟨l, rfl, by simpa using h⟩
  | cons c run ih =>
    obtain ⟨hc, hrun⟩ := forall_mem_cons.mp hrun
    have hstep : step T b l c = some (trimLineBreak T b c l) := by
      rw [step, if_pos hc, enterWhitespace, h.inWhitespace]
      rfl
    obtain ⟨l', hl', hbehind⟩ := ih hrun (h.trimLineBreak c (b := b))
    rw [foldlM_cons, hstep]
    refine ⟨l', hl', ?_⟩
    rwa [any_cons, Bool.and_or_distrib_left, ← Bool.or_assoc]

/-- The whitespace behind a word. -/
theorem foldlM_run {run : List CHAR} (hne : run ≠ []) (hrun : ∀ c ∈ run, isWhitespace T c = true)
    (hl : Wrote size l out) (hin : l.inWhitespace = false) (htrimmed : l.alreadyTrimmed = false)
    (hroom : out.length < size) :
    (out.length + 1 < 2 ^ 31 → ∃ l', run.foldlM (step T b) l = some l' ∧
      Behind T size l' out (b && run.any (isLineBreak T))) ∧
    (2 ^ 31 ≤ out.length + 1 → run.foldlM (step T b) l = none) := by
  obtain ⟨c, run, rfl⟩ := exists_cons_of_ne_nil hne
  obtain ⟨hc, hrun⟩ := forall_mem_cons.mp hrun
  have hstep : step T b l c =
      (put T.space { l with inWhitespace := true }).map (trimLineBreak T b c) := by
    rw [step, if_pos hc, enterWhitespace, hin]
    rfl
  obtain ⟨hput, hnone⟩ := put_wrote (l := { l with inWhitespace := true }) T.space
    ⟨hl.size_eq, hl.isPrefix, hl.charsWritten_eq⟩ hroom
  rw [foldlM_cons, hstep]
  constructor
  · intro hshort
    obtain ⟨m, hm, hwrote, hin', htrimmed'⟩ := hput hshort
    have hbehind : Behind T size m out false := ⟨hwrote, hin', htrimmed'.trans htrimmed⟩
    obtain ⟨l', hl', hbehind'⟩ := foldlM_behind (b := b) hrun (hbehind.trimLineBreak c)
    rw [hm]
    refine ⟨l', hl', ?_⟩
    rwa [any_cons, Bool.and_or_distrib_left, ← Bool.false_or (b && isLineBreak T c)]
  · intro hlong
    rw [hnone hlong]
    rfl

/-- At a word's end or in the whitespace behind it. -/
def Ends (T : WideChar CHAR) (size : Nat) (l : Locals CHAR) (out : List CHAR) : Prop :=
  (Wrote size l out ∧ l.inWhitespace = false) ∨ ∃ trimmed, Behind T size l out trimmed

variable {words : List (List CHAR × List CHAR)}

theorem room_pos (h : Words T text words) (hwords : words ≠ []) : 1 ≤ room T b words := by
  cases h with
  | nil => exact absurd rfl hwords
  | last hne _ _ =>
    have := length_pos_iff.mpr hne
    rw [room]
    omega
  | cons hne _ _ _ _ =>
    have := length_pos_iff.mpr hne
    rw [room_cons]
    omega

theorem foldlM_words (h : Words T text words) (hwords : words ≠ []) (hl : Wrote size l out)
    (hroom : out.length + text.length ≤ size) (hshort : out.length < 2 ^ 31) :
    (out.length + room T b words < 2 ^ 31 → ∃ l', text.foldlM (step T b) l = some l' ∧
      Ends T size l' (out ++ joined T b words)) ∧
    (2 ^ 31 ≤ out.length + room T b words → text.foldlM (step T b) l = none) := by
  induction h generalizing l out with
  | nil => exact absurd rfl hwords
  | @last word run hne hword hrun =>
    rw [length_append] at hroom
    rw [room, foldlM_append]
    obtain ⟨hsome, hnone⟩ := foldlM_word (b := b) hword hl (by omega) hshort
    rcases Nat.lt_or_ge (out.length + word.length) (2 ^ 31) with hlt | hge
    · obtain ⟨m, hm, hwrote, hflags⟩ := hsome hlt
      rw [hm]
      by_cases hspace : run = []
      · subst hspace
        rw [if_pos rfl]
        refine ⟨fun _ => ⟨m, rfl, Or.inl ⟨hwrote, (hflags hne).1⟩⟩, fun h => by omega⟩
      · rw [if_neg hspace]
        have hpos := length_pos_iff.mpr hspace
        have hlen : (out ++ word).length = out.length + word.length := length_append
        obtain ⟨hsome, hnone⟩ := foldlM_run (b := b) hspace hrun hwrote (hflags hne).1
          (hflags hne).2 (by omega)
        refine ⟨fun h => ?_, fun h => hnone (by omega)⟩
        obtain ⟨l', hl', hbehind⟩ := hsome (by omega)
        exact ⟨l', hl', Or.inr ⟨_, hbehind⟩⟩
    · rw [hnone hge]
      exact ⟨fun h => by omega, fun _ => rfl⟩
  | @cons word run text next words hne hword hspace hrun h ih =>
    simp only [length_append] at hroom
    have hpos := length_pos_iff.mpr hspace
    rw [room_cons, joined_cons, foldlM_append]
    obtain ⟨hsome, hnone⟩ := foldlM_word (b := b) hword hl (by omega) hshort
    have hnext := room_pos (b := b) h (cons_ne_nil next words)
    rcases Nat.lt_or_ge (out.length + word.length) (2 ^ 31) with hlt | hge
    · obtain ⟨m, hm, hwrote, hflags⟩ := hsome hlt
      have hlen : (out ++ word).length = out.length + word.length := length_append
      obtain ⟨hsome, hnone⟩ := foldlM_run (b := b) hspace hrun hwrote (hflags hne).1
        (hflags hne).2 (by omega)
      rw [hm, bind_eq_bind, bind_some, foldlM_append]
      rcases Nat.lt_or_ge ((out ++ word).length + 1) (2 ^ 31) with hlt' | hge'
      · obtain ⟨m', hm', hbehind⟩ := hsome hlt'
        have hsep : (separator T b run).length ≤ 1 := by
          rw [separator]
          split <;> simp
        have hlen' : (out ++ word ++ separator T b run).length =
            out.length + word.length + (separator T b run).length := by simp [Nat.add_assoc]
        have hwrote' : Wrote size m' (out ++ word ++ separator T b run) := hbehind.wrote
        obtain ⟨hsome, hnone⟩ := ih (cons_ne_nil next words) hwrote' (by omega) (by omega)
        rw [hlen'] at hsome hnone
        rw [hm']
        refine ⟨fun hfits => ?_, fun hlong => hnone (by omega)⟩
        obtain ⟨l', hl', hends⟩ := hsome (by omega)
        exact ⟨l', hl', by simpa only [append_assoc] using hends⟩
      · rw [hnone hge']
        exact ⟨fun hfits => by omega, fun _ => rfl⟩
    · rw [hnone hge]
      exact ⟨fun hfits => by omega, fun _ => rfl⟩

theorem Ends.finish (h : Ends T size l out) : (let charsWritten :=
        if l.inWhitespace && !l.alreadyTrimmed then l.charsWritten - 1 else l.charsWritten
      if 0 ≤ charsWritten ∧ charsWritten ≤ l.result.length then
        some (l.result.take charsWritten.toNat)
      else none) = some out := by
  have hpos : (if l.inWhitespace && !l.alreadyTrimmed then l.charsWritten - 1
      else l.charsWritten) = out.length ∧ out <+: l.result := by
    rcases h with ⟨hwrote, hin⟩ | ⟨trimmed, hwrote, hin, htrimmed⟩
    · rw [hin, Bool.false_and, if_neg Bool.false_ne_true]
      exact ⟨hwrote.charsWritten_eq, hwrote.isPrefix⟩
    · rw [hin, htrimmed, Bool.true_and]
      cases trimmed with
      | true => simpa using And.intro hwrote.charsWritten_eq hwrote.isPrefix
      | false =>
        have hback : Wrote size ⟨l.result, l.charsWritten - 1, true, true⟩ out :=
          Wrote.back (c := T.space) (by simpa using hwrote) true true
        exact ⟨hback.charsWritten_eq, hback.isPrefix⟩
  obtain ⟨hwrit, hprefix⟩ := hpos
  have hle := hprefix.length_le
  rw [hwrit, if_pos (by omega), Int.toNat_natCast]
  exact congrArg some (prefix_iff_eq_take.mp hprefix).symm

/-- The loop over the whitespace in front and the words. -/
theorem loop_eq {lead rest : List CHAR} {words : List (List CHAR × List CHAR)}
    (hlead : ∀ c ∈ lead, isWhitespace T c = true) (h : Words T rest words) :
    (room T b words < 2 ^ 31 → ∃ l, loop T b (lead ++ rest).length (lead ++ rest) = some l ∧
      Ends T (lead ++ rest).length l (joined T b words)) ∧
    (2 ^ 31 ≤ room T b words →
      loop T b (lead ++ rest).length (lead ++ rest) = none) := by
  have hstart : Behind T (lead ++ rest).length
      ⟨replicate (lead ++ rest).length T.nul, 0, true, true⟩ [] true :=
    ⟨⟨length_replicate, nil_prefix, rfl⟩, rfl, rfl⟩
  obtain ⟨l, hl, hbehind⟩ := foldlM_behind (b := b) hlead hstart
  rw [Bool.true_or] at hbehind
  rw [loop, foldlM_append, hl, bind_eq_bind, bind_some]
  cases words with
  | nil =>
    cases h with
    | nil =>
      refine ⟨fun _ => ⟨l, rfl, Or.inr ⟨true, hbehind⟩⟩, fun hlong => ?_⟩
      rw [room] at hlong
      omega
  | cons next words =>
    have hwrote : Wrote (lead ++ rest).length l [] := hbehind.wrote
    have hrun := foldlM_words (b := b) h (cons_ne_nil next words) hwrote (by simp)
      (Nat.two_pow_pos 31)
    simpa using hrun

theorem joined_le_room (h : Words T text words) : (joined T b words).length ≤ room T b words := by
  induction h with
  | nil => exact Nat.le_refl 0
  | last => exact le_add_right _ _
  | cons _ _ _ _ _ ih =>
    rw [joined_cons, room_cons, length_append,
      length_append]
    omega

theorem joined_ne_nil (h : Words T text words) (hwords : words ≠ []) : joined T b words ≠ [] := by
  cases h with
  | nil => exact absurd rfl hwords
  | last hne => exact hne
  | cons hne =>
    rw [joined_cons]
    simp [hne]

/-- More of the first word in front of it. -/
theorem Words.glue {word first run : List CHAR} (h : Words T text ((first, run) :: words))
    (hword : ∀ c ∈ word, isWhitespace T c = false) :
    Words T (word ++ text) ((word ++ first, run) :: words) ∧
      joined T b ((word ++ first, run) :: words) =
        word ++ joined T b ((first, run) :: words) ∧
      room T b ((word ++ first, run) :: words) =
        word.length + room T b ((first, run) :: words) := by
  cases h with
  | last hne hfirst hrun =>
    refine ⟨?_, rfl, by simp only [room, length_append, Nat.add_assoc]⟩
    rw [← append_assoc]
    exact .last (by simp [hne]) (forall_mem_append.mpr ⟨hword, hfirst⟩) hrun
  | cons hne hfirst hspace hrun h =>
    refine ⟨?_, ?_, ?_⟩
    · rw [← append_assoc]
      exact .cons (by simp [hne]) (forall_mem_append.mpr ⟨hword, hfirst⟩) hspace hrun h
    · simp only [joined, append_assoc]
    · simp only [room, length_append, Nat.add_assoc]

/-- The words with single spaces between them, as far as they are not run together. -/
theorem joined_words (h : Words T text words) :
    ∃ words', Words T (joined T b words) words' ∧ (words ≠ [] → words' ≠ []) ∧
      joined T b words' = joined T b words ∧
      room T b words' = (joined T b words).length := by
  induction h with
  | nil => exact ⟨[], .nil, fun h => h, rfl, rfl⟩
  | @last word run hne hword hrun =>
    have hlast : Words T (word ++ []) [(word, [])] := Words.last hne hword nofun
    rw [append_nil] at hlast
    exact ⟨[(word, [])], hlast, by simp, rfl, by rw [room, if_pos rfl]; rfl⟩
  | @cons word run text next words hne hword hspace hrun h ih =>
    obtain ⟨words', hwords', hne', hjoined', hroom'⟩ := ih
    rw [joined_cons, append_assoc]
    have hnext := hne' (cons_ne_nil next words)
    obtain ⟨⟨word', run'⟩, words', rfl⟩ := exists_cons_of_ne_nil hnext
    by_cases hsep : (b && run.any (isLineBreak T)) = true
    · rw [separator, if_pos hsep, nil_append]
      obtain ⟨hglued, hjoined, hroom⟩ := hwords'.glue (b := b) hword
      refine ⟨(word ++ word', run') :: words', hglued, by simp, ?_, ?_⟩
      · rw [hjoined, hjoined']
      · rw [hroom, hroom', length_append]
    · have hspaces : ∀ c ∈ [T.space], isWhitespace T c = true :=
        forall_mem_singleton.mpr (isWhitespace_space T)
      rw [separator, if_neg hsep]
      refine ⟨(word, [T.space]) :: (word', run') :: words',
        .cons hne hword (by simp) hspaces hwords', by simp, ?_, ?_⟩
      · rw [joined_cons, hjoined', separator, any_cons,
          isLineBreak_space]
        simp
      · rw [room_cons, hroom', separator, any_cons, isLineBreak_space]
        simp
        omega

/-! ## CollapseWhitespace -/

theorem collapseWhitespaceT_eq {lead rest : List CHAR} {words : List (List CHAR × List CHAR)}
    (hlead : ∀ c ∈ lead, isWhitespace T c = true) (h : Words T rest words)
    (hroom : room T b words < 2 ^ 31) :
    collapseWhitespaceT T b (lead ++ rest) = some (joined T b words) := by
  obtain ⟨l, hl, hends⟩ := (loop_eq (b := b) hlead h).1 hroom
  rw [collapseWhitespaceT, hl]
  exact hends.finish

/-- A word stands at the front and at the back of the words with their separators. -/
theorem joined_ends (h : Words T text words) :
    (∀ c ∈ (joined T b words).head?, isWhitespace T c = false) ∧
      ∀ c ∈ (joined T b words).getLast?, isWhitespace T c = false := by
  induction h with
  | nil => exact ⟨nofun, nofun⟩
  | last hne hword _ =>
    exact ⟨fun c hc => hword c (mem_of_mem_head? hc),
      fun c hc => hword c (mem_of_mem_getLast? hc)⟩
  | cons hne hword _ _ h ih =>
    rw [joined_cons]
    constructor
    · intro c hc
      rw [append_assoc, head?_append_of_ne_nil _ hne] at hc
      exact hword c (mem_of_mem_head? hc)
    · intro c hc
      rw [getLast?_append_of_ne_nil _ (joined_ne_nil h (cons_ne_nil _ _))] at hc
      exact ih.2 c hc

/-- What CollapseWhitespace is for: the words with their separators, no whitespace at the ends, the
write position never below zero and never past the read position, and nothing more to collapse. -/
structure Collapses (T : WideChar CHAR) (trimSequencesWithLineBreaks : Bool) (text : List CHAR)
    (words : List (List CHAR × List CHAR)) : Prop where
  result : collapseWhitespaceT T trimSequencesWithLineBreaks text =
    some (joined T trimSequencesWithLineBreaks words)
  head : ∀ c ∈ (joined T trimSequencesWithLineBreaks words).head?, isWhitespace T c = false
  last : ∀ c ∈ (joined T trimSequencesWithLineBreaks words).getLast?, isWhitespace T c = false
  position : ∀ n ≤ text.length, ∃ l,
    loop T trimSequencesWithLineBreaks text.length (text.take n) = some l ∧
      0 ≤ l.charsWritten ∧ l.charsWritten ≤ n
  idempotent : ∀ out, collapseWhitespaceT T trimSequencesWithLineBreaks text = some out →
    collapseWhitespaceT T trimSequencesWithLineBreaks out = some out

/-- Every text is whitespace and words, which CollapseWhitespace joins exactly when the words, their
separators and a space for the whitespace at the end are fewer than 2 ^ 31 characters. -/
theorem collapse_whitespace_iff (T : WideChar CHAR) (b : Bool) (text : List CHAR) :
    (∃ lead rest words, text = lead ++ rest ∧ (∀ c ∈ lead, isWhitespace T c = true) ∧
      Words T rest words) ∧
    ∀ lead rest words, text = lead ++ rest → (∀ c ∈ lead, isWhitespace T c = true) →
      Words T rest words → (Collapses T b text words ↔ room T b words < 2 ^ 31) := by
  refine ⟨words_exist T text, ?_⟩
  rintro lead rest words rfl hlead hwords
  obtain ⟨hfits, hlong⟩ := loop_eq (b := b) hlead hwords
  constructor
  · intro h
    by_contra hroom
    have hresult := h.result
    rw [collapseWhitespaceT, hlong (by omega)] at hresult
    cases hresult
  · intro hroom
    have hresult := collapseWhitespaceT_eq hlead hwords hroom
    obtain ⟨hhead, hlast⟩ := joined_ends (b := b) hwords
    refine ⟨hresult, hhead, hlast, fun n hn => ?_, fun out hout => ?_⟩
    · obtain ⟨l, hl, -⟩ := hfits hroom
      rw [loop, ← take_append_drop n (lead ++ rest), foldlM_append] at hl
      obtain ⟨m, hm, -⟩ := bind_eq_some_iff.mp hl
      rw [take_append_drop] at hm
      have hplaced := loop_placed hm
      rw [length_take_of_le hn] at hplaced
      exact ⟨m, hm, hplaced.nonneg, hplaced.le_read⟩
    · obtain ⟨words', hwords', -, hjoined', hroom'⟩ := joined_words (b := b) hwords
      cases hresult.symm.trans hout
      have hshort : room T b words' < 2 ^ 31 := by
        have hle := joined_le_room (b := b) hwords
        omega
      have hagain := @collapseWhitespaceT_eq _ _ b [] _ _ nofun hwords' hshort
      rwa [hjoined'] at hagain

set_option maxRecDepth 4000 in
/-- Two words and a line between them. -/
theorem collapse_whitespace_lines :
    Collapses charType true [0x20, 0x61, 0x20, 0x0a, 0x62, 0x20]
      [([0x61], [0x20, 0x0a]), ([0x62], [0x20])] := by
  have hlast : Words charType [0x62, 0x20] [([0x62], [0x20])] :=
    @Words.last _ charType [0x62] [0x20] (by decide) (by decide) (by decide)
  have hwords : Words charType [0x61, 0x20, 0x0a, 0x62, 0x20]
      [([0x61], [0x20, 0x0a]), ([0x62], [0x20])] :=
    @Words.cons _ charType [0x61] [0x20, 0x0a] _ _ _ (by decide) (by decide)
      (by decide) (by decide) hlast
  exact ((collapse_whitespace_iff charType true [0x20, 0x61, 0x20, 0x0a, 0x62, 0x20]).2 [0x20]
    _ _ rfl (by decide) hwords).mpr (by decide)

/-- 2 GiB of letters: the write position leaves the `int` at the last one. -/
theorem collapse_whitespace_long :
    collapseWhitespaceT charType false (replicate (2 ^ 31) 0x78) = none ∧
      Words charType (replicate (2 ^ 31) 0x78) [(replicate (2 ^ 31) 0x78, [])] ∧
      ¬Collapses charType false (replicate (2 ^ 31) 0x78)
        [(replicate (2 ^ 31) 0x78, [])] := by
  have hword : ∀ c ∈ replicate (2 ^ 31) (0x78 : Int8), isWhitespace charType c = false := by
    intro c hc
    rw [eq_of_mem_replicate hc]
    decide
  have hne : replicate (2 ^ 31) (0x78 : Int8) ≠ [] := by
    rw [Ne, replicate_eq_nil_iff]
    decide
  have hwords := @Words.last _ charType _ [] hne hword nofun
  rw [append_nil] at hwords
  have hroom : room charType false [(replicate (2 ^ 31) (0x78 : Int8), [])] = 2 ^ 31 := by
    rw [room, if_pos rfl, length_replicate, Nat.add_zero]
  have hnone : collapseWhitespaceT charType false (replicate (2 ^ 31) 0x78) = none := by
    have hloop := (@loop_eq _ _ false [] _ _ nofun hwords).2 (Nat.le_of_eq hroom.symm)
    rw [nil_append] at hloop
    rw [collapseWhitespaceT, hloop]
    rfl
  refine ⟨hnone, hwords, fun h => ?_⟩
  have hresult := h.result
  rw [hnone] at hresult
  cases hresult

end ChromiumUI.Base.CollapseWhitespace
