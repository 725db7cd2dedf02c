import ChromiumUI.IcuUtf

/-!
# SplitString and JoinString

TrimString at both ends, SplitStringT, which trims what it has split off or not, and JoinStringT.
-/
namespace ChromiumUI.Base

open List

/-- JoinStringT. -/
def joinString {CHAR : Type} (parts : List (List CHAR)) (sep : CHAR) : List CHAR :=
  match parts with
  | [] => []
  | part :: rest => rest.foldl (fun result part => result ++ [sep] ++ part) part

section Definitions

variable {CHAR : Type} [DecidableEq CHAR]

/-- TrimStringT with TRIM_ALL: from the first to the last character that is not one of these. -/
def trimString (trimChars input : List CHAR) : List CHAR :=
  (input.dropWhile fun c => c ∈ trimChars).rdropWhile fun c => c ∈ trimChars

def kWhitespaceASCII : Bytes := [0x09, 0x0a, 0x0b, 0x0c, 0x0d, 0x20]

def trimWhitespace (input : Bytes) : Bytes := trimString kWhitespaceASCII input

/-- The loop of SplitStringT over the rest of the string, `piece` being what stands from `last` on;
an empty source string becomes no vector of one empty string. -/
def splitLoop (s : CHAR) (trim : List CHAR → List CHAR) (piece : List CHAR)
    (r : List (List CHAR)) : List CHAR → List (List CHAR)
  | [] => if !r.isEmpty || !(trim piece).isEmpty then r ++ [trim piece] else r
  | c :: rest =>
    if c = s then splitLoop s trim [] (r ++ [trim piece]) rest
    else splitLoop s trim (piece ++ [c]) r rest

def splitString (str : Bytes) (c : UInt8) : List Bytes := splitLoop c trimWhitespace [] [] str

def splitStringDontTrim (str : List CHAR) (c : CHAR) (r : List (List CHAR)) : List (List CHAR) :=
  splitLoop c id [] r str

end Definitions

variable {CHAR : Type} [DecidableEq CHAR] {trimChars input : List CHAR}

theorem trimString_of_not_mem (h : ∀ c ∈ input, c ∉ trimChars) :
    trimString trimChars input = input := by
  have hfront : (input.dropWhile fun c => c ∈ trimChars) = input := by
    cases input with
    | nil => rfl
    | cons c input =>
      have hc := h c mem_cons_self
      rw [dropWhile_cons_of_neg (by simpa using hc)]
  rw [trimString, hfront, rdropWhile_eq_self_iff]
  intro hne hlast
  exact h _ (getLast_mem hne) (of_decide_eq_true hlast)

theorem splitLoop_eq {s : CHAR} {trim : List CHAR → List CHAR} {piece : List CHAR}
    (hpiece : s ∉ piece) (r : List (List CHAR)) (rest : List CHAR) :
    splitLoop s trim piece r rest =
      if r = [] ∧ ((piece ++ rest).splitOn s).map trim = [[]] then []
      else r ++ ((piece ++ rest).splitOn s).map trim := by
  induction rest generalizing piece r with
  | nil =>
    rw [splitLoop, append_nil, splitOn_eq_singleton hpiece]
    cases r <;> cases htrim : trim piece <;> simp [htrim]
  | cons c rest ih =>
    rw [splitLoop]
    split
    · rename_i hc
      subst hc
      have htwo : (trim piece :: (rest.splitOn c).map trim) ≠ [[]] := by
        intro h
        exact splitOn_ne_nil c rest (map_eq_nil_iff.mp (List.cons.inj h).2)
      rw [ih not_mem_nil, splitOn_append_cons_self_of_not_mem hpiece, map_cons,
        nil_append, if_neg (by simp), if_neg (fun h => htwo h.2), append_assoc]
      rfl
    · rename_i hc
      have hmem : s ∉ piece ++ [c] := by
        simp [hpiece, Ne.symm hc]
      rw [ih hmem, append_assoc]
      rfl

/-- SplitString: the trimmed pieces, but none of an empty string. -/
theorem splitString_eq (str : Bytes) (c : UInt8) : splitString str c =
    if (str.splitOn c).map trimWhitespace = [[]] then []
    else (str.splitOn c).map trimWhitespace := by
  rw [splitString, splitLoop_eq not_mem_nil]
  simp only [nil_append, true_and]

/-! ## Joined again -/

theorem joinString_eq {CHAR : Type} (parts : List (List CHAR)) (sep : CHAR) :
    joinString parts sep = [sep].intercalate parts := by
  have hloop : ∀ (rest : List (List CHAR)) (result : List CHAR),
      rest.foldl (fun result part => result ++ [sep] ++ part) result =
        [sep].intercalate (result :: rest) := by
    intro rest
    induction rest with
    | nil => simp
    | cons part rest ih =>
      intro result
      rw [foldl_cons, ih]
      cases rest <;> simp [intercalate_cons_cons]
  cases parts with
  | nil => simp [joinString]
  | cons part rest => exact hloop rest part

theorem splitStringDontTrim_eq (str : List CHAR) (c : CHAR) : splitStringDontTrim str c [] =
    if str.splitOn c = [[]] then [] else str.splitOn c := by
  rw [splitStringDontTrim, splitLoop_eq not_mem_nil, map_id]
  simp only [nil_append, true_and]

theorem split_join_inverse (c : CHAR) :
    (∀ str : List CHAR, joinString (splitStringDontTrim str c []) c = str) ∧
      ∀ parts : List (List CHAR), parts ≠ [] → parts ≠ [[]] → (∀ part ∈ parts, c ∉ part) →
        splitStringDontTrim (joinString parts c) c [] = parts := by
  constructor
  · intro str
    have hjoin : [c].intercalate (str.splitOn c) = str := intercalate_splitOn c
    rw [joinString_eq, splitStringDontTrim_eq]
    split
    · rename_i hempty
      rw [hempty] at hjoin
      rw [← hjoin]
      simp
    · exact hjoin
  · intro parts hne hempty hparts
    rw [joinString_eq, splitStringDontTrim_eq, splitOn_intercalate c hparts hne, if_neg hempty]

theorem split_join_inverse_path : splitStringDontTrim (joinString [[], [1, 2], []] 0) 0 [] =
    [[], [1, 2], ([] : List Nat)] :=
  (split_join_inverse 0).2 _ (by decide) (by decide) (by decide)

end ChromiumUI.Base
