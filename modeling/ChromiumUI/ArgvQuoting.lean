import Mathlib.Data.List.Basic
import Mathlib.Data.List.TakeWhile

/-!
# Quoting for CommandLineToArgvW

QuoteForCommandLineToArgvW, and the rules by which its result is split again.
-/
namespace ChromiumUI.ArgvQuoting

open List

def space : UInt16 := 0x20
def tab : UInt16 := 0x09
def quote : UInt16 := 0x22
def backslash : UInt16 := 0x5c

/-- `find_first_of(L" \\\"")` looks for one of these; a tab is not among them. -/
def isSpecial (c : UInt16) : Bool := c == space || c == backslash || c == quote

def isBackslash (c : UInt16) : Bool := c == backslash

/-- The loop over the argument. A run of backslashes is doubled in front of a quote and at the
end. -/
def quoteLoop : List UInt16 → List UInt16
  | [] => []
  | c :: arg =>
    if isBackslash c then
      let count := (arg.takeWhile isBackslash).length + 1
      let rest := arg.dropWhile isBackslash
      replicate (if rest.head?.all (· == quote) then 2 * count else count) backslash ++
        quoteLoop rest
    else if c = quote then backslash :: quote :: quoteLoop arg
    else c :: quoteLoop arg
termination_by arg => arg.length
decreasing_by
  · exact Nat.lt_succ_of_le (dropWhile_sublist isBackslash).length_le
  · exact Nat.lt_succ_self _
  · exact Nat.lt_succ_self _

def quoteForCommandLineToArgvW (arg : List UInt16) : List UInt16 :=
  if arg.any isSpecial then quote :: (quoteLoop arg ++ [quote]) else arg

/-- The program's name and each argument behind a space. -/
def commandLine (program : List UInt16) (args : List (List UInt16)) : List UInt16 :=
  program ++ args.flatMap fun arg => space :: quoteForCommandLineToArgvW arg

/-- The arguments of a text, with the one that has begun and the backslashes that came last. -/
def split (quoted : Bool) (count : Nat) (arg : Option (List UInt16)) :
    List UInt16 → List (List UInt16)
  | [] => (arg.map (· ++ replicate count backslash)).toList
  | c :: text =>
    if isBackslash c then split quoted (count + 1) (some (arg.getD [])) text
    else if c = quote then
      let arg := arg.getD [] ++ replicate (count / 2) backslash
      if count % 2 = 0 then split (!quoted) 0 (some arg) text
      else split quoted 0 (some (arg ++ [quote])) text
    else if !quoted && (c == space || c == tab) then
      (arg.map (· ++ replicate count backslash)).toList ++ split false 0 none text
    else split quoted 0 (some (arg.getD [] ++ replicate count backslash ++ [c])) text

def commandLineToArgvW : List UInt16 → List (List UInt16) := split false 0 none

/-- An argument that is put in no quotes and is not one argument by itself. -/
def Lost (arg : List UInt16) : Prop := arg.any isSpecial = false ∧ (arg = [] ∨ tab ∈ arg)

variable {arg text : List UInt16} {args : List (List UInt16)}

theorem split_backslashes (quoted : Bool) (count k : Nat) (x : List UInt16) :
    split quoted count (some x) (replicate k backslash ++ text) =
      split quoted (count + k) (some x) text := by
  induction k generalizing count with
  | zero => rfl
  | succ k ih =>
    rw [replicate_succ, cons_append, split, if_pos (by decide), Option.getD_some, ih,
      Nat.add_assoc, Nat.add_comm 1]

/-- A run of backslashes as the loop writes it, in front of what it writes next. -/
theorem split_run {rest : List UInt16} (hrest : ∀ c ∈ rest.head?, isBackslash c = false) (k : Nat)
    (x : List UInt16) :
    split true (if rest.head?.all (· == quote) then 2 * k else k) (some x)
        (quoteLoop rest ++ quote :: text) =
      split true 0 (some (x ++ replicate k backslash)) (quoteLoop rest ++ quote :: text) := by
  cases rest with
  | nil => simp [quoteLoop, split, isBackslash, quote, backslash]
  | cons d rest =>
    have hd := hrest d rfl
    by_cases hquote : d = quote
    · subst hquote
      have hhalf : (2 * k + 1) / 2 = k := by omega
      simp [quoteLoop, split, isBackslash, quote, backslash, hhalf]
    · simp [quoteLoop, split, hd, hquote]

/-- In quotes the loop's text is read as the argument. -/
theorem split_quoteLoop (x : List UInt16) :
    split true 0 (some x) (quoteLoop arg ++ quote :: text) =
      split false 0 (some (x ++ arg)) text := by
  fun_induction quoteLoop arg generalizing x with
  | case1 => simp [split, isBackslash, quote, backslash]
  | case2 c arg hc count rest ih =>
    have hrun : replicate count backslash ++ rest = c :: arg := by
      have hall : arg.takeWhile isBackslash =
          replicate (arg.takeWhile isBackslash).length backslash :=
        eq_replicate_iff.mpr ⟨rfl, fun b hb =>
          beq_iff_eq.mp (show isBackslash b from mem_takeWhile_imp hb)⟩
      rw [replicate_succ, ← hall, cons_append, takeWhile_append_dropWhile, beq_iff_eq.mp hc]
    have hrest : ∀ d ∈ rest.head?, isBackslash d = false := fun d hd => by
      have hhead := head?_dropWhile_not isBackslash arg
      rwa [show (arg.dropWhile isBackslash).head? = some d from hd] at hhead
    rw [append_assoc, split_backslashes, Nat.zero_add, split_run hrest, ih, append_assoc, hrun]
  | case3 arg hc ih =>
    rw [cons_append, cons_append, split, if_pos (by decide), split, if_neg (by decide), if_pos rfl]
    simpa using ih (x ++ [quote])
  | case4 c arg hc hquote ih =>
    rw [cons_append, split, if_neg hc, if_neg hquote]
    simpa using ih (x ++ [c])

theorem split_arg_special (h : arg.any isSpecial) :
    split false 0 none (quoteForCommandLineToArgvW arg ++ text) = split false 0 (some arg) text := by
  rw [quoteForCommandLineToArgvW, if_pos h, cons_append, split, if_neg (by decide), if_pos rfl]
  simpa using @split_quoteLoop arg text []

/-- Where the text goes on with a space or not at all, an argument ends. -/
def Ends (text : List UInt16) : Prop := ∀ c ∈ text.head?, c = space

theorem split_ends (h : Ends text) (count : Nat) (x : Option (List UInt16)) :
    split false count x text =
      (x.map (· ++ replicate count backslash)).toList ++ split false 0 none text := by
  cases text with
  | nil => simp [split]
  | cons c text =>
    rw [h c rfl]
    simp [split, isBackslash, space, backslash, quote]

theorem split_unquoted (h : ∀ c ∈ arg, c ≠ quote) (hends : Ends text) (count : Nat)
    (x : Option (List UInt16)) :
    split false count x (arg ++ text) = split false count x arg ++ split false 0 none text := by
  induction arg generalizing count x with
  | nil => rw [nil_append, split_ends hends]; rfl
  | cons c arg ih =>
    obtain ⟨hc, harg⟩ := forall_mem_cons.mp h
    simp only [cons_append, split, if_neg hc]
    split_ifs
    · exact ih harg _ _
    · rw [ih harg, append_assoc]
    · exact ih harg _ _

section

variable (h : ∀ c ∈ arg, c ≠ quote ∧ c ≠ space ∧ c ≠ tab)
include h

/-- Without quotes, spaces and tabs a text is one argument. -/
theorem split_plain (count : Nat) (x : List UInt16) :
    split false count (some x) arg = [x ++ replicate count backslash ++ arg] := by
  induction arg generalizing count x with
  | nil => simp [split]
  | cons c arg ih =>
    obtain ⟨⟨hquote, hspace, htab⟩, harg⟩ := forall_mem_cons.mp h
    by_cases hc : isBackslash c
    · rw [split, if_pos hc, Option.getD_some, ih harg, beq_iff_eq.mp hc, replicate_succ']
      simp
    · rw [split, if_neg hc, if_neg hquote, if_neg (by simp [hspace, htab]), ih harg]
      simp

theorem split_plain_ne (hne : arg ≠ []) : split false 0 none arg = [arg] := by
  cases arg with
  | nil => exact absurd rfl hne
  | cons c arg =>
    have hsame : split false 0 none (c :: arg) = split false 0 (some []) (c :: arg) := by
      obtain ⟨hquote, hspace, htab⟩ := h c mem_cons_self
      simp [split, hquote, hspace, htab]
    rw [hsame, split_plain h]
    simp

end

/-- What is read of an argument in no quotes has a character, and no tab. -/
theorem split_pieces (h : arg.any isSpecial = false) (x : Option (List UInt16))
    (hx : ∀ y ∈ x, y ≠ [] ∧ tab ∉ y) : ∀ y ∈ split false 0 x arg, y ≠ [] ∧ tab ∉ y := by
  induction arg generalizing x with
  | nil => simpa [split] using hx
  | cons c arg ih =>
    rw [any_cons, Bool.or_eq_false_iff] at h
    obtain ⟨hc, harg⟩ := h
    simp only [isSpecial, Bool.or_eq_false_iff, beq_eq_false_iff_ne] at hc
    rw [split, isBackslash, if_neg (by simpa using hc.1.2), if_neg hc.2]
    split_ifs with hspace
    · intro y hy
      rcases mem_append.mp hy with hy | hy
      · exact hx y (by simpa using hy)
      · exact ih harg none nofun y hy
    · refine ih harg _ fun y hy => ?_
      obtain rfl := Option.some.inj hy
      have htab : tab ≠ c := fun heq => hspace (by simp [heq])
      refine ⟨by simp, ?_⟩
      cases x with
      | none => simpa using htab
      | some x => simpa using ⟨(hx x rfl).2, htab⟩

/-- What is read of the arguments: the ones in quotes as they are, the others by themselves. -/
theorem split_args (args : List (List UInt16)) :
    let text := args.flatMap fun arg => space :: quoteForCommandLineToArgvW arg
    Ends text ∧ split false 0 none text =
      args.flatMap fun arg => if arg.any isSpecial then [arg] else split false 0 none arg := by
  induction args with
  | nil => exact ⟨nofun, rfl⟩
  | cons arg args ih =>
    obtain ⟨hends, hsplit⟩ := ih
    refine ⟨fun c hc => (Option.some.inj hc).symm, ?_⟩
    rw [flatMap_cons, flatMap_cons, cons_append, split, if_neg (by decide), if_neg (by decide),
      if_pos (by decide), ← hsplit]
    split_ifs with hspecial
    · rw [split_arg_special hspecial, split_ends hends]
      simp
    · rw [quoteForCommandLineToArgvW, if_neg hspecial]
      refine split_unquoted (fun c hc heq => hspecial (any_eq_true.mpr ⟨c, hc, ?_⟩)) hends 0 none
      rw [heq]
      decide

/-- Behind a plain name the arguments are read as they were exactly when none is lost. -/
theorem argv_quoting_iff (program : List UInt16) (args : List (List UInt16))
    (hne : program ≠ []) (hplain : ∀ c ∈ program, c ≠ quote ∧ c ≠ space ∧ c ≠ tab) :
    commandLineToArgvW (commandLine program args) = program :: args ↔
      ∀ arg ∈ args, ¬Lost arg := by
  obtain ⟨hends, hargs⟩ := split_args args
  rw [commandLineToArgvW, commandLine, split_unquoted (fun c hc => (hplain c hc).1) hends,
    split_plain_ne hplain hne, hargs, singleton_append, cons.injEq, eq_self, true_and]
  constructor
  · intro hsame arg harg hlost
    rw [← hsame] at harg
    obtain ⟨a, -, hpiece⟩ := mem_flatMap.mp harg
    split_ifs at hpiece with hspecial
    · rw [mem_singleton.mp hpiece, Lost, hspecial] at hlost
      cases hlost.1
    · have hpiece := split_pieces (Bool.of_not_eq_true hspecial) none nofun arg hpiece
      exact hlost.2.elim hpiece.1 hpiece.2
  · intro hkept
    refine (flatMap_congr fun arg harg => ?_).trans (flatMap_singleton' args)
    split_ifs with hspecial
    · rfl
    · have hnone := Bool.of_not_eq_true hspecial
      have hkeep := fun hor => hkept arg harg ⟨hnone, hor⟩
      refine split_plain_ne (fun c hc => ?_) fun hnil => hkeep (Or.inl hnil)
      have hc' := any_eq_false.mp hnone c hc
      simp only [isSpecial, Bool.or_eq_true, not_or, beq_iff_eq] at hc'
      exact ⟨hc'.2, hc'.1.1, fun htab => hkeep (Or.inr (htab ▸ hc))⟩

/-- An argument of a backslash and a quote. -/
theorem argv_quoting_iff_escaped :
    commandLineToArgvW (commandLine [0x70] [[backslash, quote]]) = [[0x70], [backslash, quote]] :=
  (argv_quoting_iff [0x70] [[backslash, quote]] nofun
    (forall_mem_singleton.mpr (by decide))).mpr fun arg harg hlost => by
      rw [mem_singleton.mp harg] at hlost
      exact absurd hlost.1 (by decide)

/-- An empty argument, and one with a tab. -/
theorem argv_quoting_lost :
    commandLineToArgvW (commandLine [0x70] [[]]) = [[0x70]] ∧
      commandLineToArgvW (commandLine [0x70] [[0x61, tab, 0x62]]) =
        [[0x70], [0x61], [0x62]] := by
  decide

end ChromiumUI.ArgvQuoting
