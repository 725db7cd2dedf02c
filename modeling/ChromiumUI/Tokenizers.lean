import ChromiumUI.Fuel
import ChromiumUI.LongestPrefix
import ChromiumUI.MaximalRuns

/-!
# The tokenizers

SplitStringAlongWhitespace, Tokenize and StringTokenizer. The first two go by positions in the
string; where an iterator of the third stands is what comes from there on.
-/
namespace ChromiumUI.Base.Tokenizers
open MaximalRuns Fuel List Nat

section Definitions

variable {CHAR : Type}

def substr (str : List CHAR) (pos n : Nat) : List CHAR := (str.drop pos).take n

/-- The first position from `pos` on whose character passes the test; `none` is npos. -/
def findFirst (p : CHAR → Bool) (str : List CHAR) (pos : Nat) : Option Nat :=
  ((str.drop pos).findIdx? p).map (pos + ·)

/-! ## SplitStringAlongWhitespace -/

/-- The locals of SplitStringAlongWhitespaceT. -/
structure Locals (CHAR : Type) where
  result : List (List CHAR)
  lastWasWs : Bool
  lastNonWsStart : Nat

/-- The end of the string pushes what is open. -/
def Locals.finish (str : List CHAR) (l : Locals CHAR) : List (List CHAR) :=
  if !l.lastWasWs then l.result ++ [substr str l.lastNonWsStart (str.length - l.lastNonWsStart)]
  else l.result

variable [DecidableEq CHAR]

/-- One turn of the loop, at character `i`; `spaces` are the labels of its cases. -/
def step (spaces str : List CHAR) (l : Locals CHAR) (c : CHAR × Nat) : Locals CHAR :=
  let (c, i) := c
  if c ∈ spaces then
    if !l.lastWasWs then
      { l with
        result := if 0 < i then l.result ++ [substr str l.lastNonWsStart (i - l.lastNonWsStart)]
          else l.result
        lastWasWs := true }
    else l
  else if l.lastWasWs then { l with lastWasWs := false, lastNonWsStart := i }
  else l

/-- SplitStringAlongWhitespaceT. -/
def splitStringAlongWhitespaceT (spaces str : List CHAR) (result : List (List CHAR)) :
    List (List CHAR) :=
  if str.length = 0 then result
  else (str.zipIdx.foldl (step spaces str) ⟨result, false, 0⟩).finish str

/-! ## Tokenize -/

def findFirstOf (str delimiters : List CHAR) (pos : Nat) : Option Nat :=
  findFirst (fun c => c ∈ delimiters) str pos

def findFirstNotOf (str delimiters : List CHAR) (pos : Nat) : Option Nat :=
  findFirst (fun c => c ∉ delimiters) str pos

/-- The loop of TokenizeT. -/
def tokenizeLoop (str delimiters : List CHAR) :
    Nat → Option Nat → List (List CHAR) → Option (List (List CHAR))
  | 0, _, _ => none
  | _ + 1, none, tokens => some tokens
  | fuel + 1, some start, tokens =>
    match findFirstOf str delimiters (start + 1) with
    | none => some (tokens ++ [str.drop start])
    | some finish =>
      tokenizeLoop str delimiters fuel (findFirstNotOf str delimiters (finish + 1))
        (tokens ++ [substr str start (finish - start)])

/-- Tokenize: it clears what the tokens held before. -/
def tokenize (fuel : Nat) (str delimiters : List CHAR) : Option (List (List CHAR)) :=
  tokenizeLoop str delimiters fuel (findFirstNotOf str delimiters 0) []

/-! ## StringTokenizer -/

structure Token (CHAR : Type) where
  text : List CHAR
  isDelim : Bool
  deriving DecidableEq

/-- What the setters of a StringTokenizer set. -/
structure Options (CHAR : Type) where
  delims : List CHAR
  quotes : List CHAR
  options : BitVec 32

def Options.returnDelims (o : Options CHAR) : Bool := o.options &&& 1 != 0

def Options.isDelim (o : Options CHAR) (c : CHAR) : Bool := c ∈ o.delims

def Options.isQuote (o : Options CHAR) (c : CHAR) : Bool := c ∈ o.quotes

/-- From what is left of the string: a token and what is left behind it, or no further token. -/
abbrev GetNext (CHAR : Type) : Type := List CHAR → Option (Token CHAR × List CHAR)

def quickGetNext (o : Options CHAR) : GetNext CHAR
  | [] => none
  | c :: rest =>
    if o.isDelim c then quickGetNext o rest
    else some (⟨c :: rest.takeWhile (!o.isDelim ·), false⟩, rest.dropWhile (!o.isDelim ·))

structure AdvanceState (CHAR : Type) where
  inQuote : Bool
  inEscape : Bool
  quoteChar : CHAR

/-- AdvanceOne; `backslash` is the character. `none`: a delimiter was hit. -/
def advanceOne (o : Options CHAR) (backslash : CHAR) (state : AdvanceState CHAR) (c : CHAR) :
    Option (AdvanceState CHAR) :=
  if state.inQuote then
    if state.inEscape then some { state with inEscape := false }
    else if c = backslash then some { state with inEscape := true }
    else if c = state.quoteChar then some { state with inQuote := false }
    else some state
  else if o.isDelim c then none
  else some { state with quoteChar := c, inQuote := o.isQuote c }

/-- The loop that ends a token: what it takes, and what it leaves. -/
def advance (o : Options CHAR) (backslash : CHAR) :
    AdvanceState CHAR → List CHAR → List CHAR × List CHAR
  | _, [] => ([], [])
  | state, c :: rest =>
    match advanceOne o backslash state c with
    | none => ([], c :: rest)
    | some state =>
      let (token, rest) := advance o backslash state rest
      (c :: token, rest)

/-- FullGetNext from this state of the quotes on. -/
def fullGetNextFrom (o : Options CHAR) (backslash : CHAR) (state : AdvanceState CHAR) : GetNext CHAR
  | [] => none
  | c :: rest =>
    match advanceOne o backslash state c with
    | some state =>
      let (token, rest) := advance o backslash state rest
      some (⟨c :: token, false⟩, rest)
    | none =>
      if o.returnDelims then some (⟨[c], true⟩, rest)
      else fullGetNextFrom o backslash state rest

def fullGetNext (o : Options CHAR) (backslash nul : CHAR) : GetNext CHAR :=
  fullGetNextFrom o backslash ⟨false, false, nul⟩

def getNext (o : Options CHAR) (backslash nul : CHAR) : GetNext CHAR :=
  if o.quotes.isEmpty && o.options == 0 then quickGetNext o else fullGetNext o backslash nul

/-- The tokens of `while (t.GetNext())`. -/
def tokens (next : GetNext CHAR) : Nat → List CHAR → Option (List (Token CHAR))
  | 0, _ => none
  | fuel + 1, str =>
    match next str with
    | none => some []
    | some (token, rest) => (tokens next fuel rest).map (token :: ·)

/-- The labels of the cases, and the delimiters " \t\n\v\f\r". -/
def whitespace (char : Nat → CHAR) : List CHAR := [0x20, 0x09, 0x0a, 0x0b, 0x0c, 0x0d].map char

end Definitions

variable {CHAR : Type}

variable {str : List CHAR}

theorem findFirst_none {p : CHAR → Bool} {pos : Nat} (h : findFirst p str pos = none) :
    ∀ c ∈ str.drop pos, p c = false := by
  rw [findFirst, Option.map_eq_none_iff, List.findIdx?_eq_none_iff] at h
  exact h

theorem findFirst_some {p : CHAR → Bool} {pos i : Nat} (h : findFirst p str pos = some i) :
    ∃ front c rest, str.drop pos = front ++ c :: rest ∧ (∀ a ∈ front, p a = false) ∧
      p c = true ∧ i = pos + front.length := by
  rw [findFirst, Option.map_eq_some_iff] at h
  obtain ⟨n, hn, rfl⟩ := h
  obtain ⟨hlt, hc, hfront⟩ := List.findIdx?_eq_some_iff_getElem.mp hn
  refine ⟨(str.drop pos).take n, (str.drop pos)[n], (str.drop pos).drop (n + 1), ?_, ?_, hc, ?_⟩
  · rw [← drop_eq_getElem_cons hlt, take_append_drop]
  · intro a ha
    obtain ⟨j, hj, rfl⟩ := mem_iff_getElem.mp ha
    have hjn : j < n := by
      rw [length_take] at hj
      omega
    simpa using hfront j hjn
  · rw [length_take, min_eq_left (le_of_lt hlt)]

/-! ## SplitStringAlongWhitespace -/

/-- What the loop has read of the run it is in. -/
def Locals.current (front : List CHAR) (l : Locals CHAR) : List CHAR :=
  if l.lastWasWs then [] else front.drop l.lastNonWsStart

theorem substr_current {front : List CHAR} (rest : List CHAR) {l : Locals CHAR}
    (hws : l.lastWasWs = false) (hle : l.lastNonWsStart ≤ front.length) :
    substr (front ++ rest) l.lastNonWsStart (front.length - l.lastNonWsStart) =
      l.current front := by
  rw [substr, Locals.current, if_neg (by simp [hws]), drop_append_of_le_length hle,
    take_left' (length_drop ..)]

variable [DecidableEq CHAR]

/-- What holds after the characters of `front`. -/
structure Locals.Scanned (spaces front : List CHAR) (l : Locals CHAR) : Prop where
  start_le : l.lastNonWsStart ≤ front.length
  run : ∀ c ∈ l.current front, c ∉ spaces
  -- no run is open without a character, but at the start of the string
  first : l.lastWasWs = false → l.current front = [] → front = []

/-- One turn keeps this, and what will be found in the end. -/
theorem Locals.Scanned.step {spaces front : List CHAR} {l : Locals CHAR}
    (h : l.Scanned spaces front) (c : CHAR) (rest : List CHAR) :
    let l' := Tokenizers.step spaces (front ++ c :: rest) l (c, front.length)
    l'.Scanned spaces (front ++ [c]) ∧
      l'.result ++ maximalRuns (· ∈ spaces) (l'.current (front ++ [c]) ++ rest) =
        l.result ++ maximalRuns (· ∈ spaces) (l.current front ++ c :: rest) := by
  have hle := h.start_le
  have hlen : (front ++ [c]).length = front.length + 1 := by simp
  by_cases hc : c ∈ spaces
  · have hcut := maximalRuns_cut (· ∈ spaces) (by simpa using hc) rest
    cases hws : l.lastWasWs with
    | true =>
      have hcur : ∀ front, l.current front = [] := fun front => by simp [Locals.current, hws]
      have hstep : Tokenizers.step spaces (front ++ c :: rest) l (c, front.length) = l := by
        simp [Tokenizers.step, hc, hws]
      rw [hstep]
      refine ⟨⟨by omega, by simp [hcur], by simp [hws]⟩, ?_⟩
      rw [hcur, hcur, nil_append, nil_append, hcut]
    | false =>
      have hsub := substr_current (c :: rest) hws hle
      by_cases hfront : front = []
      · -- whitespace at the start of the string
        have hcur : l.current front = [] := by simp [Locals.current, hfront]
        simp only [Tokenizers.step, hc, hws, hfront]
        refine ⟨⟨by simp [hfront] at hle ⊢; omega, by simp [Locals.current], by simp⟩, ?_⟩
        simp [Locals.current, hcut]
      · have hne : l.current front ≠ [] := fun hnil => hfront (h.first hws hnil)
        have hpos : 0 < front.length := length_pos_iff.mpr hfront
        simp only [Tokenizers.step, hc, hws, hpos, hsub]
        refine ⟨⟨by simp; omega, by simp [Locals.current], by simp⟩, ?_⟩
        rw [maximalRuns_run _ hne (by simpa using h.run) (by simpa using hc), hcut]
        simp [Locals.current]
  · cases hws : l.lastWasWs with
    | true =>
      simp only [Tokenizers.step, hc, hws]
      refine ⟨⟨by simp, by simp [Locals.current, hc], by simp [Locals.current]⟩, ?_⟩
      simp [Locals.current, hws]
    | false =>
      have hcur : l.current (front ++ [c]) = l.current front ++ [c] := by
        simp [Locals.current, hws, drop_append_of_le_length hle]
      have hstep : Tokenizers.step spaces (front ++ c :: rest) l (c, front.length) = l := by
        simp [Tokenizers.step, hc, hws]
      rw [hstep]
      refine ⟨⟨by omega, ?_, by simp [hcur]⟩, by rw [hcur]; simp⟩
      intro a ha
      rw [hcur] at ha
      rcases mem_append.mp ha with ha | ha
      · exact h.run a ha
      · rw [mem_singleton.mp ha]
        exact hc

theorem Locals.Scanned.finish {spaces : List CHAR} {l : Locals CHAR} (hne : str ≠ [])
    (h : l.Scanned spaces str) :
    l.finish str = l.result ++ maximalRuns (· ∈ spaces) (l.current str) := by
  rw [Locals.finish]
  cases hws : l.lastWasWs with
  | true => simp [Locals.current, hws]
  | false =>
    have hsub := substr_current [] hws h.start_le
    have hrun := @maximalRuns_run _ (· ∈ spaces) _ (fun hnil => hne (h.first hws hnil))
      (by simpa using h.run) [] (by simp)
    rw [append_nil] at hsub hrun
    simp [hsub, hrun]

theorem foldl_step {spaces front rest : List CHAR} {l : Locals CHAR} (hne : front ++ rest ≠ [])
    (h : l.Scanned spaces front) :
    ((rest.zipIdx front.length).foldl (step spaces (front ++ rest)) l).finish (front ++ rest) =
      l.result ++ maximalRuns (· ∈ spaces) (l.current front ++ rest) := by
  induction rest generalizing front l with
  | nil =>
    rw [append_nil] at hne
    simpa using h.finish hne
  | cons c rest ih =>
    obtain ⟨hscanned, hruns⟩ := h.step c rest
    rw [zipIdx_cons, foldl_cons, ← hruns]
    have hfold := ih (by simp) hscanned
    rw [append_assoc, singleton_append, length_append] at hfold
    exact hfold

theorem splitStringAlongWhitespaceT_eq (spaces str : List CHAR) (result : List (List CHAR)) :
    splitStringAlongWhitespaceT spaces str result = result ++ maximalRuns (· ∈ spaces) str := by
  rw [splitStringAlongWhitespaceT]
  cases str with
  | nil => simp
  | cons c str =>
    have h : Locals.Scanned spaces [] (⟨result, false, 0⟩ : Locals CHAR) :=
      ⟨le_refl 0, by simp [Locals.current], by simp⟩
    exact foldl_step (by simp) h

/-! ## Tokenize -/

theorem tokenizeLoop_eq (str delimiters : List CHAR) {fuel pos : Nat}
    (hpos : pos ≤ str.length) (hfuel : str.length < fuel + pos) (tokens : List (List CHAR)) :
    tokenizeLoop str delimiters fuel (findFirstNotOf str delimiters pos) tokens =
      some (tokens ++ maximalRuns (· ∈ delimiters) (str.drop pos)) := by
  induction fuel generalizing pos tokens with
  | zero => omega
  | succ fuel ih =>
    cases hstart : findFirstNotOf str delimiters pos with
    | none =>
      have hcuts := findFirst_none hstart
      have hruns := @maximalRuns_cuts _ (· ∈ delimiters) (str.drop pos) (by simpa using hcuts) []
      rw [append_nil] at hruns
      rw [tokenizeLoop, hruns]
      simp
    | some start =>
      obtain ⟨front, c, after, hdrop, hfront, hc, rfl⟩ := findFirst_some hstart
      have hruns := maximalRuns_cuts (· ∈ delimiters) (by simpa using hfront) (c :: after)
      have hat : str.drop (pos + front.length) = c :: after := by
        rw [← drop_drop, hdrop, drop_left]
      have hafter : str.drop (pos + front.length + 1) = after := by
        rw [← drop_drop, hat, drop_one, tail_cons]
      rw [tokenizeLoop, hdrop, hruns]
      cases hfin : findFirstOf str delimiters (pos + front.length + 1) with
      | none =>
        -- the last token goes up to the end
        have hrun := findFirst_none hfin
        rw [hafter] at hrun
        have hlast := @maximalRuns_run _ (· ∈ delimiters) _ (cons_ne_nil c after)
          (by simpa using ⟨by simpa using hc, by simpa using hrun⟩) [] (by simp)
        rw [append_nil] at hlast
        rw [hat, hlast]
        simp
      | some finish =>
        obtain ⟨run, d, rest, hdrop', hrun, hd, rfl⟩ := findFirst_some hfin
        rw [hafter] at hdrop'
        subst hdrop'
        have hrest : str.drop (pos + front.length + 1 + run.length + 1) = rest := by
          rw [← drop_drop, ← drop_drop, hafter, drop_left, drop_one,
            tail_cons]
        have htoken := @maximalRuns_run _ (· ∈ delimiters) _ (cons_ne_nil c run)
          (by simpa using ⟨by simpa using hc, by simpa using hrun⟩) (d :: rest)
          (by simpa using hd)
        have hsub : substr str (pos + front.length)
            (pos + front.length + 1 + run.length - (pos + front.length)) = c :: run := by
          rw [substr, hat, show pos + front.length + 1 + run.length - (pos + front.length) =
            (c :: run).length by simp; omega, ← cons_append, take_left]
        have hlen := congrArg List.length hat
        simp only [length_drop, length_cons, length_append] at hlen
        simp only
        rw [ih (by omega) (by omega), hrest, hsub, ← cons_append, htoken,
          maximalRuns_cut _ (by simpa using hd)]
        simp

theorem tokenize_eq (str delimiters : List CHAR) :
    Computes (fun fuel => tokenize fuel str delimiters) (maximalRuns (· ∈ delimiters) str) :=
  ⟨str.length + 1, fun fuel hfuel =>
    tokenizeLoop_eq str delimiters (zero_le _) (show str.length < fuel + 0 by omega) []⟩

/-! ## StringTokenizer -/

theorem quickGetNext_run (o : Options CHAR) (str : List CHAR) :
    (quickGetNext o str = none ∧ maximalRuns o.isDelim str = []) ∨
      ∃ run rest, quickGetNext o str = some (⟨run, false⟩, rest) ∧
        maximalRuns o.isDelim str = run :: maximalRuns o.isDelim rest ∧
        rest.length < str.length := by
  induction str with
  | nil => exact .inl ⟨rfl, rfl⟩
  | cons c str ih =>
    rw [quickGetNext]
    cases hc : o.isDelim c with
    | true =>
      rw [if_pos rfl, maximalRuns_cut _ hc]
      rcases ih with h | ⟨run, rest, hnext, hruns, hlt⟩
      · exact .inl h
      · exact .inr ⟨run, rest, hnext, hruns, lt_succ_of_lt hlt⟩
    | false =>
      rw [if_neg (by simp)]
      refine .inr ⟨_, _, rfl, ?_, ?_⟩
      · rw [← maximalRuns_run _ (cons_ne_nil _ _)]
        · rw [cons_append, takeWhile_append_dropWhile]
        · intro a ha
          rcases mem_cons.mp ha with rfl | ha
          · exact hc
          · simpa using mem_takeWhile_imp ha
        · intro a ha
          simpa using LongestPrefix.head?_dropWhile _ str a ha
      · exact lt_succ_of_le (dropWhile_suffix _).length_le

theorem tokens_quick (o : Options CHAR) {fuel : Nat} (hfuel : str.length < fuel) :
    tokens (quickGetNext o) fuel str = some ((maximalRuns o.isDelim str).map (⟨·, false⟩)) := by
  induction fuel generalizing str with
  | zero => omega
  | succ fuel ih =>
    rw [tokens]
    rcases quickGetNext_run o str with ⟨hnext, hruns⟩ | ⟨run, rest, hnext, hruns, hlt⟩
    · rw [hnext, hruns]
      rfl
    · rw [hnext, hruns]
      simp [ih (show rest.length < fuel by omega)]

variable {o : Options CHAR}

/-- Without quotes the state stays as it is. -/
theorem advanceOne_plain (backslash : CHAR) {state : AdvanceState CHAR} (hquotes : o.quotes = [])
    (hstate : state.inQuote = false) (c : CHAR) :
    advanceOne o backslash state c =
      if o.isDelim c then none else some { state with quoteChar := c } := by
  simp [advanceOne, hstate, Options.isQuote, hquotes]

theorem advance_plain {o : Options CHAR} (backslash : CHAR) {state : AdvanceState CHAR}
    (hquotes : o.quotes = []) (hstate : state.inQuote = false) (str : List CHAR) :
    advance o backslash state str =
      (str.takeWhile (!o.isDelim ·), str.dropWhile (!o.isDelim ·)) := by
  induction str generalizing state with
  | nil => rfl
  | cons c str ih =>
    rw [advance, advanceOne_plain backslash hquotes hstate]
    cases hc : o.isDelim c with
    | true => simp [hc]
    | false =>
      have hrest := @ih { state with quoteChar := c } hstate
      simp [hc, hrest]

theorem fullGetNextFrom_plain (backslash : CHAR) {state : AdvanceState CHAR}
    (hquotes : o.quotes = []) (hdelims : o.returnDelims = false) (hstate : state.inQuote = false)
    (str : List CHAR) : fullGetNextFrom o backslash state str = quickGetNext o str := by
  induction str with
  | nil => rfl
  | cons c str ih =>
    rw [fullGetNextFrom, quickGetNext, advanceOne_plain backslash hquotes hstate]
    cases hc : o.isDelim c with
    | true => simp [hdelims, ih]
    | false =>
      have hrest := @advance_plain _ _ _ backslash { state with quoteChar := c } hquotes hstate str
      simp [hrest]

theorem advance_append (o : Options CHAR) (backslash : CHAR) (state : AdvanceState CHAR)
    (str : List CHAR) :
    (advance o backslash state str).1 ++ (advance o backslash state str).2 = str := by
  induction str generalizing state with
  | nil => rfl
  | cons c str ih =>
    rw [advance]
    cases advanceOne o backslash state c with
    | none => rfl
    | some state => simp [ih]

/-- With RETURN_DELIMS each token takes off the front of the string what it holds. -/
theorem fullGetNextFrom_takes (hdelims : o.returnDelims = true) (backslash : CHAR)
    (state : AdvanceState CHAR) (c : CHAR) (str : List CHAR) :
    ∃ token rest, fullGetNextFrom o backslash state (c :: str) = some (token, rest) ∧
      token.text ++ rest = c :: str ∧ rest.length ≤ str.length := by
  rw [fullGetNextFrom]
  cases advanceOne o backslash state c with
  | none =>
    simp only [hdelims]
    exact ⟨_, _, rfl, rfl, le_refl _⟩
  | some state =>
    have happ := advance_append o backslash state str
    refine ⟨_, _, rfl, by simp [happ], ?_⟩
    have hlen := congrArg List.length happ
    rw [length_append] at hlen
    omega

theorem tokens_flatten (hdelims : o.returnDelims = true) (backslash nul : CHAR) (str : List CHAR) :
    ∃ ts, Computes (fun fuel => tokens (fullGetNext o backslash nul) fuel str) ts ∧
      (ts.map Token.text).flatten = str := by
  induction hn : str.length using Nat.strong_induction_on generalizing str with
  | _ n ih =>
    cases str with
    | nil => exact ⟨[], (Computes.pure []).succ fun _ => rfl, rfl⟩
    | cons c str =>
      obtain ⟨token, rest, hnext, happ, hle⟩ :=
        fullGetNextFrom_takes hdelims backslash ⟨false, false, nul⟩ c str
      obtain ⟨ts, hts, hflatten⟩ := ih rest.length (by rw [← hn, length_cons]; omega) rest rfl
      have hnext' : fullGetNext o backslash nul (c :: str) = some (token, rest) := hnext
      refine ⟨token :: ts, (hts.map (token :: ·)).succ fun fuel => ?_, ?_⟩
      · simp only [tokens, hnext']
      · rw [map_cons, flatten_cons, hflatten, happ]

/-! ## All of them -/

theorem tokenizers_agree (char : Nat → CHAR) (backslash nul : CHAR) :
    (∀ str : List CHAR,
      splitStringAlongWhitespaceT (whitespace char) str [] =
          maximalRuns (· ∈ whitespace char) str ∧
        Computes (fun fuel => tokenize fuel str (whitespace char))
          (maximalRuns (· ∈ whitespace char) str) ∧
        Computes (fun fuel => tokens (getNext ⟨whitespace char, [], 0⟩ backslash nul) fuel str)
          ((maximalRuns (· ∈ whitespace char) str).map (⟨·, false⟩))) ∧
      (∀ (o : Options CHAR), o.quotes = [] → o.returnDelims = false → ∀ str, ∃ ts,
        Computes (fun fuel => tokens (quickGetNext o) fuel str) ts ∧
          Computes (fun fuel => tokens (fullGetNext o backslash nul) fuel str) ts) ∧
      ∀ o : Options CHAR, o.returnDelims = true → ∀ str, ∃ ts,
        Computes (fun fuel => tokens (getNext o backslash nul) fuel str) ts ∧
          (ts.map Token.text).flatten = str := by
  refine ⟨fun str => ⟨?_, tokenize_eq str _, ?_⟩, fun o hquotes hdelims str => ?_,
    fun o hdelims str => ?_⟩
  · rw [splitStringAlongWhitespaceT_eq, nil_append]
  · exact ⟨str.length + 1, fun fuel hfuel => tokens_quick _ (by omega)⟩
  · have hquick : Computes (fun fuel => tokens (quickGetNext o) fuel str) _ :=
      ⟨str.length + 1, fun fuel hfuel => tokens_quick o (by omega)⟩
    refine ⟨_, hquick, ?_⟩
    have hnext : fullGetNext o backslash nul = quickGetNext o :=
      funext fun str => fullGetNextFrom_plain backslash hquotes hdelims rfl str
    rw [hnext]
    exact hquick
  · have hoptions : (o.options == 0) = false := by
      cases h : o.options == 0 with
      | false => rfl
      | true => simp [Options.returnDelims, eq_of_beq h] at hdelims
    rw [getNext, hoptions, Bool.and_false, if_neg (by simp)]
    exact tokens_flatten hdelims backslash nul str

theorem tokenizers_agree_quotes :
    ∃ ts, Computes (fun fuel => tokens (getNext ⟨[0x20], [0x22], 1⟩ 0x5c (0 : UInt8)) fuel
      [0x61, 0x22, 0x20, 0x20]) ts ∧ (ts.map Token.text).flatten = [0x61, 0x22, 0x20, 0x20] :=
  (tokenizers_agree UInt8.ofNat 0x5c 0).2.2 ⟨[0x20], [0x22], 1⟩ (by decide) _

end ChromiumUI.Base.Tokenizers
