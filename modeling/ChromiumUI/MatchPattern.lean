import ChromiumUI.LongestPrefix
import ChromiumUI.PatternLanguage
import ChromiumUI.UtfConversions

/-!
# MatchPattern

EatSameChars, EatWildcard and MatchPatternT over what is left of the string and of the pattern,
with NextCharUTF8 and NextCharUTF16 in turn. A pointer is the list of units from it on.
-/
namespace ChromiumUI.Base.Patterns

open PatternLanguage PrefixCodes ByteMemory List Nat Bool

/-- CHAR and NEXT: the code of a unit, and the character in front of the end with what comes after
it, where `none` is CBU_SENTINEL. -/
structure NextChar (CHAR : Type) where
  unit : CHAR → Nat
  next : List CHAR → Option Nat × List CHAR

def nextCharUTF8 : NextChar UInt8 where
  unit := UInt8.toNat
  next p :=
    let read := cbu8Next (ofBytes p) 0 p.length
    (read.1, p.drop read.2)

/-- CBU16_IS_LEAD. -/
def isLeadUnit (c : Nat) : Bool := c &&& 0xfffffc00 == 0xd800

/-- CBU16_NEXT. -/
def nextCharUTF16 : NextChar UInt16 where
  unit := UInt16.toNat
  next
    | [] => (none, [])
    | [c] => (some c.toNat, [])
    | c :: c₂ :: rest =>
      if isLeadUnit c.toNat && isTrailUnit c₂.toNat then
        (some (getSupplementary c.toNat c₂.toNat), rest)
      else (some c.toNat, c₂ :: rest)

section Definitions

variable {CHAR : Type} (N : NextChar CHAR)

def isWildcard (c : CHAR) : Bool := N.unit c == 0x2a || N.unit c == 0x3f

/-- EatSameChars: where the pattern and the string come to. Every turn takes a character of the
pattern. -/
def eatSameChars : Nat → Option (List CHAR) → List CHAR → List CHAR → List CHAR × List CHAR
  | 0, _, pattern, string => (pattern, string)
  | _ + 1, _, [], string => ([], string)
  | _ + 1, _, pattern, [] => (pattern, [])
  | fuel + 1, escape, p :: pattern, s :: string =>
    if escape.isNone && isWildcard N p then (p :: pattern, s :: string)
    else if escape.isNone && N.unit p == 0x5c then
      eatSameChars fuel (some (p :: pattern)) (N.next (p :: pattern)).2 (s :: string)
    else
      let patternNext := N.next (p :: pattern)
      let stringNext := N.next (s :: string)
      if patternNext.1 == stringNext.1 && patternNext.1.isSome then
        eatSameChars fuel none patternNext.2 stringNext.2
      else (escape.getD (p :: pattern), s :: string)

/-- EatWildcard. -/
def eatWildcard : Nat → List CHAR → List CHAR
  | fuel + 1, p :: pattern =>
    if !isWildcard N p then p :: pattern else eatWildcard fuel (N.next (p :: pattern)).2
  | _, pattern => pattern

/-- The loop of a `*` over the places of the string, one unit after the other. -/
def starLoop (matchRest : List CHAR → Bool) : List CHAR → Bool
  | [] => false
  | c :: eval => matchRest (c :: eval) || starLoop matchRest eval

/-- MatchPatternT behind EatSameChars, of which `recurse` is the next level. -/
def matchRest (recurse : List CHAR → List CHAR → Bool) : List CHAR × List CHAR → Bool
  | (pattern, []) => (eatWildcard N pattern.length pattern).isEmpty
  | ([], _ :: _) => false
  | (p :: pattern, e :: eval) =>
    let nextPattern := (N.next (p :: pattern)).2
    if N.unit p = 0x3f then
      recurse (e :: eval) nextPattern || recurse (N.next (e :: eval)).2 nextPattern
    else if N.unit p = 0x2a then
      starLoop (fun rest => recurse rest (eatWildcard N nextPattern.length nextPattern))
          (e :: eval) ||
        (eatWildcard N (p :: pattern).length (p :: pattern)).isEmpty
    else false

/-- MatchPatternT, with kMaxDepth + 1 - depth levels left. -/
def matchPatternT : Nat → List CHAR → List CHAR → Bool
  | 0, _, _ => false
  | levels + 1, eval, pattern =>
    matchRest N (matchPatternT levels) (eatSameChars N pattern.length none pattern eval)

def kMaxDepth : Nat := 16

def matchPattern (eval pattern : List CHAR) : Bool :=
  matchPatternT N (kMaxDepth + 1) eval pattern

end Definitions

/-! ## The pattern language -/

/-- What a pattern of code points says. -/
def tokens : List Nat → List (Token Nat)
  | [] => []
  | 0x2a :: pattern => .sequence :: tokens pattern
  | 0x3f :: pattern => .optional :: tokens pattern
  | 0x5c :: c :: pattern => .literal c :: tokens pattern
  | c :: pattern => .literal c :: tokens pattern

/-- Whether a backslash with nothing behind it to escape ends the pattern. -/
def loneBackslash : List Nat → Bool
  | [] => false
  | [0x5c] => true
  | 0x5c :: _ :: pattern => loneBackslash pattern
  | _ :: pattern => loneBackslash pattern

def isWildcardCode (c : Nat) : Bool := c == 0x2a || c == 0x3f

/-- How many wildcards a pattern has. -/
def wildcards (pattern : List Nat) : Nat := (tokens pattern).countP Token.isWild

variable {c : Nat}

theorem isWildcardCode_iff : isWildcardCode c = true ↔ c = 0x2a ∨ c = 0x3f := by
  rw [isWildcardCode, or_eq_true, beq_iff_eq, beq_iff_eq]

theorem isWildcardCode_eq_false_iff : isWildcardCode c = false ↔ c ≠ 0x2a ∧ c ≠ 0x3f := by
  rw [isWildcardCode, or_eq_false_iff, beq_eq_false_iff_ne, beq_eq_false_iff_ne]

theorem tokens_plain (hwild : isWildcardCode c = false) (hesc : c ≠ 0x5c) (pattern : List Nat) :
    tokens (c :: pattern) = .literal c :: tokens pattern := by
  rw [isWildcardCode_eq_false_iff] at hwild
  exact tokens.eq_5 c pattern hwild.1 hwild.2 fun _ _ h => absurd h hesc

theorem loneBackslash_plain (hesc : c ≠ 0x5c) (pattern : List Nat) :
    loneBackslash (c :: pattern) = loneBackslash pattern :=
  loneBackslash.eq_4 c pattern (fun h => absurd h hesc) fun _ _ h => absurd h hesc

theorem tokens_wild (hwild : isWildcardCode c = true) (pattern : List Nat) :
    ∃ t : Token Nat, t.isWild = true ∧ tokens (c :: pattern) = t :: tokens pattern := by
  rw [isWildcardCode_iff] at hwild
  rcases hwild with rfl | rfl
  · exact ⟨.sequence, rfl, rfl⟩
  · exact ⟨.optional, rfl, rfl⟩

/-- The wildcards in front of a pattern, and the pattern behind them. -/
theorem tokens_dropWhile (pattern : List Nat) :
    ∃ wilds : List (Token Nat), (∀ t ∈ wilds, t.isWild = true) ∧
      tokens pattern = wilds ++ tokens (pattern.dropWhile isWildcardCode) ∧
      loneBackslash (pattern.dropWhile isWildcardCode) = loneBackslash pattern := by
  induction pattern with
  | nil => exact ⟨[], nofun, rfl, rfl⟩
  | cons c pattern ih =>
    by_cases hc : isWildcardCode c = true
    · obtain ⟨wilds, hwilds, htokens, hlone⟩ := ih
      obtain ⟨t, ht, hcons⟩ := tokens_wild hc pattern
      refine ⟨t :: wilds, forall_mem_cons.mpr ⟨ht, hwilds⟩, ?_, ?_⟩
      · rw [hcons, htokens, dropWhile_cons_of_pos hc, cons_append]
      · rw [dropWhile_cons_of_pos hc, hlone, loneBackslash_plain]
        rintro rfl
        cases hc
    · rw [dropWhile_cons_of_neg hc]
      exact ⟨[], nofun, rfl, rfl⟩

/-- A pattern is nothing but wildcards exactly when nothing is behind those in front. -/
theorem dropWhile_eq_nil_iff (pattern : List Nat) :
    pattern.dropWhile isWildcardCode = [] ↔ ∀ t ∈ tokens pattern, t.isWild = true := by
  induction pattern with
  | nil => exact ⟨fun _ => nofun, fun _ => rfl⟩
  | cons c pattern ih =>
    by_cases hc : isWildcardCode c = true
    · obtain ⟨t, ht, hcons⟩ := tokens_wild hc pattern
      rw [dropWhile_cons_of_pos hc, ih, hcons, forall_mem_cons, and_iff_right ht]
    · rw [dropWhile_cons_of_neg hc]
      refine ⟨nofun, fun hall => ?_⟩
      rw [not_eq_true] at hc
      by_cases hesc : c = 0x5c
      · subst hesc
        cases pattern <;> cases hall _ mem_cons_self
      · rw [tokens_plain hc hesc] at hall
        cases hall _ mem_cons_self

/-! ## Encoded strings -/

/-- NEXT reads the characters of an encoding, whose first units tell the three characters that a
pattern treats apart, and no valid character inside another one. -/
structure LawfulNext {CHAR : Type} (N : NextChar CHAR) (code : Nat → List CHAR)
    (Valid : Nat → Prop) : Prop where
  next_code : ∀ {c : Nat} (rest : List CHAR), Valid c → N.next (code c ++ rest) = (some c, rest)
  head : ∀ {c : Nat}, Valid c → ∃ u us, code c = u :: us ∧
    (N.unit u = 0x2a ↔ c = 0x2a) ∧ (N.unit u = 0x3f ↔ c = 0x3f) ∧ (N.unit u = 0x5c ↔ c = 0x5c)
  inside : ∀ {c d : Nat} {u v rest : List CHAR}, Valid c → code c = u ++ v → u ≠ [] → v ≠ [] →
    (N.next (v ++ rest)).1 = some d → ¬Valid d

variable {pattern s : List Nat}

section Encoded

variable {CHAR : Type} {N : NextChar CHAR} {code : Nat → List CHAR} {Valid : Nat → Prop}

section

variable (hN : LawfulNext N code Valid)
include hN

theorem LawfulNext.length_pos (hc : Valid c) : 0 < (code c).length := by
  obtain ⟨u, us, hcode, -⟩ := hN.head hc
  rw [hcode]
  exact succ_pos _

theorem LawfulNext.isWildcard (hc : Valid c) :
    ∃ u us, code c = u :: us ∧ Patterns.isWildcard N u = isWildcardCode c ∧
      (N.unit u = 0x5c ↔ c = 0x5c) := by
  obtain ⟨u, us, hcode, hstar, hquestion, hesc⟩ := hN.head hc
  refine ⟨u, us, hcode, ?_, hesc⟩
  rw [Patterns.isWildcard, isWildcardCode, Bool.eq_iff_iff]
  simp only [or_eq_true, beq_iff_eq, hstar, hquestion]

theorem eatWildcard_flatMap (hpat : ∀ c ∈ pattern, Valid c)
    {fuel : Nat} (hfuel : (pattern.flatMap code).length ≤ fuel) :
    eatWildcard N fuel (pattern.flatMap code) =
      (pattern.dropWhile isWildcardCode).flatMap code := by
  induction pattern generalizing fuel with
  | nil => cases fuel <;> rfl
  | cons c pattern ih =>
    obtain ⟨hc, hpat⟩ := forall_mem_cons.mp hpat
    have hpos := hN.length_pos hc
    rw [flatMap_cons, length_append] at hfuel
    obtain _ | fuel := fuel
    · omega
    obtain ⟨u, us, hcode, hwild, -⟩ := hN.isWildcard hc
    have hnext := hN.next_code (pattern.flatMap code) hc
    rw [flatMap_cons]
    rw [hcode, cons_append] at hnext ⊢
    rw [eatWildcard, hwild, hnext]
    by_cases hw : isWildcardCode c = true
    · rw [dropWhile_cons_of_pos hw, hw, Bool.not_true, if_neg Bool.false_ne_true]
      exact ih hpat (by omega)
    · rw [dropWhile_cons_of_neg hw, flatMap_cons, hcode, if_pos (by simpa using hw)]
      rfl

end

/-- A comparison of EatSameChars: the pattern's character is escaped, or has no meaning of its
own. -/
theorem eatSameChars_compare (hN : LawfulNext N code Valid) {c : Nat} {pattern : List Nat}
    (hc : Valid c) {escape : Option (List CHAR)}
    (hplain : escape = none → isWildcardCode c = false ∧ c ≠ 0x5c) (fuel : Nat) (s : CHAR)
    (string : List CHAR) :
    eatSameChars N (fuel + 1) escape ((c :: pattern).flatMap code) (s :: string) =
      if (N.next (s :: string)).1 = some c then
        eatSameChars N fuel none (pattern.flatMap code) (N.next (s :: string)).2
      else (escape.getD ((c :: pattern).flatMap code), s :: string) := by
  obtain ⟨u, us, hcode, hwild, hesc⟩ := hN.isWildcard hc
  have hnext := hN.next_code (pattern.flatMap code) hc
  rw [flatMap_cons]
  rw [hcode, cons_append] at hnext ⊢
  have hfirst : (escape.isNone && Patterns.isWildcard N u) = false := by
    cases escape with
    | none => rw [hwild, (hplain rfl).1, Bool.and_false]
    | some _ => rfl
  have hsecond : (escape.isNone && N.unit u == 0x5c) = false := by
    cases escape with
    | none =>
      rw [and_eq_false_iff, beq_eq_false_iff_ne]
      exact .inr (mt hesc.mp (hplain rfl).2)
    | some _ => rfl
  rw [eatSameChars, hfirst, hsecond, if_neg Bool.false_ne_true, if_neg Bool.false_ne_true, hnext]
  dsimp only
  rw [Option.isSome_some, Bool.and_true]
  by_cases h : (N.next (s :: string)).1 = some c
  · rw [if_pos h, if_pos (beq_iff_eq.mpr h.symm)]
  · rw [if_neg h, if_neg (mt beq_iff_eq.mp (Ne.symm h))]

/-! ## Where EatSameChars stops -/

/-- The pattern, the string, and where EatSameChars comes to in them. -/
inductive Eaten (code : Nat → List CHAR) :
    List Nat → List Nat → List CHAR × List CHAR → Prop
  | noString (pattern : List Nat) : Eaten code pattern [] (pattern.flatMap code, [])
  | noPattern (s : List Nat) : Eaten code [] s ([], s.flatMap code)
  | wildcard {c : Nat} (hc : isWildcardCode c = true) (pattern : List Nat) (d : Nat)
      (s : List Nat) :
      Eaten code (c :: pattern) (d :: s) ((c :: pattern).flatMap code, (d :: s).flatMap code)
  | mismatch {b c d : Nat} {pattern : List Nat} {rest : List (Token Nat)} {s : List Nat}
      (hb : isWildcardCode b = false) (htokens : tokens (b :: pattern) = .literal c :: rest)
      (hne : c ≠ d) :
      Eaten code (b :: pattern) (d :: s) ((b :: pattern).flatMap code, (d :: s).flatMap code)
  | lone (d : Nat) (s : List Nat) : Eaten code [0x5c] (d :: s) ([], (d :: s).flatMap code)
  | plain {c : Nat} {pattern s : List Nat} {result : List CHAR × List CHAR}
      (hwild : isWildcardCode c = false) (hescape : c ≠ 0x5c) (h : Eaten code pattern s result) :
      Eaten code (c :: pattern) (c :: s) result
  | escaped {c : Nat} {pattern s : List Nat} {result : List CHAR × List CHAR}
      (h : Eaten code pattern s result) : Eaten code (0x5c :: c :: pattern) (c :: s) result

theorem eatSameChars_wildcard (hN : LawfulNext N code Valid) (hc : Valid c)
    (hwild : isWildcardCode c = true) (fuel : Nat) (pattern : List Nat) (s : CHAR)
    (string : List CHAR) :
    eatSameChars N (fuel + 1) none ((c :: pattern).flatMap code) (s :: string) =
      ((c :: pattern).flatMap code, s :: string) := by
  obtain ⟨u, us, hcode, hunit, -⟩ := hN.isWildcard hc
  rw [flatMap_cons, hcode, cons_append, eatSameChars, hunit, hwild]
  rfl

theorem eatSameChars_escape (hN : LawfulNext N code Valid) (hesc : Valid 0x5c) (fuel : Nat)
    (pattern : List Nat) (s : CHAR) (string : List CHAR) :
    eatSameChars N (fuel + 1) none ((0x5c :: pattern).flatMap code) (s :: string) =
      eatSameChars N fuel (some ((0x5c :: pattern).flatMap code)) (pattern.flatMap code)
        (s :: string) := by
  obtain ⟨u, us, hcode, hwild, hunit⟩ := hN.isWildcard hesc
  have hnext := hN.next_code (pattern.flatMap code) hesc
  rw [flatMap_cons]
  rw [hcode, cons_append] at hnext ⊢
  have hisescape : N.unit u = 0x5c := hunit.mpr rfl
  rw [eatSameChars, hwild, hnext, hisescape]
  rfl

theorem eatSameChars_noString (fuel : Nat) (escape : Option (List CHAR))
    (pattern : List CHAR) : eatSameChars N fuel escape pattern [] = (pattern, []) := by
  cases fuel with
  | zero => rfl
  | succ fuel => cases pattern <;> rfl

theorem eatSameChars_noPattern (fuel : Nat) (escape : Option (List CHAR))
    (string : List CHAR) : eatSameChars N fuel escape [] string = ([], string) := by
  cases fuel <;> rfl

section

variable (hN : LawfulNext N code Valid)
include hN

/-- A string of characters begins with the units of the first one. -/
theorem LawfulNext.flatMap_cons {d : Nat} (hd : Valid d)
    (s : List Nat) : ∃ u us, (d :: s).flatMap code = u :: us ∧
      N.next (u :: us) = (some d, s.flatMap code) := by
  obtain ⟨u, us, hcode, -⟩ := hN.head hd
  have hnext := hN.next_code (s.flatMap code) hd
  rw [hcode, cons_append] at hnext
  exact ⟨u, us ++ s.flatMap code, by rw [List.flatMap_cons, hcode, List.cons_append], hnext⟩

theorem eatSameChars_eaten_wildcard (hc : Valid c)
    (hwild : isWildcardCode c = true) (pattern : List Nat) (hs : ∀ d ∈ s, Valid d) {fuel : Nat}
    (hfuel : ((c :: pattern).flatMap code).length ≤ fuel) :
    Eaten code (c :: pattern) s
      (eatSameChars N fuel none ((c :: pattern).flatMap code) (s.flatMap code)) := by
  cases s with
  | nil =>
    rw [flatMap_nil, eatSameChars_noString]
    exact .noString _
  | cons d s =>
    have hpos := hN.length_pos hc
    rw [flatMap_cons, length_append] at hfuel
    obtain _ | fuel := fuel
    · omega
    obtain ⟨u, us, hunits, -⟩ := hN.flatMap_cons (hs d mem_cons_self) s
    have heat := eatSameChars_wildcard hN hc hwild fuel pattern u us
    rw [← hunits] at heat
    rw [heat]
    exact .wildcard hwild pattern d s

theorem eatSameChars_eaten (hpat : ∀ c ∈ pattern, Valid c)
    (hs : ∀ c ∈ s, Valid c) {fuel : Nat} (hfuel : (pattern.flatMap code).length ≤ fuel) :
    Eaten code pattern s
      (eatSameChars N fuel none (pattern.flatMap code) (s.flatMap code)) := by
  fun_induction tokens pattern generalizing s fuel with
  | case1 =>
    rw [flatMap_nil, eatSameChars_noPattern]
    exact .noPattern s
  | case2 pattern =>
    exact eatSameChars_eaten_wildcard hN (hpat _ mem_cons_self) rfl pattern hs hfuel
  | case3 pattern =>
    exact eatSameChars_eaten_wildcard hN (hpat _ mem_cons_self) rfl pattern hs hfuel
  | case4 c pattern ih =>
    obtain ⟨hesc, hrest⟩ := forall_mem_cons.mp hpat
    obtain ⟨hc, hbehind⟩ := forall_mem_cons.mp hrest
    cases s with
    | nil =>
      rw [flatMap_nil, eatSameChars_noString]
      exact .noString _
    | cons d s =>
      obtain ⟨hd, hs⟩ := forall_mem_cons.mp hs
      have hpos := hN.length_pos hesc
      have hpos' := hN.length_pos hc
      rw [flatMap_cons, flatMap_cons, length_append, length_append] at hfuel
      obtain ⟨fuel, rfl⟩ : ∃ n, fuel = n + 1 + 1 := ⟨fuel - 2, by omega⟩
      obtain ⟨u, us, hunits, hnext⟩ := hN.flatMap_cons hd s
      have hcompare := @eatSameChars_compare _ _ _ _ hN c pattern hc
        (some ((0x5c :: c :: pattern).flatMap code)) nofun fuel u us
      rw [hunits, eatSameChars_escape hN hesc, hcompare, hnext]
      by_cases hcd : d = c
      · subst hcd
        rw [if_pos rfl]
        exact .escaped (ih hbehind hs (by omega))
      · rw [if_neg (mt Option.some.inj hcd), ← hunits]
        exact .mismatch rfl rfl (Ne.symm hcd)
  | case5 c pattern hstar hquestion hlone ih =>
    obtain ⟨hc, hrest⟩ := forall_mem_cons.mp hpat
    have hwild : isWildcardCode c = false := isWildcardCode_eq_false_iff.mpr ⟨hstar, hquestion⟩
    cases s with
    | nil =>
      rw [flatMap_nil, eatSameChars_noString]
      exact .noString _
    | cons d s =>
      obtain ⟨hd, hs⟩ := forall_mem_cons.mp hs
      have hpos := hN.length_pos hc
      rw [flatMap_cons, length_append] at hfuel
      obtain _ | fuel := fuel
      · omega
      obtain ⟨u, us, hunits, hnext⟩ := hN.flatMap_cons hd s
      by_cases hesc : c = 0x5c
      · subst hesc
        cases pattern with
        | cons e pattern => exact absurd rfl (hlone e pattern rfl)
        | nil =>
          rw [hunits, eatSameChars_escape hN hc, flatMap_nil, eatSameChars_noPattern,
            ← hunits]
          exact .lone d s
      · rw [hunits, eatSameChars_compare hN hc (fun _ => ⟨hwild, hesc⟩), hnext]
        by_cases hcd : d = c
        · subst hcd
          rw [if_pos rfl]
          exact .plain hwild hesc (ih hrest hs (by omega))
        · rw [if_neg (mt Option.some.inj hcd), ← hunits]
          exact .mismatch hwild (tokens_plain hwild hesc pattern) (Ne.symm hcd)

end

/-! ## Places of the string -/

theorem starLoop_exists {matchRest : List CHAR → Bool} {eval : List CHAR}
    (h : starLoop matchRest eval = true) :
    ∃ front rest, eval = front ++ rest ∧ rest ≠ [] ∧ matchRest rest = true := by
  induction eval with
  | nil => cases h
  | cons e eval ih =>
    rw [starLoop, or_eq_true] at h
    rcases h with h | h
    · exact ⟨[], e :: eval, rfl, cons_ne_nil e eval, h⟩
    · obtain ⟨front, rest, rfl, hne, hrest⟩ := ih h
      exact ⟨e :: front, rest, rfl, hne, hrest⟩

theorem starLoop_append {matchRest : List CHAR → Bool} {rest : List CHAR} (hne : rest ≠ [])
    (h : matchRest rest = true) (front : List CHAR) :
    starLoop matchRest (front ++ rest) = true := by
  induction front with
  | nil =>
    obtain ⟨e, rest, rfl⟩ := exists_cons_of_ne_nil hne
    rw [nil_append, starLoop, h, Bool.true_or]
  | cons e front ih => rw [cons_append, starLoop, ih, Bool.or_true]

/-- A place of the string, in front of a character or inside one. -/
theorem flatMap_eq_append (s : List Nat) (front rest : List CHAR)
    (h : s.flatMap code = front ++ rest) :
    (∃ s₁ s₂, s = s₁ ++ s₂ ∧ rest = s₂.flatMap code) ∨
      ∃ c ∈ s, ∃ u v after, code c = u ++ v ∧ u ≠ [] ∧ v ≠ [] ∧ rest = v ++ after := by
  induction s generalizing front with
  | nil =>
    obtain ⟨rfl, rfl⟩ := append_eq_nil_iff.mp h.symm
    exact .inl ⟨[], [], rfl, rfl⟩
  | cons c s ih =>
    rw [flatMap_cons] at h
    by_cases hfront : front = []
    · subst hfront
      exact .inl ⟨[], c :: s, rfl, by rw [flatMap_cons, h, nil_append]⟩
    · rcases append_eq_append_iff.mp h with ⟨more, rfl, hs⟩ | ⟨v, hcode, rfl⟩
      · rcases ih more hs with ⟨s₁, s₂, rfl, hrest⟩ | ⟨d, hd, hin⟩
        · exact .inl ⟨c :: s₁, s₂, rfl, hrest⟩
        · exact .inr ⟨d, mem_cons_of_mem c hd, hin⟩
      · by_cases hv : v = []
        · subst hv
          exact .inl ⟨[c], s, rfl, rfl⟩
        · exact .inr ⟨c, mem_cons_self, front, v, _, hcode, hfront, hv, rfl⟩

/-- MatchPatternT behind EatSameChars, in front of a character of the pattern and a unit of the
string. -/
theorem matchRest_cons (hN : LawfulNext N code Valid) (hpat : ∀ b ∈ c :: pattern, Valid b)
    (recurse : List CHAR → List CHAR → Bool) (e : CHAR) (eval : List CHAR) :
    matchRest N recurse ((c :: pattern).flatMap code, e :: eval) =
      if c = 0x3f then
        recurse (e :: eval) (pattern.flatMap code) ||
          recurse (N.next (e :: eval)).2 (pattern.flatMap code)
      else if c = 0x2a then
        starLoop (fun rest => recurse rest ((pattern.dropWhile isWildcardCode).flatMap code))
            (e :: eval) ||
          (eatWildcard N ((c :: pattern).flatMap code).length
            ((c :: pattern).flatMap code)).isEmpty
      else false := by
  obtain ⟨hc, hbehind⟩ := forall_mem_cons.mp hpat
  obtain ⟨u, us, hcode, hstar, hquestion, -⟩ := hN.head hc
  have hnext := hN.next_code (pattern.flatMap code) hc
  rw [flatMap_cons]
  rw [hcode, cons_append] at hnext ⊢
  rw [matchRest, hnext]
  rw [eatWildcard_flatMap hN hbehind (le_refl _)]
  simp only [hstar, hquestion]

/-- A character of the pattern that is no wildcard and has not been eaten is not matched. -/
theorem matchRest_plain (hN : LawfulNext N code Valid) (hpat : ∀ b ∈ c :: pattern, Valid b)
    (hwild : isWildcardCode c = false) (recurse : List CHAR → List CHAR → Bool) (e : CHAR)
    (eval : List CHAR) : matchRest N recurse ((c :: pattern).flatMap code, e :: eval) = false := by
  rw [isWildcardCode_eq_false_iff] at hwild
  rw [matchRest_cons hN hpat, if_neg hwild.2, if_neg hwild.1]

/-- No character of the pattern is read inside a character of the string. -/
theorem matchPatternT_inside (hN : LawfulNext N code Valid) (hpat : ∀ c ∈ pattern, Valid c)
    (hwild : ∀ c ∈ pattern.head?, isWildcardCode c = false) (hc : Valid c) {u v : List CHAR}
    (hcode : code c = u ++ v) (hu : u ≠ []) (hv : v ≠ []) (after : List CHAR) (levels : Nat) :
    matchPatternT N levels (v ++ after) (pattern.flatMap code) = false := by
  cases levels with
  | zero => rfl
  | succ levels =>
    obtain ⟨e, v, rfl⟩ := exists_cons_of_ne_nil hv
    have hin : ∀ d, Valid d → (N.next (e :: v ++ after)).1 ≠ some d :=
      fun d hd hnext => hN.inside hc hcode hu (cons_ne_nil e v) hnext hd
    rw [matchPatternT]
    rw [cons_append] at hin ⊢
    cases pattern with
    | nil =>
      rw [flatMap_nil, eatSameChars_noPattern]
      rfl
    | cons d pattern =>
      obtain ⟨hd, hbehind⟩ := forall_mem_cons.mp hpat
      have hdwild := hwild d rfl
      have hrest := matchRest_plain hN hpat hdwild (matchPatternT N levels) e (v ++ after)
      have hpos := hN.length_pos hd
      by_cases hesc : d = 0x5c
      · subst hesc
        cases pattern with
        | nil =>
          obtain ⟨fuel, hfuel⟩ : ∃ n, ([0x5c].flatMap code).length = n + 1 :=
            ⟨([0x5c].flatMap code).length - 1, by
              rw [flatMap_cons, length_append]; omega⟩
          rw [hfuel, eatSameChars_escape hN hd, flatMap_nil, eatSameChars_noPattern]
          rfl
        | cons f pattern =>
          have hf := hbehind f mem_cons_self
          have hpos' := hN.length_pos hf
          obtain ⟨fuel, hfuel⟩ : ∃ n, ((0x5c :: f :: pattern).flatMap code).length = n + 1 + 1 :=
            ⟨((0x5c :: f :: pattern).flatMap code).length - 2, by
              rw [flatMap_cons, flatMap_cons, length_append, length_append]
              omega⟩
          have hcompare := @eatSameChars_compare _ _ _ _ hN f pattern hf
            (some ((0x5c :: f :: pattern).flatMap code)) nofun fuel e (v ++ after)
          rw [hfuel, eatSameChars_escape hN hd, hcompare, if_neg (hin f hf)]
          exact hrest
      · obtain ⟨fuel, hfuel⟩ : ∃ n, ((d :: pattern).flatMap code).length = n + 1 :=
          ⟨((d :: pattern).flatMap code).length - 1, by
            rw [flatMap_cons, length_append]; omega⟩
        rw [hfuel, eatSameChars_compare hN hd (fun _ => ⟨hdwild, hesc⟩), if_neg (hin d hd)]
        exact hrest

/-! ## MatchPatternT decides the language -/

section

variable (hN : LawfulNext N code Valid)
include hN

theorem flatMap_isEmpty (hs : ∀ c ∈ s, Valid c) : (s.flatMap code).isEmpty = true ↔ s = [] := by
  cases s with
  | nil => exact ⟨fun _ => rfl, fun _ => rfl⟩
  | cons d s =>
    obtain ⟨u, us, hunits, -⟩ := hN.flatMap_cons (hs d mem_cons_self) s
    rw [hunits]
    exact ⟨nofun, nofun⟩

/-- Whether nothing but wildcards is left of a pattern. -/
theorem eatWildcard_isEmpty (hpat : ∀ c ∈ pattern, Valid c) :
    (eatWildcard N (pattern.flatMap code).length (pattern.flatMap code)).isEmpty = true ↔
      Matches (tokens pattern) [] := by
  rw [eatWildcard_flatMap hN hpat (le_refl _), flatMap_isEmpty hN
    fun c hc => hpat c ((dropWhile_sublist _).subset hc), dropWhile_eq_nil_iff,
    matches_empty_iff]

theorem matchRest_sound {recurse : List CHAR → List CHAR → Bool}
    (halign : ∀ s pattern : List Nat, (∀ c ∈ s, Valid c) → (∀ c ∈ pattern, Valid c) →
      recurse (s.flatMap code) (pattern.flatMap code) = true → Matches (tokens pattern) s)
    (hin : ∀ pattern : List Nat, (∀ c ∈ pattern, Valid c) →
      (∀ c ∈ pattern.head?, isWildcardCode c = false) → ∀ c, Valid c → ∀ u v after,
        code c = u ++ v → u ≠ [] → v ≠ [] →
          recurse (v ++ after) (pattern.flatMap code) = false)
    {pattern s : List Nat} {result : List CHAR × List CHAR} (h : Eaten code pattern s result)
    (hpat : ∀ c ∈ pattern, Valid c) (hs : ∀ c ∈ s, Valid c)
    (hmatch : matchRest N recurse result = true) : Matches (tokens pattern) s := by
  induction h with
  | noString pattern =>
    rw [matchRest] at hmatch
    exact (eatWildcard_isEmpty hN hpat).mp hmatch
  | noPattern s =>
    cases s with
    | nil => exact .nil
    | cons d s =>
      obtain ⟨e, es, hunits, -⟩ := hN.flatMap_cons (hs d mem_cons_self) s
      rw [hunits] at hmatch
      cases hmatch
  | @wildcard c hc pattern d s =>
    obtain ⟨hd, hbehind⟩ := forall_mem_cons.mp hs
    have hrest : ∀ c ∈ pattern, Valid c := (forall_mem_cons.mp hpat).2
    obtain ⟨e, es, hunits, hnext⟩ := hN.flatMap_cons hd s
    rw [hunits, matchRest_cons hN hpat, hnext, ← hunits] at hmatch
    rw [isWildcardCode_iff] at hc
    rcases hc with rfl | rfl
    · rw [if_neg (by decide), if_pos rfl, or_eq_true] at hmatch
      obtain ⟨wilds, hwilds, htokens, -⟩ := tokens_dropWhile pattern
      have hdrop : ∀ c ∈ pattern.dropWhile isWildcardCode, Valid c :=
        fun c hc => hrest c ((dropWhile_sublist _).subset hc)
      rw [tokens, htokens, matches_sequence_wilds hwilds]
      rcases hmatch with hmatch | hmatch
      · obtain ⟨front, rest, hsplit, -, hmatch⟩ := starLoop_exists hmatch
        rcases flatMap_eq_append (d :: s) front rest hsplit with
          ⟨s₁, s₂, hs₁₂, rfl⟩ | ⟨c, hc, u, v, after, hcode, hu, hv, rfl⟩
        · exact ⟨s₁, s₂, hs₁₂, halign s₂ _
            (fun c hc => hs c (hs₁₂ ▸ mem_append_right s₁ hc)) hdrop hmatch⟩
        · have hfalse := hin _ hdrop (LongestPrefix.head?_dropWhile _ pattern) c (hs c hc) u v
            after hcode hu hv
          rw [hfalse] at hmatch
          cases hmatch
      · rw [eatWildcard_isEmpty hN hpat, tokens, htokens, matches_sequence_wilds hwilds]
          at hmatch
        obtain ⟨front, rest, hnil, hmatch⟩ := hmatch
        rw [(append_eq_nil_iff.mp hnil.symm).2] at hmatch
        exact ⟨d :: s, [], (append_nil _).symm, hmatch⟩
    · rw [if_pos rfl, or_eq_true] at hmatch
      rcases hmatch with hmatch | hmatch
      · exact .absent (halign _ _ hs hrest hmatch)
      · exact .present d (halign _ _ hbehind hrest hmatch)
  | @mismatch b c d pattern rest s hb htokens hne =>
    obtain ⟨e, es, hunits, -⟩ := hN.flatMap_cons (hs d mem_cons_self) s
    rw [hunits, matchRest_plain hN hpat hb] at hmatch
    cases hmatch
  | lone d s =>
    obtain ⟨e, es, hunits, -⟩ := hN.flatMap_cons (hs d mem_cons_self) s
    rw [hunits] at hmatch
    cases hmatch
  | @plain c pattern s result hwild hesc h ih =>
    rw [tokens_plain hwild hesc]
    exact .literal (ih (forall_mem_cons.mp hpat).2 (forall_mem_cons.mp hs).2 hmatch)
  | @escaped c pattern s result h ih =>
    exact .literal (ih (forall_mem_cons.mp (forall_mem_cons.mp hpat).2).2
      (forall_mem_cons.mp hs).2 hmatch)

/-- What MatchPatternT says is so, at every depth. -/
theorem matchPatternT_sound (levels : Nat) {s pattern : List Nat}
    (hs : ∀ c ∈ s, Valid c) (hpat : ∀ c ∈ pattern, Valid c)
    (h : matchPatternT N levels (s.flatMap code) (pattern.flatMap code) = true) :
    Matches (tokens pattern) s := by
  induction levels generalizing s pattern with
  | zero => cases h
  | succ levels ih =>
    rw [matchPatternT] at h
    exact matchRest_sound hN (fun _ _ hs hpat => ih hs hpat)
      (fun _ hpat hwild _ hc _ _ after hcode hu hv =>
        matchPatternT_inside hN hpat hwild hc hcode hu hv after levels)
      (eatSameChars_eaten hN hpat hs (le_refl _)) hpat hs h

theorem matchRest_complete {recurse : List CHAR → List CHAR → Bool} {levels : Nat}
    (halign : ∀ s pattern : List Nat, (∀ c ∈ s, Valid c) → (∀ c ∈ pattern, Valid c) →
      Matches (tokens pattern) s → loneBackslash pattern = false →
        wildcards pattern + 1 ≤ levels → recurse (s.flatMap code) (pattern.flatMap code) = true)
    {pattern s : List Nat} {result : List CHAR × List CHAR} (h : Eaten code pattern s result)
    (hpat : ∀ c ∈ pattern, Valid c) (hs : ∀ c ∈ s, Valid c)
    (hmatch : Matches (tokens pattern) s) (hlone : loneBackslash pattern = false)
    (hwildcards : wildcards pattern ≤ levels) : matchRest N recurse result = true := by
  induction h with
  | noString pattern =>
    rw [matchRest]
    exact (eatWildcard_isEmpty hN hpat).mpr hmatch
  | noPattern s =>
    obtain rfl := matches_nil_iff.mp hmatch
    rfl
  | @wildcard c hc pattern d s =>
    obtain ⟨hd, hbehind⟩ := forall_mem_cons.mp hs
    have hrest : ∀ c ∈ pattern, Valid c := (forall_mem_cons.mp hpat).2
    obtain ⟨e, es, hunits, hnext⟩ := hN.flatMap_cons hd s
    rw [hunits, matchRest_cons hN hpat, hnext, ← hunits]
    rw [loneBackslash_plain (by rintro rfl; cases hc)] at hlone
    rw [isWildcardCode_iff] at hc
    rcases hc with rfl | rfl
    · obtain ⟨wilds, hwilds, htokens, hdropLone⟩ := tokens_dropWhile pattern
      have hdrop : ∀ c ∈ pattern.dropWhile isWildcardCode, Valid c :=
        fun c hc => hrest c ((dropWhile_sublist _).subset hc)
      have hcount : wildcards (0x2a :: pattern) =
          wilds.countP Token.isWild + wildcards (pattern.dropWhile isWildcardCode) + 1 := by
        rw [wildcards, wildcards, tokens, countP_cons_of_pos rfl, htokens,
          countP_append]
      rw [if_neg (by decide), if_pos rfl, or_eq_true]
      rw [tokens, htokens, matches_sequence_wilds hwilds] at hmatch
      obtain ⟨front, rest, hsplit, hmatch⟩ := hmatch
      cases rest with
      | nil =>
        refine .inr ((eatWildcard_isEmpty hN hpat).mpr ?_)
        rw [tokens, htokens, matches_sequence_wilds hwilds]
        exact ⟨[], [], rfl, hmatch⟩
      | cons e rest =>
        have hvalid : ∀ c ∈ e :: rest, Valid c :=
          fun c hc => hs c (hsplit ▸ mem_append_right front hc)
        obtain ⟨u, us, hunits, -⟩ := hN.flatMap_cons (hvalid e mem_cons_self) rest
        rw [hsplit, flatMap_append]
        refine .inl (starLoop_append (by rw [hunits]; exact cons_ne_nil u us) ?_ _)
        exact halign _ _ hvalid hdrop hmatch (hdropLone.trans hlone) (by omega)
    · have hcount : wildcards (0x3f :: pattern) = wildcards pattern + 1 :=
        countP_cons_of_pos rfl
      rw [if_pos rfl, or_eq_true]
      rcases matches_optional_iff.mp hmatch with habsent | ⟨a, rest, hsplit, hpresent⟩
      · exact .inl (halign _ _ hs hrest habsent hlone (by omega))
      · obtain rfl := (cons.inj hsplit).2
        exact .inr (halign _ _ hbehind hrest hpresent hlone (by omega))
  | @mismatch b c d pattern rest s hb htokens hne =>
    rw [htokens, matches_literal_iff] at hmatch
    obtain ⟨_, hsplit, -⟩ := hmatch
    exact absurd (cons.inj hsplit).1.symm hne
  | lone d s => cases hlone
  | @plain c pattern s result hwild hesc h ih =>
    rw [tokens_plain hwild hesc, matches_literal_iff] at hmatch
    obtain ⟨rest, hsplit, hmatch⟩ := hmatch
    obtain rfl := (cons.inj hsplit).2
    rw [loneBackslash_plain hesc] at hlone
    rw [wildcards, tokens_plain hwild hesc, countP_cons_of_neg (by simp [Token.isWild])]
      at hwildcards
    exact ih (forall_mem_cons.mp hpat).2 (forall_mem_cons.mp hs).2 hmatch hlone
      hwildcards
  | @escaped c pattern s result h ih =>
    rw [tokens, matches_literal_iff] at hmatch
    obtain ⟨rest, hsplit, hmatch⟩ := hmatch
    obtain rfl := (cons.inj hsplit).2
    rw [wildcards, tokens, countP_cons_of_neg (by simp [Token.isWild])] at hwildcards
    exact ih (forall_mem_cons.mp (forall_mem_cons.mp hpat).2).2
      (forall_mem_cons.mp hs).2 hmatch hlone hwildcards

/-- With a level for each wildcard and one more, MatchPatternT finds what there is. -/
theorem matchPatternT_complete {levels : Nat}
    {s pattern : List Nat} (hs : ∀ c ∈ s, Valid c) (hpat : ∀ c ∈ pattern, Valid c)
    (hmatch : Matches (tokens pattern) s) (hlone : loneBackslash pattern = false)
    (hwildcards : wildcards pattern + 1 ≤ levels) :
    matchPatternT N levels (s.flatMap code) (pattern.flatMap code) = true := by
  induction levels generalizing s pattern with
  | zero => omega
  | succ levels ih =>
    rw [matchPatternT]
    exact matchRest_complete hN (fun _ _ hs hpat => ih hs hpat)
      (eatSameChars_eaten hN hpat hs (le_refl _)) hpat hs hmatch hlone (by omega)

end

/-- MatchPattern is sound for every pattern, and complete for patterns of at most kMaxDepth
wildcards. -/
def DecidesLanguage (N : NextChar CHAR) (s pattern : List Nat) (eval patternUnits : List CHAR) :
    Prop :=
  (matchPattern N eval patternUnits = true → Matches (tokens pattern) s) ∧
    (wildcards pattern ≤ kMaxDepth → loneBackslash pattern = false →
      Matches (tokens pattern) s → matchPattern N eval patternUnits = true)

theorem decidesLanguage_flatMap (hN : LawfulNext N code Valid) (hs : ∀ c ∈ s, Valid c)
    (hpat : ∀ c ∈ pattern, Valid c) :
    DecidesLanguage N s pattern (s.flatMap code) (pattern.flatMap code) :=
  ⟨matchPatternT_sound hN _ hs hpat, fun hwildcards hlone hmatch =>
    matchPatternT_complete hN hs hpat hmatch hlone (succ_le_succ hwildcards)⟩

end Encoded

/-! ## NextCharUTF8 and NextCharUTF16 -/

theorem lawfulNext_utf8 :
    LawfulNext nextCharUTF8 (fun c => [UInt8.ofNat c]) (· < 0x80) where
  next_code := by
    intro c rest hc
    have hunit : (ofBytes (UInt8.ofNat c :: rest) 0).toNat = c := toNat_ofNat_lt (by omega)
    have hread := cbu8Next_iff.mpr (@readsScalar_single (ofBytes (UInt8.ofNat c :: rest)) 0
      (UInt8.ofNat c :: rest).length (by omega))
    rw [hunit] at hread
    have hnext : nextCharUTF8.next (UInt8.ofNat c :: rest) =
        ((cbu8Next (ofBytes (UInt8.ofNat c :: rest)) 0 (UInt8.ofNat c :: rest).length).1,
          (UInt8.ofNat c :: rest).drop
            (cbu8Next (ofBytes (UInt8.ofNat c :: rest)) 0 (UInt8.ofNat c :: rest).length).2) := rfl
    rw [singleton_append, hnext, hread]
    rfl
  head := by
    intro c hc
    have hunit : nextCharUTF8.unit (UInt8.ofNat c) = c := toNat_ofNat_lt (by omega)
    refine ⟨_, [], rfl, ?_⟩
    rw [hunit]
    exact ⟨Iff.rfl, Iff.rfl, Iff.rfl⟩
  inside := by
    intro c d u v rest _ hcode hu hv
    have hlen := congrArg length hcode
    have hupos := length_pos_iff.mpr hu
    have hvpos := length_pos_iff.mpr hv
    rw [length_append, length_singleton] at hlen
    omega

theorem isLeadUnit_iff (h : c < 2 ^ 32) : isLeadUnit c = true ↔ 0xd800 ≤ c ∧ c < 0xdc00 := by
  have hbits := and_high c 10 22
  rw [isLeadUnit, beq_iff_eq, show 0xfffffc00 = (2 ^ 22 - 1) * 2 ^ 10 from rfl, hbits]
  omega

/-- A unit that is no lead is a character of its own. -/
theorem nextCharUTF16_single {u : UInt16} (hu : isLeadUnit u.toNat = false)
    (rest : List UInt16) : nextCharUTF16.next (u :: rest) = (some u.toNat, rest) := by
  cases rest with
  | nil => rfl
  | cons t rest =>
    have hnot : ¬(isLeadUnit u.toNat && isTrailUnit t.toNat) = true := by
      rw [hu, Bool.false_and]
      exact false_ne_true
    exact if_neg hnot

theorem nextCharUTF16_scalar (hc : IsScalar c) (rest : List UInt16) :
    nextCharUTF16.next (writeUnicodeCharacter16 c ++ rest) = (some c, rest) := by
  rw [isScalar_iff] at hc
  rcases lt_or_ge 0xffff c with hbig | hsmall
  · have hlead : (UInt16.ofNat (c / 1024 + 0xd7c0)).toNat = c / 1024 + 0xd7c0 :=
      toNat16_ofNat_lt (by omega)
    have htrail : (UInt16.ofNat (c % 1024 + 0xdc00)).toNat = c % 1024 + 0xdc00 :=
      toNat16_ofNat_lt (by omega)
    have hpair : (isLeadUnit (UInt16.ofNat (c / 1024 + 0xd7c0)).toNat &&
        isTrailUnit (UInt16.ofNat (c % 1024 + 0xdc00)).toNat) = true := by
      rw [hlead, htrail, (isLeadUnit_iff (by omega)).mpr (by omega),
        (isTrailUnit_iff (by omega)).mpr (by omega)]
      rfl
    rw [writeUnicodeCharacter16_two hbig]
    refine (if_pos hpair).trans ?_
    rw [hlead, htrail, getSupplementary_units]
    rfl
  · have hunit : (UInt16.ofNat c).toNat = c := toNat16_ofNat_lt (by omega)
    have hlead : isLeadUnit (UInt16.ofNat c).toNat = false := by
      rw [hunit, eq_false_iff, Ne, isLeadUnit_iff (by omega)]
      omega
    have hnext := nextCharUTF16_single hlead rest
    rw [hunit] at hnext
    rw [writeUnicodeCharacter16_one hsmall]
    exact hnext

/-- What is inside a pair is its trail unit. -/
theorem eq_trail_of_append {u v : List UInt16} (h : writeUnicodeCharacter16 c = u ++ v)
    (hu : u ≠ []) (hv : v ≠ []) : v = [UInt16.ofNat (c % 1024 + 0xdc00)] := by
  have hvpos := length_pos_iff.mpr hv
  obtain ⟨a, u, rfl⟩ := exists_cons_of_ne_nil hu
  rw [cons_append] at h
  rcases lt_or_ge 0xffff c with hbig | hsmall
  · rw [writeUnicodeCharacter16_two hbig] at h
    have htail := (cons.inj h).2
    cases u with
    | nil => exact htail.symm
    | cons b u =>
      have hlen := congrArg length htail
      rw [cons_append, length_cons, length_cons, length_append,
        length_nil] at hlen
      omega
  · rw [writeUnicodeCharacter16_one hsmall] at h
    have hlen := congrArg length h
    rw [length_cons, length_cons, length_append, length_nil] at hlen
    omega

theorem lawfulNext_utf16 : LawfulNext nextCharUTF16 writeUnicodeCharacter16 IsScalar where
  next_code := fun rest hc => nextCharUTF16_scalar hc rest
  head := by
    intro c hc
    rw [isScalar_iff] at hc
    rcases lt_or_ge 0xffff c with hbig | hsmall
    · have hlead : nextCharUTF16.unit (UInt16.ofNat (c / 1024 + 0xd7c0)) = c / 1024 + 0xd7c0 :=
        toNat16_ofNat_lt (by omega)
      refine ⟨_, _, writeUnicodeCharacter16_two hbig, ?_⟩
      rw [hlead]
      omega
    · have hunit : nextCharUTF16.unit (UInt16.ofNat c) = c := toNat16_ofNat_lt (by omega)
      refine ⟨_, _, writeUnicodeCharacter16_one hsmall, ?_⟩
      rw [hunit]
      exact ⟨Iff.rfl, Iff.rfl, Iff.rfl⟩
  inside := by
    intro c d u v rest _ hcode hu hv hnext hd
    obtain rfl := eq_trail_of_append hcode hu hv
    have htrail : (UInt16.ofNat (c % 1024 + 0xdc00)).toNat = c % 1024 + 0xdc00 :=
      toNat16_ofNat_lt (by omega)
    have hlead : isLeadUnit (UInt16.ofNat (c % 1024 + 0xdc00)).toNat = false := by
      rw [htrail, eq_false_iff, Ne, isLeadUnit_iff (by omega)]
      omega
    rw [singleton_append, nextCharUTF16_single hlead, htrail] at hnext
    cases hnext
    rw [isScalar_iff] at hd
    omega

/-- MatchPattern of ASCII and of UTF-16 decides the language of the pattern. -/
theorem match_pattern_language :
    (∀ eval pattern : Bytes, (∀ c ∈ eval, c < 0x80) → (∀ c ∈ pattern, c < 0x80) →
      DecidesLanguage nextCharUTF8 (eval.map UInt8.toNat) (pattern.map UInt8.toNat) eval
        pattern) ∧
    (∀ s pattern : List Nat, (∀ c ∈ s, isValidCodepoint c = true) →
      (∀ c ∈ pattern, isValidCodepoint c = true) →
      DecidesLanguage nextCharUTF16 s pattern (s.flatMap writeUnicodeCharacter16)
        (pattern.flatMap writeUnicodeCharacter16)) := by
  refine ⟨fun eval pattern heval hpattern => ?_,
    fun s pattern hs hpattern => decidesLanguage_flatMap lawfulNext_utf16
      (fun c hc => isValidCodepoint_iff.mp (hs c hc))
      fun c hc => isValidCodepoint_iff.mp (hpattern c hc)⟩
  have hcode : ∀ s : Bytes,
      (s.map UInt8.toNat).flatMap (fun c => [UInt8.ofNat c]) = s := by
    intro s
    induction s with
    | nil => rfl
    | cons c s ih =>
      rw [map_cons, flatMap_cons, ih, UInt8.ofNat_toNat]
      rfl
  have hvalid : ∀ s : Bytes, (∀ c ∈ s, c < 0x80) → ∀ c ∈ s.map UInt8.toNat, c < 0x80 :=
    fun s hs => forall_mem_map.mpr hs
  have hdecides := decidesLanguage_flatMap lawfulNext_utf8 (hvalid eval heval)
    (hvalid pattern hpattern)
  rwa [hcode, hcode] at hdecides

set_option maxRecDepth 4000 in
/-- A wildcard, an escaped one and a character that is not there. -/
theorem match_pattern_language_star :
    Matches (tokens [0x48, 0x2a, 0x5c, 0x2a, 0x3f]) [0x48, 0x69, 0x2a] ∧
      matchPattern nextCharUTF16 [0xd83d, 0xdc00, 0x61] [0x3f, 0x61] = true := by
  constructor
  · exact (match_pattern_language.1 [0x48, 0x69, 0x2a] [0x48, 0x2a, 0x5c, 0x2a, 0x3f]
      (by decide) (by decide)).1 (by decide)
  · exact (match_pattern_language.2 [0x1f400, 0x61] [0x3f, 0x61] (by decide)
      (by decide)).2 (by decide) (by decide) (.present _ (.literal .nil))

end ChromiumUI.Base.Patterns
