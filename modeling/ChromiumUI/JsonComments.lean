import ChromiumUI.JsonGrammar

/-!
# Gaps item by item

A gap is the longest run of whitespace bytes and complete comments in front of a text. The loop of
EatComment takes two bytes at a star that no slash follows, so it passes the end of a block comment
when an even number of stars stands in front of the closing slash; and it is past a slash before it
knows that no comment opens there.
-/
namespace ChromiumUI.Json

open ByteMemory Base List Nat Input State

/-! ## Runs -/

/-- A whitespace byte or a complete comment, in front of what follows it. -/
inductive GapItem : Bytes → Bytes → Prop
  | whitespace {b : UInt8} {r : Bytes} (h : isWhitespace b = true) : GapItem [b] r
  | line {body r : Bytes} (hbody : ∀ b ∈ body, b ≠ newline ∧ b ≠ carriageReturn)
      (hend : ∀ b ∈ r.head?, b = newline ∨ b = carriageReturn) : GapItem (slash :: slash :: body) r
  | block {body r : Bytes} (hfirst : ¬[star, slash] <:+: body) :
      GapItem (slash :: star :: (body ++ [star, slash])) r

/-- The longest run of items in front of a text, and what it leaves. -/
inductive GapRun : Bytes → List Bytes → Bytes → Prop
  | done {r : Bytes} (h : ∀ i r', r = i ++ r' → ¬GapItem i r') : GapRun r [] r
  | item {i r r' : Bytes} {is : List Bytes} (h : GapItem i r) (hrun : GapRun r is r') :
      GapRun (i ++ r) (i :: is) r'

variable {r : Bytes}

theorem GapItem.ne_nil {i : Bytes} (h : GapItem i r) : i ≠ [] := by
  cases h <;> simp

variable {t : Bytes} {is : List Bytes}

theorem GapRun.append_eq (h : GapRun t is r) : t = is.flatten ++ r := by
  induction h with
  | done h => rfl
  | item h hrun ih => rw [flatten_cons, append_assoc, ← ih]

theorem GapRun.ends (h : GapRun t is r) : ∀ i r', r = i ++ r' → ¬GapItem i r' := by
  induction h with
  | done h => exact h
  | item h hrun ih => exact ih

theorem exists_gapRun (t : Bytes) : ∃ is r, GapRun t is r := by
  by_cases h : ∃ i r, t = i ++ r ∧ GapItem i r
  · obtain ⟨i, r, ht, hi⟩ := h
    have hpos := length_pos_iff.mpr hi.ne_nil
    have hlen : r.length < t.length := by
      rw [ht, length_append]
      omega
    obtain ⟨is, r', hrun⟩ := exists_gapRun r
    exact ⟨i :: is, r', ht ▸ .item hi hrun⟩
  · exact ⟨[], t, .done fun i r heq hi => h ⟨i, r, heq, hi⟩⟩
termination_by t.length

variable {body : Bytes}

/-- A line ends once. -/
theorem line_unique {body' r' : Bytes} (hbody : ∀ b ∈ body, b ≠ newline ∧ b ≠ carriageReturn)
    (hend : ∀ b ∈ r.head?, b = newline ∨ b = carriageReturn)
    (hbody' : ∀ b ∈ body', b ≠ newline ∧ b ≠ carriageReturn)
    (hend' : ∀ b ∈ r'.head?, b = newline ∨ b = carriageReturn) (h : body ++ r = body' ++ r') :
    body = body' := by
  induction body generalizing body' with
  | nil =>
    cases body' with
    | nil => rfl
    | cons b body' =>
      have hb := hend b (by rw [← nil_append r, h]; rfl)
      obtain ⟨hnewline, hreturn⟩ := hbody' b (by simp)
      exact (hb.elim hnewline hreturn).elim
  | cons b body ih =>
    cases body' with
    | nil =>
      have hb := hend' b (by rw [← nil_append r', ← h]; rfl)
      obtain ⟨hnewline, hreturn⟩ := hbody b (by simp)
      exact (hb.elim hnewline hreturn).elim
    | cons b' body' =>
      obtain ⟨rfl, htail⟩ := cons.inj h
      rw [ih (fun c hc => hbody c (by simp [hc])) (fun c hc => hbody' c (by simp [hc])) htail]

/-- A block ends at the first end marker. -/
theorem block_unique {body' r' : Bytes} (hfirst : ¬[star, slash] <:+: body)
    (hfirst' : ¬[star, slash] <:+: body')
    (h : body ++ star :: slash :: r = body' ++ star :: slash :: r') : body = body' := by
  have hshort : ∀ {u v s s' : Bytes}, ¬[star, slash] <:+: v →
      u ++ star :: slash :: s = v ++ star :: slash :: s' → v.length ≤ u.length := by
    intro u v s s' hv heq
    obtain ⟨w, rfl, hw⟩ | ⟨w, rfl, hw⟩ := append_eq_append_iff.mp heq
    · rcases w with _ | ⟨a, _ | ⟨b, w⟩⟩
      · simp
      · simp only [cons_append, nil_append, cons.injEq] at hw
        exact absurd hw.2.1 (by decide)
      · simp only [cons_append, cons.injEq] at hw
        obtain ⟨rfl, rfl, -⟩ := hw
        exact (hv ⟨u, w, by simp⟩).elim
    · simp
  exact append_inj_left h
    (le_antisymm (hshort hfirst h.symm) (hshort hfirst' h))

theorem GapItem.unique {i j r' : Bytes} (hi : GapItem i r) (hj : GapItem j r')
    (h : i ++ r = j ++ r') : i = j := by
  have hblack : isWhitespace slash = false := by decide
  cases hi with
  | @whitespace b _ hb =>
    cases hj with
    | whitespace => exact congrArg (fun b => [b]) (cons.inj h).1
    | line | block => cases (cons.inj h).1; cases hb.symm.trans hblack
  | line hbody hend =>
    cases hj with
    | whitespace hb => cases (cons.inj h).1; cases hb.symm.trans hblack
    | line hbody' hend' =>
      simp only [cons_append, cons.injEq, true_and] at h
      rw [line_unique hbody hend hbody' hend' h]
    | block =>
      simp only [cons_append, cons.injEq] at h
      exact absurd h.2.1 (by decide)
  | block hfirst =>
    cases hj with
    | whitespace hb => cases (cons.inj h).1; cases hb.symm.trans hblack
    | line =>
      simp only [cons_append, cons.injEq] at h
      exact absurd h.2.1 (by decide)
    | block hfirst' =>
      simp only [cons_append, append_assoc, cons.injEq, true_and,
        nil_append] at h
      rw [block_unique hfirst hfirst' h]

theorem GapRun.unique {r' : Bytes} {js : List Bytes} (h : GapRun t is r) (h' : GapRun t js r') :
    is = js ∧ r = r' := by
  induction h generalizing js with
  | done h =>
    cases h' with
    | done => exact ⟨rfl, rfl⟩
    | item hj => exact (h _ _ rfl hj).elim
  | @item i r₁ _ is hi hrun ih =>
    generalize ht : i ++ r₁ = t at h'
    cases h' with
    | done h => exact (h _ _ ht.symm hi).elim
    | item hj hrun' =>
      obtain rfl := hi.unique hj ht
      obtain rfl := append_cancel_left ht
      obtain ⟨rfl, rfl⟩ := ih hrun'
      exact ⟨rfl, rfl⟩

/-! ## Block comments -/

/-- The stars at the end of a comment's body. -/
def trailingStars (body : Bytes) : Nat := (body.reverse.takeWhile (· == star)).length

/-- If the item is a block comment, its last slash comes after an odd number of stars. -/
def OddlyClosed (i : Bytes) : Prop :=
  ∀ body, i = slash :: star :: (body ++ [star, slash]) → Even (trailingStars body)

theorem trailingStars_cons {b : UInt8} (hb : b ≠ star) (body : Bytes) :
    trailingStars (b :: body) = trailingStars body := by
  rw [trailingStars, trailingStars, reverse_cons, takeWhile_append]
  split
  · rename_i hall
    simp [hb, hall]
  · rfl

theorem even_trailingStars_pair (b : UInt8) (body : Bytes) :
    Even (trailingStars (star :: b :: body)) ↔ Even (trailingStars body) := by
  have hpair : (star :: b :: body).reverse = body.reverse ++ [b, star] := by simp
  rw [trailingStars, trailingStars, hpair, takeWhile_append]
  split
  · rename_i hall
    by_cases hb : b = star
    · subst hb
      rw [length_append, hall]
      simp [even_add, show Even 2 from ⟨1, rfl⟩]
    · simp [hb, hall]
  · rfl

variable {input : Input}

theorem nextNChars_nextNChars (s : State) (m n : Nat) :
    (s.nextNChars m).nextNChars n = s.nextNChars (m + n) := by
  simp [nextNChars, add_assoc]

variable {s : State}

theorem eatBlock_plain {fuel : Nat} {a b : UInt8} (hrest : input.rest s.pos = a :: b :: r)
    (hb : b ≠ star) : input.eatBlock (fuel + 1) s = input.eatBlock fuel (s.nextNChars 1) := by
  have htwo : input.canConsume s 2 := le_of_rest (s := [a, b]) hrest (by simp)
  have hcur : input.cur s.nextChar = b := (mem_of_rest (mem_of_rest hrest).2).1
  rw [eatBlock, if_pos htwo]
  dsimp only
  rw [hcur, if_neg hb]
  rfl

theorem eatBlock_star {fuel : Nat} {a c : UInt8} (hrest : input.rest s.pos = a :: star :: c :: r) :
    input.eatBlock (fuel + 1) s =
      if c = slash then (true, s.nextNChars 3) else input.eatBlock fuel (s.nextNChars 2) := by
  have htwo : input.canConsume s 2 := le_of_rest (s := [a, star]) hrest (by simp)
  have hnext := mem_of_rest (mem_of_rest hrest).2
  have hcur : input.cur s.nextChar = star := hnext.1
  have hcur' : input.cur s.nextChar.nextChar = c := (mem_of_rest hnext.2).1
  rw [eatBlock, if_pos htwo]
  dsimp only
  rw [hcur, if_pos rfl, hcur']
  rfl

variable {u : Bytes}

theorem rest_nextNChars {n : Nat} (h : input.rest s.pos = u ++ r) (hn : n = u.length) :
    input.rest (s.nextNChars n).pos = r := by
  rw [hn]
  exact (load_of_rest h).2

/-- How the loop meets the end of a block comment: it ends there when the stars in front of the
slash are odd in number, and stands on the last star to go on behind it otherwise. -/
theorem eatBlock_body {a : UInt8} (fuel : Nat)
    (hrest : input.rest s.pos = a :: (body ++ star :: slash :: t))
    (hfirst : ¬[star, slash] <:+: body) (hfuel : body.length < fuel) :
    (Even (trailingStars body) →
      input.eatBlock fuel s = (true, s.nextNChars (body.length + 3))) ∧
    (¬Even (trailingStars body) →
      ∃ fuel', input.eatBlock fuel s = input.eatBlock fuel' (s.nextNChars (body.length + 1))) := by
  induction body using List.twoStepInduction generalizing a fuel s with
  | nil =>
    obtain _ | fuel := fuel
    · omega
    refine ⟨fun _ => ?_, fun hodd => (hodd (by decide)).elim⟩
    rw [eatBlock_star hrest]
    rfl
  | singleton b =>
    obtain _ | fuel := fuel
    · omega
    by_cases hb : b = star
    · subst hb
      refine ⟨fun heven => absurd heven (by decide), fun _ => ⟨fuel, ?_⟩⟩
      rw [eatBlock_star hrest]
      rfl
    · have hone := rest_nextNChars (u := [a]) (n := 1) hrest rfl
      obtain ⟨fuel, rfl⟩ : ∃ n, fuel = n + 1 := ⟨fuel - 1, by simp at hfuel; omega⟩
      rw [trailingStars_cons hb, eatBlock_plain hrest hb]
      refine ⟨fun _ => ?_, fun hodd => (hodd (by decide)).elim⟩
      rw [eatBlock_star hone]
      rfl
  | cons_cons b c body ih₂ ih₁ =>
    obtain _ | fuel := fuel
    · omega
    simp only [length_cons] at hfuel
    have htail : ∀ {u : Bytes}, [star, slash] <:+: u → [star, slash] <:+: b :: u :=
      fun h => h.trans (suffix_cons b _).isInfix
    by_cases hb : b = star
    · subst hb
      have hc : c ≠ slash := by
        rintro rfl
        exact hfirst ⟨[], body, rfl⟩
      rw [even_trailingStars_pair, eatBlock_star hrest, if_neg hc]
      have htwo := rest_nextNChars (u := [a, star]) (n := 2) hrest rfl
      obtain ⟨heven, hodd⟩ := ih₂ fuel htwo
        (fun h => hfirst (htail (h.trans (suffix_cons c _).isInfix))) (by omega)
      refine ⟨fun h => ?_, fun h => ?_⟩
      · rw [heven h, nextNChars_nextNChars]
        congr 2
        simp only [length_cons]
        omega
      · obtain ⟨fuel', h⟩ := hodd h
        refine ⟨fuel', h.trans ?_⟩
        rw [nextNChars_nextNChars]
        congr 2
        simp only [length_cons]
        omega
    · rw [trailingStars_cons hb, eatBlock_plain hrest hb]
      have hone := rest_nextNChars (u := [a]) (n := 1) hrest rfl
      obtain ⟨heven, hodd⟩ := ih₁ c fuel hone (fun h => hfirst (htail h))
        (by simp only [length_cons]; omega)
      refine ⟨fun h => ?_, fun h => ?_⟩
      · rw [heven h, nextNChars_nextNChars]
        congr 2
        simp only [length_cons]
        omega
      · obtain ⟨fuel', h⟩ := hodd h
        refine ⟨fuel', h.trans ?_⟩
        rw [nextNChars_nextNChars]
        congr 2
        simp only [length_cons]
        omega

/-- A loop over a block comment that succeeds has passed three bytes more. -/
theorem eatBlock_true_pos {fuel : Nat} (h : (input.eatBlock fuel s).1 = true) :
    s.pos + 3 ≤ (input.eatBlock fuel s).2.pos := by
  induction fuel generalizing s with
  | zero => cases h
  | succ fuel ih =>
    rw [eatBlock] at h ⊢
    dsimp only at h ⊢
    split at h
    · rename_i htwo
      rw [if_pos htwo]
      split at h
      · rename_i hstar
        rw [if_pos hstar]
        split at h
        · rename_i hslash
          rw [if_pos hslash]
          simp only [nextChar_pos]
          omega
        · rename_i hslash
          rw [if_neg hslash]
          have := ih h
          simp only [nextChar_pos] at this
          omega
      · rename_i hstar
        rw [if_neg hstar]
        have := ih h
        simp only [nextChar_pos] at this
        omega
    · cases h

theorem le_eatBlock_pos (fuel : Nat) (s : State) : s.pos ≤ (input.eatBlock fuel s).2.pos := by
  induction fuel generalizing s with
  | zero => exact le_refl _
  | succ fuel ih =>
    rw [eatBlock]
    dsimp only
    have hone := ih s.nextChar
    have htwo := ih s.nextChar.nextChar
    simp only [nextChar_pos] at hone htwo
    split_ifs
    · simp only [nextChar_pos]
      omega
    · omega
    · omega
    · exact le_refl _

theorem le_eatLine_pos (fuel : Nat) (s : State) : s.pos ≤ (input.eatLine fuel s).2.pos := by
  induction fuel generalizing s with
  | zero => exact le_refl _
  | succ fuel ih =>
    rw [eatLine]
    dsimp only
    have hone := ih s.nextChar
    simp only [nextChar_pos] at hone
    split_ifs
    · exact le_succ _
    · omega
    · exact le_refl _

/-- The loop over a single line comment ends in front of the newline or at the end of input. -/
theorem eatLine_body {a : UInt8} (fuel : Nat) (hrest : input.rest s.pos = a :: (body ++ t))
    (hbody : ∀ b ∈ body, b ≠ newline ∧ b ≠ carriageReturn)
    (hend : ∀ b ∈ t.head?, b = newline ∨ b = carriageReturn) (hfuel : body.length < fuel) :
    (input.eatLine fuel s).2 = s.nextNChars (body.length + 1) ∧
      (t ≠ [] → (input.eatLine fuel s).1 = true) := by
  induction body generalizing a fuel s with
  | nil =>
    obtain _ | fuel := fuel
    · omega
    have hone : input.canConsume s 1 := lt_of_rest_cons hrest
    have hnext : input.rest s.nextChar.pos = t := (mem_of_rest hrest).2
    rw [eatLine, if_pos hone]
    dsimp only
    cases t with
    | nil =>
      have hpast : ¬input.canConsume s.nextChar 1 :=
        not_le.mpr (lt_succ_of_le (rest_eq_nil_iff.mp hnext))
      refine ⟨?_, fun h => (h rfl).elim⟩
      split_ifs
      · rfl
      · cases fuel with
        | zero => rfl
        | succ fuel => rw [eatLine, if_neg hpast]; rfl
    | cons b t =>
      have hcur : input.cur s.nextChar = b := (mem_of_rest hnext).1
      rw [hcur, if_pos (hend b rfl)]
      exact ⟨rfl, fun _ => rfl⟩
  | cons b body ih =>
    obtain _ | fuel := fuel
    · omega
    have hone : input.canConsume s 1 := lt_of_rest_cons hrest
    have hnext : input.rest s.nextChar.pos = b :: (body ++ t) := (mem_of_rest hrest).2
    have hcur : input.cur s.nextChar = b := (mem_of_rest hnext).1
    obtain ⟨hnewline, hreturn⟩ := hbody b (by simp)
    rw [eatLine, if_pos hone]
    dsimp only
    rw [hcur, if_neg (not_or.mpr ⟨hnewline, hreturn⟩)]
    obtain ⟨hpos, htrue⟩ := ih fuel hnext (fun c hc => hbody c (by simp [hc]))
      (by simp only [length_cons] at hfuel; omega)
    refine ⟨hpos.trans ?_, htrue⟩
    rw [nextChar, nextNChars_nextNChars]
    congr 1
    simp only [length_cons]
    omega

/-! ## EatComment -/

/-- EatComment passes `n` bytes and says that it has eaten a comment, or has come to the end of
input. -/
def PassesComment (input : Input) (s : State) (n : Nat) : Prop :=
  (input.eatComment s).2.pos = s.pos + n ∧
    ((input.eatComment s).1 = true ∨ s.pos + n = input.length)

theorem eatComment_line (h : input.rest s.pos = slash :: slash :: u) :
    input.eatComment s = input.eatLine input.length s.nextChar := by
  have hcur : input.cur s = slash := (mem_of_rest h).1
  have hone : input.canConsume s 1 := lt_of_rest_cons h
  have hnext : input.cur s.nextChar = slash := (mem_of_rest (mem_of_rest h).2).1
  rw [eatComment, if_neg (fun h => h.elim (· hcur) (· hone))]
  rw [if_pos hnext]

theorem eatComment_block (h : input.rest s.pos = slash :: star :: u) :
    input.eatComment s = input.eatBlock input.length s.nextChar := by
  have hcur : input.cur s = slash := (mem_of_rest h).1
  have hone : input.canConsume s 1 := lt_of_rest_cons h
  have hnext : input.cur s.nextChar = star := (mem_of_rest (mem_of_rest h).2).1
  rw [eatComment, if_neg (fun h => h.elim (· hcur) (· hone))]
  dsimp only
  rw [hnext, if_neg (by decide), if_pos rfl]

/-- At a slash EatComment always takes a byte. -/
theorem lt_eatComment_pos (hcur : input.cur s = slash) (hpos : s.pos < input.length) :
    s.pos < (input.eatComment s).2.pos := by
  have hline : s.nextChar.pos ≤ (input.eatLine input.length s.nextChar).2.pos := le_eatLine_pos _ _
  have hblock : s.nextChar.pos ≤ (input.eatBlock input.length s.nextChar).2.pos := le_eatBlock_pos _ _
  rw [eatComment, if_neg (fun h => h.elim (· hcur) (· hpos))]
  dsimp only
  split_ifs
  · exact hline
  · exact hblock
  · exact lt_succ_self _

theorem length_of_rest {p : Nat} (h : input.rest p = u) (hu : u ≠ []) :
    p + u.length = input.length := by
  have hle := le_of_rest (r := []) (h.trans (append_nil u).symm) hu
  have := congrArg List.length h
  rw [rest, length_load] at this
  omega

/-- A line comment is passed. -/
theorem eatComment_line_item (hrest : input.rest s.pos = slash :: slash :: body ++ t)
    (hbody : ∀ b ∈ body, b ≠ newline ∧ b ≠ carriageReturn)
    (hend : ∀ b ∈ t.head?, b = newline ∨ b = carriageReturn) :
    (input.eatComment s).2 = s.nextNChars (body.length + 2) ∧
      (t ≠ [] → (input.eatComment s).1 = true) := by
  have hnext : input.rest s.nextChar.pos = slash :: (body ++ t) := (mem_of_rest hrest).2
  have hlen := length_of_rest hrest (by simp)
  simp only [length_append, length_cons] at hlen
  rw [eatComment_line hrest]
  obtain ⟨hpos, htrue⟩ := eatLine_body input.length hnext hbody hend (by omega)
  refine ⟨hpos.trans ?_, htrue⟩
  rw [nextChar, nextNChars_nextNChars]
  congr 1
  omega

/-- A block comment is passed if its last slash comes after an odd number of stars. -/
theorem eatComment_block_item
    (hrest : input.rest s.pos = slash :: star :: (body ++ star :: slash :: t))
    (hfirst : ¬[star, slash] <:+: body) :
    (Even (trailingStars body) →
      input.eatComment s = (true, s.nextNChars (body.length + 4))) ∧
    (¬Even (trailingStars body) → ¬PassesComment input s (body.length + 4)) := by
  have hnext : input.rest s.nextChar.pos = star :: (body ++ star :: slash :: t) :=
    (mem_of_rest hrest).2
  have hlen := length_of_rest hrest (by simp)
  simp only [length_append, length_cons] at hlen
  rw [PassesComment, eatComment_block hrest]
  obtain ⟨heven, hodd⟩ := eatBlock_body input.length hnext hfirst (by omega)
  refine ⟨fun h => ?_, fun h => ?_⟩
  · rw [heven h, nextChar, nextNChars_nextNChars]
    congr 2
    omega
  · obtain ⟨fuel, hfuel⟩ := hodd h
    rw [hfuel]
    rintro ⟨hpos, hended⟩
    have hstar := rest_nextNChars (u := star :: body) (n := body.length + 1) hnext rfl
    cases fuel with
    | zero =>
      simp only [eatBlock, nextNChars_pos, nextChar_pos] at hpos
      omega
    | succ fuel =>
      rw [eatBlock_plain hstar (by decide)] at hpos hended
      rcases hended with htrue | hlast
      · have := eatBlock_true_pos htrue
        simp only [nextNChars_pos, nextChar_pos] at this hpos
        omega
      · have hshort : ¬input.canConsume ((s.nextChar.nextNChars (body.length + 1)).nextNChars 1) 2 := by
          simp only [canConsume, nextNChars_pos, nextChar_pos]
          omega
        have hstays : ∀ fuel s', ¬input.canConsume s' 2 → input.eatBlock fuel s' = (false, s') := by
          intro fuel s' h
          cases fuel with
          | zero => rfl
          | succ fuel => rw [eatBlock, if_neg h]
        rw [hstays fuel _ hshort] at hpos
        simp only [nextNChars_pos, nextChar_pos] at hpos
        omega

/-! ## EatWhitespaceAndComments -/

theorem eatLoop_end (h : input.length ≤ s.pos) (fuel : Nat) : input.eatLoop fuel s = s := by
  cases fuel with
  | zero => rfl
  | succ fuel => rw [eatLoop, if_neg (not_lt.mpr h)]

theorem eatLoop_whitespace {b : UInt8} (hrest : input.rest s.pos = b :: r)
    (hb : isWhitespace b = true) (fuel : Nat) :
    ∃ s', s'.pos = s.pos + 1 ∧ input.eatLoop (fuel + 1) s = input.eatLoop fuel s' := by
  have hcur : input.cur s = b := (mem_of_rest hrest).1
  rw [eatLoop, if_pos (lt_of_rest_cons hrest), hcur]
  rcases isWhitespace_iff.mp hb with hline | hspace
  · rw [if_pos hline]
    exact ⟨_, rfl, rfl⟩
  · by_cases hline : b = carriageReturn ∨ b = newline
    · rw [if_pos hline]
      exact ⟨_, rfl, rfl⟩
    · rw [if_neg hline, if_pos hspace]
      exact ⟨_, rfl, rfl⟩

theorem eatLoop_slash (hpos : s.pos < input.length) (hcur : input.cur s = slash) (fuel : Nat) :
    input.eatLoop (fuel + 1) s =
      if (input.eatComment s).1 then input.eatLoop fuel (input.eatComment s).2
      else (input.eatComment s).2 := by
  rw [eatLoop, if_pos hpos, hcur, if_neg (by decide), if_neg (by decide), if_pos rfl]

theorem eatLoop_here {b : UInt8} (hrest : input.rest s.pos = b :: r) (hb : isWhitespace b = false)
    (hslash : b ≠ slash) (fuel : Nat) : input.eatLoop fuel s = s := by
  cases fuel with
  | zero => rfl
  | succ fuel =>
    have hcur : input.cur s = b := (mem_of_rest hrest).1
    have hblack := not_or.mp (mt isWhitespace_iff.mpr (Bool.eq_false_iff.mp hb))
    rw [eatLoop, if_pos (lt_of_rest_cons hrest), hcur, if_neg hblack.1, if_neg hblack.2,
      if_neg hslash]

theorem le_eatLoop_pos (fuel : Nat) (s : State) : s.pos ≤ (input.eatLoop fuel s).pos := by
  induction fuel generalizing s with
  | zero => exact le_refl _
  | succ fuel ih =>
    by_cases hpos : s.pos < input.length
    · have hrest := rest_of_lt hpos
      cases hb : isWhitespace (input.mem s.pos) with
      | true =>
        obtain ⟨s', hs', heq⟩ := eatLoop_whitespace hrest hb fuel
        rw [heq]
        exact le_trans (by omega) (ih s')
      | false =>
        by_cases hslash : input.mem s.pos = slash
        · rw [eatLoop_slash hpos hslash]
          have hlt := lt_eatComment_pos hslash hpos
          split_ifs
          · exact le_trans (le_of_lt hlt) (ih _)
          · exact le_of_lt hlt
        · rw [eatLoop_here hrest hb hslash]
    · rw [eatLoop_end (not_lt.mp hpos)]

theorem lt_eatLoop_pos (hpos : s.pos < input.length) (hcur : input.cur s = slash) {f : Nat}
    (hf : 0 < f) : s.pos < (input.eatLoop f s).pos := by
  obtain _ | f := f
  · omega
  rw [eatLoop_slash hpos hcur]
  have hlt := lt_eatComment_pos hcur hpos
  split_ifs
  · exact lt_of_lt_of_le hlt (le_eatLoop_pos _ _)
  · exact hlt

theorem gapRun_nil (h : GapRun [] is r) : is = [] ∧ r = [] := by
  generalize ht : ([] : Bytes) = t at h
  cases h with
  | done h => exact ⟨rfl, rfl⟩
  | item h hrun => exact (h.ne_nil (append_eq_nil_iff.mp ht.symm).1).elim

/-- The loop gets to the end of a run with no badly closed block comment. -/
theorem eatLoop_run (fuel : Nat) (hrun : GapRun (input.rest s.pos) is r)
    (hshut : ∀ i ∈ is, OddlyClosed i) (hfuel : input.length ≤ s.pos + fuel) :
    ∃ fuel' s', s'.pos = s.pos + is.flatten.length ∧ input.length ≤ s'.pos + fuel' ∧
      input.eatLoop fuel s = input.eatLoop fuel' s' := by
  generalize ht : input.rest s.pos = t at hrun
  induction hrun generalizing fuel s with
  | done h => exact ⟨fuel, s, rfl, hfuel, rfl⟩
  | @item i r r' is hi hrun ih =>
    have hlen := length_of_rest ht (by simp [hi.ne_nil])
    have hne := length_pos_iff.mpr hi.ne_nil
    rw [length_append] at hlen
    obtain _ | fuel := fuel
    · omega
    have hgo : ∀ s', s'.pos = s.pos + i.length →
        ∃ fuel' s'', s''.pos = s.pos + (i :: is).flatten.length ∧
          input.length ≤ s''.pos + fuel' ∧ input.eatLoop fuel s' = input.eatLoop fuel' s'' := by
      intro s' hs'
      obtain ⟨fuel', s'', hpos, hfuel', heq⟩ := ih fuel (s := s')
        (fun j hj => hshut j (by simp [hj])) (by omega) (by rw [hs']; exact (load_of_rest ht).2)
      exact ⟨fuel', s'', by rw [hpos, hs', flatten_cons, length_append, add_assoc],
        hfuel', heq⟩
    cases hi with
    | whitespace hb =>
      obtain ⟨s', hs', heq⟩ := eatLoop_whitespace ht hb fuel
      rw [heq]
      exact hgo s' hs'
    | @line body _ hbody hend =>
      obtain ⟨heaten, htrue⟩ := eatComment_line_item ht hbody hend
      rw [eatLoop_slash (by omega) (mem_of_rest ht).1, heaten]
      by_cases hr : r = []
      · subst hr
        obtain ⟨rfl, rfl⟩ := gapRun_nil hrun
        simp only [length_nil, length_cons] at hlen
        have hpast : input.length ≤ (s.nextNChars (body.length + 2)).pos := by
          rw [nextNChars_pos]
          omega
        rw [eatLoop_end hpast, ite_self]
        exact ⟨0, _, by simp, hpast, rfl⟩
      · rw [if_pos (htrue hr)]
        exact hgo _ rfl
    | @block body _ hfirst =>
      obtain ⟨heven, -⟩ := eatComment_block_item (t := r) (by simpa using ht) hfirst
      rw [eatLoop_slash (by omega) (mem_of_rest ht).1, heven (hshut _ (by simp) body rfl)]
      exact hgo _ (by simp)

/-- EatWhitespaceAndComments advances past the run in front of it, eats every comment of the run
as one, and stops behind the run, where GetNextToken finds its token. -/
structure EatsRun (input : Input) (s : State) (is : List Bytes) (r : Bytes) : Prop where
  stops : (input.eatWhitespaceAndComments s).pos = s.pos + is.flatten.length
  comments : ∀ js i ks, is = js ++ i :: ks → i.head? = some slash →
    ∀ t : State, t.pos = s.pos + js.flatten.length → PassesComment input t i.length
  token : (input.getNextToken s).1 = headToken r

/-- The run in front of a position. -/
theorem rest_after {p : Nat} (h : input.rest p = u ++ r) :
    input.rest (p + u.length) = r := (load_of_rest h).2

/-- Where a run splits at an item. -/
theorem GapRun.split {i : Bytes} {js ks : List Bytes} (h : GapRun t (js ++ i :: ks) r) :
    ∃ u, t = js.flatten ++ (i ++ u) ∧ GapItem i u := by
  induction js generalizing t with
  | nil =>
    cases h with
    | item hi hrun => exact ⟨_, rfl, hi⟩
  | cons j js ih =>
    cases h with
    | item hj hrun =>
      obtain ⟨u, rfl, hu⟩ := ih hrun
      exact ⟨u, by simp, hu⟩

/-- With every block comment of the run closed oddly, what follows decides where the loop stops. -/
theorem eats_stop_iff (hrun : GapRun (input.rest s.pos) is r) (hshut : ∀ i ∈ is, OddlyClosed i) :
    (input.eatWhitespaceAndComments s).pos = s.pos + is.flatten.length ↔
      r.head? ≠ some slash := by
  obtain ⟨fuel, s', hs', hfuel, heq⟩ :=
    eatLoop_run input.length hrun hshut (le_add_left input.length s.pos)
  have hrest : input.rest s'.pos = r := by
    rw [hs']
    exact rest_after hrun.append_eq
  rw [eatWhitespaceAndComments, heq, ← hs']
  cases r with
  | nil => simp [eatLoop_end (rest_eq_nil_iff.mp hrest)]
  | cons b r =>
    have hpos := lt_of_rest_cons hrest
    have hcur : input.cur s' = b := (mem_of_rest hrest).1
    have hblack : isWhitespace b = false :=
      Bool.eq_false_iff.mpr fun hb => hrun.ends [b] r rfl (.whitespace hb)
    by_cases hslash : b = slash
    · have hlt := lt_eatLoop_pos hpos (hcur.trans hslash) (f := fuel) (by omega)
      simp [hslash, ne_of_gt hlt]
    · simp [eatLoop_here hrest hblack hslash, hslash]

theorem GapItem.block_first {i : Bytes} (h : GapItem i r)
    (hi : i = slash :: star :: (body ++ [star, slash])) : ¬[star, slash] <:+: body := by
  cases h with
  | whitespace => simp at hi
  | line =>
    simp only [cons.injEq] at hi
    exact absurd hi.2.1 (by decide)
  | block hfirst =>
    simp only [cons.injEq, true_and, append_cancel_right_eq] at hi
    exact hi ▸ hfirst

theorem comments_iff (hrun : GapRun (input.rest s.pos) is r) :
    (∀ js i ks, is = js ++ i :: ks → i.head? = some slash →
      ∀ t : State, t.pos = s.pos + js.flatten.length → PassesComment input t i.length) ↔
    ∀ i ∈ is, OddlyClosed i := by
  constructor
  · intro h i hi body hbody
    obtain ⟨js, ks, rfl⟩ := append_of_mem hi
    obtain ⟨u, hu, hitem⟩ := hrun.split
    have hpasses := h js i ks rfl (by simp [hbody]) { s with pos := s.pos + js.flatten.length } rfl
    have hrest : input.rest (s.pos + js.flatten.length) =
        slash :: star :: (body ++ star :: slash :: u) := by
      rw [rest_after hu, hbody]
      simp
    by_contra hodd
    obtain ⟨-, hfails⟩ := eatComment_block_item (s := { s with pos := s.pos + js.flatten.length })
      hrest (hitem.block_first hbody)
    rw [hbody] at hpasses
    exact hfails hodd (by simpa using hpasses)
  · rintro hshut js i ks rfl hslash t ht
    obtain ⟨u, hu, hitem⟩ := hrun.split
    have hrest : input.rest t.pos = i ++ u := by rw [ht, rest_after hu]
    cases hitem with
    | whitespace hb =>
      obtain rfl : _ = slash := Option.some.inj hslash
      exact absurd hb (by decide)
    | line hbody hend =>
      obtain ⟨heaten, htrue⟩ := eatComment_line_item hrest hbody hend
      refine ⟨congrArg pos heaten, ?_⟩
      by_cases hu : u = []
      · subst hu
        exact Or.inr (length_of_rest (hrest.trans (append_nil _)) (by simp))
      · exact Or.inl (htrue hu)
    | @block body _ hfirst =>
      obtain ⟨heven, -⟩ := eatComment_block_item (t := u) (by simpa using hrest) hfirst
      rw [PassesComment, heven (hshut _ (by simp) body rfl)]
      exact ⟨by simp, Or.inl rfl⟩

theorem getNextToken_token (s : State) :
    (input.getNextToken s).1 = headToken (input.rest (input.eatWhitespaceAndComments s).pos) := by
  rw [getNextToken]
  split_ifs with hone
  · rw [rest_of_lt hone]
    rfl
  · rw [rest_of_le (not_lt.mp hone)]
    rfl

/-- Every text has one gap in front. The loop eats it item by item and stops behind it, with the
token that stands there, if and only if no slash follows and each block comment of the gap is
closed after an odd number of stars. -/
theorem eats_run_iff (input : Input) (s : State) :
    ∃ is r, GapRun (input.rest s.pos) is r ∧
      (∀ js r', GapRun (input.rest s.pos) js r' → js = is ∧ r' = r) ∧
      (EatsRun input s is r ↔ r.head? ≠ some slash ∧ ∀ i ∈ is, OddlyClosed i) ∧
      ((∀ i ∈ is, OddlyClosed i) →
        ((input.eatWhitespaceAndComments s).pos = s.pos + is.flatten.length ↔
          r.head? ≠ some slash)) := by
  obtain ⟨is, r, hrun⟩ := exists_gapRun (input.rest s.pos)
  refine ⟨is, r, hrun, fun js r' h => h.unique hrun, ⟨fun h => ?_, fun h => ?_⟩,
    eats_stop_iff hrun⟩
  · have hclosed := (comments_iff hrun).mp h.comments
    exact ⟨(eats_stop_iff hrun hclosed).mp h.stops, hclosed⟩
  · have hstops := (eats_stop_iff hrun h.2).mpr h.1
    refine ⟨hstops, (comments_iff hrun).mpr h.2, ?_⟩
    rw [getNextToken_token, hstops, rest_after hrun.append_eq]

/-- A slash in front of a digit. -/
def slashInput : Input := ⟨ofBytes [slash, 0x31], 2⟩

/-- A block comment whose body is one star. -/
def starInput : Input := ⟨ofBytes [slash, star, star, star, slash], 5⟩

/-- The slash is taken and the token is a number; of the block comment the last slash is left. -/
theorem gaps_eaten_badly :
    GapRun (slashInput.rest 0) [] [slash, 0x31] ∧
      (slashInput.eatWhitespaceAndComments ⟨0, 0, 1, 0⟩).pos = 1 ∧
      (slashInput.getNextToken ⟨0, 0, 1, 0⟩).1 = .number ∧
      GapRun (starInput.rest 0) [[slash, star, star, star, slash]] [] ∧
      (starInput.eatWhitespaceAndComments ⟨0, 0, 1, 0⟩).pos = 4 ∧
      (starInput.getNextToken ⟨0, 0, 1, 0⟩).1 = .invalidToken := by
  refine ⟨.done ?_, by decide, by decide, ?_, by decide, by decide⟩
  · intro i r' h hi
    cases hi with
    | whitespace hb =>
      obtain rfl := (mem_of_rest h).1
      exact absurd hb (by decide)
    | line | block => exact absurd (mem_of_rest (mem_of_rest h).2).1 (by decide)
  · refine .item (i := slash :: star :: ([star] ++ [star, slash])) (.block (by decide)) (.done ?_)
    intro i r' h hi
    exact hi.ne_nil (append_eq_nil_iff.mp h.symm).1

end ChromiumUI.Json
