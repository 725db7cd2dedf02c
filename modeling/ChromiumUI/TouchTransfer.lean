import ChromiumUI.GestureStreams

/-!
# When a transfer of touches is exact

A transfer is exact when it cancels the fingers whose target is neither of the two consumers,
leaves alone the touch ids that are not down, and hands the new consumer a sequence with the
points of all the fingers that were down on either of them.
-/
namespace ChromiumUI.Gestures

open Outcomes Runs List Option Std.TreeMap

variable {touchId : Nat}

namespace GestureSequence

variable {F : Type} {s s' : GestureSequence F}

/-- The finger has a point in use. -/
def HasPoint (s : GestureSequence F) (touchId : Nat) : Prop :=
  ∃ i : Slot, i.val = touchId ∧ (s.points i).inUse = true

theorem Leaves.hasPoint_iff {id : Nat} (h : Leaves touchId s s') (hid : id ≠ touchId) :
    s'.HasPoint id ↔ s.HasPoint id := by
  constructor
  · rintro ⟨i, rfl, hi⟩
    exact ⟨i, rfl, h.others i hid ▸ hi⟩
  · rintro ⟨i, rfl, hi⟩
    exact ⟨i, rfl, (h.others i hid).symm ▸ hi⟩

variable [Zero F] [DecidableEq F] {m : Measures F}

omit [DecidableEq F] in
theorem not_hasPoint_new (touchId : Nat) : ¬(new : GestureSequence F).HasPoint touchId := by
  rintro ⟨i, -, hi⟩
  exact absurd (inUse_iff.mp hi) (show ¬(0 : Int) ≤ -1 by decide)

/-- A touch given to the sequence with its status, the gestures left aside. -/
def take (m : Measures F) (s : GestureSequence F) (given : TouchEvent × TouchStatus) :
    Option (GestureSequence F) :=
  (s.processTouchEventForGesture m given.1 given.2).map Prod.fst

/-- Lifts of other fingers leave a finger its point. -/
theorem run_take_hasPoint {given : List (TouchEvent × TouchStatus)} (h : s.Loose)
    (hlifts : ∀ g ∈ given, g.1.Lifts) (hothers : ∀ g ∈ given, touchId ≠ g.1.touchId)
    (hrun : run (take m) given s = some s') : s'.HasPoint touchId ↔ s.HasPoint touchId := by
  induction given generalizing s with
  | nil =>
    cases hrun
    exact Iff.rfl
  | cons g given ih =>
    obtain ⟨t, ht, hrest⟩ := run_cons_some hrun
    obtain ⟨result, hres, rfl⟩ := map_eq_some_iff.mp ht
    have hleaves := process_lift h (hlifts g (mem_cons_self ..)) g.2 result hres
    rw [ih hleaves.loose (fun g' hg' => hlifts g' (mem_cons_of_mem _ hg'))
      (fun g' hg' => hothers g' (mem_cons_of_mem _ hg')) hrest]
    exact hleaves.hasPoint_iff (hothers g (mem_cons_self ..))

end GestureSequence

variable {ids : List Nat}

namespace GestureRecognizer

variable {W F : Type} [DecidableEq W] [Zero F] [DecidableEq F] {m : Measures F}
  {now : Nat → Int} {around : Nat → Surroundings W} {current next : Option W}
  {r₀ r r' : GestureRecognizer (Consumer W) F}

/-! ## The cancels of a transfer -/

/-- What reaches the sequence of a window when the loop comes to a finger. -/
def delivery (r : GestureRecognizer (Consumer W) F) (now : Nat → Int)
    (around : Nat → Surroundings W) (current next : Option W) (w : W) (touchId : Nat) :
    Option (TouchEvent × TouchStatus) :=
  if takesFrom current next (r.lockedTarget touchId) then
    let event := seen (around touchId) (cancelEvent (now touchId) touchId)
    match (around touchId).target event.location (r.lockedTarget touchId) with
    | some (target, status) => if target = w then some (event, status) else none
    | none => none
  else none

/-- The cancels that reach the sequence of a window. -/
def deliveries (r : GestureRecognizer (Consumer W) F) (now : Nat → Int)
    (around : Nat → Surroundings W) (current next : Option W) (w : W) :
    List (TouchEvent × TouchStatus) :=
  r.touchIdTarget.keys.filterMap (r.delivery now around current next w)

omit [Zero F] [DecidableEq F] in
theorem delivery_some {w : W} {given : TouchEvent × TouchStatus}
    (h : r.delivery now around current next w touchId = some given) :
    takesFrom current next (r.lockedTarget touchId) = true ∧ given.1.Lifts ∧
      given.1.touchId = touchId := by
  unfold delivery at h
  split at h
  · rename_i htakes
    dsimp only at h
    split at h
    · split at h
      · cases h
        exact ⟨htakes, Or.inr rfl, rfl⟩
      · cases h
    · cases h
  · cases h

/-- What the loop over `ids` does to the entries and to the sequences of the windows. -/
structure CancelsAll (m : Measures F) (now : Nat → Int) (around : Nat → Surroundings W)
    (current next : Option W) (r₀ : GestureRecognizer (Consumer W) F) (ids : List Nat)
    (r r' : GestureRecognizer (Consumer W) F) : Prop where
  entry : ∀ id, r'.touchIdTarget[id]? =
    if id ∈ ids ∧ takesFrom current next (r₀.lockedTarget id) = true
    then some gestureConsumerIgnorer else r.touchIdTarget[id]?
  sequence : ∀ w, run (GestureSequence.take m) (ids.filterMap (r₀.delivery now around current next w))
    (r.sequenceOf (windowPtr (some w))) = some (r'.sequenceOf (windowPtr (some w)))
  present : ∀ w, (r'.consumerSequence (windowPtr (some w))).isSome ↔
    (r.consumerSequence (windowPtr (some w))).isSome ∨
      ids.filterMap (r₀.delivery now around current next w) ≠ []
  noNull : r'.consumerSequence none = r.consumerSequence none

theorem CancelsAll.of_same (hentry : r'.touchIdTarget = r.touchIdTarget)
    (hseq : r'.consumerSequence = r.consumerSequence)
    (hids : ∀ id ∈ ids, takesFrom current next (r₀.lockedTarget id) = false) :
    CancelsAll m now around current next r₀ ids r r' := by
  have hnone : ∀ w, ids.filterMap (r₀.delivery now around current next w) = [] := by
    intro w
    rw [filterMap_eq_nil_iff]
    intro id hid
    unfold delivery
    rw [hids id hid]
    rfl
  constructor
  · intro id
    rw [hentry, if_neg]
    rintro ⟨hid, htakes⟩
    rw [hids id hid] at htakes
    cases htakes
  · intro w
    rw [hnone, sequenceOf, sequenceOf, hseq]
    rfl
  · intro w
    rw [hnone, hseq]
    simp
  · rw [hseq]

theorem CancelsAll.append {as bs : List Nat} {r₁ r₂ : GestureRecognizer (Consumer W) F}
    (h : CancelsAll m now around current next r₀ as r r₁)
    (h' : CancelsAll m now around current next r₀ bs r₁ r₂) :
    CancelsAll m now around current next r₀ (as ++ bs) r r₂ := by
  constructor
  · intro id
    rw [h'.entry, h.entry]
    by_cases htakes : takesFrom current next (r₀.lockedTarget id) = true
    · by_cases hbs : id ∈ bs <;> by_cases has : id ∈ as <;> simp [htakes, hbs, has]
    · simp [htakes]
  · intro w
    rw [filterMap_append, run_append, h.sequence w, bind_some, h'.sequence w]
  · intro w
    rw [h'.present, h.present, filterMap_append]
    simp only [ne_eq, append_eq_nil_iff]
    tauto
  · rw [h'.noNull, h.noNull]

omit [Zero F] [DecidableEq F] in
theorem delivery_unhandled (w : W) (htgt : (around touchId).target
      (seen (around touchId) (cancelEvent (now touchId) touchId)).location
      (r.lockedTarget touchId) = none) : r.delivery now around current next w touchId = none := by
  unfold delivery
  dsimp only
  rw [htgt]
  exact ite_self none

omit [Zero F] [DecidableEq F] in
theorem delivery_handled {target : W} {status : TouchStatus} (w : W)
    (htakes : takesFrom current next (r.lockedTarget touchId) = true)
    (htgt : (around touchId).target
      (seen (around touchId) (cancelEvent (now touchId) touchId)).location
      (r.lockedTarget touchId) = some (target, status)) :
    r.delivery now around current next w touchId = if target = w then
      some (seen (around touchId) (cancelEvent (now touchId) touchId), status) else none := by
  unfold delivery
  dsimp only
  rw [if_pos htakes, htgt]

omit [DecidableEq W] [Zero F] [DecidableEq F] in
theorem lockedTarget_insert {touchId : Nat} {target : ConsumerPtr (Consumer W)}
    (h : ∀ id, id ≠ touchId → r'.touchIdTarget[id]? = r.touchIdTarget[id]?) (id : Nat) :
    (r'.touchIdTarget.insert touchId target)[id]? =
      if id = touchId then some target else r.touchIdTarget[id]? := by
  simp only [Std.TreeMap.getElem?_insert, Std.LawfulEqCmp.compare_eq_iff_eq]
  by_cases hid : id = touchId
  · rw [if_pos hid.symm, if_pos hid]
  · rw [if_neg (Ne.symm hid), if_neg hid, h id hid]

/-- One round of the loop: it succeeds when the sequence that is given the cancel takes it. -/
theorem cancelTouch_cancels (log : List Nat)
    (hsame : r.lockedTarget touchId = r₀.lockedTarget touchId)
    (htaken : ∀ w, (run (GestureSequence.take m)
      ([touchId].filterMap (r₀.delivery now around current next w))
      (r.sequenceOf (windowPtr (some w)))).isSome) :
    Yields (cancelTouch m now around current next (r, log) touchId) fun state =>
      CancelsAll m now around current next r₀ [touchId] r state.1 ∧ state.2 =
        log ++ [touchId].filter fun id => takesFrom current next (r₀.lockedTarget id) := by
  unfold cancelTouch
  rw [hsame]
  cases htakes : takesFrom current next (r₀.lockedTarget touchId) with
  | false =>
    refine .some ⟨.of_same rfl rfl ?_, by simp [htakes]⟩
    intro id hid
    rw [mem_singleton.mp hid, htakes]
  | true =>
    rw [if_pos rfl]
    set event := cancelEvent (now touchId) touchId with hevent
    cases htgt : (around touchId).target (seen (around touchId) event).location
      (r₀.lockedTarget touchId) with
    | none =>
      obtain ⟨r₁, hdisp, hseq, hents⟩ :=
        @dispatch_unhandled W F _ _ _ m r event (around touchId) (hsame ▸ htgt)
      have hnone : ∀ w, [touchId].filterMap (r₀.delivery now around current next w) = [] := by
        intro w
        rw [filterMap_cons_none (delivery_unhandled w htgt), filterMap_nil]
      rw [hdisp]
      refine .some ⟨⟨?_, ?_, ?_, ?_⟩, by simp [htakes]⟩
      · intro id
        rw [@lockedTarget_insert W F r r₁ touchId _ hents id]
        by_cases hid : id = touchId <;> simp [hid, htakes]
      · intro w
        rw [hnone, sequenceOf, sequenceOf, hseq]
        rfl
      · intro w
        rw [hnone, hseq]
        simp
      · exact congrFun hseq none
    | some target =>
      obtain ⟨target, status⟩ := target
      obtain ⟨next', hdisp, hnext⟩ :=
        @dispatch_handled W F _ _ _ m r event (around touchId) _ _ (hsame ▸ htgt)
      have hdel : ∀ w, r₀.delivery now around current next w touchId =
          if target = w then some (seen (around touchId) event, status) else none :=
        fun w => delivery_handled w htakes htgt
      have hown := htaken target
      rw [filterMap_cons_some (by rw [hdel, if_pos rfl]), filterMap_nil,
        run_cons, GestureSequence.take] at hown
      cases hprocess : (r.sequenceOf (windowPtr (some target))).processTouchEventForGesture m
        (seen (around touchId) event) status with
      | none =>
        rw [hprocess] at hown
        cases hown
      | some result =>
        obtain ⟨hseq, hents⟩ := hnext result.1
        rw [hdisp, hprocess]
        refine .some ⟨⟨?_, ?_, ?_, ?_⟩, by simp [htakes]⟩
        · intro id
          rw [@lockedTarget_insert W F r (next' result.1) touchId _ hents id]
          by_cases hid : id = touchId <;> simp [hid, htakes]
        · intro w
          rw [filterMap_cons, hdel, sequenceOf, sequenceOf, hseq, setEntry]
          by_cases hw : target = w
          · subst hw
            rw [sequenceOf] at hprocess
            simp [GestureSequence.take, hprocess]
          · have hne : windowPtr (some w) ≠ windowPtr (some target) := by
              simpa [windowPtr] using Ne.symm hw
            simp [hw, hne]
        · intro w
          rw [filterMap_cons, hdel, hseq, setEntry]
          by_cases hw : target = w
          · subst hw
            simp
          · have hne : windowPtr (some w) ≠ windowPtr (some target) := by
              simpa [windowPtr] using Ne.symm hw
            simp [hw, hne]
        · exact (congrFun hseq none).trans (if_neg (by rintro ⟨⟩))

theorem cancelTouch_taken {log : List Nat}
    (hsame : r.lockedTarget touchId = r₀.lockedTarget touchId)
    (h : (cancelTouch m now around current next (r, log) touchId).isSome) (w : W) :
    (run (GestureSequence.take m) ([touchId].filterMap (r₀.delivery now around current next w))
      (r.sequenceOf (windowPtr (some w)))).isSome := by
  cases hdel : r₀.delivery now around current next w touchId with
  | none =>
    rw [filterMap_cons_none hdel]
    rfl
  | some given =>
    obtain ⟨htakes, -, -⟩ := delivery_some hdel
    rw [filterMap_cons_some hdel, filterMap_nil, run_cons]
    cases htgt : (around touchId).target
        (seen (around touchId) (cancelEvent (now touchId) touchId)).location
        (r₀.lockedTarget touchId) with
    | none =>
      rw [delivery_unhandled w htgt] at hdel
      cases hdel
    | some target =>
      obtain ⟨target, status⟩ := target
      rw [delivery_handled w htakes htgt] at hdel
      split at hdel
      · rename_i hw
        subst hw
        cases hdel
        obtain ⟨next', hdisp, -⟩ :=
          @dispatch_handled W F _ _ _ m r (cancelEvent (now touchId) touchId) (around touchId) _ _
            (hsame ▸ htgt)
        unfold cancelTouch at h
        rw [hsame, if_pos htakes, hdisp] at h
        unfold GestureSequence.take
        cases hprocess : (r.sequenceOf (windowPtr (some target))).processTouchEventForGesture m
          (seen (around touchId) (cancelEvent (now touchId) touchId)) status with
        | none =>
          rw [hprocess] at h
          cases h
        | some result => rfl
      · cases hdel

theorem CancelsAll.lockedTarget (h : CancelsAll m now around current next r₀ ids r r') {id : Nat}
    (hid : id ∉ ids ∨ takesFrom current next (r₀.lockedTarget id) = false) :
    r'.lockedTarget id = r.lockedTarget id := by
  rw [GestureRecognizer.lockedTarget, GestureRecognizer.lockedTarget, h.entry, if_neg]
  rintro ⟨hmem, htakes⟩
  obtain hid | hid := hid
  · exact hid hmem
  · rw [hid] at htakes
    cases htakes

/-- The fingers still ahead of the loop are as they were. -/
theorem CancelsAll.ahead (h : CancelsAll m now around current next r₀ [touchId] r r')
    (hnodup : touchId ∉ ids) (hsame : ∀ id ∈ touchId :: ids, r.lockedTarget id = r₀.lockedTarget id)
    :
    ∀ id ∈ ids, r'.lockedTarget id = r₀.lockedTarget id := by
  intro id hid
  have hne : id ∉ [touchId] := by
    rw [mem_singleton]
    rintro rfl
    exact hnodup hid
  rw [h.lockedTarget (Or.inl hne), hsame id (mem_cons_of_mem _ hid)]

/-- The loop succeeds when every sequence takes the cancels that reach it. -/
theorem cancelLoop_cancels (log : List Nat) (hnodup : ids.Nodup)
    (hsame : ∀ id ∈ ids, r.lockedTarget id = r₀.lockedTarget id)
    (htaken : ∀ w, (run (GestureSequence.take m)
      (ids.filterMap (r₀.delivery now around current next w))
      (r.sequenceOf (windowPtr (some w)))).isSome) :
    Yields (ids.foldlM (cancelTouch m now around current next) (r, log)) fun state =>
      CancelsAll m now around current next r₀ ids r state.1 ∧ state.2 =
        log ++ ids.filter fun id => takesFrom current next (r₀.lockedTarget id) := by
  induction ids generalizing r log with
  | nil => exact .some ⟨.of_same rfl rfl nofun, by simp⟩
  | cons touchId ids ih =>
    obtain ⟨hnotMem, hnodup'⟩ := nodup_cons.mp hnodup
    have hsplit : ∀ w, (touchId :: ids).filterMap (r₀.delivery now around current next w) =
        [touchId].filterMap (r₀.delivery now around current next w) ++
          ids.filterMap (r₀.delivery now around current next w) :=
      fun w => filterMap_append (l := [touchId])
    rw [foldlM_cons]
    refine (cancelTouch_cancels log (hsame touchId (mem_cons_self ..)) fun w => ?_).bind ?_
    · have h := htaken w
      rw [hsplit, run_append] at h
      exact isSome_of_isSome_bind h
    · rintro ⟨r₁, log₁⟩ ⟨hcancels, hlog⟩
      refine (ih log₁ hnodup' (hcancels.ahead hnotMem hsame) fun w => ?_).mono ?_
      · have h := htaken w
        rw [hsplit, run_append, hcancels.sequence w] at h
        exact h
      · rintro ⟨r₂, log₂⟩ ⟨hcancels', hlog'⟩
        dsimp only at hlog hlog' ⊢
        refine ⟨hcancels.append hcancels', ?_⟩
        rw [hlog', hlog, append_assoc, ← filter_append]
        rfl

theorem cancelLoop_taken {log : List Nat} (hnodup : ids.Nodup)
    (hsame : ∀ id ∈ ids, r.lockedTarget id = r₀.lockedTarget id)
    (h : (ids.foldlM (cancelTouch m now around current next) (r, log)).isSome) (w : W) :
    (run (GestureSequence.take m) (ids.filterMap (r₀.delivery now around current next w))
      (r.sequenceOf (windowPtr (some w)))).isSome := by
  induction ids generalizing r log with
  | nil => rfl
  | cons touchId ids ih =>
    obtain ⟨hnotMem, hnodup'⟩ := nodup_cons.mp hnodup
    have hown := hsame touchId (mem_cons_self ..)
    rw [foldlM_cons] at h
    have htaken := cancelTouch_taken hown (isSome_of_isSome_bind h)
    obtain ⟨⟨r₁, log₁⟩, hcancel, hcancels, -⟩ := cancelTouch_cancels log hown htaken
    rw [hcancel] at h
    rw [show touchId :: ids = [touchId] ++ ids from rfl, filterMap_append, run_append,
      hcancels.sequence w, bind_some]
    exact ih hnodup' (hcancels.ahead hnotMem hsame) h

/-! ## Exactness -/

/-- The transfer of the touches of `r` ended in `r'` and cancelled the right fingers. -/
structure Exact (current next : Option W) (r r' : GestureRecognizer (Consumer W) F)
    (cancelled : List Nat) : Prop where
  nodup : cancelled.Nodup
  mem_cancelled : ∀ id, id ∈ cancelled ↔ ∃ c, r.lockedTarget id = some c ∧
    some c ≠ windowPtr next ∧ some c ≠ gestureConsumerIgnorer ∧
      (next ≠ none → some c ≠ windowPtr current)
  up : ∀ id, r.lockedTarget id = none → id ∉ cancelled ∧ r'.lockedTarget id = none
  inUse : ∀ w, some w = current ∨ some w = next → ∀ id,
    r.lockedTarget id = windowPtr (some w) → (r'.sequenceOf (windowPtr next)).HasPoint id

/-- The sequence that the new consumer is left with, before the loop has run: that of the
current one if it has or gets any. -/
def survivor (r : GestureRecognizer (Consumer W) F) (now : Nat → Int)
    (around : Nat → Surroundings W) (current next : Option W) : GestureSequence F :=
  match current with
  | some w =>
    if (r.consumerSequence (windowPtr (some w))).isSome ||
        !(r.deliveries now around current next w).isEmpty then
      r.sequenceOf (windowPtr (some w))
    else r.sequenceOf (windowPtr next)
  | none => r.sequenceOf (windowPtr next)

/-- When a transfer is exact. -/
structure Transferable (m : Measures F) (r : GestureRecognizer (Consumer W) F)
    (now : Nat → Int) (around : Nat → Surroundings W) (current next : Option W) : Prop where
  taken : ∀ w, (run (GestureSequence.take m) (r.deliveries now around current next w)
    (r.sequenceOf (windowPtr (some w)))).isSome
  noEntries : next = none ∨ current = none ∨ ∀ id : Nat, r.touchIdTarget[id]? ≠ some none
  points : ∀ w, some w = current ∨ some w = next → ∀ id,
    r.lockedTarget id = windowPtr (some w) →
      next ≠ none ∧ (r.survivor now around current next).HasPoint id

omit [Zero F] [DecidableEq F] in
theorem takesFrom_some {c : Consumer W} : takesFrom current next (some c) = true ↔
    some c ≠ windowPtr next ∧ some c ≠ gestureConsumerIgnorer ∧
      (next ≠ none → some c ≠ windowPtr current) := by
  cases next <;> simp [takesFrom, cancels, windowPtr, gestureConsumerIgnorer]
  tauto

theorem takesFrom_null : takesFrom current next none = true ↔ next ≠ none ∧ current ≠ none := by
  cases next <;> cases current <;> simp [takesFrom, cancels, windowPtr, gestureConsumerIgnorer]

theorem takesFrom_window {w : W} (hnext : next ≠ none) (hw : some w = current ∨ some w = next) :
    takesFrom current next (windowPtr (some w)) = false := by
  rw [← Bool.not_eq_true, windowPtr, map_some, takesFrom_some]
  rintro ⟨hnotNext, -, hnotCurrent⟩
  obtain rfl | rfl := hw
  · exact hnotCurrent hnext rfl
  · exact hnotNext rfl

omit [DecidableEq W] [Zero F] [DecidableEq F] in
theorem mem_keys_iff {id : Nat} : id ∈ r.touchIdTarget.keys ↔ (r.touchIdTarget[id]?).isSome := by
  rw [Std.TreeMap.mem_keys, Std.TreeMap.mem_iff_isSome_getElem?]

omit [Zero F] [DecidableEq F] in
theorem transferConsumers_up {id : Nat} (h : r.lockedTarget id = none) :
    (transferConsumers (windowPtr current) (windowPtr next) r).lockedTarget id = none := by
  unfold transferConsumers
  split
  · rename_i hboth
    unfold lockedTarget at h ⊢
    rw [transferTouchIds, Std.TreeMap.getElem?_map]
    cases hentry : r.touchIdTarget[id]? with
    | none => rfl
    | some target =>
      rw [hentry] at h
      obtain rfl : target = none := h
      rw [map_some, if_neg]
      · rfl
      · intro hnull
        rw [← hnull] at hboth
        simp at hboth
  · exact h

/-- The new consumer ends with the survivor's points. -/
theorem survivor_hasPoint {w : W} {id : Nat} (hr : WellFormed r) (hne : current ≠ next)
    (hnext : next = some w) (h : CancelsAll m now around current next r r.touchIdTarget.keys r r')
    (hid : takesFrom current next (r.lockedTarget id) = false) :
    ((transferConsumers (windowPtr current) (windowPtr next) r').sequenceOf
        (windowPtr next)).HasPoint id ↔
      (r.survivor now around current next).HasPoint id := by
  have hkeeps : ∀ w, (r'.sequenceOf (windowPtr (some w))).HasPoint id ↔
      (r.sequenceOf (windowPtr (some w))).HasPoint id := by
    intro w
    apply GestureSequence.run_take_hasPoint (hr.sequenceOf _) _ _ (h.sequence w)
    · intro given hgiven
      obtain ⟨touchId, -, hdel⟩ := mem_filterMap.mp hgiven
      exact (delivery_some hdel).2.1
    · intro given hgiven
      obtain ⟨touchId, -, hdel⟩ := mem_filterMap.mp hgiven
      obtain ⟨htakes, -, htouchId⟩ := delivery_some hdel
      rintro rfl
      rw [htouchId] at hid
      rw [hid] at htakes
      cases htakes
  subst hnext
  cases current with
  | none => exact hkeeps w
  | some a =>
    have hpresent := h.present a
    have hdiffer : windowPtr (some w) ≠ windowPtr (some a) := by
      intro heq
      apply hne
      simpa [windowPtr] using heq.symm
    unfold transferConsumers transferConsumer survivor
    rw [if_pos ⟨rfl, rfl⟩]
    dsimp only
    cases hs : r'.consumerSequence (windowPtr (some a)) with
    | none =>
      rw [hs] at hpresent
      rw [if_neg]
      · exact hkeeps w
      · simpa [deliveries] using hpresent
    | some s =>
      rw [hs] at hpresent
      rw [if_pos]
      · rw [← hkeeps a]
        simp [sequenceOf, setEntry, hdiffer, hs]
      · simpa [deliveries] using hpresent

/-- The call completes, exactly. -/
def TransfersExactly (m : Measures F) (r : GestureRecognizer (Consumer W) F)
    (now : Nat → Int) (around : Nat → Surroundings W) (current next : Option W) : Prop :=
  Yields (r.transferEventsTo m now around current next) fun result =>
    Exact current next r result.1 result.2

/-- Without a new consumer no finger keeps a point. -/
theorem not_hasPoint_null (hr : WellFormed r)
    (h : CancelsAll m now around current none r₀ r.touchIdTarget.keys r r') (id : Nat) :
    ¬((transferConsumers (windowPtr current) (windowPtr none) r').sequenceOf
      (windowPtr none)).HasPoint id := by
  have hnull : (transferConsumers (windowPtr current) (windowPtr none) r').sequenceOf
      (windowPtr none) = .new := by
    unfold transferConsumers
    rw [if_neg (by simp [windowPtr]), windowPtr, map_none, sequenceOf, h.noNull, hr.noNull]
    rfl
  rw [hnull]
  exact GestureSequence.not_hasPoint_new id

omit [Zero F] [DecidableEq F] in
/-- What the loop has cancelled, apart from the NULL entries. -/
theorem mem_cancelled_iff (hnoEntries : next = none ∨ current = none ∨
      ∀ id : Nat, r.touchIdTarget[id]? ≠ some none) (id : Nat) :
    id ∈ r.touchIdTarget.keys.filter
        (fun id => takesFrom current next (r.lockedTarget id)) ↔
      ∃ c, r.lockedTarget id = some c ∧ some c ≠ windowPtr next ∧
        some c ≠ gestureConsumerIgnorer ∧ (next ≠ none → some c ≠ windowPtr current) := by
  rw [mem_filter, mem_keys_iff]
  cases htgt : r.lockedTarget id with
  | none =>
    rw [takesFrom_null]
    constructor
    · rintro ⟨hkey, hnext, hcurr⟩
      obtain rfl | rfl | hents := hnoEntries
      · exact absurd rfl hnext
      · exact absurd rfl hcurr
      · obtain ⟨target, hentry⟩ := isSome_iff_exists.mp hkey
        rw [lockedTarget, hentry, getD_some] at htgt
        exact absurd (htgt ▸ hentry) (hents id)
    · rintro ⟨c, ⟨⟩, -⟩
  | some c =>
    have hkey : (r.touchIdTarget[id]?).isSome := by
      rw [← Bool.not_eq_false, isSome_eq_false_iff, isNone_iff_eq_none]
      intro hmissing
      rw [lockedTarget, hmissing] at htgt
      cases htgt
    rw [takesFrom_some]
    constructor
    · rintro ⟨-, h⟩
      exact ⟨c, rfl, h⟩
    · rintro ⟨c', ⟨⟩, h⟩
      exact ⟨hkey, h⟩

theorem Transferable.exact (hr : WellFormed r) (hne : current ≠ next)
    (h : Transferable m r now around current next) :
    TransfersExactly m r now around current next := by
  refine Yields.bind (cancelLoop_cancels [] nodup_keys (fun _ _ => rfl) h.taken) ?_
  rintro ⟨r₁, log⟩ ⟨hcancels, hlog⟩
  rw [nil_append] at hlog
  subst hlog
  refine .some ⟨nodup_keys.filter _, mem_cancelled_iff h.noEntries, ?_, ?_⟩
  · intro id hid
    have hnotMem : id ∉ r.touchIdTarget.keys.filter
        (fun id => takesFrom current next (r.lockedTarget id)) := by
      rw [mem_cancelled_iff h.noEntries, hid]
      rintro ⟨c, ⟨⟩, -⟩
    refine ⟨hnotMem, transferConsumers_up ?_⟩
    rw [hcancels.lockedTarget, hid]
    rw [mem_filter, not_and_or, Bool.not_eq_true] at hnotMem
    exact hnotMem
  · intro w hw id hid
    obtain ⟨hnext, hpoint⟩ := h.points w hw id hid
    obtain ⟨b, hb⟩ := ne_none_iff_exists'.mp hnext
    rw [survivor_hasPoint hr hne hb hcancels]
    · exact hpoint
    · rw [hid]
      exact takesFrom_window hnext hw

theorem transferable_of_exact (hr : WellFormed r) (hne : current ≠ next)
    (h : TransfersExactly m r now around current next) :
    Transferable m r now around current next := by
  obtain ⟨⟨r', cancelled⟩, htransfer, hexact⟩ := h
  obtain ⟨⟨r₁, log⟩, hloop, hrest⟩ := bind_eq_some_iff.mp htransfer
  obtain ⟨rfl, rfl⟩ := Prod.mk.inj (Option.some.inj hrest)
  have htaken := cancelLoop_taken nodup_keys (fun _ _ => rfl)
    (isSome_of_eq_some hloop)
  obtain ⟨hcancels, hlog⟩ :=
    (cancelLoop_cancels [] nodup_keys (fun _ _ => rfl) htaken).of_eq hloop
  refine ⟨htaken, ?_, ?_⟩
  · by_contra hboth
    simp only [not_or, not_forall, not_not] at hboth
    obtain ⟨hnext, hcurr, id, hentry⟩ := hboth
    have hnull : r.lockedTarget id = none := by
      rw [lockedTarget, hentry]
      rfl
    -- The loop takes the NULL of a lifted finger for a target that loses its touches.
    apply (hexact.up id hnull).1
    rw [hlog, nil_append, mem_filter, mem_keys_iff, hentry, hnull]
    exact ⟨rfl, takesFrom_null.mpr ⟨hnext, hcurr⟩⟩
  · intro w hw id hid
    have hpoint := hexact.inUse w hw id hid
    cases next with
    | none => exact absurd hpoint (not_hasPoint_null hr hcancels id)
    | some b =>
      refine ⟨nofun, ?_⟩
      rw [survivor_hasPoint hr hne rfl hcancels] at hpoint
      · exact hpoint
      · rw [hid]
        exact takesFrom_window nofun hw

/-- Every touch goes to one window, which has the capture and leaves it to the gestures. -/
def captured (window : Bool) : Surroundings Bool where
  rootTransform := id
  captureWindow := some window
  targetForLocation := none
  boundsContain _ := true
  rootWindow := window
  eventHandlerForPoint := none
  status := .unknown

/-- A finger that stays down on the window with the capture. -/
def heldTouch : List (TouchOp Bool) :=
  [.touch ⟨.touchPressed, ⟨10, 10⟩, 4, 0⟩ (captured false)]

/-- The window with the capture is tapped. -/
def tap : List (TouchOp Bool) :=
  heldTouch ++ [.touch ⟨.touchReleased, ⟨10, 10⟩, 4, 100000⟩ (captured false)]

end GestureRecognizer

end ChromiumUI.Gestures
