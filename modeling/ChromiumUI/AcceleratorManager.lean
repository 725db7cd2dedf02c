import Mathlib.Data.List.Nodup
import ChromiumUI.Runs

/-!
# Who handles an accelerator

AcceleratorManager keeps a list of targets for every accelerator and beside it a flag that says
whether the first of them registered with priority. `registry` is what the callers have in mind:
who is registered, the last one first.
-/
namespace ChromiumUI.AcceleratorManager

set_option linter.unusedSectionVars false

open Runs List Function

structure Accelerator where
  keyCode : Int
  type : Int
  modifiers : Int
  deriving DecidableEq

inductive HandlerPriority where
  | kNormalPriority
  | kHighPriority
  deriving DecidableEq

variable {τ : Type*} [DecidableEq τ]

abbrev AcceleratorTargets (τ : Type*) := Bool × List τ

/-- The map `accelerators_`. -/
abbrev Manager (τ : Type*) := Accelerator → Option (AcceleratorTargets τ)

section

variable (m : Manager τ)

variable (accelerator : Accelerator)

/-- `accelerators_[accelerator]` -/
def Manager.targets : AcceleratorTargets τ :=
  (m accelerator).getD (false, [])

/-- `none`: `++targets.begin()` ran past the end of an empty list. -/
def Manager.register (priority : HandlerPriority)
    (target : τ) : Option (Manager τ) :=
  match priority, m.targets accelerator with
  | .kHighPriority, (_, targets) => some (update m accelerator (some (true, target :: targets)))
  | .kNormalPriority, (false, targets) =>
    some (update m accelerator (some (false, target :: targets)))
  | .kNormalPriority, (true, []) => none
  | .kNormalPriority, (true, first :: targets) =>
    some (update m accelerator (some (true, first :: target :: targets)))

def Manager.unregister (target : τ) : Manager τ :=
  match m accelerator with
  | none => m
  | some (first, targets) =>
    if target ∈ targets then
      update m accelerator
        (some (if first && targets.head? = some target then false else first, targets.erase target))
    else m

/-- Nothing here writes the flags. -/
def Manager.unregisterAll (target : τ) : Manager τ := fun accelerator =>
  (m accelerator).map fun (first, targets) => (first, targets.filter (· ≠ target))

def Manager.getCurrentTarget : Option τ :=
  (m accelerator).bind fun (_, targets) => targets.head?

end

def Manager.hasPriorityHandler (canHandleAccelerators : τ → Bool) (m : Manager τ)
    (accelerator : Accelerator) : Bool :=
  match m accelerator with
  | none => false
  | some (_, []) => false
  | some (first, front :: _) => if !first then false else canHandleAccelerators front

/-! ## Calls -/

inductive Call (τ : Type*) where
  | register (accelerator : Accelerator) (priority : HandlerPriority) (target : τ)
  | unregister (accelerator : Accelerator) (target : τ)
  | unregisterAll (target : τ)

def step (m : Manager τ) : Call τ → Option (Manager τ)
  | .register accelerator priority target => m.register accelerator priority target
  | .unregister accelerator target => some (m.unregister accelerator target)
  | .unregisterAll target => some (m.unregisterAll target)

/-- Who is registered for an accelerator and how, the last one first. -/
abbrev Registry (τ : Type*) := Accelerator → List (τ × HandlerPriority)

def Registry.after (r : Registry τ) : Call τ → Registry τ
  | .register accelerator priority target =>
    update r accelerator ((target, priority) :: r accelerator)
  | .unregister accelerator target => update r accelerator ((r accelerator).filter (·.1 ≠ target))
  | .unregisterAll target => fun accelerator => (r accelerator).filter (·.1 ≠ target)

variable (calls : List (Call τ))

def registry : Registry τ := calls.foldl Registry.after fun _ => []

theorem registry_concat (calls : List (Call τ)) (call : Call τ) :
    registry (calls ++ [call]) = (registry calls).after call := by
  simp [registry]

/-- A target registers once, and with priority only where no one else has. -/
def Registry.Allows (r : Registry τ) : Call τ → Prop
  | .register accelerator priority target => ∀ p ∈ r accelerator,
    target ≠ p.1 ∧ (priority = .kHighPriority → p.2 ≠ .kHighPriority)
  | _ => True

def Legal : Prop :=
  ∀ past call, past ++ [call] <+: calls → (registry past).Allows call

/-- No priority handler leaves through UnregisterAll. -/
def SparesHandlers : Prop :=
  ∀ past target, past ++ [.unregisterAll target] <+: calls →
    ∀ accelerator, (target, .kHighPriority) ∉ registry past accelerator

/-- The targets in the order in which they are asked: those with priority first. -/
def inOrder (l : List (τ × HandlerPriority)) : List τ :=
  (l.filter (·.2 = .kHighPriority) ++ l.filter (·.2 = .kNormalPriority)).map (·.1)

/-- No target is there twice, and one with priority only once. -/
def Proper (l : List (τ × HandlerPriority)) : Prop :=
  l.Pairwise fun p q => p.1 ≠ q.1 ∧ (p.2 = .kHighPriority → q.2 ≠ .kHighPriority)

structure Manager.Keeps (m : Manager τ) (r : Registry τ) : Prop where
  flag : ∀ a, (m.targets a).1 = true ↔ ∃ t, (t, .kHighPriority) ∈ r a
  order : ∀ a, (m.targets a).2 = inOrder (r a)

/-- The flag, the order of the list, and whom HasPriorityHandler finds. -/
structure Manager.Serves (m : Manager τ) (r : Registry τ) : Prop extends Keeps m r where
  handler : ∀ canHandleAccelerators a, m.hasPriorityHandler canHandleAccelerators a = true →
    ∃ t, (t, .kHighPriority) ∈ r a ∧ m.getCurrentTarget a = some t ∧ canHandleAccelerators t = true

/-- No call goes past the front of an empty list, and after each the manager serves those who are
registered. -/
def ServesThroughout : Prop :=
  ∀ past, past <+: calls → ∃ m, run step past (fun _ => none) = some m ∧ m.Serves (registry past)

/-! ## Lists in order -/

theorem filter_inOrder (l : List (τ × HandlerPriority)) (target : τ) :
    (inOrder l).filter (· ≠ target) = inOrder (l.filter (·.1 ≠ target)) := by
  simp only [inOrder, filter_map, filter_append, filter_filter, comp_def,
    Bool.and_comm]

theorem inOrder_perm (l : List (τ × HandlerPriority)) : (inOrder l).Perm (l.map (·.1)) := by
  have hnormal : l.filter (·.2 = .kNormalPriority) =
      l.filter fun p => !decide (p.2 = .kHighPriority) := by
    congr 1
    funext p
    cases h : p.2 <;> simp
  rw [inOrder, hnormal]
  exact (filter_append_perm _ l).map _

variable {l : List (τ × HandlerPriority)}

theorem inOrder_cons_normal_of_none (target : τ) (h : ∀ p ∈ l, p.2 ≠ .kHighPriority) :
    inOrder ((target, .kNormalPriority) :: l) = target :: inOrder l := by
  have hnone : l.filter (·.2 = .kHighPriority) = [] := by simpa using h
  simp [inOrder, hnone]

theorem inOrder_cons_high (target : τ) :
    inOrder ((target, .kHighPriority) :: l) = target :: inOrder l := by
  simp [inOrder]

theorem Proper.filter_high (h : Proper l) {t : τ} (ht : (t, .kHighPriority) ∈ l) :
    l.filter (·.2 = .kHighPriority) = [(t, .kHighPriority)] := by
  have hpairs := Pairwise.filter (fun p : τ × HandlerPriority => p.2 = .kHighPriority) h
  have hhigh : ∀ p ∈ l.filter (·.2 = .kHighPriority), p.2 = .kHighPriority := fun p hp => by
    simpa using (mem_filter.mp hp).2
  have hin : (t, .kHighPriority) ∈ l.filter (·.2 = .kHighPriority) := by simpa using ht
  generalize l.filter (·.2 = .kHighPriority) = found at hpairs hhigh hin ⊢
  match found with
  | [] => cases hin
  | [p] => rw [mem_singleton.mp hin]
  | p :: q :: _ =>
    have := (pairwise_cons.mp hpairs).1 q mem_cons_self
    exact absurd (hhigh q (by simp)) (this.2 (hhigh p mem_cons_self))

/-- With a priority handler the list begins with it. -/
theorem exists_inOrder {t : τ} (h : Proper l) (ht : (t, .kHighPriority) ∈ l) :
    ∃ rest, inOrder l = t :: rest ∧
      ∀ target, inOrder ((target, .kNormalPriority) :: l) = t :: target :: rest :=
  ⟨(l.filter (·.2 = .kNormalPriority)).map (·.1), by simp [inOrder, h.filter_high ht],
    by simp [inOrder, h.filter_high ht]⟩

/-! ## One call -/

variable {r : Registry τ}

theorem proper_after (h : ∀ a, Proper (r a)) {call : Call τ} (hcall : r.Allows call)
    (a : Accelerator) : Proper (r.after call a) := by
  cases call with
  | register accelerator priority target =>
    by_cases ha : a = accelerator
    · subst ha
      simp only [Registry.after, update_self]
      exact pairwise_cons.mpr ⟨hcall, h a⟩
    · simpa [Registry.after, ha] using h a
  | unregister accelerator target =>
    by_cases ha : a = accelerator
    · subst ha
      simp only [Registry.after, update_self]
      exact Pairwise.filter _ (h a)
    · simpa [Registry.after, ha] using h a
  | unregisterAll target => exact Pairwise.filter _ (h a)

variable {m : Manager τ}

theorem Manager.Keeps.update (h : m.Keeps r) {a : Accelerator} {first : Bool} {targets : List τ}
    (hflag : first = true ↔ ∃ t, (t, .kHighPriority) ∈ l) (horder : targets = inOrder l) :
    Manager.Keeps (update m a (some (first, targets))) (update r a l) := by
  constructor <;> intro b <;> by_cases hb : b = a
  · subst hb
    simpa [Manager.targets] using hflag
  · simpa [Manager.targets, hb] using h.flag b
  · subst hb
    simpa [Manager.targets] using horder
  · simpa [Manager.targets, hb] using h.order b

theorem register_keeps (hr : ∀ a, Proper (r a)) (h : m.Keeps r) {a : Accelerator}
    {priority : HandlerPriority} {target : τ} (hcall : r.Allows (.register a priority target)) :
    ∃ m', m.register a priority target = some m' ∧
      m'.Keeps (r.after (.register a priority target)) := by
  have hflag := h.flag a
  have horder := h.order a
  unfold Manager.register
  generalize m.targets a = entry at hflag horder ⊢
  obtain ⟨first, targets⟩ := entry
  change targets = inOrder (r a) at horder
  cases priority with
  | kHighPriority =>
    refine ⟨_, rfl, h.update ?_ ?_⟩
    · exact ⟨fun _ => ⟨target, mem_cons_self⟩, fun _ => rfl⟩
    · rw [inOrder_cons_high, ← horder]
  | kNormalPriority =>
    cases first with
    | false =>
      have hnone : ∀ p ∈ r a, p.2 ≠ .kHighPriority := by
        rintro ⟨t, p⟩ hp rfl
        exact Bool.false_ne_true (hflag.mpr ⟨t, hp⟩)
      refine ⟨_, rfl, h.update ?_ ?_⟩
      · simpa using hflag
      · rw [inOrder_cons_normal_of_none target hnone, ← horder]
    | true =>
      obtain ⟨t, ht⟩ := hflag.mp rfl
      obtain ⟨rest, hrest, hcons⟩ := exists_inOrder (hr a) ht
      rw [hrest] at horder
      subst horder
      refine ⟨_, rfl, h.update ?_ (hcons target).symm⟩
      simpa using ⟨t, ht⟩

theorem unregister_keeps (hr : ∀ a, Proper (r a)) (h : m.Keeps r) (a : Accelerator) (target : τ) :
    (m.unregister a target).Keeps (r.after (.unregister a target)) := by
  have hflag := h.flag a
  have horder := h.order a
  have hstays : target ∉ (m.targets a).2 → r.after (.unregister a target) = r := by
    intro hnot
    rw [horder, (inOrder_perm _).mem_iff] at hnot
    have : (r a).filter (·.1 ≠ target) = r a := by
      rw [filter_eq_self]
      intro p hp
      have hne : p.1 ≠ target := by
        rintro rfl
        exact hnot (mem_map_of_mem hp)
      simpa using hne
    simp only [Registry.after, this, update_eq_self]
  unfold Manager.unregister
  cases hm : m a with
  | none =>
    rw [hstays (by simp [Manager.targets, hm])]
    exact h
  | some entry =>
    obtain ⟨first, targets⟩ := entry
    simp only [Manager.targets, hm, Option.getD_some] at hflag horder hstays
    simp only
    split
    · have hnodup : targets.Nodup := by
        rw [horder, (inOrder_perm _).nodup_iff]
        exact pairwise_map.mpr ((hr a).imp And.left)
      refine h.update ?_ ?_
      · constructor
        · intro hfirst
          obtain ⟨hhead, hfirst⟩ :
              (first = true → ¬targets.head? = some target) ∧ first = true := by
            simpa [imp_iff_not_or] using hfirst
          obtain ⟨t, ht⟩ := hflag.mp hfirst
          obtain ⟨rest, hrest, -⟩ := exists_inOrder (hr a) ht
          rw [horder, hrest, head?_cons] at hhead
          refine ⟨t, mem_filter.mpr ⟨ht, ?_⟩⟩
          simpa using fun heq => hhead hfirst (congrArg _ heq)
        · rintro ⟨t, ht⟩
          obtain ⟨ht, hne⟩ := mem_filter.mp ht
          obtain ⟨rest, hrest, -⟩ := exists_inOrder (hr a) ht
          have hne : t ≠ target := by simpa using hne
          rw [horder, hrest]
          simpa [hne] using hflag.mpr ⟨t, ht⟩
      · rw [hnodup.erase_eq_filter, horder, ← filter_inOrder]
        simp only [ne_eq, decide_not]
        rfl
    · rw [hstays ‹_›]
      exact h

theorem targets_unregisterAll (m : Manager τ) (target : τ) (a : Accelerator) :
    (m.unregisterAll target).targets a =
      ((m.targets a).1, (m.targets a).2.filter (· ≠ target)) := by
  unfold Manager.targets Manager.unregisterAll
  cases m a <;> simp

theorem unregisterAll_keeps (h : m.Keeps r) {target : τ}
    (hspared : ∀ a, (target, .kHighPriority) ∉ r a) :
    (m.unregisterAll target).Keeps (r.after (.unregisterAll target)) := by
  constructor <;> intro a
  · rw [targets_unregisterAll, h.flag a]
    apply exists_congr
    intro t
    simp only [Registry.after, mem_filter, decide_eq_true_eq, iff_self_and]
    rintro ht rfl
    exact hspared a ht
  · rw [targets_unregisterAll, h.order a, filter_inOrder]
    rfl

theorem step_keeps (hr : ∀ a, Proper (r a)) (h : m.Keeps r) {call : Call τ} (hcall : r.Allows call)
    (hspared : ∀ target, call = .unregisterAll target → ∀ a, (target, .kHighPriority) ∉ r a) :
    ∃ m', step m call = some m' ∧ m'.Keeps (r.after call) := by
  cases call with
  | register a priority target => exact register_keeps hr h hcall
  | unregister a target => exact ⟨_, rfl, unregister_keeps hr h a target⟩
  | unregisterAll target => exact ⟨_, rfl, unregisterAll_keeps h (hspared target rfl)⟩

/-! ## Sequences of calls -/

theorem legal_concat {calls : List (Call τ)} {call : Call τ} :
    Legal (calls ++ [call]) ↔ Legal calls ∧ (registry calls).Allows call := by
  constructor
  · intro h
    exact ⟨fun past c hc => h past c (hc.trans (prefix_append ..)),
      h calls call (prefix_refl _)⟩
  · rintro ⟨h, hcall⟩ past c hc
    obtain heq | hc := prefix_concat_iff.mp hc
    · obtain ⟨rfl, hlast⟩ := append_inj' heq rfl
      obtain rfl := singleton_inj.mp hlast
      exact hcall
    · exact h past c hc

theorem registry_proper {calls : List (Call τ)} (h : Legal calls) (a : Accelerator) :
    Proper (registry calls a) := by
  induction calls using reverseRecOn generalizing a with
  | nil => exact Pairwise.nil
  | append_singleton calls call ih =>
    obtain ⟨hpast, hcall⟩ := legal_concat.mp h
    rw [registry_concat]
    exact proper_after (ih hpast) hcall a

theorem run_keeps {calls : List (Call τ)} (h : Legal calls) (hspared : SparesHandlers calls) :
    ∃ m, run step calls (fun _ => none) = some m ∧ m.Keeps (registry calls) := by
  induction calls using reverseRecOn with
  | nil =>
    refine ⟨_, rfl, ?_, fun a => rfl⟩
    intro a
    simp [Manager.targets, registry]
  | append_singleton calls call ih =>
    obtain ⟨hlegal, hcall⟩ := legal_concat.mp h
    obtain ⟨m, hm, hkeeps⟩ :=
      ih hlegal fun past target hc => hspared past target (hc.trans (prefix_append ..))
    obtain ⟨m', hm', hkeeps'⟩ := step_keeps (registry_proper hlegal) hkeeps hcall (by
      rintro target rfl
      exact hspared calls target (prefix_refl _))
    refine ⟨m', ?_, registry_concat calls call ▸ hkeeps'⟩
    rw [run_concat, hm]
    exact hm'

theorem Manager.Keeps.serves (hr : ∀ a, Proper (r a)) (h : m.Keeps r) : m.Serves r := by
  refine ⟨h, ?_⟩
  intro canHandleAccelerators a hhas
  have hflag := h.flag a
  have horder := h.order a
  unfold Manager.hasPriorityHandler at hhas
  unfold Manager.getCurrentTarget
  cases hm : m a with
  | none => simp [hm] at hhas
  | some entry =>
    obtain ⟨first, targets⟩ := entry
    simp only [Manager.targets, hm, Option.getD_some] at hflag horder
    cases targets with
    | nil => simp [hm] at hhas
    | cons front targets =>
      cases first with
      | false => simp [hm] at hhas
      | true =>
        obtain ⟨t, ht⟩ := hflag.mp rfl
        obtain ⟨rest, hrest, -⟩ := exists_inOrder (hr a) ht
        obtain ⟨rfl, -⟩ := cons.inj (horder.trans hrest)
        exact ⟨front, ht, rfl, by simpa [hm] using hhas⟩

/-- The manager serves those who are registered for as long as UnregisterAll is not called for a
target that is the priority handler of some accelerator. -/
theorem serves_iff {calls : List (Call τ)} (h : Legal calls) :
    ServesThroughout calls ↔ SparesHandlers calls := by
  constructor
  · intro hserves past target hpast a hin
    obtain ⟨m, hm, hkeeps⟩ := hserves past ((prefix_append ..).trans hpast)
    obtain ⟨m', hm', hkeeps'⟩ := hserves _ hpast
    have hr := @registry_proper _ _ past fun p c hc =>
      h p c (hc.trans ((prefix_append ..).trans hpast))
    rw [run_concat, hm] at hm'
    cases hm'
    rw [registry_concat] at hkeeps'
    -- the flag is as it was, the handler is gone
    have hflag := (hkeeps.flag a).mpr ⟨target, hin⟩
    have hflag' := hkeeps'.flag a
    rw [targets_unregisterAll] at hflag'
    obtain ⟨t, ht⟩ := hflag'.mp hflag
    obtain ⟨ht, hne⟩ := mem_filter.mp ht
    have heq := ((hr a).filter_high ht).symm.trans ((hr a).filter_high hin)
    simp only [cons.injEq, Prod.mk.injEq, and_true] at heq
    simp [heq] at hne
  · intro hspared past hpast
    have hlegal : Legal past := fun p c hc => h p c (hc.trans hpast)
    obtain ⟨m, hm, hkeeps⟩ :=
      run_keeps hlegal fun p target hp => hspared p target (hp.trans hpast)
    exact ⟨m, hm, hkeeps.serves (registry_proper hlegal)⟩

/-- A target comes and goes, another one comes. -/
theorem serves_iff_unregister :
    Legal [Call.register ⟨65, 1, 4⟩ .kNormalPriority 1, .unregisterAll 1] ∧
      (ServesThroughout [Call.register ⟨65, 1, 4⟩ .kNormalPriority 1, .unregisterAll 1] ↔
        SparesHandlers [Call.register ⟨65, 1, 4⟩ .kNormalPriority 1, .unregisterAll 1]) := by
  have h : Legal ([] ++ [Call.register ⟨65, 1, 4⟩ .kNormalPriority 1] ++ [.unregisterAll 1]) := by
    simp only [legal_concat]
    exact ⟨⟨by simp [Legal], by simp [Registry.Allows, registry]⟩, trivial⟩
  exact ⟨h, serves_iff h⟩

/-- After the priority handler left through UnregisterAll, the next target goes in past the front of
an empty list. -/
theorem unregisterAll_leaves_flag :
    Legal [Call.register ⟨65, 1, 4⟩ .kHighPriority 1, .unregisterAll 1,
      .register ⟨65, 1, 4⟩ .kNormalPriority 2] ∧
    ¬ServesThroughout [Call.register ⟨65, 1, 4⟩ .kHighPriority 1, .unregisterAll 1,
      .register ⟨65, 1, 4⟩ .kNormalPriority 2] := by
  constructor
  · change Legal ([] ++ [Call.register ⟨65, 1, 4⟩ .kHighPriority 1] ++ [.unregisterAll 1] ++
      [.register ⟨65, 1, 4⟩ .kNormalPriority 2])
    simp only [legal_concat]
    exact ⟨⟨⟨by simp [Legal], by simp [Registry.Allows, registry]⟩, trivial⟩,
      by simp [Registry.Allows, registry, Registry.after]⟩
  · intro h
    obtain ⟨m, hm, -⟩ := h _ (prefix_refl _)
    exact nomatch hm

end ChromiumUI.AcceleratorManager
