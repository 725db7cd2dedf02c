import ChromiumUI.IcuUtf
import ChromiumUI.Pickle

/-!
# FieldTrial

How a trial comes by its group: while groups are appended, when it is asked for, or because it is
disabled.
-/
namespace ChromiumUI.Base.FieldTrials

open List Int Prod

def kNotFinalized : Int := -1

def kDefaultGroupNumber : Int := 0

/-- random_ is divisor_ times a random number from 0 to 1, rounded down. -/
structure FieldTrial where
  name : Bytes
  divisor : Int
  defaultGroupName : Bytes
  random : Int
  accumulatedGroupProbability : Int
  nextGroupNumber : Int
  group_ : Int
  groupName_ : Bytes
  enableFieldTrial : Bool
  forced : Bool
  deriving DecidableEq

/-- "%d" -/
def decimal (number : Int) : Bytes := (toString number).toUTF8.toList

namespace FieldTrial

/-- FieldTrial(name, total_probability, default_group_name) -/
def new (name : Bytes) (totalProbability : Int) (defaultGroupName : Bytes) (random : Int) :
    FieldTrial where
  name := name
  divisor := totalProbability
  defaultGroupName := defaultGroupName
  random := random
  accumulatedGroupProbability := 0
  nextGroupNumber := kDefaultGroupNumber + 1
  group_ := kNotFinalized
  groupName_ := []
  enableFieldTrial := true
  forced := false

def setGroupChoice (name : Bytes) (number : Int) (t : FieldTrial) : FieldTrial :=
  { t with
    group_ := number
    groupName_ := if name.isEmpty then t.groupName_ ++ decimal number else name }

def disable (t : FieldTrial) : FieldTrial :=
  let t := { t with enableFieldTrial := false }
  if t.group_ ≠ kNotFinalized then
    -- a forced default group need not have the default number
    if t.groupName_ ≠ t.defaultGroupName then
      t.setGroupChoice t.defaultGroupName kDefaultGroupNumber
    else t
  else t

/-- return next_group_number_++; -/
def nextNumber (t : FieldTrial) : Int × FieldTrial :=
  (t.nextGroupNumber, { t with nextGroupNumber := toInt32 (t.nextGroupNumber + 1) })

/-- AppendGroup, with what EnableBenchmarking has set. -/
def appendGroup (enableBenchmarking : Bool) (name : Bytes) (groupProbability : Int)
    (t : FieldTrial) : Int × FieldTrial :=
  if t.forced then
    if name = t.groupName_ then (t.group_, t) else t.nextNumber
  else
    let groupProbability :=
      if enableBenchmarking || !t.enableFieldTrial then 0 else groupProbability
    let t := { t with
      accumulatedGroupProbability := toInt32 (t.accumulatedGroupProbability + groupProbability) }
    if t.group_ = kNotFinalized ∧ t.accumulatedGroupProbability > t.random then
      -- the group that crossed the random line
      (t.setGroupChoice name t.nextGroupNumber).nextNumber
    else t.nextNumber

def group (t : FieldTrial) : Int × FieldTrial :=
  if t.group_ = kNotFinalized then
    let t := { t with accumulatedGroupProbability := t.divisor }.setGroupChoice
      t.defaultGroupName kDefaultGroupNumber
    (t.group_, t)
  else (t.group_, t)

def groupName (t : FieldTrial) : Bytes × FieldTrial :=
  let t := t.group.2
  (t.groupName_, t)

end FieldTrial

/-- A call on a trial that nobody forces. -/
inductive Call where
  | appendGroup (name : Bytes) (probability : Int)
  | group
  | groupName
  | disable
  deriving DecidableEq

namespace Call

variable (enableBenchmarking : Bool)

def apply (call : Call) (t : FieldTrial) : FieldTrial :=
  match call with
  | .appendGroup name probability => (t.appendGroup enableBenchmarking name probability).2
  | .group => t.group.2
  | .groupName => t.groupName.2
  | .disable => t.disable

def applyAll (calls : List Call) (t : FieldTrial) : FieldTrial :=
  calls.foldl (fun t call => call.apply enableBenchmarking t) t

/-- The numbers that AppendGroup returns. -/
def numbers : List Call → FieldTrial → List Int
  | [], _ => []
  | .appendGroup name probability :: calls, t =>
    let (number, t) := t.appendGroup enableBenchmarking name probability
    number :: numbers calls t
  | call :: calls, t => numbers calls (call.apply enableBenchmarking t)

end Call

/-! ## What a trial is for -/

/-- The groups that were appended. -/
def appended : List Call → List (Bytes × Int)
  | [] => []
  | .appendGroup name probability :: calls => (name, probability) :: appended calls
  | _ :: calls => appended calls

/-- The calls before the group is asked for. -/
def untilAsked (calls : List Call) : List Call :=
  calls.takeWhile fun call => call ≠ .group ∧ call ≠ .groupName

/-- The probability of this group and of those before it. -/
def accumulated (groups : List (Bytes × Int)) (k : Nat) : Int :=
  ((groups.take (k + 1)).map snd).sum

/-- The first group whose accumulated probability exceeds the random value. -/
def winner (random : Int) (groups : List (Bytes × Int)) : Option Nat :=
  (List.range groups.length).find? fun k => accumulated groups k > random

/-- The number and the name of the group that a trial with these groups ends in. -/
def outcome (defaultGroupName : Bytes) (random : Int) (groups : List (Bytes × Int)) : Int × Bytes :=
  match winner random groups with
  | none => (kDefaultGroupNumber, defaultGroupName)
  | some k =>
    let name := (groups.getD k ([], 0)).1
    (k + 1, if name.isEmpty then decimal (k + 1) else name)

variable {groups : List (Bytes × Int)} {start : FieldTrial} {calls : List Call}

namespace FieldTrial

variable {enableBenchmarking : Bool} {t : FieldTrial}

/-! ## A chosen group -/

/-- Only Disable can do away with a group that has been chosen. -/
theorem apply_chosen (h : t.group_ ≠ kNotFinalized) {call : Call} (hcall : call ≠ .disable) :
    (call.apply enableBenchmarking t).group_ = t.group_ ∧
      (call.apply enableBenchmarking t).groupName_ = t.groupName_ := by
  cases call with
  | appendGroup name probability =>
    simp only [Call.apply, appendGroup]
    split
    · split <;> exact ⟨rfl, rfl⟩
    · rw [if_neg fun hn => h hn.1]
      exact ⟨rfl, rfl⟩
  | group => simp [Call.apply, group, h]
  | groupName => simp [Call.apply, groupName, group, h]
  | disable => exact absurd rfl hcall

theorem applyAll_chosen (h : t.group_ ≠ kNotFinalized) {calls : List Call}
    (hcalls : .disable ∉ calls) :
    (Call.applyAll enableBenchmarking calls t).group_ = t.group_ ∧
      (Call.applyAll enableBenchmarking calls t).groupName_ = t.groupName_ := by
  induction calls generalizing t with
  | nil => exact ⟨rfl, rfl⟩
  | cons call calls ih =>
    rw [mem_cons, not_or] at hcalls
    obtain ⟨hgroup, hname⟩ := @apply_chosen enableBenchmarking t h call (Ne.symm hcalls.1)
    have hrest := @ih (call.apply enableBenchmarking t) (by rwa [hgroup]) hcalls.2
    rw [hgroup, hname] at hrest
    exact hrest

theorem group_chosen (t : FieldTrial) : t.group.2.group_ ≠ kNotFinalized := by
  rw [group]
  split
  · exact show kDefaultGroupNumber ≠ kNotFinalized by decide
  · assumption

/-! ## Disabled trials -/

/-- Until a group is chosen the random line has not been crossed. -/
structure Sound (t : FieldTrial) : Prop where
  forced : t.forced = false
  default_ne : t.defaultGroupName ≠ []
  random_lt : t.random < 2 ^ 31
  not_crossed : t.group_ = kNotFinalized →
    0 ≤ t.accumulatedGroupProbability ∧ t.accumulatedGroupProbability ≤ t.random

/-- A group that has been chosen is the default one. -/
structure Reverted (t : FieldTrial) : Prop extends Sound t where
  default_chosen : t.group_ ≠ kNotFinalized → t.groupName_ = t.defaultGroupName

theorem Sound.group (h : t.Sound) : t.group.2.Sound := by
  rw [FieldTrial.group]
  split
  · exact ⟨h.forced, h.default_ne, h.random_lt, fun hn => absurd hn (by
      show kDefaultGroupNumber ≠ kNotFinalized
      decide)⟩
  · exact h

theorem Reverted.group (h : t.Reverted) : t.group.2.Reverted := by
  refine ⟨h.toSound.group, ?_⟩
  rw [FieldTrial.group]
  split
  · intro
    simp [setGroupChoice, h.default_ne]
  · exact h.default_chosen

/-- Disable switches to the default group, or keeps to it. -/
theorem Sound.disable (h : t.Sound) : t.disable.Reverted := by
  by_cases hopen : t.group_ = kNotFinalized
  · have hdisable : t.disable = { t with enableFieldTrial := false } := by
      simp [FieldTrial.disable, hopen]
    rw [hdisable]
    exact ⟨⟨h.forced, h.default_ne, h.random_lt, h.not_crossed⟩, fun hn => absurd hopen hn⟩
  · by_cases hname : t.groupName_ = t.defaultGroupName
    · have hdisable : t.disable = { t with enableFieldTrial := false } := by
        simp [FieldTrial.disable, hname]
      rw [hdisable]
      exact ⟨⟨h.forced, h.default_ne, h.random_lt, h.not_crossed⟩, fun _ => hname⟩
    · have hdisable : t.disable = { t with enableFieldTrial := false }.setGroupChoice
          t.defaultGroupName kDefaultGroupNumber := by
        simp [FieldTrial.disable, hopen, hname]
      rw [hdisable]
      refine ⟨⟨h.forced, h.default_ne, h.random_lt, fun hn => absurd hn ?_⟩, fun _ => ?_⟩
      · show kDefaultGroupNumber ≠ kNotFinalized
        decide
      · simp [setGroupChoice, h.default_ne]

theorem Reverted.apply (h : t.Reverted) (hoff : (enableBenchmarking || !t.enableFieldTrial) = true)
    (call : Call) : (call.apply enableBenchmarking t).Reverted := by
  cases call with
  | appendGroup name probability =>
    have hline : ¬(t.group_ = kNotFinalized ∧
        toInt32 (t.accumulatedGroupProbability + 0) > t.random) := by
      rintro ⟨hopen, hcrossed⟩
      obtain ⟨hlow, hhigh⟩ := h.not_crossed hopen
      have hrandom := h.random_lt
      rw [Int.add_zero, toInt32, Int.bmod_eq_of_le (by omega) (by omega)] at hcrossed
      omega
    have happly : Call.apply enableBenchmarking (.appendGroup name probability) t =
        { t with
          accumulatedGroupProbability := toInt32 (t.accumulatedGroupProbability + 0)
          nextGroupNumber := toInt32 (t.nextGroupNumber + 1) } := by
      simp only [Call.apply, appendGroup, h.forced, hoff, if_true, hline, if_false, nextNumber,
        Bool.false_eq_true]
    rw [happly]
    refine ⟨⟨h.forced, h.default_ne, h.random_lt, fun hopen => ?_⟩, h.default_chosen⟩
    obtain ⟨hlow, hhigh⟩ := h.not_crossed hopen
    have hrandom := h.random_lt
    rw [Int.add_zero, toInt32, Int.bmod_eq_of_le (by omega) (by omega)]
    exact ⟨hlow, hhigh⟩
  | group => exact h.group
  | groupName => exact h.group
  | disable => exact h.disable

/-- What no call changes. -/
structure Keeps (t t' : FieldTrial) : Prop where
  divisor : t'.divisor = t.divisor
  defaultGroupName : t'.defaultGroupName = t.defaultGroupName
  random : t'.random = t.random
  forced : t'.forced = t.forced
  disabled : t.enableFieldTrial = false → t'.enableFieldTrial = false

theorem apply_keeps (enableBenchmarking : Bool) (call : Call) (t : FieldTrial) :
    t.Keeps (call.apply enableBenchmarking t) := by
  cases call <;>
    simp only [Call.apply, appendGroup, FieldTrial.group, groupName, FieldTrial.disable, nextNumber,
      setGroupChoice] <;>
    split_ifs <;> exact ⟨rfl, rfl, rfl, rfl, by simp⟩

theorem appendGroup_name (enableBenchmarking : Bool) (name : Bytes) (probability : Int)
    (t : FieldTrial) : (t.appendGroup enableBenchmarking name probability).2.name = t.name := by
  simp only [appendGroup, nextNumber, setGroupChoice]
  split_ifs <;> rfl

theorem Reverted.applyAll (h : t.Reverted)
    (hoff : (enableBenchmarking || !t.enableFieldTrial) = true) (calls : List Call) :
    (Call.applyAll enableBenchmarking calls t).Reverted := by
  induction calls generalizing t with
  | nil => exact h
  | cons call calls ih =>
    refine ih (h.apply hoff call) ?_
    have hkeeps := apply_keeps enableBenchmarking call t
    cases enableBenchmarking with
    | true => rfl
    | false => simpa using hkeeps.disabled (by simpa using hoff)

theorem Reverted.groupName_eq (h : t.Reverted) : t.group.2.groupName_ = t.defaultGroupName := by
  have hname := h.group.default_chosen (group_chosen t)
  rw [hname]
  exact (apply_keeps false .group t).defaultGroupName

/-! ## Groups that are appended -/

theorem accumulated_append (g : Bytes × Int) {k : Nat} (hk : k < groups.length) :
    accumulated (groups ++ [g]) k = accumulated groups k := by
  rw [accumulated, accumulated, take_append_of_le_length hk]

theorem accumulated_last (groups : List (Bytes × Int)) (g : Bytes × Int) :
    accumulated (groups ++ [g]) groups.length = (groups.map snd).sum + g.2 := by
  rw [accumulated, take_of_length_le (by simp)]
  simp

theorem winner_append (random : Int) (groups : List (Bytes × Int)) (g : Bytes × Int) :
    winner random (groups ++ [g]) = (winner random groups).or
      (if (groups.map snd).sum + g.2 > random then some groups.length else none) := by
  rw [winner, length_append, length_singleton, range_succ, List.find?_append,
    List.find?_singleton, accumulated_last, winner]
  have hfind : (List.range groups.length).find? (fun k => accumulated (groups ++ [g]) k > random) =
      (List.range groups.length).find? (fun k => accumulated groups k > random) := by
    exact List.find?_congr fun k hk => by rw [accumulated_append g (mem_range.mp hk)]
  rw [hfind]
  simp

theorem winner_lt {random : Int} {k : Nat} (h : winner random groups = some k) :
    k < groups.length :=
  mem_range.mp (mem_of_find?_eq_some h)

theorem outcome_chosen (defaultGroupName : Bytes) (random : Int) (groups : List (Bytes × Int)) :
    (outcome defaultGroupName random groups).1 ≠ kNotFinalized := by
  rw [outcome]
  cases winner random groups with
  | none => exact show kDefaultGroupNumber ≠ kNotFinalized by decide
  | some k =>
    simp only [kNotFinalized]
    omega

/-- A trial to which these groups were appended, and which nobody has asked. -/
structure Appended (start : FieldTrial) (groups : List (Bytes × Int)) (t : FieldTrial) : Prop where
  keeps : start.Keeps t
  enabled : t.enableFieldTrial = true
  nextGroupNumber : t.nextGroupNumber = groups.length + 1
  accumulated : t.accumulatedGroupProbability = (groups.map snd).sum
  undecided : winner start.random groups = none →
    t.group_ = kNotFinalized ∧ t.groupName_ = [] ∧ (groups.map snd).sum ≤ start.random
  decided : winner start.random groups ≠ none →
    (t.group_, t.groupName_) = outcome start.defaultGroupName start.random groups

/-- What the callers promise of a trial and of the groups that are appended to it. -/
structure Promised (t : FieldTrial) (groups : List (Bytes × Int)) : Prop where
  divisor_lt : t.divisor < 2 ^ 31
  default_ne : t.defaultGroupName ≠ []
  random : 0 ≤ t.random ∧ t.random < t.divisor
  nonneg : ∀ g ∈ groups, 0 ≤ g.2
  sum_le : (groups.map snd).sum ≤ t.divisor
  -- the numbers of the groups are ints
  count : groups.length < 2 ^ 31 - 1

theorem sum_nonneg (h : ∀ g ∈ groups, 0 ≤ g.2) : 0 ≤ (groups.map snd).sum := by
  induction groups with
  | nil => simp
  | cons g groups ih =>
    have hg := h g mem_cons_self
    have hrest := ih fun g' hg' => h g' (mem_cons_of_mem _ hg')
    rw [map_cons, sum_cons]
    omega

theorem Promised.front {groups groups' : List (Bytes × Int)}
    (h : t.Promised (groups ++ groups')) : t.Promised groups := by
  have hrest := sum_nonneg fun g hg => h.nonneg g (mem_append_right _ hg)
  have hsum := h.sum_le
  have hcount := h.count
  rw [map_append, sum_append] at hsum
  rw [length_append] at hcount
  exact ⟨h.divisor_lt, h.default_ne, h.random, fun g hg => h.nonneg g (mem_append_left _ hg),
    by omega, by omega⟩

theorem Appended.sound (h : Appended start groups t) (hprom : start.Promised groups)
    (hforced : start.forced = false) : t.Sound := by
  refine ⟨h.keeps.forced.trans hforced, ?_, ?_, fun hopen => ?_⟩
  · rw [h.keeps.defaultGroupName]
    exact hprom.default_ne
  · have hrandom := hprom.random.2
    have hdivisor := hprom.divisor_lt
    rw [h.keeps.random]
    omega
  · rw [h.accumulated, h.keeps.random]
    refine ⟨sum_nonneg hprom.nonneg, ?_⟩
    by_cases hw : winner start.random groups = none
    · exact (h.undecided hw).2.2
    · have hchosen := outcome_chosen start.defaultGroupName start.random groups
      rw [← h.decided hw] at hchosen
      exact absurd hopen hchosen

/-- A group that crosses the random line is chosen. -/
theorem Appended.appendGroup_crosses (h : Appended start groups t) {g : Bytes × Int}
    (hforced : t.forced = false)
    (hacc : toInt32 (t.accumulatedGroupProbability + g.2) = (groups.map snd).sum + g.2)
    (hnext : toInt32 (t.nextGroupNumber + 1) = (groups ++ [g]).length + 1)
    (hnone : winner start.random groups = none) (hopen : t.group_ = kNotFinalized)
    (hline : (groups.map snd).sum + g.2 > start.random) :
    t.appendGroup false g.1 g.2 = (t.nextGroupNumber, { t with
      accumulatedGroupProbability := (groups.map snd).sum + g.2
      nextGroupNumber := (groups ++ [g]).length + 1
      group_ := groups.length + 1
      groupName_ := if g.1.isEmpty then decimal (groups.length + 1) else g.1 }) := by
  simp only [FieldTrial.appendGroup, hforced, h.enabled, Bool.not_true, Bool.or_false, hacc,
    h.keeps.random, Bool.false_eq_true, if_false, hopen, hline, and_self, if_true, nextNumber,
    setGroupChoice, (h.undecided hnone).2.1, nil_append, ← hnext, h.nextGroupNumber]

/-- Every other group is passed by. -/
theorem Appended.appendGroup_passes (h : Appended start groups t) {g : Bytes × Int}
    (hforced : t.forced = false)
    (hacc : toInt32 (t.accumulatedGroupProbability + g.2) = (groups.map snd).sum + g.2)
    (hnext : toInt32 (t.nextGroupNumber + 1) = (groups ++ [g]).length + 1)
    (hcross : ¬(t.group_ = kNotFinalized ∧ (groups.map snd).sum + g.2 > start.random)) :
    t.appendGroup false g.1 g.2 = (t.nextGroupNumber, { t with
      accumulatedGroupProbability := (groups.map snd).sum + g.2
      nextGroupNumber := (groups ++ [g]).length + 1 }) := by
  rw [← h.keeps.random] at hcross
  simp only [FieldTrial.appendGroup, hforced, h.enabled, Bool.not_true, Bool.or_false, hacc,
    Bool.false_eq_true, if_false, hcross, nextNumber, hnext]

theorem Appended.appendGroup {start : FieldTrial} {groups : List (Bytes × Int)}
    (h : Appended start groups t) {g : Bytes × Int} (hprom : start.Promised (groups ++ [g]))
    (hforced : start.forced = false) :
    (t.appendGroup false g.1 g.2).1 = groups.length + 1 ∧
      Appended start (groups ++ [g]) (t.appendGroup false g.1 g.2).2 := by
  have hcount := hprom.count
  rw [length_append, length_singleton] at hcount
  have hsum : (groups.map snd).sum + g.2 ≤ start.divisor := by
    have hle := hprom.sum_le
    simpa using hle
  have hlow := sum_nonneg hprom.front.nonneg
  have hg := hprom.nonneg g (by simp)
  have hdivisor := hprom.divisor_lt
  have hacc : toInt32 (t.accumulatedGroupProbability + g.2) = (groups.map snd).sum + g.2 := by
    rw [h.accumulated, toInt32, bmod_eq_of_le] <;> omega
  have hnext : toInt32 (t.nextGroupNumber + 1) = (groups ++ [g]).length + 1 := by
    rw [h.nextGroupNumber, toInt32, bmod_eq_of_le, length_append, length_singleton]
    · push_cast
      rfl
    · omega
    · omega
  have hforced' : t.forced = false := h.keeps.forced.trans hforced
  have hwinner := winner_append start.random groups g
  by_cases hcross : t.group_ = kNotFinalized ∧ (groups.map snd).sum + g.2 > start.random
  · -- this group crosses the random line
    obtain ⟨hopen, hline⟩ := hcross
    have hnone : winner start.random groups = none := by
      by_contra hw
      have hchosen := outcome_chosen start.defaultGroupName start.random groups
      rw [← h.decided hw] at hchosen
      exact hchosen hopen
    have hwon : winner start.random (groups ++ [g]) = some groups.length := by
      rw [hwinner, hnone, if_pos hline]
      rfl
    have hstep := h.appendGroup_crosses hforced' hacc hnext hnone hopen hline
    rw [hstep]
    refine ⟨h.nextGroupNumber, ⟨⟨h.keeps.divisor, h.keeps.defaultGroupName, h.keeps.random,
      h.keeps.forced, h.keeps.disabled⟩, h.enabled, rfl, by simp, fun hw => ?_, fun _ => ?_⟩⟩
    · rw [hwon] at hw
      cases hw
    · rw [outcome, hwon]
      simp
  · have hstep := h.appendGroup_passes hforced' hacc hnext hcross
    rw [hstep]
    refine ⟨h.nextGroupNumber, ⟨⟨h.keeps.divisor, h.keeps.defaultGroupName, h.keeps.random,
      h.keeps.forced, h.keeps.disabled⟩, h.enabled, rfl, by simp, fun hw => ?_, fun hw => ?_⟩⟩
    · rw [hwinner, Option.or_eq_none_iff] at hw
      obtain ⟨hopen, hname, -⟩ := h.undecided hw.1
      have hline : ¬(groups.map snd).sum + g.2 > start.random := fun hn => hcross ⟨hopen, hn⟩
      refine ⟨hopen, hname, ?_⟩
      simp only [map_append, map_cons, map_nil, sum_append, sum_cons,
        sum_nil]
      omega
    · cases hold : winner start.random groups with
      | none =>
        obtain ⟨hopen, -, -⟩ := h.undecided hold
        rw [hwinner, hold, if_neg fun hn => hcross ⟨hopen, hn⟩] at hw
        exact absurd rfl hw
      | some k =>
        have hdecided := h.decided (by rw [hold]; simp)
        have hk := winner_lt hold
        rw [hdecided, outcome, outcome, hwinner, hold]
        simp only [Option.some_or, getD_append _ _ _ _ hk]

theorem new_appended (name : Bytes) (totalProbability : Int) (defaultGroupName : Bytes)
    {random : Int} (hrandom : 0 ≤ random) :
    Appended (new name totalProbability defaultGroupName random) []
      (new name totalProbability defaultGroupName random) :=
  ⟨⟨rfl, rfl, rfl, rfl, id⟩, rfl, rfl, rfl, fun _ => ⟨rfl, rfl, hrandom⟩, fun hw => absurd rfl hw⟩

/-! ## Whole runs -/

theorem Appended.group (h : Appended start groups t) (hdefault : start.defaultGroupName ≠ []) :
    (t.group.2.group_, t.group.2.groupName_) =
      outcome start.defaultGroupName start.random groups := by
  by_cases hw : winner start.random groups = none
  · obtain ⟨hopen, hname, -⟩ := h.undecided hw
    rw [outcome, hw]
    simp [FieldTrial.group, hopen, setGroupChoice, h.keeps.defaultGroupName, hdefault]
  · have hchosen := outcome_chosen start.defaultGroupName start.random groups
    rw [← h.decided hw] at hchosen ⊢
    simp [FieldTrial.group, hchosen]

theorem Keeps.trans {t₁ t₂ t₃ : FieldTrial} (h : t₁.Keeps t₂) (h' : t₂.Keeps t₃) : t₁.Keeps t₃ :=
  ⟨h'.divisor.trans h.divisor, h'.defaultGroupName.trans h.defaultGroupName,
    h'.random.trans h.random, h'.forced.trans h.forced, fun hoff => h'.disabled (h.disabled hoff)⟩

theorem applyAll_keeps (enableBenchmarking : Bool) (calls : List Call) (t : FieldTrial) :
    t.Keeps (Call.applyAll enableBenchmarking calls t) := by
  induction calls generalizing t with
  | nil => exact ⟨rfl, rfl, rfl, rfl, id⟩
  | cons call calls ih => exact (apply_keeps enableBenchmarking call t).trans (ih _)

theorem appended_append (calls calls' : List Call) :
    appended (calls ++ calls') = appended calls ++ appended calls' := by
  induction calls with
  | nil => rfl
  | cons call calls ih => cases call <;> simp [appended, ih]

/-- Up to the first question the calls append groups. -/
theorem Appended.applyAll (h : Appended start groups t)
    (hcalls : ∀ call ∈ calls, call ≠ .group ∧ call ≠ .groupName ∧ call ≠ .disable)
    (hprom : start.Promised (groups ++ appended calls)) (hforced : start.forced = false) :
    Appended start (groups ++ appended calls) (Call.applyAll false calls t) := by
  induction calls generalizing groups t with
  | nil => simpa [appended, Call.applyAll] using h
  | cons call calls ih =>
    obtain ⟨hgroup, hname, hdisable⟩ := hcalls call mem_cons_self
    cases call with
    | appendGroup name probability =>
      rw [appended, append_cons] at hprom ⊢
      have hstep := (@Appended.appendGroup _ _ _ h (name, probability) hprom.front hforced).2
      exact ih hstep (fun c hc => hcalls c (mem_cons_of_mem _ hc)) hprom
    | group => exact absurd rfl hgroup
    | groupName => exact absurd rfl hname
    | disable => exact absurd rfl hdisable

/-- Before the first question groups are appended, with the field trials enabled. -/
theorem untilAsked_appends (hcalls : .disable ∉ calls) :
    ∀ call ∈ untilAsked calls, call ≠ .group ∧ call ≠ .groupName ∧ call ≠ .disable := by
  intro call hcall
  have hne := mem_takeWhile_imp hcall
  simp only [ne_eq, decide_eq_true_eq] at hne
  refine ⟨hne.1, hne.2, ?_⟩
  rintro rfl
  exact hcalls ((List.takeWhile_prefix _).subset hcall)

/-- What comes next is a question. -/
theorem asked_of_dropWhile {rest : List Call} {query : Call}
    (hrest : calls.dropWhile (fun call => call ≠ .group ∧ call ≠ .groupName) = query :: rest) :
    query = .group ∨ query = .groupName := by
  have hhead := head?_dropWhile_not
    (fun call : Call => decide (call ≠ .group ∧ call ≠ .groupName)) calls
  rw [hrest] at hhead
  simp only [head?_cons] at hhead
  by_contra hne
  rw [not_or] at hne
  simp [hne.1, hne.2] at hhead

/-- Runs that nobody disables. -/
theorem applyAll_outcome (hstart : Appended start [] start) (hforced : start.forced = false)
    (hcalls : .disable ∉ calls) (hprom : start.Promised (appended calls)) :
    (Call.applyAll false calls start).Sound ∧
      let t := (Call.applyAll false calls start).group.2
      (t.group_, t.groupName_) =
        outcome start.defaultGroupName start.random (appended (untilAsked calls)) := by
  have hsplit : untilAsked calls ++ calls.dropWhile
      (fun call => call ≠ .group ∧ call ≠ .groupName) = calls := takeWhile_append_dropWhile
  generalize hrest : calls.dropWhile (fun call => call ≠ .group ∧ call ≠ .groupName) = rest
    at hsplit
  have happends := untilAsked_appends hcalls
  have hfront : start.Promised (appended (untilAsked calls)) := by
    rw [← hsplit, appended_append] at hprom
    exact hprom.front
  have hopen := hstart.applyAll happends hfront hforced
  rw [nil_append] at hopen
  have hgroup := hopen.group hprom.default_ne
  have hall : Call.applyAll false calls start =
      Call.applyAll false rest (Call.applyAll false (untilAsked calls) start) := by
    rw [Call.applyAll, Call.applyAll, Call.applyAll, ← foldl_append, hsplit]
  rw [hall]
  cases rest with
  | nil => exact ⟨hopen.sound hfront hforced, hgroup⟩
  | cons query rest =>
    -- asked once, it keeps to its group
    have hquery := asked_of_dropWhile hrest
    have hasked : query.apply false (Call.applyAll false (untilAsked calls) start) =
        (Call.applyAll false (untilAsked calls) start).group.2 := by
      rcases hquery with rfl | rfl <;> rfl
    have hcons : ∀ t, Call.applyAll false (query :: rest) t =
        Call.applyAll false rest (query.apply false t) := fun t => rfl
    rw [hcons, hasked]
    generalize (Call.applyAll false (untilAsked calls) start).group.2 = asked at hgroup hasked
    have hchosen : asked.group_ ≠ kNotFinalized := by
      have hne := outcome_chosen start.defaultGroupName start.random (appended (untilAsked calls))
      rwa [← hgroup] at hne
    have hdisable : .disable ∉ rest := fun hmem =>
      hcalls (hsplit ▸ mem_append_right _ (mem_cons_of_mem _ hmem))
    obtain ⟨hsame, hsameName⟩ := @applyAll_chosen false asked hchosen rest hdisable
    have hkeeps := applyAll_keeps false calls start
    rw [hall, hcons, hasked] at hkeeps
    have hdivisor := hprom.divisor_lt
    have hrandom := hprom.random.2
    refine ⟨⟨hkeeps.forced.trans hforced, ?_, ?_, fun hn => absurd (hsame ▸ hn) hchosen⟩, ?_⟩
    · rw [hkeeps.defaultGroupName]
      exact hprom.default_ne
    · rw [hkeeps.random]
      omega
    · have hstays : (Call.applyAll false rest asked).group.2 = Call.applyAll false rest asked := by
        rw [FieldTrial.group, if_neg (by rwa [hsame])]
      dsimp only
      rw [hstays, hsame, hsameName]
      exact hgroup

theorem applyAll_reverted (hstart : Appended start [] start) (hforced : start.forced = false)
    (hprom : start.Promised (appended calls))
    (hoff : enableBenchmarking = true ∨ .disable ∈ calls) :
    (Call.applyAll enableBenchmarking calls start).Reverted := by
  have hsound : start.Sound := hstart.sound (@Promised.front _ [] _ hprom) hforced
  have hopen : start.group_ = kNotFinalized := (hstart.undecided rfl).1
  cases enableBenchmarking with
  | true =>
    have hreverted : start.Reverted := ⟨hsound, fun hn => absurd hopen hn⟩
    exact hreverted.applyAll rfl calls
  | false =>
    obtain ⟨before, later, rfl, hpre⟩ := eq_append_cons_of_mem
      (hoff.resolve_left (by simp))
    rw [appended_append] at hprom
    have hrun := (applyAll_outcome hstart hforced hpre hprom.front).1
    have hall : Call.applyAll false (before ++ .disable :: later) start =
        Call.applyAll false later (Call.applyAll false before start).disable := by
      rw [Call.applyAll, foldl_append]
      rfl
    rw [hall]
    refine hrun.disable.applyAll ?_ later
    have hdisabled : (Call.applyAll false before start).disable.enableFieldTrial = false := by
      simp only [FieldTrial.disable, setGroupChoice]
      split_ifs <;> rfl
    simp [hdisabled]

theorem appendGroup_number (enableBenchmarking : Bool) (name : Bytes) (probability : Int)
    (hforced : t.forced = false) :
    (t.appendGroup enableBenchmarking name probability).1 = t.nextGroupNumber ∧
      (t.appendGroup enableBenchmarking name probability).2.nextGroupNumber =
        toInt32 (t.nextGroupNumber + 1) := by
  simp only [FieldTrial.appendGroup, hforced, nextNumber, setGroupChoice, Bool.false_eq_true,
    if_false]
  split_ifs <;> exact ⟨rfl, rfl⟩

/-- Each call that appends a group returns the next number. -/
theorem numbers_eq (hforced : t.forced = false) (calls : List Call) {n : Nat}
    (hnext : t.nextGroupNumber = n) (hcount : n + (appended calls).length < 2 ^ 31) :
    Call.numbers enableBenchmarking calls t =
      (range' n (appended calls).length).map ofNat := by
  induction calls generalizing t n with
  | nil => rfl
  | cons call calls ih =>
    have hforced' : (call.apply enableBenchmarking t).forced = false :=
      (apply_keeps enableBenchmarking call t).forced.trans hforced
    cases call with
    | appendGroup name probability =>
      obtain ⟨hnum, hnum'⟩ := appendGroup_number enableBenchmarking name probability hforced
      rw [appended, length_cons] at hcount
      have hwrap : toInt32 (t.nextGroupNumber + 1) = (n + 1 : Nat) := by
        rw [hnext, toInt32, bmod_eq_of_le] <;> omega
      rw [Call.numbers, appended, length_cons, range'_succ, map_cons]
      dsimp only
      rw [hnum, hnext]
      exact congrArg _ (ih hforced' (hnum'.trans hwrap) (by omega))
    | group =>
      refine ih hforced' ?_ hcount
      rw [← hnext]
      simp only [Call.apply, FieldTrial.group, setGroupChoice]
      split <;> rfl
    | groupName =>
      refine ih hforced' ?_ hcount
      rw [← hnext]
      simp only [Call.apply, groupName, FieldTrial.group, setGroupChoice]
      split <;> rfl
    | disable =>
      refine ih hforced' ?_ hcount
      rw [← hnext]
      simp only [Call.apply, FieldTrial.disable, setGroupChoice]
      split_ifs <;> rfl

end FieldTrial

theorem group_choice {name defaultGroupName : Bytes} {totalProbability random : Int}
    {calls : List Call} (enableBenchmarking : Bool)
    (hpromised : (FieldTrial.new name totalProbability defaultGroupName random).Promised
      (appended calls)) :
    let start := FieldTrial.new name totalProbability defaultGroupName random
    let t := Call.applyAll enableBenchmarking calls start
    (enableBenchmarking = false → .disable ∉ calls →
        (t.group.1, t.groupName.1) =
          outcome defaultGroupName random (appended (untilAsked calls))) ∧
      (enableBenchmarking = true ∨ .disable ∈ calls → t.groupName.1 = defaultGroupName) ∧
      (∀ later, .disable ∉ later → t.group_ ≠ kNotFinalized →
        (Call.applyAll enableBenchmarking later t).group_ = t.group_ ∧
          (Call.applyAll enableBenchmarking later t).groupName_ = t.groupName_) ∧
      (∀ query ∈ [Call.group, .groupName], ∀ later, .disable ∉ later →
        let asked := query.apply enableBenchmarking t
        asked.group_ ≠ kNotFinalized ∧
          (Call.applyAll enableBenchmarking later asked).group_ = asked.group_ ∧
          (Call.applyAll enableBenchmarking later asked).groupName_ = asked.groupName_) ∧
      (Call.numbers enableBenchmarking calls start).Nodup ∧
      kDefaultGroupNumber ∉ Call.numbers enableBenchmarking calls start := by
  intro start t
  have hstart : FieldTrial.Appended start [] start :=
    FieldTrial.new_appended name totalProbability defaultGroupName hpromised.random.1
  have hnumbers := @FieldTrial.numbers_eq enableBenchmarking start rfl calls 1 rfl (by
    have hcount := hpromised.count
    omega)
  refine ⟨fun henabled hcalls => ?_, fun hoff => ?_, fun later hlater hchosen => ?_,
    fun query hquery later hlater => ?_, ?_, ?_⟩
  · subst henabled
    have houtcome := (FieldTrial.applyAll_outcome hstart rfl hcalls hpromised).2
    have hnumber : t.group.1 = t.group.2.group_ := by
      rw [FieldTrial.group]
      split <;> rfl
    rw [hnumber]
    exact houtcome
  · have hreverted := FieldTrial.applyAll_reverted hstart rfl hpromised hoff
    have hkeeps := FieldTrial.applyAll_keeps enableBenchmarking calls start
    exact hreverted.groupName_eq.trans hkeeps.defaultGroupName
  · exact FieldTrial.applyAll_chosen hchosen hlater
  · have hasked : query.apply enableBenchmarking t = t.group.2 := by
      rcases mem_cons.mp hquery with rfl | hquery
      · rfl
      · obtain rfl := mem_singleton.mp hquery
        rfl
    rw [hasked]
    exact ⟨t.group_chosen, FieldTrial.applyAll_chosen t.group_chosen hlater⟩
  · rw [hnumbers]
    exact (nodup_range' _).map fun a b => ofNat.inj
  · rw [hnumbers]
    intro hmem
    obtain ⟨k, hk, hzero⟩ := mem_map.mp hmem
    have hk' := (mem_range'_1.mp hk).1
    have hzero' : (k : Int) = 0 := hzero
    omega

/-- Two groups of 40 of 100 each, and 50 drawn. -/
theorem group_choice_second :
    (Call.applyAll false [.appendGroup [65] 40, .appendGroup [66] 40]
      (FieldTrial.new [84] 100 [68] 50)).group.1 = 2 := by
  have h := (@group_choice [84] [68] 100 50 [.appendGroup [65] 40, .appendGroup [66] 40] false
    ⟨by decide, by decide, by decide, by decide, by decide, by decide⟩).1 rfl (by decide)
  exact (congrArg fst h).trans (by decide)

/-- A trial that is asked, and the same trial disabled after that. -/
theorem asked_then_disabled :
    (Call.applyAll false [.appendGroup [65] 100, .group]
        (FieldTrial.new [84] 100 [68] 0)).group.1 = 1 ∧
      (Call.applyAll false [.appendGroup [65] 100, .group, .disable]
        (FieldTrial.new [84] 100 [68] 0)).group.1 = 0 := by
  decide

end ChromiumUI.Base.FieldTrials
