import ChromiumUI.FieldTrial
import ChromiumUI.SortedMaps
import ChromiumUI.Tokenizers

/-!
# FieldTrialList

The registered trials of a process as a string, and the trials that another process creates from
it.
-/
namespace ChromiumUI.Base.FieldTrials

open SortedMaps Fuel List FieldTrial SortedMap
open Tokenizers (findFirst findFirst_some substr)

/-- Strings are compared by their bytes, as unsigned numbers. -/
instance byteOrder : LinearOrder UInt8 := LinearOrder.lift' UInt8.toNat fun _ _ => UInt8.toNat_inj.mp

/-- Currently a slash. -/
def kPersistentStringSeparator : UInt8 := 0x2f

/-- A process that has a FieldTrialList; `random` is what the constructor of a trial of this name
draws of its total probability. -/
structure Process where
  registered : SortedMap Bytes FieldTrial
  enableBenchmarking : Bool
  random : Bytes → Int

namespace Process

def statesToString (p : Process) : Bytes :=
  p.registered.entries.foldl (fun output trial =>
    -- a trial that is not initialized is left out
    if trial.2.groupName_.isEmpty then output
    else output ++ trial.1 ++ [kPersistentStringSeparator] ++ trial.2.groupName_ ++
      [kPersistentStringSeparator]) []

def kTotalProbability : Int := 100

/-- The trial that CreateFieldTrial registers. -/
def created (p : Process) (name groupName : Bytes) : FieldTrial :=
  let trial := new name kTotalProbability groupName (p.random name)
  { (trial.appendGroup p.enableBenchmarking groupName kTotalProbability).2 with forced := true }

/-- CreateFieldTrial, and the process after it; `none` for a NULL. -/
def createFieldTrial (name groupName : Bytes) (p : Process) : Option FieldTrial × Process :=
  if name.isEmpty || groupName.isEmpty then (none, p)
  else match p.registered.find name with
    | some trial => if trial.groupName_ ≠ groupName then (none, p) else (some trial, p)
    | none =>
      let trial := p.created name groupName
      (some trial, { p with registered := p.registered.put trial.name trial })

/-- The loop of CreateTrialsFromString. -/
def createLoop (trialsString : Bytes) : Nat → Nat → Process → Option (Bool × Process)
  | 0, _, _ => none
  | fuel + 1, nextItem, p =>
    let find := findFirst (fun c => c = kPersistentStringSeparator) trialsString
    if nextItem < trialsString.length then
      match find nextItem with
      | none => some (false, p)
      | some nameEnd =>
        if nextItem = nameEnd then some (false, p)
        else match find (nameEnd + 1) with
          | none => some (false, p)
          | some groupNameEnd =>
            if nameEnd + 1 = groupNameEnd then some (false, p)
            else
              let name := substr trialsString nextItem (nameEnd - nextItem)
              let groupName := substr trialsString (nameEnd + 1) (groupNameEnd - nameEnd - 1)
              match p.createFieldTrial name groupName with
              | (none, p) => some (false, p)
              | (some _, p) => createLoop trialsString fuel (groupNameEnd + 1) p
    else some (true, p)

def createTrialsFromString (p : Process) (trialsString : Bytes) (fuel : Nat) :
    Option (Bool × Process) :=
  if trialsString.isEmpty then some (true, p) else createLoop trialsString fuel 0 p

/-- The names of the trials with their groups. -/
def groups (p : Process) : List (Bytes × Bytes) :=
  p.registered.entries.map fun trial => (trial.1, trial.2.groupName_)

end Process

/-- A name as the string has to have it. -/
def Plain (name : Bytes) : Prop := name ≠ [] ∧ kPersistentStringSeparator ∉ name

/-- The trials of a string. -/
def encode (groups : List (Bytes × Bytes)) : Bytes :=
  groups.flatMap fun g => g.1 ++ kPersistentStringSeparator :: (g.2 ++ [kPersistentStringSeparator])

namespace Process

variable {p : Process}

theorem statesToString_eq (h : ∀ g ∈ p.groups, g.2 ≠ []) : p.statesToString = encode p.groups := by
  rw [groups] at h ⊢
  rw [statesToString]
  have hfold : ∀ (trials : List (Bytes × FieldTrial)) (output : Bytes),
      (∀ g ∈ trials.map fun trial => (trial.1, trial.2.groupName_), g.2 ≠ []) →
        trials.foldl (fun output trial =>
          if trial.2.groupName_.isEmpty then output
          else output ++ trial.1 ++ [kPersistentStringSeparator] ++ trial.2.groupName_ ++
            [kPersistentStringSeparator]) output =
          output ++ encode (trials.map fun trial => (trial.1, trial.2.groupName_)) := by
    intro trials
    induction trials with
    | nil => simp [encode]
    | cons trial trials ih =>
      intro output hne
      have hfirst : trial.2.groupName_ ≠ [] := hne (trial.1, trial.2.groupName_) (by simp)
      rw [foldl_cons, ih _ fun g hg => hne g (mem_cons_of_mem _ hg)]
      simp [encode, hfirst]
  rw [hfold _ _ h, nil_append]

/-- The pieces found at the front of the rest of the string. -/
theorem findFirst_separator {str front after : Bytes} {pos : Nat}
    (hdrop : str.drop pos = front ++ kPersistentStringSeparator :: after)
    (hfront : kPersistentStringSeparator ∉ front) :
    findFirst (fun c => c = kPersistentStringSeparator) str pos = some (pos + front.length) := by
  have hnone : front.findIdx? (fun c => decide (c = kPersistentStringSeparator)) = none := by
    rw [List.findIdx?_eq_none_iff]
    intro c hc
    exact decide_eq_false fun heq => hfront (heq ▸ hc)
  rw [findFirst, hdrop, List.findIdx?_append, hnone]
  simp [List.findIdx?_cons]

/-- CreateFieldTrial for the trials of a list, as long as it succeeds. -/
def createAll : List (Bytes × Bytes) → Process → Option Process
  | [], p => some p
  | g :: gs, p =>
    match p.createFieldTrial g.1 g.2 with
    | (none, _) => none
    | (some _, p) => createAll gs p

theorem createLoop_encode {str pre : Bytes} {gs : List (Bytes × Bytes)} {p' : Process}
    (hstr : str = pre ++ encode gs) (hgs : ∀ g ∈ gs, Plain g.1 ∧ Plain g.2)
    (hall : createAll gs p = some p') :
    Computes (fun fuel => createLoop str fuel pre.length p) (true, p') := by
  induction gs generalizing pre p with
  | nil =>
    cases hall
    have hend : ¬pre.length < str.length := by simp [hstr, encode]
    exact ⟨1, fun fuel hfuel => by
      obtain _ | fuel := fuel
      · omega
      simp [createLoop, hend]⟩
  | cons g gs ih =>
    obtain ⟨⟨hname, hname'⟩, hgroup, hgroup'⟩ := hgs g mem_cons_self
    rw [createAll] at hall
    rcases hcreate : p.createFieldTrial g.1 g.2 with ⟨trial, q⟩
    rw [hcreate] at hall
    cases trial with
    | none => cases hall
    | some trial =>
      -- the string up to the first of the trials that are left
      have hat : str.drop pre.length = g.1 ++ kPersistentStringSeparator ::
          (g.2 ++ kPersistentStringSeparator :: encode gs) := by
        rw [hstr, drop_left]
        simp [encode]
      have hbehind : str.drop (pre.length + g.1.length + 1) =
          g.2 ++ kPersistentStringSeparator :: encode gs := by
        rw [Nat.add_assoc, ← drop_drop, hat, ← drop_drop, drop_left, drop_one,
          tail_cons]
      have hlt : pre.length < str.length := by
        by_contra hge
        rw [drop_eq_nil_of_le (by omega)] at hat
        simp at hat
      have hnameEnd := findFirst_separator hat hname'
      have hgroupEnd := findFirst_separator hbehind hgroup'
      have hnameLen := length_pos_iff.mpr hname
      have hgroupLen := length_pos_iff.mpr hgroup
      have hsubName : substr str pre.length (pre.length + g.1.length - pre.length) = g.1 := by
        rw [substr, hat, Nat.add_sub_cancel_left, take_left]
      have hsubGroup : substr str (pre.length + g.1.length + 1)
          (pre.length + g.1.length + 1 + g.2.length - (pre.length + g.1.length) - 1) = g.2 := by
        rw [substr, hbehind, show pre.length + g.1.length + 1 + g.2.length -
          (pre.length + g.1.length) - 1 = g.2.length by omega, take_left]
      have hrest := @ih q (pre ++ g.1 ++ kPersistentStringSeparator ::
        (g.2 ++ [kPersistentStringSeparator])) (by simp [hstr, encode])
        (fun g' hg' => hgs g' (mem_cons_of_mem _ hg')) hall
      have hlen : (pre ++ g.1 ++ kPersistentStringSeparator ::
          (g.2 ++ [kPersistentStringSeparator])).length =
          pre.length + g.1.length + 1 + g.2.length + 1 := by
        simp
        omega
      rw [hlen] at hrest
      refine hrest.succ fun fuel => ?_
      rw [createLoop]
      simp only [hlt, if_true, hnameEnd, hgroupEnd]
      rw [if_neg (by omega), if_neg (by omega), hsubName, hsubGroup, hcreate]

/-! ## A process without trials -/

theorem createFieldTrial_new {name groupName : Bytes} (hname : name ≠ []) (hgroup : groupName ≠ [])
    (hnew : p.registered.find name = none) :
    p.createFieldTrial name groupName = (some (p.created name groupName),
      { p with registered := p.registered.put name (p.created name groupName) }) := by
  have hsame : (p.created name groupName).name = name :=
    appendGroup_name _ _ _ (new name kTotalProbability groupName _)
  simp [createFieldTrial, hname, hgroup, hnew, hsame]

theorem createAll_new {gs : List (Bytes × Bytes)} (hgs : ∀ g ∈ gs, Plain g.1 ∧ Plain g.2)
    (hdist : gs.Pairwise fun g g' => g.1 ≠ g'.1)
    (hnew : ∀ g ∈ gs, p.registered.find g.1 = none) :
    createAll gs p = some { p with
      registered := putAll (gs.map fun g => (g.1, p.created g.1 g.2)) p.registered } := by
  induction gs generalizing p with
  | nil => rfl
  | cons g gs ih =>
    obtain ⟨hname, hgroup⟩ := hgs g mem_cons_self
    obtain ⟨hhead, htail⟩ := pairwise_cons.mp hdist
    rw [createAll, createFieldTrial_new hname.1 hgroup.1 (hnew g mem_cons_self)]
    dsimp only
    rw [ih (fun g' hg' => hgs g' (mem_cons_of_mem _ hg')) htail fun g' hg' => ?_]
    · rfl
    · rw [find_put, if_neg (Ne.symm (hhead g' hg'))]
      exact hnew g' (mem_cons_of_mem _ hg')

/-- A trial with the whole probability on its one group is in that group, unless benchmarking
takes the probability away. -/
theorem created_group {name groupName : Bytes} (hgroup : groupName ≠ [])
    (hrandom : 0 ≤ p.random name ∧ p.random name < kTotalProbability) :
    (p.created name groupName).forced = true ∧
      if p.enableBenchmarking then
        (p.created name groupName).group_ = kNotFinalized ∧
          (p.created name groupName).groupName_ = []
      else (p.created name groupName).group_ = kDefaultGroupNumber + 1 ∧
        (p.created name groupName).groupName_ = groupName := by
  obtain ⟨hlow, hhigh⟩ := hrandom
  unfold kTotalProbability at hhigh
  refine ⟨rfl, ?_⟩
  cases hbench : p.enableBenchmarking with
  | true =>
    have hline : ¬toInt32 (0 + 0) > p.random name := by
      rw [show toInt32 (0 + 0) = 0 from rfl]
      omega
    simp only [created, appendGroup, new, nextNumber, hbench,
      Bool.true_or, if_true, Bool.false_eq_true, if_false, hline, and_false, and_self]
  | false =>
    have hline : toInt32 (0 + kTotalProbability) > p.random name := by
      rw [show toInt32 (0 + kTotalProbability) = 100 from rfl]
      exact hhigh
    simp only [created, appendGroup, new, nextNumber, hbench,
      setGroupChoice, Bool.false_or, Bool.not_true, Bool.false_eq_true, if_false, hline,
      and_self, if_true]
    simp [hgroup]

/-! ## A process that has them -/

theorem createAll_existing {gs : List (Bytes × Bytes)} (hgs : ∀ g ∈ gs, Plain g.1 ∧ Plain g.2)
    (hheld : ∀ g ∈ gs, ∃ trial, p.registered.find g.1 = some trial ∧ trial.groupName_ = g.2) :
    createAll gs p = some p := by
  induction gs with
  | nil => rfl
  | cons g gs ih =>
    obtain ⟨hname, hgroup⟩ := hgs g mem_cons_self
    obtain ⟨trial, hfind, hsame⟩ := hheld g mem_cons_self
    have hcreate : p.createFieldTrial g.1 g.2 = (some trial, p) := by
      simp [createFieldTrial, hname.1, hgroup.1, hfind, hsame]
    rw [createAll, hcreate]
    exact ih (fun g' hg' => hgs g' (mem_cons_of_mem _ hg')) fun g' hg' =>
      hheld g' (mem_cons_of_mem _ hg')

theorem createTrialsFromString_encode {gs : List (Bytes × Bytes)} {p' : Process}
    (hgs : ∀ g ∈ gs, Plain g.1 ∧ Plain g.2) (hall : createAll gs p = some p') :
    Computes (p.createTrialsFromString (encode gs)) (true, p') := by
  have hloop := @createLoop_encode p (encode gs) [] gs p' (nil_append _).symm hgs hall
  cases gs with
  | nil =>
    cases hall
    exact .pure _
  | cons g gs =>
    refine hloop.congr fun fuel => ?_
    simp [createTrialsFromString, encode]

end Process

/-- The trials of the first process with their groups, all of them finalised. -/
structure Persistent (p : Process) : Prop where
  plain : ∀ g ∈ p.groups, Plain g.1 ∧ Plain g.2
  finalized : ∀ trial ∈ p.registered.entries, trial.2.group_ ≠ kNotFinalized

theorem Persistent.states {p : Process} (h : Persistent p) : p.statesToString = encode p.groups :=
  p.statesToString_eq fun g hg => (h.plain g hg).2.1

/-- The second process has taken over the trials of the first. -/
structure TakenOver (p p' : Process) : Prop where
  groups : p'.groups = p.groups
  forced : ∀ trial ∈ p'.registered.entries,
    trial.2.forced = true ∧ trial.2.group_ ≠ kNotFinalized
  states : p'.statesToString = p.statesToString

/-- The registered trials after the string of the first process has been read. -/
def takenOver (p q : Process) : Process :=
  { q with registered :=
      ⟨p.registered.entries.map fun trial => (trial.1, q.created trial.1 trial.2.groupName_),
        pairwise_map.mpr p.registered.sorted⟩ }

theorem Persistent.creates {p q : Process} (hp : Persistent p) (hempty : q.registered = empty) :
    Computes (q.createTrialsFromString p.statesToString) (true, takenOver p q) := by
  have hdist : p.groups.Pairwise fun g g' => g.1 ≠ g'.1 :=
    pairwise_map.mpr p.registered.distinct
  have hall := @Process.createAll_new q p.groups hp.plain hdist fun g _ => by
    rw [hempty]
    rfl
  have hput : putAll (p.groups.map fun g => (g.1, q.created g.1 g.2)) q.registered =
      (takenOver p q).registered := by
    rw [hempty, ← putAll_entries (takenOver p q).registered, takenOver, Process.groups,
      map_map]
    rfl
  rw [hput] at hall
  rw [hp.states]
  exact Process.createTrialsFromString_encode hp.plain hall

theorem takenOver_iff {p q : Process} (hp : Persistent p)
    (hrandom : ∀ name, 0 ≤ q.random name ∧ q.random name < Process.kTotalProbability) :
    TakenOver p (takenOver p q) ↔ q.enableBenchmarking = false ∨ p.registered.entries = [] := by
  have hgroup : ∀ trial ∈ p.registered.entries, trial.2.groupName_ ≠ [] := fun trial htrial =>
    (hp.plain _ (mem_map_of_mem htrial)).2.1
  constructor
  · intro h
    by_contra hnot
    rw [not_or, Bool.not_eq_false] at hnot
    obtain ⟨trial, htrial⟩ := exists_mem_of_ne_nil _ hnot.2
    have hcreated := (Process.created_group (hgroup trial htrial) (hrandom trial.1)).2
    rw [if_pos hnot.1] at hcreated
    exact (h.forced _ (mem_map_of_mem htrial)).2 hcreated.1
  · intro h
    have hcreated : ∀ trial ∈ p.registered.entries,
        (q.created trial.1 trial.2.groupName_).group_ = kDefaultGroupNumber + 1 ∧
          (q.created trial.1 trial.2.groupName_).groupName_ = trial.2.groupName_ := by
      intro trial htrial
      have henabled : ¬q.enableBenchmarking = true := by
        rcases h with h | h
        · simp [h]
        · rw [h] at htrial
          cases htrial
      have hcreated := (Process.created_group (hgroup trial htrial) (hrandom trial.1)).2
      rwa [if_neg henabled] at hcreated
    have hgroups : (takenOver p q).groups = p.groups := by
      rw [Process.groups, Process.groups, takenOver, map_map]
      refine map_congr_left fun trial htrial => ?_
      rw [Function.comp_apply, (hcreated trial htrial).2]
    refine ⟨hgroups, fun trial htrial => ?_, ?_⟩
    · obtain ⟨old, hold, rfl⟩ := mem_map.mp htrial
      refine ⟨rfl, ?_⟩
      rw [(hcreated old hold).1]
      decide
    · rw [hp.states, Process.statesToString_eq, hgroups]
      rw [hgroups]
      exact fun g hg => (hp.plain g hg).2.1

/-- Every trial comes out in its group, unless benchmarking is enabled where they are created; and
where the trials are already there, nothing changes. -/
theorem states_round_trip_iff {p q : Process} (hp : Persistent p) (hempty : q.registered = empty)
    (hrandom : ∀ name, 0 ≤ q.random name ∧ q.random name < Process.kTotalProbability) :
    ((∃ q', Computes (q.createTrialsFromString p.statesToString) (true, q') ∧ TakenOver p q') ↔
        q.enableBenchmarking = false ∨ p.registered.entries = []) ∧
      ∀ held : Process, (∀ g ∈ p.groups, ∃ trial,
          held.registered.find g.1 = some trial ∧ trial.groupName_ = g.2) →
        Computes (held.createTrialsFromString p.statesToString) (true, held) := by
  have hcreates := hp.creates hempty
  refine ⟨?_, fun held hheld => ?_⟩
  · rw [← takenOver_iff hp hrandom]
    constructor
    · rintro ⟨q', hq', htaken⟩
      have hsame := congrArg Prod.snd (hq'.unique hcreates)
      dsimp only at hsame
      rwa [hsame] at htaken
    · exact fun h => ⟨_, hcreates, h⟩
  · rw [hp.states]
    exact Process.createTrialsFromString_encode hp.plain
      (Process.createAll_existing hp.plain hheld)

/-- A process with one trial, in a group that was chosen for it. -/
def oneTrial : Process where
  registered := empty.put [84]
    ((new [84] 100 [68] 0).appendGroup false [65] 100).2
  enableBenchmarking := false
  random _ := 0

def noTrials (enableBenchmarking : Bool) : Process :=
  ⟨empty, enableBenchmarking, fun _ => 0⟩

theorem noTrials_random (enableBenchmarking : Bool) (name : Bytes) :
    0 ≤ (noTrials enableBenchmarking).random name ∧
      (noTrials enableBenchmarking).random name < Process.kTotalProbability :=
  ⟨Int.le_refl 0, by
    show (0 : Int) < 100
    decide⟩

theorem oneTrial_persistent : Persistent oneTrial := by
  refine ⟨fun g hg => ?_, fun trial htrial => ?_⟩
  · obtain rfl := mem_singleton.mp hg
    exact ⟨⟨by decide, by decide⟩, by decide, by decide⟩
  · obtain rfl := mem_singleton.mp htrial
    decide

theorem states_round_trip_one :
    ∃ q', Computes ((noTrials false).createTrialsFromString oneTrial.statesToString) (true, q') ∧
      TakenOver oneTrial q' :=
  (states_round_trip_iff oneTrial_persistent rfl (noTrials_random false)).1.mpr (.inl rfl)

/-- With benchmarking enabled the trial is created and is in no group. -/
theorem benchmarking_leaves_group :
    ¬∃ q', Computes ((noTrials true).createTrialsFromString oneTrial.statesToString) (true, q') ∧
      TakenOver oneTrial q' := by
  rintro ⟨q', hq', htaken⟩
  have hcreates := @Persistent.creates _ (noTrials true) oneTrial_persistent rfl
  have hsame : q' = takenOver oneTrial (noTrials true) := congrArg Prod.snd (hq'.unique hcreates)
  rw [hsame, takenOver_iff oneTrial_persistent (noTrials_random true)] at htaken
  rcases htaken with h | h <;> cases h

end ChromiumUI.Base.FieldTrials
