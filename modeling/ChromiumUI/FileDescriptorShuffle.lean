import Mathlib.Data.List.Nodup

/-!
# Shuffling file descriptors

PerformInjectiveMultimap over a descriptor table. A delegate is the sequence of
its answers: what each Duplicate returns (any number not open at that moment, or
a failure) and whether each Move succeeds.
-/
namespace ChromiumUI.Shuffle

open List Function

structure InjectionArc where
  source : Nat
  dest : Nat
  close : Bool
  deriving DecidableEq, Repr

abbrev InjectiveMultimap := List InjectionArc

/-- The open descriptors and the files they refer to. -/
abbrev Table (F : Type*) := Nat → Option F

structure Delegate where
  duplicate : Nat → Option Nat
  move : Nat → Bool

/-- The table, how often the delegate was asked, and the temporaries to be closed at the end. -/
structure State (F : Type*) where
  table : Table F
  duplicates : Nat
  moves : Nat
  extraFds : List Nat

variable {F : Type*}

def kMaxExtraFDs : Nat := 16

/-- Duplicate(&result, fd): `result` must not be open, and then refers to the file of `fd`. -/
def Delegate.runDuplicate (d : Delegate) (fd : Nat) (s : State F) : Option (Nat × State F) :=
  match d.duplicate s.duplicates, s.table fd with
  | some result, some file =>
    if (s.table result).isNone then
      some (result, { s with
        table := update s.table result (some file)
        duplicates := s.duplicates + 1 })
    else none
  | _, _ => none

/-- Move(src, dest): what was open as `dest` is closed. -/
def Delegate.runMove (d : Delegate) (src dest : Nat) (s : State F) : Option (State F) :=
  match s.table src with
  | some file =>
    if d.move s.moves then
      some { s with table := update s.table dest (some file), moves := s.moves + 1 }
    else none
  | none => none

def State.closeFd (fd : Nat) (s : State F) : State F :=
  { s with table := update s.table fd none }

/-- Remember a temporary in extra_fds, or leak it. -/
def State.addExtraFd (fd : Nat) (s : State F) : State F :=
  if s.extraFds.length < kMaxExtraFDs then { s with extraFds := s.extraFds ++ [fd] } else s

def State.closeAll (fds : List Nat) (s : State F) : State F :=
  fds.foldl (fun s fd => s.closeFd fd) s

def redirect (dest temp : Nat) (j : InjectionArc) : InjectionArc :=
  if dest = j.source then { j with source := temp, close := false } else j

/-- i->close is dropped when `j` overwrites the source, and passed to `j` when it shares it. -/
def passClose (source : Nat) (close : Bool) (j : InjectionArc) : Bool × InjectionArc :=
  let close := if close ∧ source = j.dest then false else close
  if close ∧ source = j.source then (false, { j with close := true }) else (close, j)

/-- temp_fd, duplicated from `dest` when it is first needed. -/
def Delegate.takeTemp (d : Delegate) (dest : Nat) :
    Option Nat → State F → Option (Option Nat × State F)
  | some temp, s => some (some temp, s)
  | none, s => (d.runDuplicate dest s).map fun (temp, s) => (some temp, s.addExtraFd temp)

/-- The loop over the later arcs `j`, for the arc `i` with this source and dest. It carries
i->close and temp_fd, and rewrites the later arcs. -/
def innerLoop (d : Delegate) (source dest : Nat) :
    Bool → Option Nat → List InjectionArc → State F →
    Option (Bool × List InjectionArc × State F)
  | close, _, [], s => some (close, [], s)
  | close, tempFd, j :: js, s =>
    let taken :=
      if source ≠ dest ∧ dest = j.source then d.takeTemp dest tempFd s else some (tempFd, s)
    taken.bind fun (tempFd, s) =>
      let j := if source ≠ dest then tempFd.elim j fun temp => redirect dest temp j else j
      let passed := passClose source close j
      (innerLoop d source dest passed.1 tempFd js s).map fun (close, js, s) =>
        (close, passed.2 :: js, s)

/-- One round of the loop over the arcs: the later arcs as rewritten, and the state. -/
def arcStep (d : Delegate) (i : InjectionArc) (later : List InjectionArc) (s : State F) :
    Option (List InjectionArc × State F) :=
  (innerLoop d i.source i.dest i.close none later s).bind fun (close, later, s) =>
    let moved := if i.source ≠ i.dest then d.runMove i.source i.dest s else some s
    moved.map fun s => (later, if i.source ≠ i.dest ∧ close then s.closeFd i.source else s)

/-- The loop over the arcs, bounded by how many there are. -/
def arcLoop (d : Delegate) : Nat → List InjectionArc → State F → Option (State F)
  | n + 1, i :: later, s => (arcStep d i later s).bind fun (later, s) => arcLoop d n later s
  | _, _, s => some s

/-- `none` where the code returns false, or the delegate is none of a descriptor table. -/
def performInjectiveMultimap (d : Delegate) (m : InjectiveMultimap) (table : Table F) :
    Option (State F) :=
  (arcLoop d m.length m ⟨table, 0, 0, []⟩).map fun s => s.closeAll s.extraFds

/-- The entry needs a temporary: it overwrites what a later entry still has to read. -/
def NeedsTemp (i : InjectionArc) (later : List InjectionArc) : Prop :=
  i.source ≠ i.dest ∧ ∃ j ∈ later, j.source = i.dest

instance (i : InjectionArc) (later : List InjectionArc) : Decidable (NeedsTemp i later) :=
  inferInstanceAs (Decidable (_ ∧ _))

/-! ## What one round can do -/

@[simp] theorem redirect_dest (dest temp : Nat) (j : InjectionArc) :
    (redirect dest temp j).dest = j.dest := by
  unfold redirect
  split <;> rfl

/-- The part of the inner loop that passes i->close on. -/
def handOver (source : Nat) : Bool → List InjectionArc → Bool × List InjectionArc
  | close, [] => (close, [])
  | close, j :: js =>
    let passed := passClose source close j
    ((handOver source passed.1 js).1, passed.2 :: (handOver source passed.1 js).2)

variable {source : Nat}

theorem innerLoop_of_temp (d : Delegate) {dest : Nat} (hne : source ≠ dest) (temp : Nat)
    (close : Bool) (js : List InjectionArc) (s : State F) :
    innerLoop d source dest close (some temp) js s =
      some ((handOver source close (js.map (redirect dest temp))).1,
        (handOver source close (js.map (redirect dest temp))).2, s) := by
  induction js generalizing close with
  | nil => rfl
  | cons j js ih => simp [innerLoop, Delegate.takeTemp, handOver, hne, ih]

variable {js : List InjectionArc}

theorem innerLoop_of_no_need (d : Delegate) {dest : Nat}
    (hno : source = dest ∨ ∀ j ∈ js, j.source ≠ dest) (close : Bool) (s : State F) :
    innerLoop d source dest close none js s =
      some ((handOver source close js).1, (handOver source close js).2, s) := by
  induction js generalizing close with
  | nil => rfl
  | cons j js ih =>
    have htail : source = dest ∨ ∀ j ∈ js, j.source ≠ dest :=
      hno.imp id fun h k hk => h k (mem_cons_of_mem j hk)
    have hhere : ¬(source ≠ dest ∧ dest = j.source) := by
      rintro ⟨hne, hj⟩
      exact (hno.resolve_left hne) j mem_cons_self hj.symm
    simp [innerLoop, if_neg hhere, ih htail, handOver]

theorem innerLoop_of_need (d : Delegate) {dest : Nat} (hne : source ≠ dest)
    (hj : ∃ j ∈ js, j.source = dest) (close : Bool) (s : State F) :
    innerLoop d source dest close none js s =
      (d.runDuplicate dest s).map fun (temp, s) =>
        ((handOver source close (js.map (redirect dest temp))).1,
          (handOver source close (js.map (redirect dest temp))).2, s.addExtraFd temp) := by
  induction js generalizing close with
  | nil => simp at hj
  | cons j js ih =>
    by_cases hhere : dest = j.source
    · have htaken : source ≠ dest ∧ dest = j.source := ⟨hne, hhere⟩
      rw [innerLoop, if_pos htaken, Delegate.takeTemp]
      cases d.runDuplicate dest s with
      | none => rfl
      | some r => simp [innerLoop_of_temp d hne, hne, handOver]
    · have htail : ∃ j ∈ js, j.source = dest := by
        obtain ⟨k, hk, hks⟩ := hj
        rcases mem_cons.mp hk with rfl | hk
        · exact absurd hks.symm hhere
        · exact ⟨k, hk, hks⟩
      have hkeep : ¬(source ≠ dest ∧ dest = j.source) := fun h => hhere h.2
      have hsame (temp : Nat) : redirect dest temp j = j := by simp [redirect, hhere]
      rw [innerLoop, if_neg hkeep]
      simp only [Option.bind_some, Option.elim_none, ite_self]
      rw [ih htail]
      cases d.runDuplicate dest s with
      | none => rfl
      | some r => simp [handOver, hsame]

/-- What the inner loop does with the close flag of an arc with this source: the flag before
and after, and the later arcs after. -/
inductive HandedOver (source : Nat) (js : List InjectionArc) :
    Bool → Bool → List InjectionArc → Prop
  | unflagged : HandedOver source js false false js
  | kept (hjs : ∀ j ∈ js, j.dest ≠ source ∧ j.source ≠ source) : HandedOver source js true true js
  | overwritten (j : InjectionArc) (hj : j ∈ js) (hdest : j.dest = source) :
      HandedOver source js true false js
  | passed (pre : List InjectionArc) (j : InjectionArc) (post : List InjectionArc)
      (hjs : js = pre ++ j :: post) (hpre : ∀ p ∈ pre, p.dest ≠ source ∧ p.source ≠ source)
      (hdest : j.dest ≠ source) (hsource : j.source = source) :
      HandedOver source js true false (pre ++ { j with close := true } :: post)

theorem handOver_unflagged (source : Nat) (js : List InjectionArc) :
    handOver source false js = (false, js) := by
  induction js with
  | nil => rfl
  | cons j js ih => simp [handOver, passClose, ih]

theorem handOver_cases (source : Nat) (close : Bool) (js : List InjectionArc) :
    HandedOver source js close (handOver source close js).1 (handOver source close js).2 := by
  cases close with
  | false =>
    rw [handOver_unflagged]
    exact .unflagged
  | true =>
    induction js with
    | nil => exact .kept (by simp)
    | cons j js ih =>
      by_cases hdest : j.dest = source
      · have hpass : passClose source true j = (false, j) := by simp [passClose, hdest]
        rw [handOver, hpass]
        simp only [handOver_unflagged]
        exact .overwritten j mem_cons_self hdest
      by_cases hsrc : j.source = source
      · have hpass : passClose source true j = (false, { j with close := true }) := by
          simp [passClose, Ne.symm hdest, hsrc]
        rw [handOver, hpass]
        simp only [handOver_unflagged]
        exact .passed [] j js rfl (by simp) hdest hsrc
      · have hpass : passClose source true j = (true, j) := by
          simp [passClose, Ne.symm hdest, Ne.symm hsrc]
        rw [handOver, hpass]
        generalize handOver source true js = r at ih
        obtain ⟨close, js'⟩ := r
        cases ih with
        | kept hjs => exact .kept (forall_mem_cons.mpr ⟨⟨hdest, hsrc⟩, hjs⟩)
        | overwritten k hk hkd => exact .overwritten k (mem_cons_of_mem j hk) hkd
        | passed pre k post hjs hpre hkd hks =>
          subst hjs
          exact .passed (j :: pre) k post rfl
            (forall_mem_cons.mpr ⟨⟨hdest, hsrc⟩, hpre⟩) hkd hks

/-- The state after a successful Duplicate of a descriptor for this file. -/
def State.duplicated (s : State F) (temp : Nat) (file : F) : State F :=
  State.addExtraFd temp { s with
    table := update s.table temp (some file)
    duplicates := s.duplicates + 1 }

@[simp] theorem addExtraFd_table (fd : Nat) (s : State F) : (s.addExtraFd fd).table = s.table := by
  unfold State.addExtraFd
  split <;> rfl

@[simp] theorem addExtraFd_duplicates (fd : Nat) (s : State F) :
    (s.addExtraFd fd).duplicates = s.duplicates := by
  unfold State.addExtraFd
  split <;> rfl

@[simp] theorem duplicated_table (s : State F) (temp : Nat) (file : F) :
    (s.duplicated temp file).table = update s.table temp (some file) := by
  simp [State.duplicated]

@[simp] theorem duplicated_duplicates (s : State F) (temp : Nat) (file : F) :
    (s.duplicated temp file).duplicates = s.duplicates + 1 := by
  simp [State.duplicated]

/-- What the inner loop does about the dest of an arc. -/
inductive Redirected (d : Delegate) (i : InjectionArc) (later : List InjectionArc)
    (s : State F) : List InjectionArc → State F → Prop
  | untouched (hneed : ¬NeedsTemp i later) : Redirected d i later s later s
  | duplicated (temp : Nat) (file : F) (hneed : NeedsTemp i later)
      (hanswer : d.duplicate s.duplicates = some temp) (hfile : s.table i.dest = some file)
      (hnew : s.table temp = none) :
      Redirected d i later s (later.map (redirect i.dest temp)) (s.duplicated temp file)

/-- What follows the inner loop, given what is left of i->close. -/
inductive Moved (i : InjectionArc) (close : Bool) (s : State F) : State F → Prop
  | identity (hid : i.source = i.dest) : Moved i close s s
  | moved (file : F) (hne : i.source ≠ i.dest) (hclose : close = false)
      (hfile : s.table i.source = some file) :
      Moved i close s { s with
        table := update s.table i.dest (some file), moves := s.moves + 1 }
  | movedAway (file : F) (hne : i.source ≠ i.dest) (hclose : close = true)
      (hfile : s.table i.source = some file) :
      Moved i close s { s with
        table := update (update s.table i.dest (some file)) i.source none
        moves := s.moves + 1 }

variable {i : InjectionArc} {close : Bool} {s s' : State F}

section

variable (h : Moved i close s s')
include h

theorem Moved.duplicates : s'.duplicates = s.duplicates := by
  cases h <;> rfl

theorem Moved.extraFds : s'.extraFds = s.extraFds := by
  cases h <;> rfl

theorem Moved.table_of_ne {fd : Nat} (hdest : i.source ≠ i.dest → fd ≠ i.dest)
    (hsrc : i.source ≠ i.dest → close = true → fd ≠ i.source) : s'.table fd = s.table fd := by
  cases h with
  | identity => rfl
  | moved file hne => simp [hdest hne]
  | movedAway file hne hclose => simp [hdest hne, hsrc hne hclose]

theorem Moved.table_dest : s'.table i.dest = s.table i.source := by
  cases h with
  | identity hid => rw [hid]
  | moved file hne hclose hfile => simp [hfile]
  | movedAway file hne hclose hfile => simp [hfile, hne.symm]

end

theorem Moved.table_source (h : Moved i true s s') (hne : i.source ≠ i.dest) :
    s'.table i.source = none := by
  cases h with
  | identity hid => exact absurd hid hne
  | moved file _ hclose => cases hclose
  | movedAway => simp

variable {d : Delegate}

theorem Redirected.source_ne {later later₁ : List InjectionArc} {s₁ : State F}
    (h : Redirected d i later s later₁ s₁) (hne : i.source ≠ i.dest) :
    ∀ j ∈ later₁, j.source ≠ i.dest := by
  intro j hj hs
  cases h with
  | untouched hneed => exact hneed ⟨hne, j, hj, hs⟩
  | duplicated temp file _ _ hfile hnew =>
    obtain ⟨k, -, rfl⟩ := mem_map.mp hj
    unfold redirect at hs
    split at hs
    · have hshut : s.table i.dest = none := hs ▸ hnew
      simp [hfile] at hshut
    · rename_i hk
      exact hk hs.symm

theorem HandedOver.source_mem {js' : List InjectionArc} {close' : Bool}
    (h : HandedOver source js close close' js') {j : InjectionArc} (hj : j ∈ js') :
    ∃ k ∈ js, k.source = j.source ∧ k.dest = j.dest := by
  cases h with
  | passed pre q post hjs =>
    subst hjs
    rcases mem_append.mp hj with hj | hj
    · exact ⟨j, mem_append_left _ hj, rfl, rfl⟩
    · rcases mem_cons.mp hj with rfl | hj
      · exact ⟨q, by simp, rfl, rfl⟩
      · exact ⟨j, by simp [hj], rfl, rfl⟩
  | _ => exact ⟨j, hj, rfl, rfl⟩

/-- A close flag that stays with the arc belongs to a source no later arc mentions. -/
theorem HandedOver.of_kept {js' : List InjectionArc} (h : HandedOver source js close true js') :
    close = true ∧ js' = js ∧ ∀ j ∈ js, j.dest ≠ source ∧ j.source ≠ source := by
  cases h with
  | kept hjs => exact ⟨rfl, rfl, hjs⟩

theorem runDuplicate_eq_some {fd temp : Nat} (h : d.runDuplicate fd s = some (temp, s')) :
    ∃ file, d.duplicate s.duplicates = some temp ∧ s.table fd = some file ∧
      s.table temp = none ∧
      s' = { s with
        table := update s.table temp (some file)
        duplicates := s.duplicates + 1 } := by
  unfold Delegate.runDuplicate at h
  split at h
  · rename_i result file hres hfile
    split at h
    · rename_i hnew
      cases h
      exact ⟨file, hres, hfile, Option.isNone_iff_eq_none.mp hnew, rfl⟩
    · cases h
  · cases h

theorem runMove_eq_some {src dest : Nat} (h : d.runMove src dest s = some s') :
    ∃ file, s.table src = some file ∧
      s' = { s with
        table := update s.table dest (some file), moves := s.moves + 1 } := by
  unfold Delegate.runMove at h
  split at h
  · rename_i file hfile
    split at h
    · cases h
      exact ⟨file, hfile, rfl⟩
    · cases h
  · cases h

/-- One round: later arcs are redirected to a temporary, the close flag is passed on, and
the file is moved. -/
theorem arcStep_cases {later later' : List InjectionArc}
    (h : arcStep d i later s = some (later', s')) :
    ∃ (later₁ : List InjectionArc) (s₁ : State F) (close : Bool),
      Redirected d i later s later₁ s₁ ∧ HandedOver i.source later₁ i.close close later' ∧
        Moved i close s₁ s' := by
  have hmoved {close : Bool} {s₁ : State F} {l : List InjectionArc}
      (h : ((if i.source ≠ i.dest then d.runMove i.source i.dest s₁ else some s₁).map fun s =>
        (l, if i.source ≠ i.dest ∧ close then s.closeFd i.source else s)) =
          some (later', s')) :
      l = later' ∧ Moved i close s₁ s' := by
    by_cases hid : i.source = i.dest
    · simp [hid] at h
      exact ⟨h.1, h.2 ▸ .identity hid⟩
    · simp only [ne_eq, hid, not_false_eq_true, if_true, true_and] at h
      obtain ⟨s₂, hs₂, hs'⟩ := Option.map_eq_some_iff.mp h
      obtain ⟨file, hfile, rfl⟩ := runMove_eq_some hs₂
      cases close with
      | false =>
        simp at hs'
        exact ⟨hs'.1, hs'.2 ▸ .moved file hid rfl hfile⟩
      | true =>
        simp at hs'
        exact ⟨hs'.1, hs'.2 ▸ .movedAway file hid rfl hfile⟩
  unfold arcStep at h
  by_cases hneed : NeedsTemp i later
  · rw [innerLoop_of_need d hneed.1 hneed.2] at h
    cases hdup : d.runDuplicate i.dest s with
    | none => simp [hdup] at h
    | some r =>
      obtain ⟨temp, s₁⟩ := r
      obtain ⟨file, hans, hfile, hnew, rfl⟩ := runDuplicate_eq_some hdup
      rw [hdup] at h
      obtain ⟨rfl, hm⟩ := hmoved h
      exact ⟨_, _, _, .duplicated temp file hneed hans hfile hnew, handOver_cases .., hm⟩
  · have hno : i.source = i.dest ∨ ∀ j ∈ later, j.source ≠ i.dest := by
      by_cases hid : i.source = i.dest
      · exact .inl hid
      · exact .inr fun j hj hs => hneed ⟨hid, j, hj, hs⟩
    rw [innerLoop_of_no_need d hno] at h
    obtain ⟨rfl, hm⟩ := hmoved h
    exact ⟨_, _, _, .untouched hneed, handOver_cases .., hm⟩

/-! ## What the rewritten arcs still stand for

Whatever the delegate answers, each arc not yet done keeps its dest and a source that
refers to the file of the original source: the original source itself, or a temporary. -/

/-! ## Pairs of lists -/

theorem forall₂_exists_left {α β : Type*} {R : α → β → Prop} {as : List α} {bs : List β}
    (h : List.Forall₂ R as bs) {b : β} (hb : b ∈ bs) : ∃ a ∈ as, R a b := by
  induction h with
  | nil => cases hb
  | cons hab _ ih =>
    rcases mem_cons.mp hb with rfl | hb
    · exact ⟨_, mem_cons_self, hab⟩
    · obtain ⟨a, ha, hR⟩ := ih hb
      exact ⟨a, mem_cons_of_mem _ ha, hR⟩

theorem forall₂_exists_right {α β : Type*} {R : α → β → Prop} {as : List α} {bs : List β}
    (h : List.Forall₂ R as bs) {a : α} (ha : a ∈ as) : ∃ b ∈ bs, R a b :=
  forall₂_exists_left h.flip ha

theorem forall₂_replace {α β : Type*} {R : α → β → Prop} {as : List α} {pre : List β}
    {b b' : β} {post : List β} (h : List.Forall₂ R as (pre ++ b :: post))
    (hb : ∀ a, R a b → R a b') : List.Forall₂ R as (pre ++ b' :: post) := by
  induction pre generalizing as with
  | nil =>
    cases h with
    | cons hab htail => exact .cons (hb _ hab) htail
  | cons p pre ih =>
    cases h with
    | cons hap htail => exact .cons hap (ih htail)

/-! ## One entry and its arc -/

variable {F : Type*} {d : Delegate} {T₀ : Table F} {m : InjectiveMultimap}

/-- One of the first `n` answers of Duplicate. -/
def Delegate.Answered (d : Delegate) (n fd : Nat) : Prop :=
  ∃ k < n, d.duplicate k = some fd

theorem Delegate.answered_succ {n fd : Nat} :
    d.Answered (n + 1) fd ↔ d.Answered n fd ∨ d.duplicate n = some fd := by
  constructor
  · rintro ⟨k, hk, hd⟩
    rcases Nat.lt_succ_iff_lt_or_eq.mp hk with hk | rfl
    · exact .inl ⟨k, hk, hd⟩
    · exact .inr hd
  · rintro (⟨k, hk, hd⟩ | hd)
    · exact ⟨k, by omega, hd⟩
    · exact ⟨n, by omega, hd⟩

@[simp] theorem Delegate.answered_zero {fd : Nat} : ¬d.Answered 0 fd := by
  rintro ⟨k, hk, -⟩
  exact absurd hk (Nat.not_lt_zero k)

/-- The arc `j` still does the work of the entry `e`, the dests being those overwritten. -/
structure Tracks (d : Delegate) (T₀ : Table F) (m : InjectiveMultimap) (dests : List Nat)
    (s : State F) (e j : InjectionArc) : Prop where
  member : e ∈ m
  dest : j.dest = e.dest
  file : s.table j.source = T₀ e.source
  source : j.source = e.source ∧ ¬d.Answered s.duplicates j.source ∧ (e.close → j.close) ∨
    d.Answered s.duplicates j.source ∧ e.source ∈ dests ∧ j.close = false
  close : j.close → ∃ p ∈ m, p.close ∧ p.source = j.source

theorem Tracks.start : List.Forall₂ (Tracks d T₀ m [] ⟨T₀, 0, 0, []⟩) m m :=
  forall₂_same.mpr fun e he =>
    { member := he
      dest := rfl
      file := rfl
      source := .inl ⟨rfl, Delegate.answered_zero, id⟩
      close := fun hc => ⟨e, he, hc, rfl⟩ }

variable {dests : List Nat} {s : State F} {e j : InjectionArc}

section

variable (h : Tracks d T₀ m dests s e j)
include h

theorem Tracks.isOpen (hopen : ∀ e ∈ m, T₀ e.source ≠ none) : s.table j.source ≠ none :=
  h.file ▸ hopen e h.member

/-- A flagged arc has the source of its entry, which is no temporary. -/
theorem Tracks.of_flagged (hclose : j.close = true) :
    j.source = e.source ∧ ¬d.Answered s.duplicates j.source := by
  rcases h.source with ⟨hs, ht, -⟩ | ⟨-, -, hc⟩
  · exact ⟨hs, ht⟩
  · rw [hc] at hclose
    cases hclose

theorem Tracks.mono {dests' : List Nat} (hsub : dests ⊆ dests') : Tracks d T₀ m dests' s e j :=
  { h with source := h.source.imp id fun ⟨ht, hm, hc⟩ => ⟨ht, hsub hm, hc⟩ }

theorem Tracks.congr {s' : State F} (hdup : s'.duplicates = s.duplicates)
    (htable : s'.table j.source = s.table j.source) :
    Tracks d T₀ m dests s' e j :=
  { h with
    file := htable.trans h.file
    source := hdup.symm ▸ h.source }

/-- The arc takes over the close flag of an arc with the same source. -/
theorem Tracks.flag {e₀ i : InjectionArc} (hi : Tracks d T₀ m dests s e₀ i)
    (hclose : i.close = true) (hsrc : j.source = i.source) :
    Tracks d T₀ m dests s e { j with close := true } := by
  have hnot : ¬d.Answered s.duplicates j.source := hsrc ▸ (hi.of_flagged hclose).2
  exact
    { h with
      source := .inl ⟨(h.source.resolve_right fun hr => hnot hr.1).1, hnot, fun _ => rfl⟩
      close := fun _ => hsrc ▸ hi.close hclose }

theorem Tracks.duplicated {temp : Nat} {file : F} (hopen : ∀ e ∈ m, T₀ e.source ≠ none)
    (hans : d.duplicate s.duplicates = some temp)
    (hnew : s.table temp = none) : Tracks d T₀ m dests (s.duplicated temp file) e j := by
  have hne : j.source ≠ temp := fun heq => h.isOpen hopen (heq ▸ hnew)
  refine { h with file := ?_, source := ?_ }
  · rw [duplicated_table, Function.update_of_ne hne]
    exact h.file
  · rw [duplicated_duplicates]
    rcases h.source with ⟨hs, ht, hc⟩ | ⟨ht, hm, hc⟩
    · refine .inl ⟨hs, fun ha => ?_, hc⟩
      rcases Delegate.answered_succ.mp ha with ha | ha
      · exact ht ha
      · exact hne (Option.some.inj (ha.symm.trans hans))
    · exact .inr ⟨Delegate.answered_succ.mpr (.inl ht), hm, hc⟩

theorem Tracks.redirected {dest temp : Nat} {file : F} (hopen : ∀ e ∈ m, T₀ e.source ≠ none)
    (hans : d.duplicate s.duplicates = some temp)
    (hfile : s.table dest = some file) (hnew : s.table temp = none) :
    Tracks d T₀ m (dests ++ [dest]) (s.duplicated temp file) e (redirect dest temp j) := by
  unfold redirect
  split
  · rename_i hdest
    refine
      { member := h.member
        dest := h.dest
        file := ?_
        source := .inr ⟨?_, ?_, rfl⟩
        close := fun hc => by cases hc }
    · simp only [duplicated_table, Function.update_self, ← h.file, ← hdest, hfile]
    · exact ⟨s.duplicates, by simp, hans⟩
    · -- a redirected arc either reads `dest` itself or was redirected before
      rcases h.source with ⟨hs, -⟩ | ⟨-, hm, -⟩
      · exact mem_append_right dests (by simp [hdest, hs])
      · exact mem_append_left [dest] hm
  · exact (h.duplicated hopen hans hnew).mono (subset_append_left dests [dest])

end

/-! ## One round -/

theorem HandedOver.tracks {i : InjectionArc} {rest js js' : List InjectionArc} {close' : Bool}
    (h : HandedOver i.source js i.close close' js') (hi : Tracks d T₀ m dests s e i)
    (hjs : List.Forall₂ (Tracks d T₀ m dests s) rest js) :
    List.Forall₂ (Tracks d T₀ m dests s) rest js' := by
  generalize hc : i.close = close at h
  cases h with
  | passed pre j post heq hpre hdest hsrc =>
    subst heq
    exact forall₂_replace hjs fun e' he' => he'.flag hi hc hsrc
  | _ => exact hjs

theorem Redirected.tracks {s₁ : State F} {i : InjectionArc} {rest later later₁ : List InjectionArc}
    (h : Redirected d i later s later₁ s₁) (hopen : ∀ e ∈ m, T₀ e.source ≠ none)
    (hi : Tracks d T₀ m dests s e i) (hlater : List.Forall₂ (Tracks d T₀ m dests s) rest later) :
    Tracks d T₀ m dests s₁ e i ∧
      List.Forall₂ (Tracks d T₀ m (dests ++ [i.dest]) s₁) rest later₁ := by
  cases h with
  | untouched => exact ⟨hi, hlater.imp fun _ _ hj => hj.mono (subset_append_left dests [i.dest])⟩
  | duplicated temp file _ hans hfile hnew =>
    refine ⟨hi.duplicated hopen hans hnew, forall₂_map_right_iff.mpr ?_⟩
    exact hlater.imp fun _ _ hj => hj.redirected hopen hans hfile hnew

/-- Whatever the delegate answers: the arcs not yet done track the entries not yet done. -/
structure Tracked (d : Delegate) (T₀ : Table F) (m done rest cur : List InjectionArc)
    (s : State F) : Prop where
  split : m = done ++ rest
  arcs : List.Forall₂ (Tracks d T₀ m (done.map (·.dest)) s) rest cur

theorem Tracked.step {done rest later later' : List InjectionArc} {e i : InjectionArc}
    {s s' : State F} (hopen : ∀ e ∈ m, T₀ e.source ≠ none)
    (inv : Tracked d T₀ m done (e :: rest) (i :: later) s)
    (h : arcStep d i later s = some (later', s')) :
    Tracked d T₀ m (done ++ [e]) rest later' s' := by
  obtain ⟨later₁, s₁, close, hred, hover, hmoved⟩ := arcStep_cases h
  obtain ⟨hi, hlater⟩ := forall₂_cons.mp inv.arcs
  obtain ⟨hi₁, hlater₁⟩ := hred.tracks hopen hi hlater
  have hi₂ := hi₁.mono (subset_append_left _ [i.dest])
  have hlater' := hover.tracks hi₂ hlater₁
  refine ⟨by simp [inv.split], ?_⟩
  rw [map_append, map_singleton, ← hi.dest]
  -- the move and the close leave the sources of the later arcs alone
  refine Forall₂.mp (Q := fun _ j => j ∈ later') (fun e' j hj htr => ?_) ?_ hlater'
  · obtain ⟨k, hk, hks, -⟩ := hover.source_mem hj
    refine htr.congr hmoved.duplicates (hmoved.table_of_ne (fun hne => ?_) fun _ hc => ?_)
    · exact hks ▸ hred.source_ne hne k hk
    · subst hc
      exact hks ▸ (hover.of_kept.2.2 k hk).2
  · exact forall₂_iff_zip.mpr ⟨hlater'.length_eq, fun hab => (of_mem_zip hab).2⟩

end ChromiumUI.Shuffle
