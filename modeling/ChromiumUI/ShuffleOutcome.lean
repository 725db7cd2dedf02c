import ChromiumUI.FileDescriptorShuffle
import Mathlib.Data.List.Pairwise

/-!
# When the shuffle does what it should

The outcome a caller expects, the condition on the entries and the table under which every
delegate gives it, and the invariant of the loop under that condition.
-/
namespace ChromiumUI.Shuffle

open List Option Nat

variable {F : Type*} {d : Delegate} {T₀ : Table F} {m : InjectiveMultimap}

/-- `fd` is marked close and no entry's dest. -/
def ToClose (m : InjectiveMultimap) (fd : Nat) : Prop :=
  (∃ e ∈ m, e.close ∧ e.source = fd) ∧ ∀ e ∈ m, e.dest ≠ fd

/-- What the caller expects of the table after the call. -/
structure Performed (T₀ : Table F) (m : InjectiveMultimap) (s : State F) : Prop where
  dests : ∀ e ∈ m, s.table e.dest = T₀ e.source
  sources : ∀ fd, ToClose m fd → s.table fd = none
  others : s.duplicates ≤ kMaxExtraFDs → ∀ fd, (∀ e ∈ m, e.dest ≠ fd) →
    (∀ e ∈ m, e.close → e.source ≠ fd) → s.table fd = T₀ fd

def temporariesNeeded : InjectiveMultimap → Nat
  | [] => 0
  | i :: later => (if NeedsTemp i later then 1 else 0) + temporariesNeeded later

/-- `j`, later than the identity `p`, does not share its source with a close flag involved. -/
def Unshared (p j : InjectionArc) : Prop :=
  p.source = p.dest → j.source = p.source → p.close = false ∧ j.close = false

/-- The two conditions under which the loop keeps its invariant. -/
structure Safe (T₀ : Table F) (m : InjectiveMultimap) : Prop where
  unshared : m.Pairwise Unshared
  destsOpen : ∀ done i later, m = done ++ i :: later → NeedsTemp i later →
    ∀ j ∈ later, T₀ j.dest ≠ none

/-- From the seventeenth temporary on, every source to be closed is still to be read. -/
def LeaksHarmless (m : InjectiveMultimap) : Prop :=
  ∀ done i later, m = done ++ i :: later → NeedsTemp i later →
    temporariesNeeded (i :: later) + kMaxExtraFDs ≤ temporariesNeeded m →
    ∀ fd, ToClose m fd → ∃ j ∈ i :: later, j.source = fd

/-- The invariant of the loop over the arcs. -/
structure Shuffled (d : Delegate) (T₀ : Table F) (m done rest cur : List InjectionArc)
    (s : State F) : Prop extends Tracked d T₀ m done rest cur s where
  doneDests : ∀ e ∈ done, s.table e.dest = T₀ e.source
  restDests : ∀ e ∈ rest, s.table e.dest = T₀ e.dest
  tempsNoDests : ∀ t, d.Answered s.duplicates t → ∀ e ∈ m, e.dest ≠ t
  tempsNew : ∀ t, d.Answered s.duplicates t →
    T₀ t = none ∨ ∃ e ∈ m, e.close ∧ e.source = t
  others : ∀ fd, (∀ e ∈ m, e.dest ≠ fd) → (∀ e ∈ m, e.close → e.source ≠ fd) →
    ¬d.Answered s.duplicates fd → s.table fd = T₀ fd
  flagged : ∀ j ∈ cur, j.close → ∀ e ∈ done, e.dest ≠ j.source
  unshared : cur.Pairwise Unshared
  closing : ∀ fd, ToClose m fd →
    (∃ j ∈ cur, j.close ∧ j.source = fd) ∨ s.table fd = none ∨ d.Answered s.duplicates fd
  count : s.duplicates + temporariesNeeded rest = temporariesNeeded m

theorem Shuffled.start (hsafe : Safe T₀ m) : Shuffled d T₀ m [] m m ⟨T₀, 0, 0, []⟩ where
  split := rfl
  arcs := Tracks.start
  doneDests := by simp
  restDests := fun e _ => rfl
  tempsNoDests := fun t ht => absurd ht Delegate.answered_zero
  tempsNew := fun t ht => absurd ht Delegate.answered_zero
  others := fun fd _ _ _ => rfl
  flagged := by simp
  unshared := hsafe.unshared
  closing := fun fd hfd => .inl hfd.1
  count := Nat.zero_add _

/-! ## What a redirection changes -/

variable {i : InjectionArc} {later later₁ : List InjectionArc} {s s₁ : State F}

section

variable (h : Redirected d i later s later₁ s₁)
include h

theorem Redirected.duplicates :
    s₁.duplicates = s.duplicates + if NeedsTemp i later then 1 else 0 := by
  cases h with
  | untouched hneed => simp [hneed]
  | duplicated temp file hneed => simp [hneed]

theorem Redirected.of_identity (hid : i.source = i.dest) : later₁ = later := by
  cases h with
  | untouched hneed => rfl
  | duplicated temp file hneed => exact absurd hid hneed.1

theorem Redirected.answered {t : Nat} (ht : d.Answered s₁.duplicates t) :
    d.Answered s.duplicates t ∨ NeedsTemp i later ∧ s.table t = none ∧
      d.duplicate s.duplicates = some t := by
  cases h with
  | untouched hneed => exact .inl ht
  | duplicated temp file hneed hans hfile hnew =>
    rw [duplicated_duplicates, Delegate.answered_succ] at ht
    refine ht.imp id fun ht => ?_
    cases hans.symm.trans ht
    exact ⟨hneed, hnew, ht⟩

theorem Redirected.answered_mono {t : Nat}
    (ht : d.Answered s.duplicates t) : d.Answered s₁.duplicates t := by
  obtain ⟨k, hk, hd⟩ := ht
  exact ⟨k, by rw [h.duplicates]; omega, hd⟩

theorem Redirected.table_of_open {fd : Nat}
    (hfd : s.table fd ≠ none) : s₁.table fd = s.table fd := by
  cases h with
  | untouched hneed => rfl
  | duplicated temp file _ _ _ hnew =>
    rw [duplicated_table, Function.update_of_ne]
    exact fun heq => hfd (heq ▸ hnew)

theorem Redirected.table_of_not_answered {fd : Nat}
    (hfd : ¬d.Answered s₁.duplicates fd) : s₁.table fd = s.table fd := by
  cases h with
  | untouched hneed => rfl
  | duplicated temp file _ hans =>
    rw [duplicated_table, Function.update_of_ne]
    rintro rfl
    exact hfd ⟨s.duplicates, by simp, hans⟩

end

variable {j : InjectionArc}

/-- A redirected arc keeps its dest, and is flagged only if it was and kept its source. -/
theorem Redirected.later_mem (h : Redirected d i later s later₁ s₁) (hj : j ∈ later₁) :
    ∃ k ∈ later, j.dest = k.dest ∧ (j.close → k.close ∧ j.source = k.source) := by
  cases h with
  | untouched hneed => exact ⟨j, hj, rfl, fun hc => ⟨hc, rfl⟩⟩
  | duplicated temp file =>
    obtain ⟨k, hk, rfl⟩ := mem_map.mp hj
    refine ⟨k, hk, redirect_dest .., fun hc => ?_⟩
    unfold redirect at hc ⊢
    split at hc
    · cases hc
    · rename_i hne
      exact ⟨hc, by rw [if_neg hne]⟩

theorem Redirected.mem_of_ne (h : Redirected d i later s later₁ s₁) (hj : j ∈ later)
    (hne : j.source ≠ i.dest) : j ∈ later₁ := by
  cases h with
  | untouched hneed => exact hj
  | duplicated temp file => exact mem_map.mpr ⟨j, hj, by simp [redirect, hne.symm]⟩

variable {js js' : List InjectionArc}

theorem HandedOver.mem_flagged {source : Nat} {close close' : Bool}
    (h : HandedOver source js close close' js') (hj : j ∈ js') (hclose : j.close = true) :
    (∃ k ∈ js, k.close ∧ k.source = j.source) ∨ close = true ∧ j.source = source := by
  cases h with
  | passed pre q post hjs hpre hdest hsrc =>
    subst hjs
    rcases mem_append.mp hj with hj | hj
    · exact .inl ⟨j, mem_append_left _ hj, hclose, rfl⟩
    · rcases mem_cons.mp hj with rfl | hj
      · exact .inr ⟨rfl, hsrc⟩
      · exact .inl ⟨j, by simp [hj], hclose, rfl⟩
  | _ => exact .inl ⟨j, hj, hclose, rfl⟩

theorem HandedOver.flagged_mem {source : Nat} {close close' : Bool}
    (h : HandedOver source js close close' js') (hj : j ∈ js) (hclose : j.close = true) :
    ∃ k ∈ js', k.close ∧ k.source = j.source := by
  cases h with
  | passed pre q post hjs hpre hdest hsrc =>
    subst hjs
    rcases mem_append.mp hj with hj | hj
    · exact ⟨j, mem_append_left _ hj, hclose, rfl⟩
    · rcases mem_cons.mp hj with rfl | hj
      · exact ⟨_, mem_append_right _ mem_cons_self, rfl, rfl⟩
      · exact ⟨j, by simp [hj], hclose, rfl⟩
  | _ => exact ⟨j, hj, hclose, rfl⟩

theorem HandedOver.unshared {source : Nat} {close close' : Bool}
    (h : HandedOver source js close close' js') (hjs : js.Pairwise Unshared) :
    js'.Pairwise Unshared := by
  cases h with
  | passed pre q post heq hpre hdest hsrc =>
    subst heq
    obtain ⟨hl, hr, hlr⟩ := pairwise_append.mp hjs
    obtain ⟨hq, hpost⟩ := pairwise_cons.mp hr
    refine pairwise_append.mpr ⟨hl, pairwise_cons.mpr ⟨fun k hk hid => ?_, hpost⟩,
      fun p hp k hk => ?_⟩
    · exact absurd (hid.symm.trans hsrc) hdest
    · rcases mem_cons.mp hk with rfl | hk
      · exact fun _ hshare => absurd (hshare.symm.trans hsrc) (hpre p hp).2
      · exact hlr p hp k (mem_cons_of_mem q hk)
  | _ => exact hjs

section Flags

variable {i : InjectionArc} {later later₁ later' : List InjectionArc} {s s₁ s' : State F}
  {close : Bool} (hred : Redirected d i later s later₁ s₁)
  (hover : HandedOver i.source later₁ i.close close later') (hmoved : Moved i close s₁ s')

include hred hover hmoved

/-- A flag on a source that is no dest from here on is passed on, or used now. -/
theorem flag_step {fd : Nat} (hdest : fd ≠ i.dest) (hlater : ∀ k ∈ later, k.dest ≠ fd)
    (hflag : ∃ j ∈ i :: later, j.close ∧ j.source = fd) :
    (∃ j ∈ later', j.close ∧ j.source = fd) ∨ s'.table fd = none := by
  obtain ⟨j, hj, hclose, hsrc⟩ := hflag
  rcases mem_cons.mp hj with rfl | hj
  · rw [hclose] at hover
    cases hover with
    | kept => exact .inr (hsrc ▸ hmoved.table_source (hsrc ▸ hdest))
    | overwritten k hk hkd =>
      obtain ⟨q, hq, hqd, -⟩ := hred.later_mem hk
      exact absurd (hqd.symm.trans (hkd.trans hsrc)) (hlater q hq)
    | passed pre q post hjs hpre hqd hqs =>
      exact .inl ⟨_, mem_append_right pre mem_cons_self, rfl, hqs.trans hsrc⟩
  · have hj₁ : j ∈ later₁ := hred.mem_of_ne hj (hsrc ▸ hdest)
    obtain ⟨k, hk, hkc, hks⟩ := hover.flagged_mem hj₁ hclose
    exact .inl ⟨k, hk, hkc, hks.trans hsrc⟩

omit hover in
theorem closed_step {fd : Nat} (hdest : fd ≠ i.dest) (hnew : ¬d.Answered s₁.duplicates fd)
    (hshut : s.table fd = none) : s'.table fd = none := by
  by_cases hkept : close = true ∧ fd = i.source ∧ i.source ≠ i.dest
  · obtain ⟨rfl, rfl, hne⟩ := hkept
    exact hmoved.table_source hne
  · rw [hmoved.table_of_ne (fun _ => hdest) fun hne hc heq => hkept ⟨hc, heq, hne⟩,
      hred.table_of_not_answered hnew, hshut]

end Flags

/-! ## One round keeps the invariant -/

variable {p : InjectionArc}

section Round

variable {done rest later later₁ later' : List InjectionArc} {e i : InjectionArc}
  {s s₁ s' : State F} {close : Bool}

/-- One round of the loop from a state in the invariant, seen from inside. -/
structure Round (d : Delegate) (T₀ : Table F) (m done rest later later₁ later' : List InjectionArc)
    (e i : InjectionArc) (s s₁ s' : State F) (close : Bool) : Prop where
  nodup : (m.map (·.dest)).Nodup
  isOpen : ∀ p ∈ m, T₀ p.source ≠ none
  safe : Safe T₀ m
  inv : Shuffled d T₀ m done (e :: rest) (i :: later) s
  redirected : Redirected d i later s later₁ s₁
  handedOver : HandedOver i.source later₁ i.close close later'
  moved : Moved i close s₁ s'

section

variable (hnodup : (m.map (·.dest)).Nodup)
include hnodup

theorem dests_of_split (hsplit : m = done ++ e :: rest) :
    (∀ p ∈ done, p.dest ≠ e.dest) ∧ (∀ p ∈ rest, p.dest ≠ e.dest) := by
  subst hsplit
  rw [map_append, map_cons, nodup_append] at hnodup
  obtain ⟨-, hrest, hdisj⟩ := hnodup
  refine ⟨fun p hp => ?_, fun p hp heq => ?_⟩
  · exact hdisj _ (mem_map_of_mem hp) _ mem_cons_self
  · exact (nodup_cons.mp hrest).1 (heq ▸ mem_map_of_mem hp)

theorem Shuffled.source_eq_iff {cur : List InjectionArc}
    (inv : Shuffled d T₀ m done (e :: rest) cur s) (h : Tracks d T₀ m (done.map (·.dest)) s p j) :
    j.source = e.dest ↔ p.source = e.dest := by
  rcases h.source with ⟨heq, -⟩ | ⟨ht, hdone, -⟩
  · rw [heq]
  · -- a temporary is no dest, and an overwritten source is the dest of an earlier entry
    have hj : j.source ≠ e.dest := fun heq =>
      inv.tempsNoDests _ ht e (by rw [inv.split]; simp) heq.symm
    have hp : p.source ≠ e.dest := by
      obtain ⟨q, hq, hqd⟩ := mem_map.mp hdone
      exact fun heq => (dests_of_split hnodup inv.split).1 q hq (hqd.trans heq)
    exact ⟨fun h => absurd h hj, fun h => absurd h hp⟩

/-- An arc needs a temporary exactly when its entry does. -/
theorem Shuffled.needsTemp_iff (inv : Shuffled d T₀ m done (e :: rest) (i :: later) s) :
    NeedsTemp i later ↔ NeedsTemp e rest := by
  obtain ⟨hi, hlater⟩ := forall₂_cons.mp inv.arcs
  unfold NeedsTemp
  rw [hi.dest]
  refine and_congr (not_congr (inv.source_eq_iff hnodup hi)) ⟨?_, ?_⟩
  · rintro ⟨j, hj, hjs⟩
    obtain ⟨p, hp, htr⟩ := forall₂_exists_left hlater hj
    exact ⟨p, hp, (inv.source_eq_iff hnodup htr).mp hjs⟩
  · rintro ⟨p, hp, hps⟩
    obtain ⟨j, hj, htr⟩ := forall₂_exists_right hlater hp
    exact ⟨j, hj, (inv.source_eq_iff hnodup htr).mpr hps⟩

end

namespace Round

variable (r : Round d T₀ m done rest later later₁ later' e i s s₁ s' close)
include r

theorem tracks :
    Tracks d T₀ m (done.map (·.dest)) s e i ∧
      List.Forall₂ (Tracks d T₀ m (done.map (·.dest)) s) rest later :=
  forall₂_cons.mp r.inv.arcs

theorem dest_eq : i.dest = e.dest :=
  r.tracks.1.dest

/-- A later arc has the dest of a later entry. -/
theorem later_dest (hj : j ∈ later) : ∃ p ∈ rest, p.dest = j.dest := by
  obtain ⟨p, hp, htr⟩ := forall₂_exists_left r.tracks.2 hj
  exact ⟨p, hp, htr.dest.symm⟩

theorem mem_of_rest (hp : p ∈ rest) : p ∈ m := by
  rw [r.inv.split]
  exact mem_append_right done (mem_cons_of_mem e hp)

theorem mem_of_done (hp : p ∈ done) : p ∈ m := by
  rw [r.inv.split]
  exact mem_append_left (e :: rest) hp

theorem needsTemp_iff : NeedsTemp i later ↔ NeedsTemp e rest :=
  r.inv.needsTemp_iff r.nodup

theorem tempsNoDests (t : Nat) (ht : d.Answered s₁.duplicates t) : ∀ p ∈ m, p.dest ≠ t := by
  rcases r.redirected.answered ht with ht | ⟨hneed, hnew, -⟩
  · exact r.inv.tempsNoDests t ht
  · rintro p hp rfl
    rw [r.inv.split] at hp
    rcases mem_append.mp hp with hp | hp
    · exact r.isOpen p (r.mem_of_done hp) ((r.inv.doneDests p hp).symm.trans hnew)
    · rcases mem_cons.mp hp with rfl | hp
      · obtain ⟨-, j, hj, hjs⟩ := hneed
        obtain ⟨q, -, htr⟩ := forall₂_exists_left r.tracks.2 hj
        exact htr.isOpen r.isOpen (by rw [hjs, r.dest_eq]; exact hnew)
      · exact r.safe.destsOpen done e rest r.inv.split (r.needsTemp_iff.mp hneed) p hp
          ((r.inv.restDests p (mem_cons_of_mem e hp)).symm.trans hnew)

theorem tempsNew (t : Nat) (ht : d.Answered s₁.duplicates t) :
    T₀ t = none ∨ ∃ p ∈ m, p.close ∧ p.source = t := by
  by_cases hold : d.Answered s.duplicates t
  · exact r.inv.tempsNew t hold
  · by_cases hcl : ∃ p ∈ m, p.close ∧ p.source = t
    · exact .inr hcl
    · obtain ⟨-, hnew, -⟩ := (r.redirected.answered ht).resolve_left hold
      refine .inl ((r.inv.others t (r.tempsNoDests t ht) ?_ hold).symm.trans hnew)
      exact fun p hp hc hs => hcl ⟨p, hp, hc, hs⟩

theorem later₁_dest (hp : p ∈ rest) : ∃ j ∈ later₁, j.dest = p.dest := by
  obtain ⟨j, hj, htr⟩ := forall₂_exists_right
    (r.redirected.tracks r.isOpen r.tracks.1 r.tracks.2).2 hp
  exact ⟨j, hj, htr.dest⟩

theorem doneDests : ∀ p ∈ done ++ [e], s'.table p.dest = T₀ p.source := by
  intro p hp
  rcases mem_append.mp hp with hp | hp
  · have hdest : p.dest ≠ i.dest :=
      r.dest_eq ▸ (dests_of_split r.nodup r.inv.split).1 p hp
    have hsrc : close = true → p.dest ≠ i.source := by
      rintro rfl
      exact r.inv.flagged i mem_cons_self r.handedOver.of_kept.1 p hp
    have hdone := r.inv.doneDests p hp
    have hfile : s.table p.dest ≠ none := hdone ▸ r.isOpen p (r.mem_of_done hp)
    rw [r.moved.table_of_ne (fun _ => hdest) fun _ => hsrc, r.redirected.table_of_open hfile,
      hdone]
  · rw [mem_singleton.mp hp, ← r.dest_eq, r.moved.table_dest]
    exact (r.redirected.tracks r.isOpen r.tracks.1 r.tracks.2).1.file

theorem restDests : ∀ p ∈ rest, s'.table p.dest = T₀ p.dest := by
  intro p hp
  have hdest : p.dest ≠ i.dest :=
    r.dest_eq ▸ (dests_of_split r.nodup r.inv.split).2 p hp
  have hsrc : close = true → p.dest ≠ i.source := by
    rintro rfl
    obtain ⟨j, hj, hjd⟩ := r.later₁_dest hp
    exact hjd ▸ (r.handedOver.of_kept.2.2 j hj).1
  have hold : ¬d.Answered s₁.duplicates p.dest := fun ht =>
    r.tempsNoDests _ ht p (r.mem_of_rest hp) rfl
  rw [r.moved.table_of_ne (fun _ => hdest) fun _ => hsrc,
    r.redirected.table_of_not_answered hold,
    r.inv.restDests p (mem_cons_of_mem e hp)]

theorem others (fd : Nat) (hdest : ∀ p ∈ m, p.dest ≠ fd)
    (hsrc : ∀ p ∈ m, p.close → p.source ≠ fd) (hold : ¬d.Answered s₁.duplicates fd) :
    s'.table fd = T₀ fd := by
  have hi : fd ≠ i.dest := fun heq => hdest e r.tracks.1.member (heq ▸ r.dest_eq.symm)
  have his : close = true → fd ≠ i.source := by
    rintro rfl heq
    obtain ⟨p, hp, hpc, hps⟩ := r.tracks.1.close r.handedOver.of_kept.1
    exact hsrc p hp hpc (hps.trans heq.symm)
  rw [r.moved.table_of_ne (fun _ => hi) fun _ => his, r.redirected.table_of_not_answered hold]
  exact r.inv.others fd hdest hsrc fun ht => hold (r.redirected.answered_mono ht)

theorem flagged : ∀ j ∈ later', j.close → ∀ p ∈ done ++ [e], p.dest ≠ j.source := by
  intro j hj hclose p hp
  -- the flag comes from an arc of this round with the same source
  have hfrom : ∃ k ∈ i :: later, k.close = true ∧ k.source = j.source := by
    rcases r.handedOver.mem_flagged hj hclose with ⟨k, hk, hkc, hks⟩ | ⟨hic, his⟩
    · obtain ⟨q, hq, -, hqc⟩ := r.redirected.later_mem hk
      exact ⟨q, mem_cons_of_mem i hq, (hqc hkc).1, (hqc hkc).2.symm.trans hks⟩
    · exact ⟨i, mem_cons_self, hic, his.symm⟩
  rcases mem_append.mp hp with hp | hp
  · obtain ⟨k, hk, hkc, hks⟩ := hfrom
    exact hks ▸ r.inv.flagged k hk hkc p hp
  · rw [mem_singleton.mp hp, ← r.dest_eq]
    intro hsrc
    obtain ⟨j₁, hj₁, hj₁s, -⟩ := r.handedOver.source_mem hj
    by_cases hid : i.source = i.dest
    · -- an identity shares its source with no flagged arc
      rw [r.redirected.of_identity hid] at hj₁
      have hiu : ∀ k ∈ later, Unshared i k := (pairwise_cons.mp r.inv.unshared).1
      have hsame : i.source = j.source := hid.trans hsrc
      have hi := (hiu j₁ hj₁ hid (hj₁s.trans hsame.symm)).1
      obtain ⟨k, hk, hkc, hks⟩ := hfrom
      rcases mem_cons.mp hk with rfl | hk
      · simp [hi] at hkc
      · simp [(hiu k hk hid (hks.trans hsame.symm)).2] at hkc
    · exact r.redirected.source_ne hid j₁ hj₁ (hj₁s.trans hsrc.symm)

theorem unshared_later₁ : later₁.Pairwise Unshared := by
  have hlater : later.Pairwise Unshared := (pairwise_cons.mp r.inv.unshared).2
  have htemps := r.tempsNoDests
  generalize hs : s₁ = s₂ at htemps
  cases hs ▸ r.redirected with
  | untouched hneed => exact hlater
  | duplicated temp file hneed hans hfile hnew =>
    refine pairwise_map.mpr (hlater.imp_of_mem fun {p j} hp hj hpj => ?_)
    have htemp : ∀ q ∈ m, q.dest ≠ temp := htemps temp ⟨s.duplicates, by simp, hans⟩
    have hpt : p.dest ≠ temp := by
      obtain ⟨q, hq, hqd⟩ := r.later_dest hp
      exact hqd ▸ htemp q (r.mem_of_rest hq)
    have hps : p.source ≠ temp := by
      obtain ⟨q, -, htr⟩ := forall₂_exists_left r.tracks.2 hp
      exact fun heq => htr.isOpen r.isOpen (heq ▸ hnew)
    by_cases hpd : i.dest = p.source
    · intro hid
      simp [redirect, hpd] at hid
      exact absurd hid.symm hpt
    have hp' : redirect i.dest temp p = p := if_neg hpd
    rw [hp']
    by_cases hjd : i.dest = j.source
    · intro hid hshare
      simp [redirect, hjd] at hshare
      exact absurd hshare.symm hps
    · have hj' : redirect i.dest temp j = j := if_neg hjd
      exact hj'.symm ▸ hpj

theorem closing (fd : Nat) (hfd : ToClose m fd) :
    (∃ j ∈ later', j.close ∧ j.source = fd) ∨ s'.table fd = none ∨
      d.Answered s₁.duplicates fd := by
  have hdest : fd ≠ i.dest := fun heq => hfd.2 e r.tracks.1.member (heq ▸ r.dest_eq.symm)
  have hlater : ∀ k ∈ later, k.dest ≠ fd := fun k hk => by
    obtain ⟨p, hp, hpd⟩ := r.later_dest hk
    exact hpd ▸ hfd.2 p (r.mem_of_rest hp)
  rcases r.inv.closing fd hfd with hflag | hshut | ht
  · exact (flag_step r.redirected r.handedOver r.moved hdest hlater hflag).imp id .inl
  · by_cases hnow : d.Answered s₁.duplicates fd
    · exact .inr (.inr hnow)
    · exact .inr (.inl (closed_step r.redirected r.moved hdest hnow hshut))
  · exact .inr (.inr (r.redirected.answered_mono ht))

theorem count : s₁.duplicates + temporariesNeeded rest = temporariesNeeded m := by
  rw [r.redirected.duplicates, ← r.inv.count, temporariesNeeded]
  simp only [r.needsTemp_iff]
  omega

theorem next (hstep : arcStep d i later s = some (later', s')) :
    Shuffled d T₀ m (done ++ [e]) rest later' s' :=
  { Tracked.step r.isOpen r.inv.toTracked hstep with
    doneDests := r.doneDests
    restDests := r.restDests
    tempsNoDests := r.moved.duplicates ▸ r.tempsNoDests
    tempsNew := r.moved.duplicates ▸ r.tempsNew
    others := r.moved.duplicates ▸ r.others
    flagged := r.flagged
    unshared := r.handedOver.unshared r.unshared_later₁
    closing := r.moved.duplicates ▸ r.closing
    count := r.moved.duplicates ▸ r.count }

end Round

end Round

variable {done rest later' : List InjectionArc} {e : InjectionArc}

theorem Shuffled.round {s' : State F} (hnodup : (m.map (·.dest)).Nodup)
    (hopen : ∀ e ∈ m, T₀ e.source ≠ none) (hsafe : Safe T₀ m)
    (inv : Shuffled d T₀ m done (e :: rest) (i :: later) s)
    (h : arcStep d i later s = some (later', s')) :
    ∃ later₁ s₁ close, Round d T₀ m done rest later later₁ later' e i s s₁ s' close := by
  obtain ⟨later₁, s₁, close, hred, hover, hmoved⟩ := arcStep_cases h
  exact ⟨later₁, s₁, close, hnodup, hopen, hsafe, inv, hred, hover, hmoved⟩

theorem Shuffled.step {done rest later later' : List InjectionArc} {e i : InjectionArc}
    {s s' : State F} (hnodup : (m.map (·.dest)).Nodup) (hopen : ∀ e ∈ m, T₀ e.source ≠ none)
    (hsafe : Safe T₀ m) (inv : Shuffled d T₀ m done (e :: rest) (i :: later) s)
    (h : arcStep d i later s = some (later', s')) :
    Shuffled d T₀ m (done ++ [e]) rest later' s' := by
  obtain ⟨later₁, s₁, close, r⟩ := inv.round hnodup hopen hsafe h
  exact r.next h

/-! ## Runs of the loop -/

theorem Tracked.rest_nil (h : Tracked d T₀ m done rest [] s) : rest = [] ∧ done = m := by
  have hrest : rest = [] := forall₂_nil_right_iff.mp h.arcs
  exact ⟨hrest, by rw [h.split, hrest, append_nil]⟩

section Loop

variable {P : List InjectionArc → List InjectionArc → List InjectionArc → State F → Prop}
  (htracked : ∀ done rest cur s, P done rest cur s → Tracked d T₀ m done rest cur s)
  (hstep : ∀ done e rest i later later' s s', P done (e :: rest) (i :: later) s →
    arcStep d i later s = some (later', s') → P (done ++ [e]) rest later' s')

include htracked hstep

theorem arcLoop_tail_length {s' : State F} (hP : P done (e :: rest) (i :: later) s)
    (hs' : arcStep d i later s = some (later', s')) : later'.length = later.length := by
  have hpre := (htracked _ _ _ _ hP).arcs.length_eq
  have hafter := (htracked _ _ _ _ (hstep _ _ _ _ _ _ _ _ hP hs')).arcs.length_eq
  simp only [length_cons] at hpre
  omega

/-- What every round preserves holds when the loop ends. -/
theorem arcLoop_preserves (n : Nat) (done rest cur : List InjectionArc) (s s' : State F)
    (hP : P done rest cur s) (hlen : cur.length ≤ n) (h : arcLoop d n cur s = some s') :
    P m [] [] s' := by
  induction n generalizing done rest cur s with
  | zero =>
    have hcur : cur = [] := length_eq_zero_iff.mp (le_zero.mp hlen)
    subst hcur
    obtain ⟨rfl, rfl⟩ := (htracked _ _ _ _ hP).rest_nil
    cases h
    exact hP
  | succ n ih =>
    cases cur with
    | nil =>
      obtain ⟨rfl, rfl⟩ := (htracked _ _ _ _ hP).rest_nil
      cases h
      exact hP
    | cons i later =>
      obtain ⟨e, rest', -, -, rfl⟩ :=
        forall₂_cons_right_iff.mp (htracked _ _ _ _ hP).arcs
      obtain ⟨⟨later', s₁⟩, hs₁, hrun⟩ := bind_eq_some_iff.mp h
      have htail := arcLoop_tail_length htracked hstep hP hs₁
      refine ih _ _ _ _ (hstep _ _ _ _ _ _ _ _ hP hs₁) ?_ hrun
      rw [htail]
      exact le_of_succ_le_succ hlen

/-- A loop none of whose rounds fails does not fail. -/
theorem arcLoop_completes
    (hprogress : ∀ done e rest i later s, P done (e :: rest) (i :: later) s →
      (arcStep d i later s).isSome) (n : Nat) (done rest cur : List InjectionArc) (s : State F)
    (hP : P done rest cur s) (hlen : cur.length ≤ n) : ∃ s', arcLoop d n cur s = some s' := by
  induction n generalizing done rest cur s with
  | zero =>
    have hcur : cur = [] := length_eq_zero_iff.mp (le_zero.mp hlen)
    subst hcur
    exact ⟨s, rfl⟩
  | succ n ih =>
    cases cur with
    | nil => exact ⟨s, rfl⟩
    | cons i later =>
      obtain ⟨e, rest', -, -, rfl⟩ :=
        forall₂_cons_right_iff.mp (htracked _ _ _ _ hP).arcs
      obtain ⟨⟨later', s₁⟩, hs₁⟩ := isSome_iff_exists.mp (hprogress _ _ _ _ _ _ hP)
      have htail := arcLoop_tail_length htracked hstep hP hs₁
      obtain ⟨s', hs'⟩ := ih _ _ later' s₁ (hstep _ _ _ _ _ _ _ _ hP hs₁) (by
        rw [htail]
        exact le_of_succ_le_succ hlen)
      exact ⟨s', by rw [arcLoop, hs₁]; exact hs'⟩

end Loop

/-! ## The temporaries closed at the end -/

@[simp] theorem closeAll_table (fds : List Nat) (s : State F) (fd : Nat) :
    (s.closeAll fds).table fd = if fd ∈ fds then none else s.table fd := by
  induction fds generalizing s with
  | nil => simp [State.closeAll]
  | cons fd' fds ih =>
    have hcons : s.closeAll (fd' :: fds) = (s.closeFd fd').closeAll fds := rfl
    rw [hcons, ih]
    by_cases hmem : fd ∈ fds
    · simp [hmem]
    · by_cases heq : fd = fd' <;> simp [hmem, heq, State.closeFd]

@[simp] theorem closeAll_duplicates (fds : List Nat) (s : State F) :
    (s.closeAll fds).duplicates = s.duplicates := by
  induction fds generalizing s with
  | nil => rfl
  | cons fd' fds ih => exact ih (s.closeFd fd')

/-- extra_fds are the first answers, as many as it can hold. -/
structure ExtraFds (d : Delegate) (s : State F) : Prop where
  length : s.extraFds.length = min s.duplicates kMaxExtraFDs
  mem : ∀ fd, fd ∈ s.extraFds ↔
    ∃ k < s.duplicates, k < kMaxExtraFDs ∧ d.duplicate k = some fd

theorem ExtraFds.start (T₀ : Table F) : ExtraFds d ⟨T₀, 0, 0, []⟩ where
  length := rfl
  mem := by simp

theorem ExtraFds.duplicated {temp : Nat} {file : F} (h : ExtraFds d s)
    (hans : d.duplicate s.duplicates = some temp) : ExtraFds d (s.duplicated temp file) := by
  by_cases hroom : s.duplicates < kMaxExtraFDs
  · have hextra : (s.duplicated temp file).extraFds = s.extraFds ++ [temp] := by
      have hlen := h.length
      simp only [State.duplicated, State.addExtraFd]
      rw [if_pos (by omega)]
    refine ⟨by rw [hextra, length_append, h.length]; simp; omega, fun fd => ?_⟩
    rw [hextra, mem_append, h.mem, duplicated_duplicates, mem_singleton]
    constructor
    · rintro (⟨k, hk, hmax, hd⟩ | rfl)
      · exact ⟨k, by omega, hmax, hd⟩
      · exact ⟨s.duplicates, by omega, hroom, hans⟩
    · rintro ⟨k, hk, hmax, hd⟩
      rcases Nat.lt_succ_iff_lt_or_eq.mp hk with hk | rfl
      · exact .inl ⟨k, hk, hmax, hd⟩
      · exact .inr (Option.some.inj (hd.symm.trans hans))
  · have hextra : (s.duplicated temp file).extraFds = s.extraFds := by
      have hlen := h.length
      simp only [State.duplicated, State.addExtraFd]
      rw [if_neg (by omega)]
    refine ⟨by rw [hextra, h.length, duplicated_duplicates]; omega, fun fd => ?_⟩
    rw [hextra, h.mem, duplicated_duplicates]
    constructor
    · rintro ⟨k, hk, hmax, hd⟩
      exact ⟨k, by omega, hmax, hd⟩
    · rintro ⟨k, hk, hmax, hd⟩
      exact ⟨k, by omega, hmax, hd⟩

theorem ExtraFds.step {i : InjectionArc} {later later' : List InjectionArc} {s s' : State F}
    (h : ExtraFds d s) (hstep : arcStep d i later s = some (later', s')) : ExtraFds d s' := by
  obtain ⟨later₁, s₁, close, hred, -, hmoved⟩ := arcStep_cases hstep
  have h₁ : ExtraFds d s₁ := by
    cases hred with
    | untouched => exact h
    | duplicated temp file hneed hans => exact h.duplicated hans
  exact ⟨by rw [hmoved.extraFds, hmoved.duplicates]; exact h₁.length,
    by rw [hmoved.extraFds, hmoved.duplicates]; exact h₁.mem⟩

/-- No descriptor to be closed is among the leaked temporaries. -/
def LeaksKept (d : Delegate) (m : InjectiveMultimap) (n : Nat) : Prop :=
  ∀ k < n, kMaxExtraFDs ≤ k → ∀ fd, ToClose m fd → d.duplicate k ≠ some fd

theorem Shuffled.leaksKept {s' : State F} (hnodup : (m.map (·.dest)).Nodup)
    (hopen : ∀ e ∈ m, T₀ e.source ≠ none) (hsafe : Safe T₀ m) (hleaks : LeaksHarmless m)
    (inv : Shuffled d T₀ m done (e :: rest) (i :: later) s)
    (h : arcStep d i later s = some (later', s')) (hkept : LeaksKept d m s.duplicates) :
    LeaksKept d m s'.duplicates := by
  obtain ⟨later₁, s₁, close, r⟩ := inv.round hnodup hopen hsafe h
  rw [r.moved.duplicates]
  intro k hk hmax fd hfd hd
  by_cases hlt : k < s.duplicates
  · exact hkept k hlt hmax fd hfd hd
  · -- a new temporary is not open, the source still to be read is
    rw [r.redirected.duplicates] at hk
    have hneed : NeedsTemp i later := by
      by_contra hno
      rw [if_neg hno] at hk
      omega
    rw [if_pos hneed] at hk
    obtain rfl : k = s.duplicates := by omega
    have hcount := r.inv.count
    obtain ⟨p, hp, hps⟩ := hleaks done e rest r.inv.split (r.needsTemp_iff.mp hneed)
      (by omega) fd hfd
    obtain ⟨j, -, htr⟩ := forall₂_exists_right r.inv.arcs hp
    have hopen := htr.isOpen r.isOpen
    rcases htr.source with ⟨hjs, -⟩ | ⟨-, hdone, -⟩
    · cases r.redirected with
      | untouched hno => exact hno hneed
      | duplicated temp file _ hans _ hnew =>
        obtain rfl : temp = fd := Option.some.inj (hans.symm.trans hd)
        exact hopen (by rw [hjs, hps]; exact hnew)
    · obtain ⟨q, hq, hqd⟩ := mem_map.mp hdone
      exact hfd.2 q (r.mem_of_done hq) (hqd.trans hps)

/-- Under the two conditions every run that returns true does what the caller expects. -/
theorem performed_of_safe (hnodup : (m.map (·.dest)).Nodup) (hopen : ∀ e ∈ m, T₀ e.source ≠ none)
    (hsafe : Safe T₀ m) (hleaks : LeaksHarmless m) (h : performInjectiveMultimap d m T₀ = some s) :
    Performed T₀ m s := by
  obtain ⟨s', hs', rfl⟩ := map_eq_some_iff.mp h
  have hend := arcLoop_preserves
    (P := fun done rest cur s => Shuffled d T₀ m done rest cur s ∧ ExtraFds d s ∧
      LeaksKept d m s.duplicates)
    (fun _ _ _ _ hP => hP.1.toTracked)
    (fun _ _ _ _ _ _ _ _ hP hstep =>
      ⟨hP.1.step hnodup hopen hsafe hstep, hP.2.1.step hstep,
        hP.1.leaksKept hnodup hopen hsafe hleaks hstep hP.2.2⟩)
    m.length [] m m _ s' ⟨Shuffled.start hsafe, ExtraFds.start T₀, by simp [LeaksKept]⟩
    (Nat.le_refl _) hs'
  obtain ⟨inv, hextra, hkept⟩ := hend
  have htemp {fd : Nat} (hfd : fd ∈ s'.extraFds) : d.Answered s'.duplicates fd := by
    obtain ⟨k, hk, -, hd⟩ := (hextra.mem fd).mp hfd
    exact ⟨k, hk, hd⟩
  refine ⟨fun e he => ?_, fun fd hfd => ?_, fun hfew fd hdest hsrc => ?_⟩
  · have hnot : e.dest ∉ s'.extraFds := fun hmem => inv.tempsNoDests _ (htemp hmem) e he rfl
    rw [closeAll_table, if_neg hnot, inv.doneDests e he]
  · rw [closeAll_table]
    split
    · rfl
    · rename_i hnot
      rcases inv.closing fd hfd with ⟨j, hj, -⟩ | hshut | ⟨k, hk, hd⟩
      · cases hj
      · exact hshut
      · by_cases hmax : k < kMaxExtraFDs
        · exact absurd ((hextra.mem fd).mpr ⟨k, hk, hmax, hd⟩) hnot
        · exact absurd hd (hkept k hk (Nat.le_of_not_lt hmax) fd hfd)
  · rw [closeAll_duplicates] at hfew
    rw [closeAll_table]
    split
    · rename_i hmem
      refine ((inv.tempsNew fd (htemp hmem)).resolve_right ?_).symm
      rintro ⟨e, he, hc, hs⟩
      exact hsrc e he hc hs
    · rename_i hnot
      refine inv.others fd hdest hsrc ?_
      rintro ⟨k, hk, hd⟩
      exact hnot ((hextra.mem fd).mpr ⟨k, hk, by omega, hd⟩)

end ChromiumUI.Shuffle
