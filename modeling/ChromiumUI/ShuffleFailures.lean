import ChromiumUI.ShuffleOutcome

/-!
# Where the shuffle goes wrong

For entries outside the condition, a delegate that numbers its answers upwards from an
unused bound, but for at most one, makes the call return true with a wrong table.
-/
namespace ChromiumUI.Shuffle

open List Option Nat Delegate

variable {F : Type*} {d : Delegate} {T₀ : Table F} {m : InjectiveMultimap}

/-- Answers `bound`, `bound + 1`, ... but for the call `at`, which it answers with `fd`. -/
def Delegate.upFrom (bound call fd : Nat) : Delegate where
  duplicate := fun k => some (if k = call then fd else bound + k)
  move := fun _ => true

/-- The bound is above every descriptor of the table and every dest. -/
structure Above (bound : Nat) (T₀ : Table F) (m : InjectiveMultimap) : Prop where
  table : ∀ fd, bound ≤ fd → T₀ fd = none
  dests : ∀ e ∈ m, e.dest < bound

theorem exists_above (hfin : ∃ bound, ∀ fd, bound ≤ fd → T₀ fd = none)
    (m : InjectiveMultimap) : ∃ bound, Above bound T₀ m := by
  obtain ⟨bound, hbound⟩ := hfin
  induction m with
  | nil => exact ⟨bound, hbound, by simp⟩
  | cons e m ih =>
    obtain ⟨b, hb⟩ := ih
    refine ⟨max b (e.dest + 1), fun fd hfd => hb.table fd (by omega), fun j hj => ?_⟩
    rcases mem_cons.mp hj with rfl | hj
    · omega
    · have := hb.dests j hj
      omega

variable {bound : Nat}

theorem Above.open_lt {fd : Nat} (h : Above bound T₀ m) (hfd : T₀ fd ≠ none) : fd < bound := by
  by_contra hlt
  exact hfd (h.table fd (Nat.le_of_not_lt hlt))

/-- Numbers not answered yet are not open. -/
def Room (bound : Nat) (s : State F) : Prop :=
  ∀ fd, bound + s.duplicates ≤ fd → s.table fd = none

variable {i : InjectionArc} {later : List InjectionArc} {s : State F}

theorem arcStep_isSome (hmove : ∀ k, d.move k = true) (hi : s.table i.source ≠ none)
    (hneed : NeedsTemp i later → s.table i.dest ≠ none ∧
      ∃ temp, d.duplicate s.duplicates = some temp ∧ s.table temp = none) :
    (arcStep d i later s).isSome := by
  have hmoved (s₁ : State F) (h₁ : s₁.table i.source ≠ none) :
      (if i.source ≠ i.dest then d.runMove i.source i.dest s₁ else some s₁).isSome := by
    split
    · obtain ⟨file, hfile⟩ := ne_none_iff_exists'.mp h₁
      simp [runMove, hfile, hmove]
    · rfl
  unfold arcStep
  by_cases hn : NeedsTemp i later
  · obtain ⟨hdest, temp, hans, hnew⟩ := hneed hn
    obtain ⟨file, hfile⟩ := ne_none_iff_exists'.mp hdest
    have hne : i.source ≠ temp := fun heq => hi (heq ▸ hnew)
    rw [innerLoop_of_need d hn.1 hn.2]
    simp only [runDuplicate, hans, hfile, hnew, isNone_none, if_true,
      map_some, bind_some, isSome_map]
    exact hmoved _ (by simpa [hne] using hi)
  · have hno : i.source = i.dest ∨ ∀ j ∈ later, j.source ≠ i.dest := by
      by_cases hid : i.source = i.dest
      · exact .inl hid
      · exact .inr fun j hj hs => hn ⟨hid, j, hj, hs⟩
    rw [innerLoop_of_no_need d hno]
    simp only [bind_some, isSome_map]
    exact hmoved s hi

section UpFrom

variable {bound call fd : Nat} {done rest later later' : List InjectionArc}
  {e i : InjectionArc} {s s' : State F}

theorem Room.start (habove : Above bound T₀ m) : Room bound (⟨T₀, 0, 0, []⟩ : State F) :=
  fun fd hfd => habove.table fd hfd

theorem Room.step (habove : Above bound T₀ m) (hfd : fd ≤ bound + call)
    (inv : Tracked (upFrom bound call fd) T₀ m done (e :: rest) (i :: later) s)
    (h : arcStep (upFrom bound call fd) i later s = some (later', s'))
    (hroom : Room bound s) : Room bound s' := by
  obtain ⟨later₁, s₁, close, hred, -, hmoved⟩ := arcStep_cases h
  have hi := (forall₂_cons.mp inv.arcs).1
  intro fd' hfd'
  rw [hmoved.duplicates] at hfd'
  have hdest : fd' ≠ i.dest := by
    have := habove.dests e hi.member
    rw [hi.dest]
    omega
  have hle := hred.duplicates
  have hshut : s.table fd' = none := hroom fd' (by omega)
  refine closed_step hred hmoved hdest ?_ hshut
  rintro ⟨k, hk, hd⟩
  simp only [upFrom, Option.some.injEq] at hd
  split at hd <;> omega

theorem Room.progress (hopen : ∀ e ∈ m, T₀ e.source ≠ none)
    (inv : Tracked (upFrom bound call fd) T₀ m done (e :: rest) (i :: later) s)
    (hroom : Room bound s) (hcall : NeedsTemp i later → s.duplicates = call → s.table fd = none) :
    (arcStep (upFrom bound call fd) i later s).isSome := by
  obtain ⟨hi, hlater⟩ := forall₂_cons.mp inv.arcs
  refine arcStep_isSome (fun _ => rfl) (hi.isOpen hopen) fun hneed => ⟨?_, _, rfl, ?_⟩
  · obtain ⟨-, j, hj, hjs⟩ := hneed
    obtain ⟨p, -, htr⟩ := forall₂_exists_left hlater hj
    exact hjs ▸ htr.isOpen hopen
  · split
    · rename_i heq
      exact hcall hneed heq
    · exact hroom _ (Nat.le_refl _)

theorem upFrom_answered_lt {n k : Nat} (hk : k < bound)
    (h : (upFrom bound call fd).Answered n k) : k = fd ∧ call < n := by
  obtain ⟨a, ha, hd⟩ := h
  simp only [upFrom, Option.some.injEq] at hd
  split at hd
  · rename_i heq
    exact ⟨hd.symm, heq ▸ ha⟩
  · omega

end UpFrom

/-! ## An identity sharing its source -/

/-- The invariant once the identity at this split is reached: its descriptor will be closed. -/
def Doomed (p : InjectionArc) (tail : List InjectionArc) (done rest cur : List InjectionArc)
    (s : State F) : Prop :=
  (∃ mid, rest = mid ++ p :: tail) ∨
    p ∈ done ∧ ((∃ j ∈ cur, j.close ∧ j.source = p.dest) ∨ s.table p.dest = none)

variable {e : InjectionArc}

theorem Tracks.source_of_not_dest {dests : List Nat} {j : InjectionArc}
    (h : Tracks d T₀ m dests s e j) (hne : e.source ∉ dests) :
    j.source = e.source ∧ (e.close → j.close) := by
  rcases h.source with ⟨hs, -, hc⟩ | ⟨-, hm, -⟩
  · exact ⟨hs, hc⟩
  · exact absurd hm hne

theorem Doomed.step {p : InjectionArc} {tail done rest later later' : List InjectionArc}
    {e i : InjectionArc} {s s' : State F} (hnodup : (m.map (·.dest)).Nodup)
    (hid : p.source = p.dest)
    (hshare : ∃ j ∈ tail, j.source = p.source ∧ (p.close = true ∨ j.close = true))
    (inv : Tracked d T₀ m done (e :: rest) (i :: later) s) (hnew : ¬d.Answered s'.duplicates p.dest)
    (h : arcStep d i later s = some (later', s'))
    (hdoom : Doomed p tail done (e :: rest) (i :: later) s) :
    Doomed p tail (done ++ [e]) rest later' s' := by
  obtain ⟨later₁, s₁, close, hred, hover, hmoved⟩ := arcStep_cases h
  obtain ⟨hi, hlater⟩ := forall₂_cons.mp inv.arcs
  obtain ⟨hdone, hrest⟩ := dests_of_split hnodup inv.split
  rw [hmoved.duplicates] at hnew
  rcases hdoom with ⟨mid, hmid⟩ | ⟨hp, hdoom⟩
  · cases mid with
    | cons x mid => exact .inl ⟨mid, (List.cons.inj hmid).2⟩
    | nil =>
      obtain ⟨rfl, rfl⟩ := List.cons.inj hmid
      -- the sources of `p` and of the arc sharing it are still the original ones
      have hnot : e.dest ∉ done.map (·.dest) := by
        intro hm
        obtain ⟨q, hq, hqd⟩ := mem_map.mp hm
        exact hdone q hq hqd
      obtain ⟨q, hq, hqs, hflag⟩ := hshare
      obtain ⟨j, hj, htr⟩ := forall₂_exists_right hlater hq
      obtain ⟨his, hic⟩ := hi.source_of_not_dest (hid.symm ▸ hnot)
      obtain ⟨hjs, hjc⟩ := htr.source_of_not_dest (hqs.trans hid ▸ hnot)
      have hisrc : i.source = e.dest := his.trans hid
      have hjsrc : j.source = e.dest := hjs.trans (hqs.trans hid)
      have hlater₁ : later₁ = later := hred.of_identity (hisrc.trans hi.dest.symm)
      refine .inr ⟨mem_append_right done mem_cons_self, .inl ?_⟩
      rcases hflag with hpc | hqc
      · -- the flag of the identity is passed to an arc with its source
        rw [hic hpc, hlater₁] at hover
        cases hover with
        | kept hjs' => exact absurd (hjsrc.trans hisrc.symm) (hjs' j hj).2
        | overwritten k hk hkd =>
          obtain ⟨x, hx, hxtr⟩ := forall₂_exists_left hlater hk
          exact absurd (hxtr.dest.symm.trans (hkd.trans hisrc)) (hrest x hx)
        | passed pre k post hsplit hpre hkd hks =>
          exact ⟨_, mem_append_right pre mem_cons_self, rfl, hks.trans hisrc⟩
      · obtain ⟨k, hk, hkc, hks⟩ := hover.flagged_mem (hlater₁ ▸ hj) (hjc hqc)
        exact ⟨k, hk, hkc, hks.trans hjsrc⟩
  · have hdest : p.dest ≠ i.dest := hi.dest ▸ hdone p hp
    have hlaterd : ∀ k ∈ later, k.dest ≠ p.dest := by
      intro k hk heq
      obtain ⟨x, hx, hxtr⟩ := forall₂_exists_left hlater hk
      obtain ⟨a, b, hab⟩ := append_of_mem hx
      have hsplit : m = (done ++ e :: a) ++ x :: b := by rw [inv.split, hab]; simp
      exact (dests_of_split hnodup hsplit).1 p (mem_append_left _ hp)
        (heq.symm.trans hxtr.dest)
    refine .inr ⟨mem_append_left [e] hp, ?_⟩
    rcases hdoom with hflag | hshut
    · exact flag_step hred hover hmoved hdest hlaterd hflag
    · exact .inr (closed_step hred hmoved hdest hnew hshut)

theorem pairwise_of_splits {α : Type*} {R : α → α → Prop} {l : List α}
    (h : ∀ pre a tail, l = pre ++ a :: tail → ∀ b ∈ tail, R a b) : l.Pairwise R := by
  induction l with
  | nil => exact .nil
  | cons a l ih =>
    refine pairwise_cons.mpr ⟨h [] a l rfl, ih fun pre b tail heq => ?_⟩
    exact h (a :: pre) b tail (by rw [heq]; rfl)

/-- A run of the loop that returns true, from the start, with what its rounds preserve. -/
theorem perform_exists (call fd : Nat) (hopen : ∀ e ∈ m, T₀ e.source ≠ none)
    (habove : Above bound T₀ m) (hfd : fd ≤ bound + call)
    {P : List InjectionArc → List InjectionArc → List InjectionArc → State F → Prop}
    (htracked : ∀ done rest cur s, P done rest cur s →
      Tracked (upFrom bound call fd) T₀ m done rest cur s)
    (hstep : ∀ done e rest i later later' s s', P done (e :: rest) (i :: later) s →
      arcStep (upFrom bound call fd) i later s = some (later', s') →
      P (done ++ [e]) rest later' s')
    (hcall : ∀ done e rest i later s, P done (e :: rest) (i :: later) s → Room bound s →
      NeedsTemp i later → s.duplicates = call → s.table fd = none)
    (hstart : P [] m m ⟨T₀, 0, 0, []⟩) :
    ∃ s, P m [] [] s ∧ ExtraFds (upFrom bound call fd) s ∧
      performInjectiveMultimap (upFrom bound call fd) m T₀ =
        some (s.closeAll s.extraFds) := by
  have htr : ∀ done rest cur s, (P done rest cur s ∧ Room bound s ∧
      ExtraFds (upFrom bound call fd) s) →
      Tracked (upFrom bound call fd) T₀ m done rest cur s :=
    fun _ _ _ _ hP => htracked _ _ _ _ hP.1
  have hround : ∀ done e rest i later later' s s', (P done (e :: rest) (i :: later) s ∧
      Room bound s ∧ ExtraFds (upFrom bound call fd) s) →
      arcStep (upFrom bound call fd) i later s = some (later', s') →
      P (done ++ [e]) rest later' s' ∧ Room bound s' ∧
        ExtraFds (upFrom bound call fd) s' :=
    fun _ _ _ _ _ _ _ _ hP h =>
      ⟨hstep _ _ _ _ _ _ _ _ hP.1 h,
        hP.2.1.step habove hfd (htracked _ _ _ _ hP.1) h, hP.2.2.step h⟩
  have hinit : P [] m m ⟨T₀, 0, 0, []⟩ ∧ Room bound (⟨T₀, 0, 0, []⟩ : State F) ∧
      ExtraFds (upFrom bound call fd) ⟨T₀, 0, 0, []⟩ :=
    ⟨hstart, Room.start habove, ExtraFds.start T₀⟩
  obtain ⟨s, hs⟩ := arcLoop_completes htr hround
    (fun _ _ _ _ _ _ hP => hP.2.1.progress hopen (htracked _ _ _ _ hP.1)
      (hcall _ _ _ _ _ _ hP.1 hP.2.1))
    m.length [] m m _ hinit (Nat.le_refl _)
  have hend := arcLoop_preserves htr hround m.length [] m m _ s hinit (Nat.le_refl _) hs
  exact ⟨s, hend.1, hend.2.2, by rw [performInjectiveMultimap, hs]; rfl⟩

variable {pre : List InjectionArc}

theorem not_performed_of_shared (hnodup : (m.map (·.dest)).Nodup)
    (hopen : ∀ e ∈ m, T₀ e.source ≠ none) (habove : Above bound T₀ m) {tail : List InjectionArc}
    {p : InjectionArc} (hsplit : m = pre ++ p :: tail) (hid : p.source = p.dest)
    (hshare : ∃ j ∈ tail, j.source = p.source ∧ (p.close = true ∨ j.close = true)) :
    ∃ (d : Delegate) (s : State F), performInjectiveMultimap d m T₀ = some s ∧
      ¬Performed T₀ m s := by
  have hp : p ∈ m := by simp [hsplit]
  have hpb : p.dest < bound := habove.dests p hp
  have hnew (n : Nat) : ¬(upFrom bound 0 bound).Answered n p.dest := fun h => by
    have := (upFrom_answered_lt hpb h).1
    omega
  obtain ⟨s, ⟨htr, hdoom⟩, -, hs⟩ := perform_exists 0 bound hopen habove
    (Nat.le_refl _)
    (P := fun done rest cur s =>
      Tracked (upFrom bound 0 bound) T₀ m done rest cur s ∧
        Doomed p tail done rest cur s)
    (fun _ _ _ _ hP => hP.1)
    (fun _ _ _ _ _ _ _ _ hP h => ⟨hP.1.step hopen h, hP.2.step hnodup hid hshare hP.1 (hnew _) h⟩)
    (fun _ _ _ _ _ s _ hroom _ hcall => hroom bound (by omega))
    ⟨⟨rfl, Tracks.start⟩, .inl ⟨pre, hsplit⟩⟩
  refine ⟨_, _, hs, fun hperf => hopen p hp ?_⟩
  have hshut : s.table p.dest = none := by
    rcases hdoom with ⟨mid, hmid⟩ | ⟨-, ⟨j, hj, -⟩ | hshut⟩
    · simp at hmid
    · cases hj
    · exact hshut
  rw [← hperf.dests p hp, closeAll_table, hshut, ite_self]

/-! ## A temporary that is a later dest -/

/-- Until the first temporary is asked for, the sources are the original ones. -/
theorem Tracks.source_of_first {dests : List Nat} {j : InjectionArc} (h : Tracks d T₀ m dests s e j)
    (hnone : s.duplicates = 0) : j.source = e.source := by
  rcases h.source with ⟨hs, -⟩ | ⟨ht, -⟩
  · exact hs
  · rw [hnone] at ht
    exact absurd ht answered_zero

/-- The invariant: the entry at this split is still to come, and `fd` still closed. -/
def Tempting (i₀ : InjectionArc) (later₀ : List InjectionArc) (fd : Nat)
    (rest : List InjectionArc) (s : State F) : Prop :=
  0 < s.duplicates ∨ s.table fd = none ∧ ∃ mid, rest = mid ++ i₀ :: later₀

theorem Tempting.step {i₀ : InjectionArc} {later₀ done rest later later' : List InjectionArc}
    {e i : InjectionArc} {fd : Nat} {s s' : State F} (hnodup : (m.map (·.dest)).Nodup)
    (hneed : NeedsTemp i₀ later₀) (hfd : ∃ j ∈ later₀, j.dest = fd)
    (inv : Tracked d T₀ m done (e :: rest) (i :: later) s)
    (h : arcStep d i later s = some (later', s'))
    (htempt : Tempting i₀ later₀ fd (e :: rest) s) : Tempting i₀ later₀ fd rest s' := by
  obtain ⟨later₁, s₁, close, hred, -, hmoved⟩ := arcStep_cases h
  obtain ⟨hi, hlater⟩ := forall₂_cons.mp inv.arcs
  have hdup := hred.duplicates
  unfold Tempting
  rw [hmoved.duplicates, hdup]
  by_cases hasked : 0 < s.duplicates + if NeedsTemp i later then 1 else 0
  · exact .inl hasked
  have hnone : s.duplicates = 0 := by omega
  have hno : ¬NeedsTemp i later := by
    intro hn
    rw [if_pos hn] at hasked
    omega
  obtain ⟨hshut, mid, hmid⟩ := htempt.resolve_left (by omega)
  cases mid with
  | nil =>
    obtain ⟨rfl, rfl⟩ := List.cons.inj hmid
    -- the entry that needs the temporary is reached before any was taken
    obtain ⟨hne, p, hp, hps⟩ := hneed
    obtain ⟨j, hj, htr⟩ := forall₂_exists_right hlater hp
    refine absurd ⟨?_, j, hj, ?_⟩ hno
    · rwa [hi.source_of_first hnone, hi.dest]
    · rw [htr.source_of_first hnone, hi.dest, hps]
  | cons x mid =>
    obtain ⟨rfl, rfl⟩ := List.cons.inj hmid
    refine .inr ⟨?_, mid, rfl⟩
    obtain ⟨q, hq, rfl⟩ := hfd
    refine closed_step hred hmoved ?_ ?_ hshut
    · rw [hi.dest]
      exact (dests_of_split hnodup inv.split).2 q (by simp [hq])
    · rw [hdup, hnone, if_neg hno]
      exact answered_zero

theorem not_performed_of_closed_dest (hnodup : (m.map (·.dest)).Nodup)
    (hopen : ∀ e ∈ m, T₀ e.source ≠ none) (habove : Above bound T₀ m) {j : InjectionArc}
    (hsplit : m = pre ++ i :: later) (hneed : NeedsTemp i later) (hj : j ∈ later)
    (hshut : T₀ j.dest = none) :
    ∃ (d : Delegate) (s : State F), performInjectiveMultimap d m T₀ = some s ∧
      ¬Performed T₀ m s := by
  have hjm : j ∈ m := by simp [hsplit, hj]
  have hjb : j.dest < bound := habove.dests j hjm
  obtain ⟨s, ⟨htr, htempt⟩, hextra, hs⟩ := perform_exists 0 j.dest hopen habove
    (Nat.le_of_lt hjb)
    (P := fun done rest cur s =>
      Tracked (upFrom bound 0 j.dest) T₀ m done rest cur s ∧
        Tempting i later j.dest rest s)
    (fun _ _ _ _ hP => hP.1)
    (fun _ _ _ _ _ _ _ _ hP h => ⟨hP.1.step hopen h, hP.2.step hnodup hneed ⟨j, hj, rfl⟩ hP.1 h⟩)
    (fun _ _ _ _ _ s hP _ _ hcall => (hP.2.resolve_left (by omega)).1)
    ⟨⟨rfl, Tracks.start⟩, .inr ⟨hshut, pre, hsplit⟩⟩
  refine ⟨_, _, hs, fun hperf => hopen j hjm ?_⟩
  have hasked : 0 < s.duplicates := by
    rcases htempt with hasked | ⟨-, mid, hmid⟩
    · exact hasked
    · simp at hmid
  have hmem : j.dest ∈ s.extraFds :=
    (hextra.mem _).mpr ⟨0, hasked, by decide, by simp [upFrom]⟩
  rw [← hperf.dests j hjm, closeAll_table, if_pos hmem]

/-! ## A leaked temporary -/

theorem temporariesNeeded_append (a b : InjectiveMultimap) :
    temporariesNeeded b ≤ temporariesNeeded (a ++ b) := by
  induction a with
  | nil => exact Nat.le_refl _
  | cons i a ih =>
    rw [cons_append, temporariesNeeded]
    omega

/-- Of two ends of the list that start with an entry needing a temporary, the one that needs
no fewer is no shorter. -/
theorem mem_of_same_count {done done' rest rest' : List InjectionArc} {e' : InjectionArc}
    (hsplit : m = done ++ e :: rest) (hsplit' : m = done' ++ e' :: rest') (hneed : NeedsTemp e rest)
    (hcount : temporariesNeeded (e :: rest) ≤ temporariesNeeded (e' :: rest')) :
    ∀ p ∈ e :: rest, p ∈ e' :: rest' := by
  intro p hp
  rcases suffix_or_suffix_of_suffix ⟨done, hsplit.symm⟩ ⟨done', hsplit'.symm⟩ with ⟨t, ht⟩ | ⟨t, ht⟩
  · rw [← ht]
    exact mem_append_right t hp
  · cases t with
    | nil => rw [nil_append] at ht; exact ht ▸ hp
    | cons x t =>
      have htail : t ++ e' :: rest' = rest := (List.cons.inj ht).2
      have hle := temporariesNeeded_append t (e' :: rest')
      rw [htail] at hle
      have hcons : temporariesNeeded (e :: rest) = 1 + temporariesNeeded rest := by
        rw [temporariesNeeded, if_pos hneed]
      omega

theorem Shuffled.leaks {call fd : Nat} {done rest later' : List InjectionArc} {s' : State F}
    (hnodup : (m.map (·.dest)).Nodup) (hopen : ∀ e ∈ m, T₀ e.source ≠ none) (hsafe : Safe T₀ m)
    (hfd : ToClose m fd)
    (inv : Shuffled (upFrom bound call fd) T₀ m done (e :: rest) (i :: later) s)
    (h : arcStep (upFrom bound call fd) i later s = some (later', s'))
    (hleak : call < s.duplicates → s.table fd ≠ none) :
    call < s'.duplicates → s'.table fd ≠ none := by
  obtain ⟨later₁, s₁, close, r⟩ := inv.round hnodup hopen hsafe h
  rw [r.moved.duplicates]
  intro hasked
  have hanswered : (upFrom bound call fd).Answered s₁.duplicates fd :=
    ⟨call, hasked, by simp [upFrom]⟩
  have hdest : fd ≠ i.dest := fun heq => hfd.2 e r.tracks.1.member (heq ▸ r.dest_eq.symm)
  -- a temporary is not flagged, so the round does not close it
  have hsrc : close = true → fd ≠ i.source := by
    rintro rfl rfl
    exact ((r.redirected.tracks r.isOpen r.tracks.1 r.tracks.2).1.of_flagged
      r.handedOver.of_kept.1).2 hanswered
  rw [r.moved.table_of_ne (fun _ => hdest) fun _ => hsrc]
  by_cases hpre : call < s.duplicates
  · rw [r.redirected.table_of_open (hleak hpre)]
    exact hleak hpre
  · cases r.redirected with
    | untouched => exact absurd hasked hpre
    | duplicated temp file hneed hans =>
      rw [duplicated_duplicates] at hasked
      have hcall : s.duplicates = call := by omega
      have htemp : temp = fd := by simpa [upFrom, hcall] using hans.symm
      simp [htemp]

theorem not_performed_of_leak (hnodup : (m.map (·.dest)).Nodup)
    (hopen : ∀ e ∈ m, T₀ e.source ≠ none) (hsafe : Safe T₀ m) (habove : Above bound T₀ m) {fd : Nat}
    (hsplit : m = pre ++ i :: later) (hneed : NeedsTemp i later)
    (hmax : temporariesNeeded (i :: later) + kMaxExtraFDs ≤ temporariesNeeded m)
    (hfd : ToClose m fd) (hunread : ∀ j ∈ i :: later, j.source ≠ fd) :
    ∃ (d : Delegate) (s : State F), performInjectiveMultimap d m T₀ = some s ∧
      ¬Performed T₀ m s := by
  have hfdb : fd < bound := by
    obtain ⟨e, he, -, rfl⟩ := hfd.1
    exact habove.open_lt (hopen e he)
  let call := temporariesNeeded m - temporariesNeeded (i :: later)
  have hcall : call + temporariesNeeded (i :: later) = temporariesNeeded m :=
    Nat.sub_add_cancel (by omega)
  have hpos : 1 ≤ temporariesNeeded (i :: later) := by
    rw [temporariesNeeded, if_pos hneed]
    omega
  obtain ⟨s, ⟨inv, hleak⟩, hextra, hs⟩ := perform_exists call fd hopen habove (by omega)
    (P := fun done rest cur s =>
      Shuffled (upFrom bound call fd) T₀ m done rest cur s ∧
        (call < s.duplicates → s.table fd ≠ none))
    (fun _ _ _ _ hP => hP.1.toTracked)
    (fun _ _ _ _ _ _ _ _ hP h =>
      ⟨hP.1.step hnodup hopen hsafe h, hP.1.leaks hnodup hopen hsafe hfd h hP.2⟩)
    (fun done e rest i' later' s hP _ hn hasked => by
      have hn' : NeedsTemp e rest := (hP.1.needsTemp_iff hnodup).mp hn
      have hcount := hP.1.count
      have hsub := mem_of_same_count hP.1.split hsplit hn' (by omega)
      rcases hP.1.closing fd hfd with ⟨j, hj, hjc, hjs⟩ | hshut | hanswered
      · obtain ⟨p, hp, htr⟩ := forall₂_exists_left hP.1.arcs hj
        exact absurd ((htr.of_flagged hjc).1.symm.trans hjs) (hunread p (hsub p hp))
      · exact hshut
      · have := (upFrom_answered_lt hfdb hanswered).2
        omega)
    ⟨Shuffled.start hsafe, fun hasked => absurd hasked (not_lt_zero _)⟩
  refine ⟨_, _, hs, fun hperf => ?_⟩
  have hasked : call < s.duplicates := by
    have hcount := inv.count
    have hnil : temporariesNeeded [] = 0 := rfl
    omega
  have hnot : fd ∉ s.extraFds := by
    intro hmem
    obtain ⟨k, -, hk, hd⟩ := (hextra.mem fd).mp hmem
    have := (upFrom_answered_lt hfdb ⟨k, lt_succ_self k, hd⟩).2
    omega
  have hshut := hperf.sources fd hfd
  rw [closeAll_table, if_neg hnot] at hshut
  exact hleak hasked hshut

/-! ## The exact condition -/

/-- The call does what its caller expects, for every delegate, exactly when no identity
shares its source with a flagged later arc, later dests are open where a temporary is taken,
and no source is to be closed past the sixteenth temporary without being read again. -/
theorem shuffle_performed_iff (hnodup : (m.map (·.dest)).Nodup)
    (hopen : ∀ e ∈ m, T₀ e.source ≠ none) (hfin : ∃ bound, ∀ fd, bound ≤ fd → T₀ fd = none) :
    (∀ (d : Delegate) (s : State F), performInjectiveMultimap d m T₀ = some s →
      Performed T₀ m s) ↔ Safe T₀ m ∧ LeaksHarmless m := by
  obtain ⟨bound, habove⟩ := exists_above hfin m
  constructor
  · intro hall
    have hnever : ¬∃ (d : Delegate) (s : State F), performInjectiveMultimap d m T₀ = some s ∧
        ¬Performed T₀ m s := by
      rintro ⟨d, s, hs, hnot⟩
      exact hnot (hall d s hs)
    have hunshared : m.Pairwise Unshared := by
      refine pairwise_of_splits fun pre p tail hsplit j hj hid hshare => ?_
      by_contra hflag
      refine hnever (not_performed_of_shared hnodup hopen habove hsplit hid
        ⟨j, hj, hshare, ?_⟩)
      by_contra hno
      rw [not_or, Bool.not_eq_true, Bool.not_eq_true] at hno
      exact hflag hno
    have hdests : ∀ done i later, m = done ++ i :: later → NeedsTemp i later →
        ∀ j ∈ later, T₀ j.dest ≠ none := fun done i later hsplit hneed j hj hclosed =>
      hnever (not_performed_of_closed_dest hnodup hopen habove hsplit hneed hj hclosed)
    refine ⟨⟨hunshared, hdests⟩, fun done i later hsplit hneed hmax fd hfd => ?_⟩
    by_contra hno
    refine hnever (not_performed_of_leak hnodup hopen ⟨hunshared, hdests⟩ habove hsplit hneed
      hmax hfd fun j hj hs => hno ⟨j, hj, hs⟩)
  · rintro ⟨hsafe, hleaks⟩ d s h
    exact performed_of_safe hnodup hopen hsafe hleaks h

/-! ## Two simple sufficient conditions, and two tables -/

theorem Safe.of_dests_open (hunshared : m.Pairwise Unshared)
    (hdests : ∀ e ∈ m, T₀ e.dest ≠ none) : Safe T₀ m where
  unshared := hunshared
  destsOpen := by
    rintro done i later rfl - j hj
    exact hdests j (by simp [hj])

theorem LeaksHarmless.of_few (hfew : temporariesNeeded m < kMaxExtraFDs) : LeaksHarmless m := by
  intro done i later hsplit hneed hmax
  omega

instance (p j : InjectionArc) : Decidable (Unshared p j) :=
  inferInstanceAs (Decidable (_ → _ → _))

/-- Descriptors 0 to 5 of a process, each open for a file of its own. -/
def sixFds : Table Nat := fun fd => if fd < 6 then some fd else none

/-- 0 and 1 are exchanged, and 2 is moved to 5. -/
theorem shuffle_performed_iff_exchange :
    (∀ (d : Delegate) (s : State Nat),
      performInjectiveMultimap d [⟨0, 1, false⟩, ⟨1, 0, false⟩, ⟨2, 5, true⟩] sixFds = some s →
      Performed sixFds [⟨0, 1, false⟩, ⟨1, 0, false⟩, ⟨2, 5, true⟩] s) ∧
    (performInjectiveMultimap (upFrom 6 0 6)
      [⟨0, 1, false⟩, ⟨1, 0, false⟩, ⟨2, 5, true⟩] sixFds).isSome :=
  ⟨(shuffle_performed_iff (by decide) (by decide)
      ⟨6, fun fd hfd => if_neg (Nat.not_lt.mpr hfd)⟩).mpr
    ⟨Safe.of_dests_open (by decide) (by decide), LeaksHarmless.of_few (by decide)⟩, rfl⟩

/-- 1 to 2 and 2 to 6, the temporary being 6: it is closed at the end. -/
theorem shuffle_not_performed_closed_dest :
    ¬∀ (m : InjectiveMultimap) (T₀ : Table Nat), (m.map (·.dest)).Nodup →
      (∀ e ∈ m, T₀ e.source ≠ none) → (∃ bound, ∀ fd, bound ≤ fd → T₀ fd = none) →
      ∀ (d : Delegate) (s : State Nat), performInjectiveMultimap d m T₀ = some s →
        Performed T₀ m s := by
  intro hall
  have hperf := hall [⟨1, 2, false⟩, ⟨2, 6, false⟩] sixFds (by decide) (by decide)
    ⟨6, fun fd hfd => if_neg (Nat.not_lt.mpr hfd)⟩ (upFrom 6 0 6) _ rfl
  have hdest : (none : Option Nat) = some 2 := hperf.dests ⟨2, 6, false⟩ (by decide)
  cases hdest

end ChromiumUI.Shuffle
