import ChromiumUI.WinXPCondVar

/-!
# No wake-up is lost

Every event is on the recycling list or held by one thread in TimedWait. Whoever waits without a
time limit has its event on the waiting list, signaled, or about to be; and an event that is
taken from the waiting list brings the thread that holds it back.
-/
namespace ChromiumUI.Base.WinXPCondVar

open LinkedRings Runs List Function Option State

/-! ## Who holds an event -/

/-- The events are those on the recycling list and those of the threads, one each. -/
structure Owners (held : Nat → Option Nat) (n : Nat) (rs ts : List Nat) : Prop where
  allocated : ∀ t e, held t = some e → Allocated n e ∧ e ∉ rs
  unique : ∀ t t' e, held t = some e → held t' = some e → t = t'
  covered : ∀ e, Allocated n e → e ∉ rs → ∃ t, held t = some e
  nodup : ts.Nodup
  threads : ∀ t, t ∈ ts ↔ (held t).isSome
  count : n = rs.length + ts.length

variable {holds : Nat → Option Nat} {n t e : Nat} {rs ts : List Nat}

/-- Some thread takes an event that nobody holds. -/
theorem Owners.enter {n' : Nat} {rs' : List Nat} (h : Owners holds n rs ts)
    (ht : holds t = none) (hfree : ∀ t', holds t' ≠ some e)
    (hallocated : ∀ e', Allocated n' e' ∧ e' ∉ rs' ↔ e' = e ∨ Allocated n e' ∧ e' ∉ rs)
    (hcount : n' + rs.length = n + rs'.length + 1) :
    Owners (update holds t (some e)) n' rs' (t :: ts) := by
  have hother : ∀ t', t' ≠ t → update holds t (some e) t' = holds t' := fun t' hne =>
    update_of_ne hne _ _
  refine ⟨?_, ?_, ?_, ?_, ?_, ?_⟩
  · intro t' e' he'
    by_cases hne : t' = t
    · subst hne
      rw [update_self] at he'
      exact (hallocated e').mpr (Or.inl (some.inj he').symm)
    · rw [hother t' hne] at he'
      exact (hallocated e').mpr (Or.inr (h.allocated t' e' he'))
  · intro t₁ t₂ e' h₁ h₂
    by_cases hne₁ : t₁ = t
    · by_cases hne₂ : t₂ = t
      · rw [hne₁, hne₂]
      · rw [hne₁, update_self] at h₁
        rw [hother t₂ hne₂] at h₂
        exact (hfree t₂ (h₂.trans h₁.symm)).elim
    · rw [hother t₁ hne₁] at h₁
      by_cases hne₂ : t₂ = t
      · rw [hne₂, update_self] at h₂
        exact (hfree t₁ (h₁.trans h₂.symm)).elim
      · rw [hother t₂ hne₂] at h₂
        exact h.unique t₁ t₂ e' h₁ h₂
  · intro e' ha hr
    rcases (hallocated e').mp ⟨ha, hr⟩ with rfl | ⟨ha, hr⟩
    · exact ⟨t, update_self ..⟩
    · obtain ⟨t', ht'⟩ := h.covered e' ha hr
      refine ⟨t', (hother t' ?_).trans ht'⟩
      rintro rfl
      cases ht.symm.trans ht'
  · refine nodup_cons.mpr ⟨fun hmem => ?_, h.nodup⟩
    have := (h.threads t).mp hmem
    simp [ht] at this
  · intro t'
    by_cases hne : t' = t
    · simp [hne]
    · rw [hother t' hne, ← h.threads]
      simp [hne]
  · have := h.count
    rw [length_cons]
    omega

/-- Some thread gives its event back. -/
theorem Owners.leave (h : Owners holds n rs ts) (ht : holds t = some e) :
    Owners (update holds t none) n (rs ++ [e]) (ts.erase t) := by
  have hother : ∀ t', t' ≠ t → update holds t none t' = holds t' := fun t' hne =>
    update_of_ne hne _ _
  refine ⟨?_, ?_, ?_, h.nodup.erase t, ?_, ?_⟩
  · intro t' e' he'
    by_cases hne : t' = t
    · rw [hne, update_self] at he'
      cases he'
    · rw [hother t' hne] at he'
      obtain ⟨ha, hr⟩ := h.allocated t' e' he'
      refine ⟨ha, fun hmem => ?_⟩
      rcases mem_append.mp hmem with hmem | hmem
      · exact hr hmem
      · rw [mem_singleton.mp hmem] at he'
        exact hne (h.unique t' t e he' ht)
  · intro t₁ t₂ e' h₁ h₂
    have hne₁ : t₁ ≠ t := by
      rintro rfl
      rw [update_self] at h₁
      cases h₁
    have hne₂ : t₂ ≠ t := by
      rintro rfl
      rw [update_self] at h₂
      cases h₂
    rw [hother t₁ hne₁] at h₁
    rw [hother t₂ hne₂] at h₂
    exact h.unique t₁ t₂ e' h₁ h₂
  · intro e' ha hr
    simp only [mem_append, mem_singleton, not_or] at hr
    obtain ⟨t', ht'⟩ := h.covered e' ha hr.1
    refine ⟨t', (hother t' ?_).trans ht'⟩
    rintro rfl
    exact hr.2 (some.inj (ht'.symm.trans ht))
  · intro t'
    by_cases hne : t' = t
    · simp [hne, h.nodup.not_mem_erase]
    · rw [hother t' hne, ← h.threads, h.nodup.mem_erase_iff]
      simp [hne]
  · have hmem : t ∈ ts := (h.threads t).mpr (by simp [ht])
    have hpos := length_pos_of_mem hmem
    have := h.count
    rw [length_erase_of_mem hmem, length_append, length_singleton]
    omega

/-! ## The invariant -/

structure Good (s : State) (ws rs ts : List Nat) : Prop where
  lists : Lists waitingList recyclingList s.links s.allocationCounter ws rs
  size : s.recyclingListSize = rs.length
  owners : Owners (held s) s.allocationCounter rs ts
  wakeup : ∀ t e, s.phase t = .waiting e false →
    e ∈ ws ∨ s.signaled e = true ∨ InFlight s e

variable {s s' : State} {ws : List Nat} {p : Phase}

theorem held_setPhase (s : State) (t : Nat) (p : Phase) :
    held (s.setPhase t p) = update (held s) t (heldIn p) := by
  funext t'
  by_cases h : t' = t <;> simp [held, setPhase, h]

/-- A thread that gets another phase with the same event changes no owner. -/
theorem held_setPhase_same (h : heldIn p = heldIn (s.phase t)) :
    held (s.setPhase t p) = held s := by
  rw [held_setPhase, h]
  exact update_eq_self ..

theorem phase_setPhase_other {t' : Nat} (h : t' ≠ t) : (s.setPhase t p).phase t' = s.phase t' :=
  update_of_ne h _ _

@[simp] theorem phase_setPhase (s : State) (t : Nat) (p : Phase) : (s.setPhase t p).phase t = p :=
  update_self ..

/-- What is in flight stays so while other threads go on. -/
theorem InFlight.keep (h : InFlight s e) (ht : ∀ hs, s.phase t ≠ .signalling hs)
    (hphase : ∀ t', t' ≠ t → s'.phase t' = s.phase t') : InFlight s' e := by
  obtain ⟨t', hs, hp, hmem⟩ := h
  have hne : t' ≠ t := by
    rintro rfl
    exact ht hs hp
  exact ⟨t', hs, (hphase t' hne).trans hp, hmem⟩

section

variable (h : Good s ws rs ts)
include h

/-- Threads in other phases wait on: what they have is where it was. -/
theorem Good.wakeup_other {ws' : List Nat} (ht : ∀ hs, s.phase t ≠ .signalling hs)
    (hphase : ∀ t', t' ≠ t → s'.phase t' = s.phase t')
    (hkept : ∀ t' e, t' ≠ t → s.phase t' = .waiting e false →
      e ∈ ws ∨ s.signaled e = true → e ∈ ws' ∨ s'.signaled e = true ∨ InFlight s' e)
    {t' : Nat} (hne : t' ≠ t) (hp : s'.phase t' = .waiting e false) :
    e ∈ ws' ∨ s'.signaled e = true ∨ InFlight s' e := by
  have hold : s.phase t' = .waiting e false := (hphase t' hne).symm.trans hp
  rcases h.wakeup t' e hold with hmem | hsig | hflight
  · exact hkept t' e hne hold (Or.inl hmem)
  · exact hkept t' e hne hold (Or.inr hsig)
  · exact .inr (Or.inr (hflight.keep ht hphase))

/-- A wait that is over, with the signal taken or not. -/
theorem Good.endWait {timed : Bool} (hp : s.phase t = .waiting e timed)
    {signaled : Nat → Bool} (hsig : ∀ e', e' ≠ e → signaled e' = s.signaled e') :
    Good ({ s with signaled := signaled }.setPhase t (.woken e)) ws rs ts := by
  have hheld : held ({ s with signaled := signaled }.setPhase t (.woken e)) = held s :=
    held_setPhase_same (s := { s with signaled := signaled }) (by simp [heldIn, hp])
  refine ⟨h.lists, h.size, by rw [hheld]; exact h.owners, fun t' e' hp' => ?_⟩
  have hne : t' ≠ t := by
    rintro rfl
    simp at hp'
  refine h.wakeup_other (t := t) (by simp [hp]) (fun t₁ h₁ => phase_setPhase_other h₁) ?_ hne hp'
  intro t₁ e₁ hne₁ hp₁ hkept
  refine hkept.imp_right fun hold => .inl ?_
  have hee : e₁ ≠ e := by
    rintro rfl
    exact hne₁ (h.owners.unique t₁ t e₁ (by simp [held, hp₁, heldIn]) (by simp [held, hp, heldIn]))
  exact (hsig e₁ hee).trans hold

theorem Good.setEvent {handle : Nat} {hs : List Nat} (hp : s.phase t = .signalling (handle :: hs)) :
    Good ((s.setEvent handle).setPhase t (.signalling hs)) ws rs ts := by
  have hheld : held ((s.setEvent handle).setPhase t (.signalling hs)) = held s :=
    held_setPhase_same (s := s.setEvent handle) (by simp [heldIn, hp, State.setEvent])
  refine ⟨h.lists, h.size, by rw [hheld]; exact h.owners, fun t' e' hp' => ?_⟩
  have hne : t' ≠ t := by
    rintro rfl
    simp at hp'
  rw [phase_setPhase_other hne] at hp'
  rcases h.wakeup t' e' hp' with hmem | hsig | ⟨t₁, hs₁, hp₁, hmem⟩
  · exact .inl hmem
  · refine .inr (Or.inl ?_)
    by_cases he : e' = handle <;> simp [State.setPhase, State.setEvent, he, hsig]
  · by_cases ht₁ : t₁ = t
    · subst ht₁
      rw [hp] at hp₁
      cases hp₁
      rcases mem_cons.mp hmem with rfl | hmem
      · exact .inr (Or.inl (by simp [setPhase, setEvent]))
      · exact .inr (Or.inr ⟨t₁, hs, by simp, hmem⟩)
    · exact .inr (Or.inr ⟨t₁, hs₁, (phase_setPhase_other ht₁).trans hp₁, hmem⟩)

theorem Good.doneSignalling (hp : s.phase t = .signalling []) :
    Good (s.setPhase t .outside) ws rs ts := by
  have hheld : held (s.setPhase t .outside) = held s := held_setPhase_same (by simp [heldIn, hp])
  refine ⟨h.lists, h.size, by rw [hheld]; exact h.owners, fun t' e' hp' => ?_⟩
  have hne : t' ≠ t := by
    rintro rfl
    simp at hp'
  rw [phase_setPhase_other hne] at hp'
  rcases h.wakeup t' e' hp' with hmem | hsig | ⟨t₁, hs₁, hp₁, hmem⟩
  · exact .inl hmem
  · exact .inr (Or.inl hsig)
  · have ht₁ : t₁ ≠ t := by
      rintro rfl
      rw [hp] at hp₁
      cases hp₁
      cases hmem
    exact .inr (Or.inr ⟨t₁, hs₁, (phase_setPhase_other ht₁).trans hp₁, hmem⟩)

end

/-- Events taken from the back of the waiting list are about to be set. -/
theorem Good.signalling {us : List Nat} (h : Good s (ws ++ us) rs ts) (hp : s.phase t = .outside)
    {links : Links Nat} (hlists : Lists waitingList recyclingList links s.allocationCounter ws rs) :
    Good ({ s with links := links }.setPhase t (.signalling us)) ws rs ts := by
  have hheld : held ({ s with links := links }.setPhase t (.signalling us)) = held s :=
    held_setPhase_same (s := { s with links := links }) (by simp [heldIn, hp])
  refine ⟨hlists, h.size, by rw [hheld]; exact h.owners, fun t' e' hp' => ?_⟩
  have hne : t' ≠ t := by
    rintro rfl
    simp at hp'
  rw [phase_setPhase_other hne] at hp'
  rcases h.wakeup t' e' hp' with hmem | hsig | hflight
  · rcases mem_append.mp hmem with hmem | hmem
    · exact .inl hmem
    · exact .inr (Or.inr ⟨t, us, by simp, hmem⟩)
  · exact .inr (Or.inl hsig)
  · exact .inr (Or.inr (hflight.keep (by simp [hp]) fun t₁ h₁ => phase_setPhase_other h₁))

section

variable (h : Good s ws rs ts)
include h

/-- A thread waits with an event that nobody holds. -/
theorem Good.enter (hp : s.phase t = .outside) {n' size : Nat}
    {rs' : List Nat} {links : Links Nat} (signaled : Nat → Bool) (timed : Bool)
    (hsize : size = rs'.length)
    (hlists : Lists waitingList recyclingList links n' ws rs') (he : Allocated n' e)
    (hws : e ∉ ws) (hrs : e ∉ rs') (hsig : ∀ e', e' ≠ e → signaled e' = s.signaled e')
    (hfree : ∀ t', held s t' ≠ some e)
    (hallocated : ∀ e', Allocated n' e' ∧ e' ∉ rs' ↔
      e' = e ∨ Allocated s.allocationCounter e' ∧ e' ∉ rs)
    (hcount : n' + rs.length = s.allocationCounter + rs'.length + 1) :
    Good ({ s with
      links := links.pushBack waitingList e
      signaled := signaled
      recyclingListSize := size
      allocationCounter := n' }.setPhase t (.waiting e timed)) (ws ++ [e]) rs' (t :: ts) := by
  have hholds := h.owners.enter (t := t) (by simp [held, hp, heldIn]) hfree hallocated hcount
  refine ⟨hlists.push he hws hrs, hsize, ?_, fun t' e' hp' => ?_⟩
  · rw [held_setPhase]
    exact hholds
  · by_cases hne : t' = t
    · subst hne
      rw [phase_setPhase] at hp'
      cases hp'
      exact .inl (by simp)
    · refine h.wakeup_other (t := t) (by simp [hp]) (fun t₁ h₁ => phase_setPhase_other h₁) ?_ hne hp'
      intro t₁ e₁ hne₁ hp₁ hkept
      rcases hkept with hmem | hold
      · exact .inl (mem_append_left _ hmem)
      · refine .inr (Or.inl ((hsig e₁ ?_).trans hold))
        rintro rfl
        exact hfree t₁ (by simp [held, hp₁, heldIn])

theorem Good.wait (hp : s.phase t = .outside) (timed : Bool) :
    ∃ ws' rs' ts', Good (s.getEventForWaiting.2.setPhase t (.waiting s.getEventForWaiting.1 timed))
      ws' rs' ts' := by
  rw [getEventForWaiting, takeEvent]
  split_ifs with hempty
  · obtain rfl : rs = [] := length_eq_zero_iff.mp (h.size.symm.trans hempty)
    obtain ⟨hlists, he, hws, hrs⟩ := h.lists.new
    have hfresh : ∀ e', Allocated s.allocationCounter e' → e' ≠ eventAt s.allocationCounter :=
      fun e' ha heq => absurd ha.2 (by rw [heq]; exact Nat.lt_irrefl _)
    refine ⟨_, [], _, h.enter hp _ timed hempty hlists he hws hrs
      (fun e' hne => update_of_ne hne _ _)
      (fun t' ht' => hfresh _ (h.owners.allocated t' _ ht').1 rfl) (fun e' => ?_) rfl⟩
    constructor
    · rintro ⟨⟨htwo, hlt⟩, -⟩
      by_cases heq : e' = eventAt s.allocationCounter
      · exact .inl heq
      · have hsucc : e' < s.allocationCounter + 1 + 2 := hlt
        refine .inr ⟨⟨htwo, ?_⟩, not_mem_nil⟩
        unfold eventAt at *
        omega
    · rintro (rfl | ⟨⟨htwo, hlt⟩, -⟩)
      · exact ⟨he, not_mem_nil⟩
      · exact ⟨⟨htwo, Nat.lt_succ_of_lt hlt⟩, not_mem_nil⟩
  · obtain ⟨e, rs', rfl⟩ : ∃ e rs', rs = e :: rs' := by
      cases rs with
      | nil => exact (hempty h.size).elim
      | cons e rs' => exact ⟨e, rs', rfl⟩
    obtain ⟨hfront, hpop⟩ := h.lists.swap.popFront
    have he : Allocated s.allocationCounter e := h.lists.allocated e (Or.inr (by simp))
    have hrs : e ∉ rs' := (nodup_cons.mp (nodup_cons.mp h.lists.ring'.nodup).2).1
    have hws : e ∉ ws := fun hmem => h.lists.disjoint e (by simp [hmem]) (by simp)
    have hsize : s.recyclingListSize - 1 = rs'.length := by
      rw [h.size]
      rfl
    have hgood := h.enter (e := e) hp s.signaled timed hsize hpop.swap he hws hrs
      (fun _ _ => rfl) (fun t' ht' => (h.owners.allocated t' e ht').2 (by simp)) (fun e' => ?_)
      (by simp only [length_cons]; omega)
    · dsimp only
      rw [hfront]
      exact ⟨_, _, _, hgood⟩
    · by_cases heq : e' = e
      · subst heq
        simp [he, hrs]
      · simp [heq]

theorem Good.recycle (hp : s.phase t = .woken e) (returned : Nat → Nat) :
    ∃ ws' rs' ts', Good ({ s.recycleEvent e with returned := returned }.setPhase t .outside)
      ws' rs' ts' := by
  have hheld : held s t = some e := by simp [held, hp, heldIn]
  obtain ⟨he, hrs⟩ := h.owners.allocated t e hheld
  have hlists : ∃ ws', Lists waitingList recyclingList (extract e s.links) s.allocationCounter
      ws' rs ∧ e ∉ ws' ∧ ∀ e', e' ≠ e → e' ∈ ws → e' ∈ ws' := by
    by_cases hmem : e ∈ ws
    · obtain ⟨us, vs, rfl⟩ := append_of_mem hmem
      have hnodup := (nodup_cons.mp h.lists.ring.nodup).2
      refine ⟨us ++ vs, h.lists.take, ?_, fun e' hne hmem' => ?_⟩
      · simp only [nodup_append, nodup_cons, mem_cons, mem_append] at hnodup ⊢
        rintro (hu | hv)
        · exact hnodup.2.2 e hu e (Or.inl rfl) rfl
        · exact hnodup.2.1.1 hv
      · simpa [hne] using hmem'
    · rw [h.lists.extract_alone he hmem hrs]
      exact ⟨ws, h.lists, hmem, fun _ _ hmem' => hmem'⟩
  obtain ⟨ws', hlists, hws, hkept⟩ := hlists
  refine ⟨ws', rs ++ [e], ts.erase t, (hlists.swap.push he hrs hws).swap, ?_, ?_,
    fun t' e' hp' => ?_⟩
  · simp [recycleEvent, setPhase, h.size]
  · rw [held_setPhase]
    exact h.owners.leave hheld
  · have hne : t' ≠ t := by
      rintro rfl
      simp at hp'
    refine h.wakeup_other (t := t) (by simp [hp]) (fun t₁ h₁ => phase_setPhase_other h₁) ?_ hne hp'
    intro t₁ e₁ hne₁ hp₁ hold
    have hee : e₁ ≠ e := by
      rintro rfl
      exact hne₁ (h.owners.unique t₁ t e₁ (by simp [held, hp₁, heldIn]) hheld)
    exact hold.imp (hkept e₁ hee) .inl

theorem Good.signal (hp : s.phase t = .outside) :
    ∃ ws', ws = ws' ++ s.signal.1 ∧ Good (s.signal.2.setPhase t (.signalling s.signal.1)) ws' rs ts ∧
      (ws ≠ [] → s.signal.1 ≠ []) := by
  rw [State.signal]
  split_ifs with hempty
  · obtain rfl := h.lists.isEmpty_iff.mp hempty
    have hnone : Good s ([] ++ []) rs ts := h
    exact ⟨[], rfl, hnone.signalling hp h.lists, fun hne => (hne rfl).elim⟩
  · obtain ⟨ws', e, rfl⟩ : ∃ ws' e, ws = ws' ++ [e] := by
      rcases eq_nil_or_concat ws with rfl | ⟨ws', e, rfl⟩
      · exact (hempty (h.lists.isEmpty_iff.mpr rfl)).elim
      · exact ⟨ws', e, concat_eq_append⟩
    obtain ⟨hback, hpop⟩ := h.lists.popBack
    dsimp only
    rw [hback]
    exact ⟨ws', rfl, h.signalling hp hpop, fun _ => by simp⟩

theorem Good.broadcast (hp : s.phase t = .outside) :
    s.broadcast.1 = ws ∧
      Good (s.broadcast.2.setPhase t (.signalling s.broadcast.1)) [] rs ts := by
  obtain ⟨hall, hlists⟩ := h.lists.popAll [] h.lists.length_le
  rw [append_nil] at hall
  have hws : Good s ([] ++ ws) rs ts := h
  rw [State.broadcast]
  rw [hall]
  exact ⟨rfl, hws.signalling hp hlists⟩

end

/-! ## Steps -/

/-- What a step can do, and when. -/
inductive Steps (s : State) : Action → State → Prop
  | wait {t : Nat} {timed : Bool} (hp : s.phase t = .outside) :
    Steps s (.wait t timed)
      (s.getEventForWaiting.2.setPhase t (.waiting s.getEventForWaiting.1 timed))
  | timeOut {t e : Nat} (hp : s.phase t = .waiting e true) :
    Steps s (.timeOut t) (s.setPhase t (.woken e))
  | wake {t e : Nat} {timed : Bool} (hp : s.phase t = .waiting e timed)
    (hsignaled : s.signaled e = true) :
    Steps s (.wake t)
      ({ s with signaled := update s.signaled e false }.setPhase t (.woken e))
  | recycle {t e : Nat} (hp : s.phase t = .woken e) :
    Steps s (.recycle t) ({ s.recycleEvent e with
      returned := update s.returned t (s.returned t + 1) }.setPhase t .outside)
  | signal {t : Nat} (hp : s.phase t = .outside) :
    Steps s (.signal t) (s.signal.2.setPhase t (.signalling s.signal.1))
  | broadcast {t : Nat} (hp : s.phase t = .outside) :
    Steps s (.broadcast t) (s.broadcast.2.setPhase t (.signalling s.broadcast.1))
  | setEvent {t handle : Nat} {hs : List Nat} (hp : s.phase t = .signalling (handle :: hs)) :
    Steps s (.setEvent t) ((s.setEvent handle).setPhase t (.signalling hs))
  | doneSignalling {t : Nat} (hp : s.phase t = .signalling []) :
    Steps s (.setEvent t) (s.setPhase t .outside)

theorem steps_of_step {a : Action} (h : step s a = some s') : Steps s a s' := by
  cases a with
  | wait t timed =>
    cases hp : s.phase t <;> simp only [step, hp, some.injEq, reduceCtorEq] at h
    exact h ▸ .wait hp
  | timeOut t =>
    rcases hp : s.phase t with _ | ⟨e, _ | _⟩ | _ | _ <;>
      simp only [step, hp, some.injEq, reduceCtorEq] at h
    exact h ▸ .timeOut hp
  | wake t =>
    rcases hp : s.phase t with _ | ⟨e, timed⟩ | _ | _ <;> simp only [step, hp, reduceCtorEq] at h
    split_ifs at h with hsig
    exact some.inj h ▸ .wake hp hsig
  | recycle t =>
    cases hp : s.phase t <;> simp only [step, hp, some.injEq, reduceCtorEq] at h
    exact h ▸ .recycle hp
  | signal t =>
    cases hp : s.phase t <;> simp only [step, hp, some.injEq, reduceCtorEq] at h
    exact h ▸ .signal hp
  | broadcast t =>
    cases hp : s.phase t <;> simp only [step, hp, some.injEq, reduceCtorEq] at h
    exact h ▸ .broadcast hp
  | setEvent t =>
    rcases hp : s.phase t with _ | _ | _ | (_ | ⟨handle, hs⟩) <;>
      simp only [step, hp, some.injEq, reduceCtorEq] at h
    · exact h ▸ .doneSignalling hp
    · exact h ▸ .setEvent hp

/-- Every step keeps the invariant. -/
theorem step_good {a : Action} (h : ∃ ws rs ts, Good s ws rs ts) (hstep : step s a = some s') :
    ∃ ws rs ts, Good s' ws rs ts := by
  obtain ⟨ws, rs, ts, h⟩ := h
  cases steps_of_step hstep with
  | wait hp => exact h.wait hp _
  | timeOut hp => exact ⟨ws, rs, ts, h.endWait hp fun _ _ => rfl⟩
  | wake hp hsig => exact ⟨ws, rs, ts, h.endWait hp fun _ hne => update_of_ne hne _ _⟩
  | recycle hp => exact h.recycle hp _
  | signal hp =>
    obtain ⟨ws', -, hgood, -⟩ := h.signal hp
    exact ⟨ws', rs, ts, hgood⟩
  | broadcast hp => exact ⟨[], rs, ts, (h.broadcast hp).2⟩
  | setEvent hp => exact ⟨ws, rs, ts, h.setEvent hp⟩
  | doneSignalling hp => exact ⟨ws, rs, ts, h.doneSignalling hp⟩

theorem create_good : Good create [] [] [] := by
  refine ⟨⟨⟨by decide, by decide⟩, ⟨⟨rfl, rfl⟩, by simp⟩, ⟨⟨rfl, rfl⟩, by simp⟩, ?_, ?_, ?_⟩, rfl,
    ⟨nofun, nofun, ?_, nodup_nil, ?_, rfl⟩, nofun⟩
  · decide
  · simp
  · exact fun e _ _ _ => ⟨⟨rfl, rfl⟩, nodup_singleton e⟩
  · rintro e ⟨htwo, hlt⟩ -
    exact absurd hlt (Nat.not_lt.mpr htwo)
  · simp [held, heldIn, create]

/-! ## Who is brought back

A thread whose event has left the waiting list, or that has left the wait, stays so until its wait
is over, and it needs nobody else for that but those who are about to set an event. -/

open Nat

/-- The thread is out of its wait with `e`, or `e` is signaled for it, or about to be. -/
def Released (s : State) (t e : Nat) : Prop :=
  s.phase t = .woken e ∨
    ∃ timed, s.phase t = .waiting e timed ∧ (s.signaled e = true ∨ InFlight s e)

variable {s s' : State} {ws rs ts : List Nat} {t e : Nat}

theorem released_held (h : Released s t e) : held s t = some e := by
  rcases h with hp | ⟨timed, hp, -⟩ <;> simp [held, hp, heldIn]

theorem released_keep (h : Released s t e) (hphase : s'.phase t = s.phase t)
    (hsig : s.signaled e = true → s'.signaled e = true)
    (hflight : InFlight s e → s'.signaled e = true ∨ InFlight s' e) : Released s' t e := by
  rcases h with hp | ⟨timed, hp, hsignal⟩
  · exact .inl (hphase.trans hp)
  · refine .inr ⟨timed, hphase.trans hp, ?_⟩
    rcases hsignal with hsignal | hsignal
    · exact .inl (hsig hsignal)
    · exact hflight hsignal

theorem allocated_iff {n : Nat} : Allocated n e ↔ ∃ k < n, e = eventAt k := by
  constructor
  · rintro ⟨htwo, hlt⟩
    unfold eventAt at *
    exact ⟨e - 2, by omega, by omega⟩
  · rintro ⟨k, hk, rfl⟩
    unfold Allocated eventAt
    omega

/-- An event of the waiting list is not on the other list: it has its thread. -/
theorem Good.waiting_held (h : Good s ws rs ts) (he : e ∈ ws) : ∃ t, held s t = some e :=
  h.owners.covered e (h.lists.allocated e (Or.inl he)) fun hr =>
    h.lists.disjoint e (mem_cons_of_mem _ he) (mem_cons_of_mem _ hr)

theorem getEventForWaiting_frame (s : State) :
    s.getEventForWaiting.2.phase = s.phase ∧ s.getEventForWaiting.2.returned = s.returned ∧
      ∀ e, Allocated s.allocationCounter e →
        s.getEventForWaiting.2.signaled e = s.signaled e := by
  rw [getEventForWaiting, takeEvent]
  split_ifs
  · refine ⟨rfl, rfl, fun e he => Function.update_of_ne ?_ _ _⟩
    rintro rfl
    exact absurd he.2 (lt_irrefl _)
  · exact ⟨rfl, rfl, fun _ _ => rfl⟩

theorem signal_frame (s : State) : s.signal.2.phase = s.phase ∧
    s.signal.2.returned = s.returned ∧ s.signal.2.signaled = s.signaled := by
  rw [signal]
  split_ifs <;> exact ⟨rfl, rfl, rfl⟩

theorem signal_links (s : State) : ∃ links, s.signal.2 = { s with links := links } := by
  rw [signal]
  split_ifs
  · exact ⟨s.links, rfl⟩
  · exact ⟨_, rfl⟩

/-- A released thread comes back or stays released. -/
theorem released_step {a : Action} (hgood : Good s ws rs ts) (h : Released s t e)
    (hstep : step s a = some s') :
    s.returned t < s'.returned t ∨ s.returned t = s'.returned t ∧ Released s' t e := by
  have hout : s.phase t ≠ .outside := by rcases h with hp | ⟨timed, hp, -⟩ <;> simp [hp]
  have hquiet : ∀ hs, s.phase t ≠ .signalling hs := by
    rcases h with hp | ⟨timed, hp, -⟩ <;> simp [hp]
  cases steps_of_step hstep with
  | @wait t₁ timed hp =>
    have hne : t ≠ t₁ := by rintro rfl; exact hout hp
    obtain ⟨hphase, hret, hsig⟩ := getEventForWaiting_frame s
    have hsame := hsig e (hgood.owners.allocated t e (released_held h)).1
    refine .inr ⟨(congrFun hret t).symm,
      released_keep h ?_ (fun hs => hsame.trans hs) fun hf => ?_⟩
    · exact (phase_setPhase_other hne).trans (congrFun hphase t)
    · exact .inr (hf.keep (t := t₁) (by simp [hp]) fun t' hne' =>
        (phase_setPhase_other hne').trans (congrFun hphase t'))
  | @timeOut t₁ e₁ hp =>
    refine .inr ⟨rfl, ?_⟩
    by_cases hne : t = t₁
    · subst hne
      have hheld := released_held h
      simp only [held, hp, heldIn, Option.some.injEq] at hheld
      exact .inl (by simp [hheld])
    · exact released_keep h (phase_setPhase_other hne) id fun hf =>
        .inr (hf.keep (t := t₁) (by simp [hp]) fun t' hne' => phase_setPhase_other hne')
  | @wake t₁ e₁ timed hp hsig =>
    refine .inr ⟨rfl, ?_⟩
    by_cases hne : t = t₁
    · subst hne
      have hheld := released_held h
      simp only [held, hp, heldIn, Option.some.injEq] at hheld
      exact .inl (by simp [hheld])
    · have hee : e ≠ e₁ := by
        rintro rfl
        exact hne (hgood.owners.unique t t₁ e (released_held h) (by simp [held, hp, heldIn]))
      refine released_keep h (phase_setPhase_other hne) (fun hs => ?_) fun hf =>
        .inr (hf.keep (t := t₁) (by simp [hp]) fun t' hne' => phase_setPhase_other hne')
      exact (Function.update_of_ne hee _ _).trans hs
  | @recycle t₁ e₁ hp =>
    by_cases hne : t = t₁
    · subst hne
      exact .inl (by simp [setPhase])
    · refine .inr ⟨(Function.update_of_ne hne _ _).symm, ?_⟩
      exact released_keep h (phase_setPhase_other hne) id fun hf =>
        .inr (hf.keep (t := t₁) (by simp [hp]) fun t' hne' => phase_setPhase_other hne')
  | @signal t₁ hp =>
    have hne : t ≠ t₁ := by rintro rfl; exact hout hp
    obtain ⟨hphase, hret, hsig⟩ := signal_frame s
    refine .inr ⟨(congrFun hret t).symm,
      released_keep h ((phase_setPhase_other hne).trans (congrFun hphase t))
        (fun hs => (congrFun hsig e).trans hs) fun hf => ?_⟩
    exact .inr (hf.keep (t := t₁) (by simp [hp]) fun t' hne' =>
      (phase_setPhase_other hne').trans (congrFun hphase t'))
  | @broadcast t₁ hp =>
    have hne : t ≠ t₁ := by rintro rfl; exact hout hp
    refine .inr ⟨rfl, released_keep h (phase_setPhase_other hne) id fun hf => ?_⟩
    exact .inr (hf.keep (t := t₁) (by simp [hp]) fun t' hne' => phase_setPhase_other hne')
  | @setEvent t₁ handle hs hp =>
    have hne : t ≠ t₁ := by rintro rfl; exact hquiet _ hp
    refine .inr ⟨rfl, released_keep h (phase_setPhase_other hne) (fun hsignal => ?_) ?_⟩
    · by_cases he : e = handle <;> simp [setPhase, setEvent, he, hsignal]
    · rintro ⟨t₂, hs₂, hp₂, hmem⟩
      by_cases ht₂ : t₂ = t₁
      · subst ht₂
        rw [hp] at hp₂
        cases hp₂
        rcases mem_cons.mp hmem with rfl | hmem
        · exact .inl (by simp [setPhase, setEvent])
        · exact .inr ⟨t₂, hs, by simp, hmem⟩
      · exact .inr ⟨t₂, hs₂, (phase_setPhase_other ht₂).trans hp₂, hmem⟩
  | @doneSignalling t₁ hp =>
    have hne : t ≠ t₁ := by rintro rfl; exact hquiet _ hp
    refine .inr ⟨rfl, released_keep h (phase_setPhase_other hne) id ?_⟩
    rintro ⟨t₂, hs₂, hp₂, hmem⟩
    have ht₂ : t₂ ≠ t₁ := by
      rintro rfl
      rw [hp] at hp₂
      cases hp₂
      cases hmem
    exact .inr ⟨t₂, hs₂, (phase_setPhase_other ht₂).trans hp₂, hmem⟩

/-- The waits of a thread that are over stay over. -/
theorem returned_mono {a : Action} (hstep : step s a = some s') : s.returned t ≤ s'.returned t := by
  cases steps_of_step hstep with
  | wait hp => exact le_of_eq (congrFun (getEventForWaiting_frame s).2.1 t).symm
  | timeOut hp => exact le_refl _
  | wake hp hsig => exact le_refl _
  | @recycle t₁ e₁ hp => by_cases hne : t = t₁ <;> simp [setPhase, hne]
  | signal hp => exact le_of_eq (congrFun (signal_frame s).2.1 t).symm
  | broadcast hp => exact le_refl _
  | setEvent hp => exact le_refl _
  | doneSignalling hp => exact le_refl _

/-- Over a whole run too. -/
theorem released_run {as : List Action} (hgood : ∃ ws rs ts, Good s ws rs ts)
    (h : Released s t e) (hrun : run step as s = some s') :
    s.returned t < s'.returned t ∨ Released s' t e := by
  have hrule : ∀ s₁ a s₂,
      ((∃ ws rs ts, Good s₁ ws rs ts) ∧ s.returned t ≤ s₁.returned t ∧
        (s.returned t < s₁.returned t ∨ Released s₁ t e)) →
      step s₁ a = some s₂ →
      (∃ ws rs ts, Good s₂ ws rs ts) ∧ s.returned t ≤ s₂.returned t ∧
        (s.returned t < s₂.returned t ∨ Released s₂ t e) := by
    rintro s₁ a s₂ ⟨hgood₁, hle, hstate⟩ hstep
    have hmono := returned_mono (t := t) hstep
    refine ⟨step_good hgood₁ hstep, le_trans hle hmono, ?_⟩
    rcases hstate with hlt | hreleased
    · exact .inl (lt_of_lt_of_le hlt hmono)
    · obtain ⟨ws, rs, ts, hgood₁⟩ := hgood₁
      rcases released_step hgood₁ hreleased hstep with hlt | ⟨-, hstays⟩
      · exact .inl (lt_of_le_of_lt hle hlt)
      · exact .inr hstays
  exact (run_invariant hrule hrun ⟨hgood, le_refl _, .inr h⟩).2.2

/-! ## The steps that bring a thread back -/

/-- What is left to do for the wait of `t`: its own two steps, and the SetEvent calls that others
have begun. -/
def Finishing (t : Nat) (a : Action) : Prop :=
  a = .wake t ∨ a = .recycle t ∨ ∃ t', a = .setEvent t'

/-- Steps of this kind alone bring the thread back. -/
def CanFinish (s : State) (t : Nat) : Prop :=
  ∃ as s', run step as s = some s' ∧ s.returned t < s'.returned t ∧ ∀ a ∈ as, Finishing t a

theorem canFinish_cons {a : Action} (hstep : step s a = some s') (ha : Finishing t a)
    (h : CanFinish s' t) : CanFinish s t := by
  obtain ⟨as, s'', hrun, hlt, has⟩ := h
  refine ⟨a :: as, s'', ?_, lt_of_le_of_lt (returned_mono hstep) hlt, ?_⟩
  · rw [run_cons, hstep]
    exact hrun
  · intro b hb
    rcases mem_cons.mp hb with rfl | hb
    · exact ha
    · exact has b hb

theorem canFinish_woken (hp : s.phase t = .woken e) : CanFinish s t := by
  refine ⟨[.recycle t], _, by simp only [run_cons, step, hp]; rfl, ?_, ?_⟩
  · simp [setPhase]
  · intro a ha
    exact .inr (Or.inl (mem_singleton.mp ha))

theorem canFinish_signaled {timed : Bool} (hp : s.phase t = .waiting e timed)
    (hsig : s.signaled e = true) : CanFinish s t := by
  have hstep : step s (.wake t) = some
      ({ s with signaled := Function.update s.signaled e false }.setPhase t (.woken e)) := by
    simp [step, hp, hsig]
  exact canFinish_cons hstep (Or.inl rfl) (canFinish_woken (e := e) (by simp))

/-- The one who signals gets to the event: the induction is on its stack. -/
theorem canFinish_inFlight {timed : Bool} {t' : Nat} {hs : List Nat}
    (hp : s.phase t = .waiting e timed) (hp' : s.phase t' = .signalling hs) (hmem : e ∈ hs) :
    CanFinish s t := by
  have hne : t ≠ t' := by
    rintro rfl
    rw [hp] at hp'
    cases hp'
  induction hs generalizing s with
  | nil => cases hmem
  | cons handle hs ih =>
    have hstep : step s (.setEvent t') =
        some ((s.setEvent handle).setPhase t' (.signalling hs)) := by
      simp [step, hp']
    have hphase : ((s.setEvent handle).setPhase t' (.signalling hs)).phase t =
        .waiting e timed := (phase_setPhase_other hne).trans hp
    refine canFinish_cons hstep (Or.inr (Or.inr ⟨t', rfl⟩)) ?_
    rcases mem_cons.mp hmem with rfl | hmem
    · exact canFinish_signaled hphase (by simp [setPhase, setEvent])
    · exact ih hphase (by simp) hmem

theorem canFinish_of_released (h : Released s t e) : CanFinish s t := by
  rcases h with hp | ⟨timed, hp, hsig | ⟨t', hs, hp', hmem⟩⟩
  · exact canFinish_woken hp
  · exact canFinish_signaled hp hsig
  · exact canFinish_inFlight hp hp' hmem

/-- However the threads go on, the wait of `t` is over or can be finished. -/
def Returns (s : State) (t : Nat) : Prop :=
  ∀ as s', run step as s = some s' → s.returned t < s'.returned t ∨ CanFinish s' t

theorem returns_of_released (hgood : ∃ ws rs ts, Good s ws rs ts) (h : Released s t e) :
    Returns s t := by
  intro as s' hrun
  exact (released_run hgood h hrun).imp_right canFinish_of_released

/-- Who has one of the events that a thread has taken is released. -/
theorem released_taken {t₁ : Nat} {us : List Nat} {links : Links Nat}
    (hp : s.phase t₁ = .outside) (hheld : held s t = some e) (hmem : e ∈ us) :
    Released ({ s with links := links }.setPhase t₁ (.signalling us)) t e := by
  have hne : t ≠ t₁ := by
    rintro rfl
    simp [held, hp, heldIn] at hheld
  have hphase : ({ s with links := links }.setPhase t₁ (.signalling us)).phase t = s.phase t :=
    phase_setPhase_other hne
  cases hp' : s.phase t with
  | outside | signalling hs => simp [held, hp', heldIn] at hheld
  | woken e' =>
    simp only [held, hp', heldIn, Option.some.injEq] at hheld
    obtain rfl := hheld
    exact .inl (hphase.trans hp')
  | waiting e' timed =>
    simp only [held, hp', heldIn, Option.some.injEq] at hheld
    obtain rfl := hheld
    exact .inr ⟨timed, hphase.trans hp', .inr ⟨t₁, us, by simp, hmem⟩⟩


/-! ## What signal and broadcast bring back -/

theorem broadcast_returns {ws rs ts : List Nat} {t₁ : Nat} (h : Good s ws rs ts)
    (hstep : step s (.broadcast t₁) = some s') (hheld : held s t = some e) (hmem : e ∈ ws) :
    Returns s' t := by
  cases steps_of_step hstep with
  | broadcast hp =>
    obtain ⟨hall, hgood⟩ := h.broadcast hp
    refine returns_of_released ⟨_, _, _, hgood⟩ (e := e) (released_taken hp hheld ?_)
    exact (congrArg (fun us : List Nat => e ∈ us) hall).mpr hmem

theorem signal_returns {ws rs ts : List Nat} {t₁ : Nat} (h : Good s ws rs ts)
    (hstep : step s (.signal t₁) = some s') (hws : ws ≠ []) :
    ∃ t e, e ∈ ws ∧ held s t = some e ∧ Returns s' t := by
  cases steps_of_step hstep with
  | signal hp =>
    obtain ⟨ws', hsplit, hgood, hnonempty⟩ := h.signal hp
    obtain ⟨e, he⟩ := exists_mem_of_ne_nil _ (hnonempty hws)
    have hmem : e ∈ ws := by
      rw [hsplit]
      exact mem_append_right _ he
    obtain ⟨t, ht⟩ := h.waiting_held hmem
    have hreleased : Released (s.signal.2.setPhase t₁ (.signalling s.signal.1)) t e := by
      obtain ⟨links, hlinks⟩ := signal_links s
      rw [hlinks]
      exact released_taken hp ht he
    exact ⟨t, e, hmem, ht, returns_of_released ⟨_, _, _, hgood⟩ hreleased⟩

/-- In every state that the threads get to, both lists are linked and disjoint and hold, with what
the threads have, each event once; whoever waits without a limit is on the waiting list or gets its
signal; and who is on the waiting list at a Broadcast, or one thread of it at a Signal, returns. -/
theorem condVar_loses_no_wakeUp (as : List Action) (s : State) (h : run step as create = some s) :
    ∃ ws rs ts : List Nat,
      (Ring s.links waitingList ws ∧ Ring s.links recyclingList rs ∧
        (∀ e ∈ waitingList :: ws, e ∉ recyclingList :: rs)) ∧
      (s.recyclingListSize = rs.length ∧ ts.Nodup ∧ (∀ t, t ∈ ts ↔ (held s t).isSome) ∧
        s.allocationCounter = rs.length + ts.length) ∧
      ((∀ e, (∃ n < s.allocationCounter, e = eventAt n) ↔ e ∈ rs ∨ ∃ t, held s t = some e) ∧
        (∀ t e, held s t = some e → e ∉ rs ∧ ∀ t', held s t' = some e → t = t') ∧
        ∀ e ∈ ws, ∃ t, held s t = some e) ∧
      (∀ t e, s.phase t = .waiting e false → e ∈ ws ∨ s.signaled e = true ∨ InFlight s e) ∧
      (∀ t₁ s', step s (.broadcast t₁) = some s' →
        ∀ t e, held s t = some e → e ∈ ws → Returns s' t) ∧
      (∀ t₁ s', step s (.signal t₁) = some s' → ws ≠ [] →
        ∃ t e, e ∈ ws ∧ held s t = some e ∧ Returns s' t) := by
  obtain ⟨ws, rs, ts, hgood⟩ := run_invariant (P := fun s => ∃ ws rs ts, Good s ws rs ts)
    (fun _ _ _ hg hs => step_good hg hs) h ⟨[], [], [], create_good⟩
  refine ⟨ws, rs, ts, ⟨hgood.lists.ring, hgood.lists.ring', hgood.lists.disjoint⟩,
    ⟨hgood.size, hgood.owners.nodup, hgood.owners.threads, hgood.owners.count⟩,
    ⟨fun e => ?_, fun t e he => ⟨(hgood.owners.allocated t e he).2, fun t' he' =>
      hgood.owners.unique t t' e he he'⟩, fun e he => hgood.waiting_held he⟩, hgood.wakeup,
    fun t₁ s' hstep t e he hmem => broadcast_returns hgood hstep he hmem,
    fun t₁ s' hstep hws => signal_returns hgood hstep hws⟩
  rw [← allocated_iff]
  constructor
  · intro ha
    by_cases hr : e ∈ rs
    · exact .inl hr
    · exact .inr (hgood.owners.covered e ha hr)
  · rintro (hr | ⟨t, ht⟩)
    · exact hgood.lists.allocated e (Or.inr hr)
    · exact (hgood.owners.allocated t e ht).1

/-- A thread waits, a second one signals, and the first returns with its event. -/
theorem condVar_loses_no_wakeUp_signal :
    ∃ s s', run step [.wait 0 false] create = some s ∧ step s (.signal 1) = some s' ∧
      held s 0 = some (eventAt 0) ∧ Returns s' 0 := by
  have hrun : ∃ s, run step [.wait 0 false] create = some s ∧ held s 0 = some (eventAt 0) ∧
      (∀ t, t ≠ 0 → held s t = none) ∧ s.links.next waitingList = eventAt 0 ∧
      ∃ s', step s (.signal 1) = some s' :=
    ⟨_, rfl, rfl, fun t ht => by simp [held, heldIn, setPhase, ht, create], rfl, _,
      rfl⟩
  obtain ⟨s, hs, hheld, hothers, hnext, s', hstep⟩ := hrun
  obtain ⟨ws, rs, ts, ⟨hring, -⟩, -, -, -, -, hsignal⟩ := condVar_loses_no_wakeUp _ s hs
  have hws : ws ≠ [] := by
    rintro rfl
    have := hring.isEmpty_iff.mpr rfl
    rw [hnext] at this
    exact absurd this (by decide)
  obtain ⟨t, e, -, ht, hreturns⟩ := hsignal 1 s' hstep hws
  have hzero : t = 0 := by
    by_contra hne
    rw [hothers t hne] at ht
    cases ht
  subst hzero
  exact ⟨s, s', hs, hstep, hheld, hreturns⟩

end ChromiumUI.Base.WinXPCondVar
