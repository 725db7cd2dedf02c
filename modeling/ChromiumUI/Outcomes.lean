import Mathlib.Tactic.Common

/-!
# What a fallible computation yields

`Yields o P`: the computation succeeds, with a result of which `P` holds. The rules follow
the shape of the computation. `Ensures` says the property of a result without promising one.
`Returns` is the same as `Yields` for a computation that can end in an error of some kind.
-/
namespace ChromiumUI.Outcomes

variable {α β : Type*}

def Yields (o : Option α) (P : α → Prop) : Prop := ∃ a, o = some a ∧ P a

variable {P : α → Prop}

theorem Yields.some {a : α} (h : P a) : Yields (some a) P := ⟨a, rfl, h⟩

variable {o : Option α}

theorem Yields.mono {Q : α → Prop} (h : Yields o P) (hPQ : ∀ a, P a → Q a) : Yields o Q := by
  obtain ⟨a, ha, hP⟩ := h
  exact ⟨a, ha, hPQ a hP⟩

theorem Yields.bind {o : Option α} {f : α → Option β} {P : α → Prop} {Q : β → Prop}
    (h : Yields o P) (hf : ∀ a, P a → Yields (f a) Q) : Yields (o.bind f) Q := by
  obtain ⟨a, rfl, hP⟩ := h
  exact hf a hP

theorem Yields.map {f : α → β} {Q : β → Prop} (h : Yields o P) (hf : ∀ a, P a → Q (f a)) :
    Yields (o.map f) Q := by
  obtain ⟨a, rfl, hP⟩ := h
  exact ⟨f a, rfl, hf a hP⟩

theorem Yields.ite {c : Prop} [Decidable c] {o' : Option α} (h : c → Yields o P)
    (h' : ¬c → Yields o' P) : Yields (if c then o else o') P := by
  split
  · exact h ‹_›
  · exact h' ‹_›

theorem Yields.of_eq {a : α} (h : Yields o P) (ha : o = .some a) : P a := by
  obtain ⟨b, hb, hP⟩ := h
  cases ha.symm.trans hb
  exact hP

/-- Whatever the computation yields has the property. -/
def Ensures (o : Option α) (P : α → Prop) : Prop := ∀ a, o = some a → P a

theorem Ensures.some {a : α} (h : P a) : Ensures (some a) P := by
  rintro _ ⟨⟩
  exact h

theorem Ensures.mono {Q : α → Prop} (h : Ensures o P) (hPQ : ∀ a, P a → Q a) :
    Ensures o Q := fun a ha => hPQ a (h a ha)

theorem Ensures.bind {o : Option α} {f : α → Option β} {P : α → Prop} {Q : β → Prop}
    (h : Ensures o P) (hf : ∀ a, P a → Ensures (f a) Q) : Ensures (o.bind f) Q := by
  cases o with
  | none => exact nofun
  | some a => exact hf a (h a rfl)

theorem Ensures.of_any {f : α → Option β} {Q : β → Prop} (hf : ∀ a, Ensures (f a) Q) :
    Ensures (o.bind f) Q := by
  cases o with
  | none => exact nofun
  | some a => exact hf a

variable {ε σ : Type*}

theorem Ensures.foldlM {f : σ → α → Option σ} {P : σ → Prop} (hf : ∀ s a, P s → Ensures (f s a) P)
    (l : List α) {s : σ} (hs : P s) : Ensures (l.foldlM f s) P := by
  induction l generalizing s with
  | nil => exact .some hs
  | cons a l ih =>
    rw [List.foldlM_cons]
    exact Ensures.bind (hf s a hs) fun t ht => ih ht

def Returns (x : Except ε α) (P : α → Prop) : Prop := ∃ a, x = .ok a ∧ P a

theorem Returns.ok {a : α} (h : P a) : Returns (.ok a : Except ε α) P := ⟨a, rfl, h⟩

theorem Returns.mono {x : Except ε α} {Q : α → Prop} (h : Returns x P) (hPQ : ∀ a, P a → Q a) :
    Returns x Q := by
  obtain ⟨a, ha, hP⟩ := h
  exact ⟨a, ha, hPQ a hP⟩

theorem Returns.bind {x : Except ε α} {f : α → Except ε β} {P : α → Prop} {Q : β → Prop}
    (h : Returns x P) (hf : ∀ a, P a → Returns (f a) Q) : Returns (x.bind f) Q := by
  obtain ⟨a, rfl, hP⟩ := h
  exact hf a hP

theorem Returns.map {x : Except ε α} {f : α → β} {Q : β → Prop} (h : Returns x P)
    (hf : ∀ a, P a → Q (f a)) : Returns (x.map f) Q := by
  obtain ⟨a, rfl, hP⟩ := h
  exact ⟨f a, rfl, hf a hP⟩

/-- A loop whose body keeps an invariant ends with it. -/
theorem Returns.foldlM {f : σ → α → Except ε σ} {P : σ → Prop} {l : List α} {s : σ} (hs : P s)
    (hf : ∀ s, ∀ a ∈ l, P s → Returns (f s a) P) : Returns (l.foldlM f s) P := by
  induction l generalizing s with
  | nil => exact .ok hs
  | cons a l ih =>
    rw [List.foldlM_cons]
    apply Returns.bind (hf s a (List.mem_cons_self ..) hs)
    intro t ht
    exact ih ht fun s' c hc => hf s' c (List.mem_cons_of_mem _ hc)

/-- The second computation does what the first one does, seen through `f`. -/
def Maps (f : α → β) (o : Option α) (o' : Option β) : Prop := o.map f = o'

variable {γ δ : Type*} {f : α → β} {o : Option α} {o' : Option β}

theorem Maps.some {a : α} {b : β} (h : f a = b) : Maps f (some a) (some b) := congrArg _ h

theorem Maps.bind {g : γ → δ} {k : α → Option γ} {k' : β → Option δ} (h : Maps f o o')
    (hk : ∀ a, Maps g (k a) (k' (f a))) : Maps g (o.bind k) (o'.bind k') := by
  cases h
  cases o with
  | none => rfl
  | some a => exact hk a

theorem Maps.map {g : γ → δ} {k : α → γ} {k' : β → δ} (h : Maps f o o')
    (hk : ∀ a, g (k a) = k' (f a)) : Maps g (o.map k) (o'.map k') := by
  cases h
  cases o with
  | none => rfl
  | some a => exact congrArg _ (hk a)

theorem Maps.yields {P : β → Prop} (h : Maps f o o') (hP : Yields o' P) :
    Yields o fun a => P (f a) := by
  cases h
  obtain ⟨b, hb, hPb⟩ := hP
  obtain ⟨a, rfl, rfl⟩ := Option.map_eq_some_iff.mp hb
  exact ⟨a, rfl, hPb⟩

end ChromiumUI.Outcomes
