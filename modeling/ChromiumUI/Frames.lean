import Mathlib

/-!
# Functions that touch part of a state

A state is seen through a family of equivalences, one for each of its places, that together
tell states apart. A function is local to some places when it leaves the others alone and
answers at each place by what is there. Functions that are local to disjoint places commute.
-/
namespace ChromiumUI.Frames

variable {σ ι : Type*}

/-- The places tell the states apart. -/
structure Frame (same : ι → σ → σ → Prop) : Prop where
  equivalence : ∀ i, Equivalence (same i)
  separates : ∀ s t, (∀ i, same i s t) → s = t

structure Local (same : ι → σ → σ → Prop) (places : Set ι) (f : σ → σ) : Prop where
  frame : ∀ i, i ∉ places → ∀ s, same i (f s) s
  answers : ∀ i s t, same i s t → same i (f s) (f t)

variable {same : ι → σ → σ → Prop} {places places' : Set ι} {f g : σ → σ}

theorem Frame.local_id (h : Frame same) : Local same places fun s => s where
  frame i _ s := (h.equivalence i).refl s
  answers _ _ _ hsame := hsame

theorem Local.comp (h : Frame same) (hg : Local same places g) (hf : Local same places f) :
    Local same places fun s => g (f s) where
  frame i hi s := (h.equivalence i).trans (hg.frame i hi (f s)) (hf.frame i hi s)
  answers i s t hsame := hg.answers i _ _ (hf.answers i s t hsame)

theorem Local.foldl {α : Type*} (h : Frame same) {step : σ → α → σ} {l : List α}
    (hl : ∀ a ∈ l, Local same places fun s => step s a) :
    Local same places fun s => l.foldl step s := by
  induction l with
  | nil => exact h.local_id
  | cons a l ih =>
    have hrest := ih fun b hb => hl b (List.mem_cons_of_mem _ hb)
    exact hrest.comp h (hl a List.mem_cons_self)

/-- The frame rule: what touches disjoint places can be done in either order. -/
theorem Local.comm (h : Frame same) (hf : Local same places f) (hg : Local same places' g)
    (hdisj : Disjoint places places') (s : σ) : f (g s) = g (f s) := by
  apply h.separates
  intro i
  have hequiv := h.equivalence i
  by_cases hi : i ∈ places
  · have hi' : i ∉ places' := fun hmem => Set.disjoint_left.mp hdisj hi hmem
    have hleft : same i (f (g s)) (f s) := hf.answers i _ _ (hg.frame i hi' s)
    exact hequiv.trans hleft (hequiv.symm (hg.frame i hi' (f s)))
  · have hright : same i (g (f s)) (g s) := hg.answers i _ _ (hf.frame i hi s)
    exact hequiv.trans (hf.frame i hi (g s)) (hequiv.symm hright)

end ChromiumUI.Frames
