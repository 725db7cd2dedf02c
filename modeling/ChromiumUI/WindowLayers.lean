import ChromiumUI.WindowStacking
import ChromiumUI.Runs

/-!
# The orders of windows, layers and web layers agree

Each operation does the same move in all three forests.
-/
namespace ChromiumUI.Aura

open Forests Runs List Option Nat Function State Forest

variable {s t : State} {window child target : Nat}

structure Inv (s : State) : Prop where
  windows : s.windows.Agrees
  layers : s.layers.Agrees
  web : s.webLayers = s.layers
  owner : ∀ window, (s.layer window).window = window
  /-- Layers that are not made yet are nowhere. -/
  fresh : ∀ l, (s.layer l.window).number < l.number → s.layers.parent l = none ∧ s.layers.children l = []
  order : ∀ window, ((s.windows.children window).map s.layer).Sublist
    (s.layers.children (s.layer window))
  transients : s.transients.Agrees

theorem Inv.injective (h : Inv s) : Function.Injective s.layer := by
  intro a b hab
  rw [← h.owner a, hab, h.owner b]

theorem Inv.not_fresh (h : Inv s) {l : LayerId} (hl : (s.layer l.window).number < l.number)
    (window : Nat) :
    l ≠ s.layer window := by
  rintro rfl
  rw [h.owner] at hl
  exact lt_irrefl _ hl

theorem Inv.layer_parent (h : Inv s) (hchild : s.windows.parent child = some window) :
    s.layers.parent (s.layer child) = some (s.layer window) := by
  rw [← h.layers.mem]
  exact (h.order window).subset (mem_map_of_mem ((h.windows.mem _ _).mpr hchild))

/-! ## Layers -/

/-- The layers and the web layers after the same change. -/
def withLayers (s : State) (F : Forest LayerId) : State :=
  { s with layers := F, webLayers := F }

theorem withLayers_self (hweb : s.webLayers = s.layers) : withLayers s s.layers = s := by
  cases s
  dsimp only at hweb
  subst hweb
  rfl

theorem layerRemove_eq {layer l : LayerId} (hagrees : s.layers.Agrees)
    (hweb : s.webLayers = s.layers) (hl : s.layers.parent l = some layer) :
    s.layerRemove layer l = some (withLayers s (s.layers.detach l)) := by
  rw [layerRemove, if_pos ((hagrees.mem _ _).mpr hl), remove_eq hl, hweb]
  rfl

theorem layerAdd_eq (layer l : LayerId) (hagrees : s.layers.Agrees)
    (hweb : s.webLayers = s.layers) :
    s.layerAdd layer l = some (withLayers s (s.layers.attach layer l)) := by
  unfold layerAdd
  cases hpar : s.layers.parent l with
  | none =>
    simp only [bind_eq_bind, bind_some]
    rw [hweb, withLayers, Forest.attach, Forest.detach_of_none hpar]
  | some parent =>
    have hgone : (s.layers.detach l).parent l = none := by
      rw [detach_parent, update_self]
    simp only [layerRemove_eq hagrees hweb hpar, bind_eq_bind, bind_some,
      withLayers, detach_of_none hgone]
    rfl

theorem layerStack_eq {layer l other : LayerId} (above : Bool) (hagrees : s.layers.Agrees)
    (hweb : s.webLayers = s.layers) (hne : l ≠ other) (hl : s.layers.parent l = some layer)
    (hother : s.layers.parent other = some layer) :
    s.layerStackRelativeTo layer l other above = some (withLayers s
      (s.layers.setChildren layer (moveBeside above l other (s.layers.children layer)))) := by
  have hcode := @moveBeside_code _ _ above l other _ (hagrees.nodup layer)
    ((hagrees.mem _ _).mpr hl) ((hagrees.mem _ _).mpr hother) hne
  unfold layerStackRelativeTo
  rw [if_neg (by simp [hne, hl, hother])]
  dsimp only
  rw [hcode]
  split
  · rw [setChildren_self, withLayers_self hweb]
  · rw [hweb, insertAt_detach hl, withLayers, erase_eq_eraseIdx_of_idxOf rfl]

/-! ## Adding and removing windows -/

theorem map_erase_layer (h : Inv s) (l : List Nat) (child : Nat) :
    (l.erase child).map s.layer = (l.map s.layer).erase (s.layer child) :=
  map_erase h.injective l

theorem removeChild_inv (h : Inv s) (ht : s.removeChild window child = some t) :
    Inv t ∧ t.windows = s.windows.detach child := by
  unfold removeChild at ht
  split at ht
  · rename_i hmem
    have hchild := (h.windows.mem _ _).mp hmem
    rw [@layerRemove_eq { s with windows := s.windows.remove window child } _ _ h.layers h.web
      (h.layer_parent hchild)] at ht
    cases ht
    have hwindows : s.windows.remove window child = s.windows.detach child :=
      remove_eq hchild
    refine ⟨⟨?_, h.layers.detach _, rfl, h.owner, fun l hl => ?_, fun p => ?_, h.transients⟩,
      hwindows⟩
    · show (s.windows.remove window child).Agrees
      rw [hwindows]
      exact h.windows.detach child
    · obtain ⟨hpar, hchildren⟩ := h.fresh l hl
      refine ⟨?_, ?_⟩
      · show (s.layers.detach (s.layer child)).parent l = none
        rw [detach_parent, update_of_ne (h.not_fresh hl child), hpar]
      · show (s.layers.detach (s.layer child)).children l = []
        rw [h.layers.detach_children, hchildren]
        rfl
    · show (((s.windows.remove window child).children p).map s.layer).Sublist
        ((s.layers.detach (s.layer child)).children (s.layer p))
      rw [hwindows, h.windows.detach_children, h.layers.detach_children, map_erase_layer h]
      exact (h.order p).erase _
  · cases ht

/-- AddChild for a window without a parent. -/
theorem append_inv (h : Inv s) (hchild : s.windows.parent child = none) :
    Inv { withLayers s (s.layers.attach (s.layer window) (s.layer child)) with
      windows := s.windows.append window child } := by
  have hwindows : s.windows.append window child = s.windows.attach window child := by
    rw [Forest.attach, Forest.detach_of_none hchild]
  refine ⟨?_, h.layers.attach _ _, rfl, h.owner, fun l hl => ?_, fun p => ?_, h.transients⟩
  · show (s.windows.append window child).Agrees
    rw [hwindows]
    exact h.windows.attach window child
  · obtain ⟨hpar, hchildren⟩ := h.fresh l hl
    refine ⟨?_, ?_⟩
    · show (s.layers.attach (s.layer window) (s.layer child)).parent l = none
      rw [attach_parent, update_of_ne (h.not_fresh hl child), hpar]
    · show (s.layers.attach (s.layer window) (s.layer child)).children l = []
      rw [h.layers.attach_children, hchildren, if_neg (h.not_fresh hl window)]
      rfl
  · show (((s.windows.append window child).children p).map s.layer).Sublist
      ((s.layers.attach (s.layer window) (s.layer child)).children (s.layer p))
    rw [hwindows, h.windows.attach_children, h.layers.attach_children, map_append,
      map_erase_layer h]
    refine ((h.order p).erase _).append ?_
    by_cases hp : p = window
    · rw [if_pos hp, if_pos (congrArg s.layer hp)]
      exact .refl _
    · rw [if_neg hp]
      exact nil_sublist _

theorem addChild_inv (h : Inv s) (ht : s.addChild window child = some t) : Inv t := by
  unfold addChild at ht
  split at ht
  · cases ht
  · cases hchild : s.windows.parent child with
    | none =>
      simp only [hchild, bind_eq_bind, bind_some,
        layerAdd_eq _ _ h.layers h.web] at ht
      cases ht
      exact append_inv h hchild
    | some parent =>
      simp only [hchild, bind_eq_bind] at ht
      obtain ⟨u, hu, ht⟩ := bind_eq_some_iff.mp ht
      obtain ⟨hinv, hwindows⟩ := removeChild_inv h hu
      simp only [layerAdd_eq _ _ hinv.layers hinv.web, bind_some] at ht
      cases ht
      refine append_inv hinv ?_
      rw [hwindows, detach_parent, update_self]

/-! ## Stacking -/

/-- A window and its layer moved beside another window and its layer. -/
def moved (s : State) (window child target : Nat) (above : Bool) : State :=
  { withLayers s (s.layers.setChildren (s.layer window) (moveBeside above (s.layer child)
      (s.layer target) (s.layers.children (s.layer window)))) with
    windows := s.windows.setChildren window
      (moveBeside above child target (s.windows.children window)) }

theorem moved_inv (h : Inv s) (above : Bool) (hne : child ≠ target)
    (hchild : s.windows.parent child = some window)
    (htgt : s.windows.parent target = some window) : Inv (moved s window child target above) := by
  have hwindow := (h.windows.mem _ _).mpr hchild
  have hbeside := (h.windows.mem _ _).mpr htgt
  have hlayer := (h.layers.mem _ _).mpr (h.layer_parent hchild)
  have hlayer' := (h.layers.mem _ _).mpr (h.layer_parent htgt)
  have hne' : s.layer child ≠ s.layer target := fun heq => hne (h.injective heq)
  refine ⟨h.windows.setChildren (moveBeside_perm hwindow hbeside hne),
    h.layers.setChildren (moveBeside_perm hlayer hlayer' hne'), rfl, h.owner, fun l hl => ?_,
    fun p => ?_, h.transients⟩
  · obtain ⟨hpar, hchildren⟩ := h.fresh l hl
    refine ⟨hpar, ?_⟩
    show (s.layers.setChildren _ _).children l = []
    rw [setChildren_children, if_neg (h.not_fresh hl window), hchildren]
  · show (((s.windows.setChildren _ _).children p).map s.layer).Sublist
      ((s.layers.setChildren _ _).children (s.layer p))
    rw [setChildren_children, setChildren_children]
    by_cases hp : p = window
    · rw [if_pos hp, if_pos (congrArg s.layer hp)]
      exact moveBeside_sublist h.injective (h.order window) (h.layers.nodup _) hbeside hne
    · rw [if_neg hp, if_neg fun heq => hp (h.injective heq)]
      exact h.order p

/-- A round of the loop over transient children: the state and last_transient. -/
def stackTransient (fuel window : Nat) (x : State × Nat) (transientChild : Nat) :
    Option (State × Nat) :=
  if x.1.windows.parent transientChild = some window then
    (stackChildRelativeToImpl fuel x.1 window transientChild x.2 .above).map
      fun s => (s, transientChild)
  else some (x.1, x.2)

/-- The child is where it is, or moves with its layer and takes its transient children along. -/
theorem stackImpl_eq (h : Inv s) (fuel : Nat) (direction : StackDirection) (hne : child ≠ target)
    (hchild : s.windows.parent child = some window)
    (htgt : s.windows.parent target = some window) :
    (inPlace (decide (direction = .above)) ((s.windows.children window).idxOf child)
        ((s.windows.children window).idxOf target) = true ∧
      stackChildRelativeToImpl (fuel + 1) s window child target direction = some s) ∨
    stackChildRelativeToImpl (fuel + 1) s window child target direction =
      ((s.transients.children child).foldlM (stackTransient fuel window)
        (moved s window child target (decide (direction = .above)), child)).map Prod.fst := by
  have hcode := @moveBeside_code _ _ (decide (direction = .above)) child target _ (h.windows.nodup window)
    ((h.windows.mem _ _).mpr hchild) ((h.windows.mem _ _).mpr htgt) hne
  rw [stackChildRelativeToImpl, if_neg (by simp [hne, hchild, htgt])]
  dsimp only
  split
  · rename_i hplace
    refine Or.inl ⟨?_, rfl⟩
    cases direction with
    | above | below => simpa [inPlace] using hplace
  · rename_i hmoves
    right
    have hwindows : ((s.windows.children window).eraseIdx
        ((s.windows.children window).idxOf child)).insertIdx
        (if direction = .above then
          (if (s.windows.children window).idxOf child < (s.windows.children window).idxOf target
            then (s.windows.children window).idxOf target
            else (s.windows.children window).idxOf target + 1)
          else (if (s.windows.children window).idxOf child <
            (s.windows.children window).idxOf target
            then (s.windows.children window).idxOf target - 1
            else (s.windows.children window).idxOf target)) child =
        moveBeside (decide (direction = .above)) child target (s.windows.children window) := by
      rw [hcode]
      cases direction with
      | above | below => simp at hmoves ⊢; simp [hmoves]
    have hne' : s.layer child ≠ s.layer target := fun heq => hne (h.injective heq)
    have hlayers := @layerStack_eq { s with
        windows := s.windows.setChildren window
          (moveBeside (decide (direction = .above)) child target (s.windows.children window)) }
      (s.layer window) _ _ (decide (direction = .above)) h.layers h.web hne'
      (h.layer_parent hchild) (h.layer_parent htgt)
    rw [hwindows]
    simp only [hlayers, bind_eq_bind, bind_some]
    rw [map_eq_bind]
    rfl

variable {direction : StackDirection}

theorem stackImpl_checks {fuel : Nat}
    (ht : stackChildRelativeToImpl (fuel + 1) s window child target direction = some t) :
    child ≠ target ∧ s.windows.parent child = some window ∧
      s.windows.parent target = some window := by
  rw [stackChildRelativeToImpl] at ht
  split at ht
  · cases ht
  · rename_i hcheck
    simp only [not_or, not_not] at hcheck
    exact hcheck

theorem stackImpl_inv {fuel : Nat} (h : Inv s)
    (ht : stackChildRelativeToImpl fuel s window child target direction = some t) :
    Inv t := by
  induction fuel generalizing s t child target direction with
  | zero => cases ht
  | succ fuel ih =>
    obtain ⟨hne, hchild, htgt⟩ := stackImpl_checks ht
    have hloop (l : List Nat) (x y : State × Nat) (hx : Inv x.1)
        (hy : l.foldlM (stackTransient fuel window) x = some y) : Inv y.1 := by
      induction l generalizing x with
      | nil =>
        cases hy
        exact hx
      | cons c l ihl =>
        rw [foldlM_cons] at hy
        obtain ⟨z, hz, hy⟩ := bind_eq_some_iff.mp hy
        refine ihl z ?_ hy
        unfold stackTransient at hz
        split at hz
        · obtain ⟨w, hw, rfl⟩ := map_eq_some_iff.mp hz
          exact ih hx hw
        · cases hz
          exact hx
    rcases stackImpl_eq h fuel direction hne hchild htgt with ⟨-, heq⟩ | heq
    · cases heq.symm.trans ht
      exact h
    · rw [heq] at ht
      obtain ⟨y, hy, rfl⟩ := map_eq_some_iff.mp ht
      exact hloop _ _ y (moved_inv h _ hne hchild htgt) hy

/-- Stacking ends where transient windows have a rank: one more round than the rank is enough. -/
theorem stackImpl_some {rank : Nat → Nat} (h : Inv s)
    (hrank : ∀ w c, c ∈ s.transients.children w → rank c < rank w) {fuel : Nat}
    (hfuel : rank child < fuel) (hne : child ≠ target)
    (hchild : s.windows.parent child = some window)
    (htgt : s.windows.parent target = some window) :
    ∃ t, stackChildRelativeToImpl fuel s window child target direction = some t ∧
      t.transients = s.transients ∧ t.windows.parent = s.windows.parent := by
  induction fuel generalizing s child target direction with
  | zero => cases hfuel
  | succ fuel ih =>
    -- every transient child has a smaller rank and is another one than the last
    have hloop (l : List Nat) (hl : ∀ c ∈ l, rank c < fuel) (hnodup : l.Nodup) (x : State × Nat)
        (hx : Inv x.1) (hsame : x.1.transients = s.transients)
        (hpar : x.1.windows.parent = s.windows.parent) (hlast : x.2 ∉ l)
        (hlastParent : s.windows.parent x.2 = some window) :
        ∃ y, l.foldlM (stackTransient fuel window) x = some y ∧
          y.1.transients = s.transients ∧ y.1.windows.parent = s.windows.parent := by
      induction l generalizing x with
      | nil => exact ⟨x, rfl, hsame, hpar⟩
      | cons c l ihl =>
        obtain ⟨hc, hnodup⟩ := nodup_cons.mp hnodup
        rw [foldlM_cons]
        by_cases hcparent : x.1.windows.parent c = some window
        · have hstack : ∃ t, stackChildRelativeToImpl fuel x.1 window c x.2 .above = some t ∧
              t.transients = x.1.transients ∧ t.windows.parent = x.1.windows.parent :=
            ih hx (by rw [hsame]; exact hrank)
              (hl c mem_cons_self) (fun heq => hlast (heq ▸ mem_cons_self)) hcparent
              (by rw [hpar]; exact hlastParent)
          obtain ⟨u, hu, husame, huparent⟩ := hstack
          have hround : stackTransient fuel window x c = some (u, c) := by
            rw [stackTransient, if_pos hcparent, hu]
            rfl
          rw [hround]
          exact ihl (fun d hd => hl d (mem_cons_of_mem _ hd)) hnodup (u, c)
            (stackImpl_inv hx hu) (husame.trans hsame) (huparent.trans hpar) hc
            (by rw [← hpar]; exact hcparent)
        · have hround : stackTransient fuel window x c = some x := by
            rw [stackTransient, if_neg hcparent]
          rw [hround]
          exact ihl (fun d hd => hl d (mem_cons_of_mem _ hd)) hnodup x hx hsame hpar
            (fun hmem => hlast (mem_cons_of_mem _ hmem)) hlastParent
    rcases stackImpl_eq h fuel direction hne hchild htgt with ⟨-, heq⟩ | heq
    · exact ⟨s, heq, rfl, rfl⟩
    · obtain ⟨y, hy, hsame, hpar⟩ := hloop (s.transients.children child)
        (fun c hc => (hrank child c hc).trans_le (le_of_lt_succ hfuel))
        (h.transients.nodup child) (moved s window child target (decide (direction = .above)), child)
        (moved_inv h _ hne hchild htgt) rfl rfl
        (fun hmem => lt_irrefl _ (hrank child child hmem)) hchild
      refine ⟨y.1, ?_, hsame, hpar⟩
      rw [heq, hy]
      rfl

/-! ## RecreateLayer -/

theorem layerAdd_all (layer : LayerId) (l : List LayerId) (u : State) (hagrees : u.layers.Agrees)
    (hweb : u.webLayers = u.layers) :
    l.foldlM (fun s child => layerAdd s layer child) u =
      some (withLayers u (l.foldl (fun F c => F.attach layer c) u.layers)) := by
  induction l generalizing u with
  | nil =>
    rw [foldl_nil, withLayers_self hweb]
    rfl
  | cons c l ih =>
    rw [foldlM_cons, layerAdd_eq layer c hagrees hweb]
    exact ih (withLayers u (u.layers.attach layer c)) (hagrees.attach layer c) rfl

/-- The layers after the new one is put above the old one. -/
structure Replaced (F G : Forest LayerId) (old new : LayerId) : Prop where
  agrees : G.Agrees
  parent : ∀ c, G.parent c = if c = new then F.parent old else F.parent c
  children : ∀ x, G.children x =
    if F.parent old = some x then insertBeside true new old (F.children x) else F.children x

theorem replaced_none {F : Forest LayerId} {old new : LayerId} (h : F.Agrees)
    (hold : F.parent old = none) (hnew : F.parent new = none) : Replaced F F old new := by
  refine ⟨h, fun c => ?_, fun x => ?_⟩
  · split
    · rename_i hc
      rw [hc, hold, hnew]
    · rfl
  · rw [hold, if_neg nofun]

theorem replaced_some {F : Forest LayerId} {old new q : LayerId} (h : F.Agrees)
    (hold : F.parent old = some q) (hnew : F.parent new = none) (hne : new ≠ old) :
    Replaced F ((F.attach q new).setChildren q (moveBeside true new old
      ((F.attach q new).children q))) old new := by
  have hnot (x : LayerId) : new ∉ F.children x := fun hmem => by
    rw [h.mem, hnew] at hmem
    cases hmem
  have hchild (x : LayerId) : (F.attach q new).children x =
      F.children x ++ if x = q then [new] else [] := by
    rw [h.attach_children, erase_of_not_mem (hnot x)]
  have hmove : moveBeside true new old ((F.attach q new).children q) =
      insertBeside true new old (F.children q) := by
    rw [moveBeside, hchild, if_pos rfl, erase_append_right _ (hnot q),
      erase_cons_head, append_nil]
  have hmem : new ∈ (F.attach q new).children q := by
    rw [hchild, if_pos rfl]
    exact mem_append_right _ mem_cons_self
  have hmem' : old ∈ (F.attach q new).children q := by
    rw [hchild]
    exact mem_append_left _ ((h.mem _ _).mpr hold)
  refine ⟨(h.attach q new).setChildren (moveBeside_perm hmem hmem' hne), fun c => ?_, fun x => ?_⟩
  · rw [setChildren_parent, attach_parent, update_apply, hold]
  · rw [setChildren_children, hmove, hchild, hold]
    by_cases hx : x = q
    · rw [if_pos hx, if_pos (congrArg some hx.symm), hx]
    · rw [if_neg hx, if_neg hx, if_neg fun heq => hx (some.inj heq).symm, append_nil]

/-- The layer that is made next for a window. -/
def nextLayer (s : State) (window : Nat) : LayerId := ⟨window, (s.layer window).number + 1⟩

theorem recreated_inv (h : Inv s) {G : Forest LayerId} {hasDelegate : LayerId → Bool}
    (hG : Replaced s.layers G (s.layer window) (nextLayer s window)) :
    Inv (withLayers { s with
        layer := update s.layer window (nextLayer s window)
        hasDelegate }
      ((G.children (s.layer window)).foldl (fun F c => F.attach (nextLayer s window) c) G)) := by
  have hfreshNew : (s.layer (nextLayer s window).window).number < (nextLayer s window).number :=
    lt_succ_self _
  have hnew := h.fresh _ hfreshNew
  have hne := h.not_fresh hfreshNew
  obtain ⟨hagrees, hchild, hpar⟩ := hG.agrees.attach_all (nextLayer s window)
    (hG.agrees.nodup (s.layer window))
  have hempty {l : LayerId} (hl : s.layers.children l = []) : G.children l = [] := by
    rw [hG.children, if_neg, hl]
    intro hpar
    rw [← h.layers.mem, hl] at hpar
    cases hpar
  refine ⟨h.windows, hagrees, rfl, fun p => ?_, fun l hl => ?_, fun p => ?_, h.transients⟩
  · show (update s.layer window (nextLayer s window) p).window = p
    rw [update_apply]
    split
    · rename_i hp
      exact hp.symm
    · exact h.owner p
  · replace hl : (update s.layer window (nextLayer s window) l.window).number < l.number :=
      hl
    have hlt : (s.layer l.window).number < l.number ∧ l ≠ nextLayer s window := by
      rw [update_apply] at hl
      split at hl
      · rename_i hwindow
        rw [hwindow]
        refine ⟨lt_of_succ_lt hl, fun heq => ?_⟩
        rw [heq] at hl
        exact lt_irrefl _ hl
      · rename_i hwindow
        exact ⟨hl, fun heq => hwindow (heq ▸ rfl)⟩
    obtain ⟨hlparent, hlchildren⟩ := h.fresh l hlt.1
    have hGparent : G.parent l = none := by rw [hG.parent, if_neg hlt.2, hlparent]
    refine ⟨(hpar l).trans ?_, (hchild l).trans ?_⟩
    · rw [if_neg, hGparent]
      rw [hG.agrees.mem, hGparent]
      exact nofun
    · rw [hempty hlchildren, if_neg hlt.2]
      rfl
  · have hsame : (foldl (fun F c => F.attach (nextLayer s window) c) G
        (G.children (s.layer window))).children
        (update s.layer window (nextLayer s window) p) = G.children (s.layer p) := by
      rw [hchild, update_apply]
      by_cases hp : p = window
      · rw [if_pos hp, if_pos rfl, hempty hnew.2, hp]
        rfl
      · rw [if_neg hp, if_neg (hne p).symm, append_nil]
        refine filter_eq_self.mpr fun c hc => decide_eq_true fun hc' => hp ?_
        rw [hG.agrees.mem] at hc hc'
        exact h.injective (some.inj (hc.symm.trans hc'))
    show ((s.windows.children p).map (update s.layer window (nextLayer s window))).Sublist
      ((foldl (fun F c => F.attach (nextLayer s window) c) G
        (G.children (s.layer window))).children
        (update s.layer window (nextLayer s window) p))
    rw [hsame, hG.children]
    split
    · have hmap : (s.windows.children p).map (update s.layer window (nextLayer s window)) =
          ((s.windows.children p).map s.layer).map
            fun x => if x = s.layer window then nextLayer s window else x := by
        rw [List.map_map]
        refine map_congr_left fun c _ => ?_
        rw [update_apply, comp_apply]
        by_cases hc : c = window
        · rw [if_pos hc, if_pos (congrArg s.layer hc)]
        · rw [if_neg hc, if_neg fun heq => hc (h.injective heq)]
      rw [hmap]
      exact replace_sublist (h.order p) (h.layers.nodup _)
    · rename_i hother
      have hmap : (s.windows.children p).map (update s.layer window (nextLayer s window)) =
          (s.windows.children p).map s.layer := by
        refine map_congr_left fun c hc => update_of_ne ?_ _ _
        rintro rfl
        exact hother (h.layer_parent ((h.windows.mem _ _).mp hc))
      rw [hmap]
      exact h.order p

/-- The window with its next layer, before any layer moves. -/
def relabelled (s : State) (window : Nat) : State :=
  { s with
    layer := update s.layer window (nextLayer s window)
    hasDelegate := update (update s.hasDelegate (s.layer window) false)
      (nextLayer s window) true }

theorem recreateLayer_eq (s : State) (window : Nat) : s.recreateLayer window =
    (match s.layers.parent (s.layer window) with
    | none => some (relabelled s window)
    | some parent => ((relabelled s window).layerAdd parent (nextLayer s window)).bind fun u =>
        u.layerStackRelativeTo parent (nextLayer s window) (s.layer window) true).bind fun u =>
      (u.layers.children (s.layer window)).foldlM
        (fun s' child => s'.layerAdd (nextLayer s window) child) u := by
  cases hpar : s.layers.parent (s.layer window) with
  | none =>
    simp only [recreateLayer, hpar, bind_eq_bind, bind_some]
    rfl
  | some parent =>
    simp only [recreateLayer, hpar, bind_eq_bind, bind_assoc]
    rfl

theorem recreateLayer_spec (h : Inv s) (window : Nat) :
    ∃ t, s.recreateLayer window = some t ∧ Inv t := by
  have hfreshNew : (s.layer (nextLayer s window).window).number < (nextLayer s window).number :=
    lt_succ_self _
  have hnew := (h.fresh _ hfreshNew).1
  have hne := h.not_fresh hfreshNew window
  rw [recreateLayer_eq]
  cases hpar : s.layers.parent (s.layer window) with
  | none =>
    have hall := layerAdd_all (nextLayer s window) (s.layers.children (s.layer window))
      (relabelled s window) h.layers h.web
    exact ⟨_, hall, recreated_inv h (replaced_none h.layers hpar hnew)⟩
  | some q =>
    have hreplaced := replaced_some h.layers hpar hnew hne
    have hadd := @layerAdd_eq (relabelled s window) q (nextLayer s window) h.layers h.web
    have hold : (s.layers.attach q (nextLayer s window)).parent (s.layer window) = some q := by
      rw [attach_parent, update_of_ne hne.symm, hpar]
    have hat : (s.layers.attach q (nextLayer s window)).parent (nextLayer s window) = some q := by
      rw [attach_parent, update_self]
    have hstack := @layerStack_eq
      (withLayers (relabelled s window) (s.layers.attach q (nextLayer s window))) q _ _ true
      (h.layers.attach q (nextLayer s window)) rfl hne hat hold
    have hall (l : List LayerId) := layerAdd_all (nextLayer s window) l (withLayers (withLayers
      (relabelled s window) (s.layers.attach q (nextLayer s window))) _) hreplaced.agrees rfl
    simp only [hadd, bind_some]
    rw [show (relabelled s window).layers = s.layers from rfl, hstack, bind_some]
    exact ⟨_, hall _, recreated_inv h hreplaced⟩

/-! ## Transient children -/

theorem Inv.with_delegates (h : Inv s) (hasDelegate : LayerId → Bool) :
    Inv { s with hasDelegate } :=
  ⟨h.windows, h.layers, h.web, h.owner, h.fresh, h.order, h.transients⟩

theorem Inv.with_transients (h : Inv s) {transients : Forest Nat} (hagrees : transients.Agrees) :
    Inv { s with transients } :=
  ⟨h.windows, h.layers, h.web, h.owner, h.fresh, h.order, hagrees⟩

theorem removeTransientChild_eq (h : Inv s) (hchild : s.transients.parent child = some window) :
    s.removeTransientChild window child =
      some { s with transients := s.transients.detach child } := by
  rw [removeTransientChild, if_pos ((h.transients.mem _ _).mpr hchild), if_pos hchild,
    detach, hchild]
  rfl

theorem addTransientChild_spec (h : Inv s) (window child : Nat) :
    ∃ t, s.addTransientChild window child = some t ∧ Inv t := by
  have append {u : State} (hu : Inv u) (hchild : u.transients.parent child = none) :
      ∃ t, (if child ∈ u.transients.children window then none
        else some { u with transients := u.transients.append window child }) = some t ∧ Inv t := by
    have hagrees := hu.transients.attach window child
    rw [Forest.attach, Forest.detach_of_none hchild] at hagrees
    refine ⟨_, if_neg fun hmem => ?_, hu.with_transients hagrees⟩
    rw [hu.transients.mem, hchild] at hmem
    cases hmem
  cases hchild : s.transients.parent child with
  | none =>
    simp only [addTransientChild, hchild, bind_eq_bind, bind_some]
    exact append h hchild
  | some parent =>
    simp only [addTransientChild, hchild, removeTransientChild_eq h hchild,
      bind_eq_bind, bind_some]
    refine append (h.with_transients (h.transients.detach child)) ?_
    rw [detach_parent, update_self]

theorem removeTransientChild_inv (h : Inv s) (ht : s.removeTransientChild window child = some t) :
    Inv t := by
  by_cases hmem : child ∈ s.transients.children window
  · rw [removeTransientChild_eq h ((h.transients.mem _ _).mp hmem)] at ht
    cases ht
    exact h.with_transients (h.transients.detach child)
  · rw [removeTransientChild, if_neg hmem] at ht
    cases ht

/-! ## Runs -/

theorem stackChildRelativeTo_inv {fuel : Nat} (h : Inv s)
    (ht : stackChildRelativeTo fuel s window child target direction = some t) : Inv t := by
  unfold stackChildRelativeTo at ht
  split at ht
  · cases ht
  · obtain ⟨final, -, ht⟩ := bind_eq_some_iff.mp ht
    split at ht
    · cases ht
      exact h
    · split at ht
      · cases ht
        exact h
      · exact stackImpl_inv h ht

theorem Inv.step {fuel : Nat} {a : Action} (h : Inv s) (ht : s.step fuel a = some t) : Inv t := by
  cases a with
  | addChild window child => exact addChild_inv h ht
  | removeChild window child => exact (removeChild_inv h ht).1
  | stackChildAtTop window child =>
    simp only [State.step, State.stackChildAtTop] at ht
    split at ht
    · cases ht
      exact h
    · split at ht
      · cases ht
        exact h
      · exact stackChildRelativeTo_inv h ht
  | stackChildAbove window child target | stackChildBelow window child target =>
    exact stackChildRelativeTo_inv h ht
  | addTransientChild window child =>
    obtain ⟨u, hu, hinv⟩ := addTransientChild_spec h window child
    cases hu.symm.trans ht
    exact hinv
  | removeTransientChild window child => exact removeTransientChild_inv h ht
  | recreateLayer window =>
    obtain ⟨u, hu, hinv⟩ := recreateLayer_spec h window
    cases hu.symm.trans ht
    exact hinv
  | clearDelegate window =>
    cases ht
    exact h.with_delegates _

theorem agrees_empty {ι : Type} : (⟨fun _ => [], fun _ => none⟩ : Forest ι).Agrees :=
  ⟨fun _ _ => ⟨nofun, nofun⟩, fun _ => .nil⟩

theorem init_inv : Inv init :=
  ⟨agrees_empty, agrees_empty, rfl, fun _ => rfl, fun _ _ => ⟨rfl, rfl⟩, fun _ => .slnil,
    agrees_empty⟩

/-! ## Operations that end -/

/-- What the DCHECKs ask of the callers. -/
def Legal (s : State) : Action → Prop
  | .addChild window child => child ∉ s.windows.children window
  | .removeChild window child | .stackChildAtTop window child => child ∈ s.windows.children window
  | .stackChildAbove window child target | .stackChildBelow window child target =>
    child ≠ target ∧ child ∈ s.windows.children window ∧ target ∈ s.windows.children window
  | .removeTransientChild window child => child ∈ s.transients.children window
  | .addTransientChild _ _ | .recreateLayer _ | .clearDelegate _ => True

/-- No window is transient for itself, directly or not. -/
def Ranked (s : State) : Prop :=
  ∃ rank : Nat → Nat, ∀ window child, child ∈ s.transients.children window → rank child < rank window

theorem finalTarget_le (s : State) (children : List Nat) (i : Nat) :
    s.finalTarget children i ≤ i := by
  induction i with
  | zero => exact le_refl 0
  | succ i ih =>
    rw [finalTarget]
    split
    · exact le_refl _
    · split
      · exact le_refl _
      · exact ih.trans (le_succ i)

theorem stackChildRelativeTo_some (h : Inv s) (hranked : Ranked s) (direction : StackDirection)
    (hne : child ≠ target) (hchild : child ∈ s.windows.children window)
    (htgt : target ∈ s.windows.children window) :
    ∃ fuel t, stackChildRelativeTo fuel s window child target direction = some t := by
  obtain ⟨rank, hrank⟩ := hranked
  have hpar := (h.windows.mem _ _).mp hchild
  have hlt : s.finalTarget (s.windows.children window)
      ((s.windows.children window).idxOf target) < (s.windows.children window).length :=
    (finalTarget_le s _ _).trans_lt (idxOf_lt_length_of_mem htgt)
  have hfinal := getElem?_eq_getElem hlt
  have hfinalParent := (h.windows.mem _ _).mp (mem_of_getElem? hfinal)
  refine ⟨rank child + 1, ?_⟩
  unfold stackChildRelativeTo
  rw [if_neg (by simp [hne, hpar, (h.windows.mem _ _).mp htgt])]
  simp only [hfinal, bind_eq_bind, bind_some]
  split
  · exact ⟨s, rfl⟩
  · split
    · exact ⟨s, rfl⟩
    · rename_i hother
      have hstack : ∃ t, stackChildRelativeToImpl (rank child + 1) s window child _ direction =
          some t ∧ t.transients = s.transients ∧ t.windows.parent = s.windows.parent :=
        stackImpl_some h hrank (lt_succ_self _) hother hpar hfinalParent
      obtain ⟨t, ht, -⟩ := hstack
      exact ⟨t, ht⟩

/-- What the callers may ask for is done, whatever the fuel that transient children need. -/
theorem Inv.step_some (h : Inv s) (hranked : Ranked s) {a : Action} (hlegal : Legal s a) :
    ∃ fuel t, s.step fuel a = some t := by
  cases a with
  | addChild window child =>
    refine ⟨0, ?_⟩
    simp only [State.step, State.addChild]
    rw [if_neg hlegal]
    cases hpar : s.windows.parent child with
    | none =>
      simp only [bind_eq_bind, bind_some, layerAdd_eq _ _ h.layers h.web]
      exact ⟨_, rfl⟩
    | some parent =>
      have hmem := (h.windows.mem _ _).mpr hpar
      obtain ⟨u, hu⟩ : ∃ u, s.removeChild parent child = some u := by
        rw [removeChild, if_pos hmem]
        exact ⟨_, @layerRemove_eq { s with windows := s.windows.remove parent child } _ _ h.layers
          h.web (h.layer_parent hpar)⟩
      obtain ⟨hinv, -⟩ := removeChild_inv h hu
      simp only [hu, bind_eq_bind, bind_some, layerAdd_eq _ _ hinv.layers hinv.web]
      exact ⟨_, rfl⟩
  | removeChild window child =>
    have hmem : child ∈ s.windows.children window := hlegal
    refine ⟨0, ?_⟩
    simp only [State.step, State.removeChild]
    rw [if_pos hmem]
    exact ⟨_, @layerRemove_eq { s with windows := s.windows.remove window child } _ _ h.layers h.web
      (h.layer_parent ((h.windows.mem _ _).mp hmem))⟩
  | stackChildAtTop window child =>
    simp only [State.step, State.stackChildAtTop]
    split
    · exact ⟨0, s, rfl⟩
    · rename_i back hback
      split
      · exact ⟨0, s, rfl⟩
      · rename_i hnot
        exact stackChildRelativeTo_some h hranked .above (fun heq => hnot (Or.inr heq)) hlegal
          (mem_of_getLast? hback)
  | stackChildAbove window child target =>
    exact stackChildRelativeTo_some h hranked .above hlegal.1 hlegal.2.1 hlegal.2.2
  | stackChildBelow window child target =>
    exact stackChildRelativeTo_some h hranked .below hlegal.1 hlegal.2.1 hlegal.2.2
  | addTransientChild window child =>
    obtain ⟨t, ht, -⟩ := addTransientChild_spec h window child
    exact ⟨0, t, ht⟩
  | removeTransientChild window child =>
    exact ⟨0, _, removeTransientChild_eq h ((h.transients.mem _ _).mp hlegal)⟩
  | recreateLayer window =>
    obtain ⟨t, ht, -⟩ := recreateLayer_spec h window
    exact ⟨0, t, ht⟩
  | clearDelegate window => exact ⟨0, _, rfl⟩

/-- The three orders are one. -/
structure OrdersAgree (s : State) : Prop where
  windows : s.windows.Agrees
  layers : s.layers.Agrees
  webChildren : ∀ l, s.webLayers.children l = s.layers.children l
  webParent : ∀ l, s.webLayers.parent l = s.layers.parent l
  order : ∀ window, ((s.windows.children window).map s.layer).Sublist
    (s.layers.children (s.layer window))
  layer : Function.Injective s.layer

theorem Inv.ordersAgree (h : Inv s) : OrdersAgree s :=
  ⟨h.windows, h.layers, fun _ => by rw [h.web], fun _ => by rw [h.web], h.order, h.injective⟩

/-- After any operations the orders agree, and every further operation that the DCHECKs allow comes
to an end if no window is transient for itself. -/
theorem orders_agree (fuel : Nat) (as : List Action) (s : State)
    (h : run (step fuel) as init = some s) :
    OrdersAgree s ∧ (Ranked s → ∀ a, Legal s a → ∃ fuel' t, s.step fuel' a = some t) := by
  have hinv : Inv s := run_invariant (P := Inv) (fun _ _ _ hs ht => hs.step ht) h init_inv
  exact ⟨hinv.ordersAgree, fun hranked a hlegal => hinv.step_some hranked hlegal⟩

theorem orders_agree_transient : ∃ s, run (step 3) [.addChild 0 1, .addChild 0 2, .addChild 0 3,
    .addTransientChild 1 3, .recreateLayer 2, .stackChildAtTop 0 1, .recreateLayer 0] init =
      some s ∧ s.windows.children 0 = [2, 1, 3] ∧ OrdersAgree s := by
  obtain ⟨s, hs⟩ : ∃ s, run (step 3) [.addChild 0 1, .addChild 0 2, .addChild 0 3,
    .addTransientChild 1 3, .recreateLayer 2, .stackChildAtTop 0 1, .recreateLayer 0] init =
      some s := ⟨_, rfl⟩
  refine ⟨s, hs, ?_, (orders_agree 3 _ s hs).1⟩
  cases hs
  rfl

end ChromiumUI.Aura
