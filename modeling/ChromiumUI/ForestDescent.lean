import ChromiumUI.OrderedForests
import Mathlib.Order.WellFounded

/-!
# What is under a node of a forest

A forest is grounded when no node is under itself and every way down ends. A grounded forest has
finitely many nodes under each node.
-/
namespace ChromiumUI.Forests.Forest

open Relation.ReflTransGen

variable {ι : Type} {F G : Forest ι} {p q c n m : ι}

/-- A node or one below it. -/
def Under (F : Forest ι) (n root : ι) : Prop :=
  Relation.ReflTransGen (fun c p => c ∈ F.children p) n root

def Grounded (F : Forest ι) : Prop := WellFounded fun c p => c ∈ F.children p

theorem Under.refl (F : Forest ι) (n : ι) : F.Under n n := Relation.ReflTransGen.refl

theorem Under.child (h : F.Under n c) (hc : c ∈ F.children p) : F.Under n p :=
  tail h hc

theorem under_iff : F.Under n p ↔ n = p ∨ ∃ c, c ∈ F.children p ∧ F.Under n c := by
  rw [Under, cases_tail_iff]
  constructor
  · rintro (h | ⟨c, hc, hcp⟩)
    · exact Or.inl h.symm
    · exact Or.inr ⟨c, hcp, hc⟩
  · rintro (h | ⟨c, hcp, hc⟩)
    · exact Or.inl h.symm
    · exact Or.inr ⟨c, hc, hcp⟩

theorem Grounded.mono (hsub : ∀ q, F.children q ⊆ G.children q) (h : G.Grounded) : F.Grounded :=
  Subrelation.wf (fun {_ q} hc => hsub q hc) h

theorem Grounded.not_under (h : F.Grounded) (hc : c ∈ F.children p) : ¬F.Under p c := by
  intro hunder
  have hcycle : Relation.TransGen (fun c p => c ∈ F.children p) p p :=
    Relation.TransGen.tail' hunder hc
  exact (WellFounded.transGen h).asymmetric _ _ hcycle hcycle

/-- A node that is not above `p` may become a child of `p`. -/
theorem Grounded.add_child (h : F.Grounded) (hnot : ¬F.Under p c)
    (hG : ∀ q m, m ∈ G.children q → m ∈ F.children q ∨ (q = p ∧ m = c)) : G.Grounded := by
  have hbelow (m : ι) : F.Under m c → Acc (fun c p => c ∈ G.children p) m := by
    induction m using h.induction with
    | h m ih =>
      intro hm
      refine Acc.intro m fun k hk => ?_
      obtain hk | ⟨rfl, -⟩ := hG m k hk
      · exact ih k hk (head hk hm)
      · exact absurd hm hnot
  refine ⟨fun m => ?_⟩
  induction m using h.induction with
  | h m ih =>
    refine Acc.intro m fun k hk => ?_
    obtain hk | ⟨-, rfl⟩ := hG m k hk
    · exact ih k hk
    · exact hbelow k (Under.refl F k)

/-- Of two nodes above one, one is above the other. -/
theorem Agrees.under_total (h : F.Agrees) (hp : F.Under n p) (hq : F.Under n q) :
    F.Under p q ∨ F.Under q p := by
  induction hp with
  | refl => exact Or.inl hq
  | @tail c p hc hcp ih =>
    obtain hcq | hqc := ih
    · rw [Under, cases_head_iff] at hcq
      obtain rfl | ⟨b, hb, hbq⟩ := hcq
      · exact Or.inr (single hcp)
      · have hpar := ((h.mem p c).mp hcp).symm.trans ((h.mem b c).mp hb)
        cases hpar
        exact Or.inl hbq
    · exact Or.inr (hqc.child hcp)

/-- A node is under one child of a node at most. -/
theorem Agrees.child_unique (h : F.Agrees) (hground : F.Grounded) {c c' : ι}
    (hc : c ∈ F.children p) (hc' : c' ∈ F.children p) (hn : F.Under n c) (hn' : F.Under n c') :
    c = c' := by
  have hsame {c c' : ι} (hc : c ∈ F.children p) (hc' : c' ∈ F.children p) (hunder : F.Under c c') :
      c = c' := by
    rw [Under, cases_head_iff] at hunder
    obtain rfl | ⟨b, hb, hbc⟩ := hunder
    · rfl
    · have hpar := ((h.mem p c).mp hc).symm.trans ((h.mem b c).mp hb)
      cases hpar
      exact absurd hbc (hground.not_under hc')
  obtain hunder | hunder := h.under_total hn hn'
  · exact hsame hc hc' hunder
  · exact (hsame hc' hc hunder).symm

/-- All nodes under one, each once. -/
structure Census (F : Forest ι) (root : ι) (nodes : List ι) : Prop where
  nodup : nodes.Nodup
  mem : ∀ n, n ∈ nodes ↔ F.Under n root

/-- A census of a node from those of its children. -/
theorem Agrees.census (h : F.Agrees) (hground : F.Grounded) {root : ι} {nodes : ι → List ι}
    (hnodes : ∀ c ∈ F.children root, F.Census c (nodes c)) :
    F.Census root (root :: (F.children root).flatMap nodes) where
  nodup := by
    refine List.nodup_cons.mpr ⟨fun hmem => ?_, List.nodup_flatMap.mpr
      ⟨fun c hc => (hnodes c hc).nodup, ?_⟩⟩
    · obtain ⟨c, hc, hroot⟩ := List.mem_flatMap.mp hmem
      exact hground.not_under hc (((hnodes c hc).mem root).mp hroot)
    · refine (h.nodup root).imp_of_mem fun {c c'} hc hc' hne n hn hn' => hne ?_
      exact h.child_unique hground hc hc' (((hnodes c hc).mem n).mp hn)
        (((hnodes c' hc').mem n).mp hn')
  mem n := by
    rw [List.mem_cons, List.mem_flatMap, under_iff]
    refine or_congr_right ⟨?_, ?_⟩
    · rintro ⟨c, hc, hn⟩
      exact ⟨c, hc, ((hnodes c hc).mem n).mp hn⟩
    · rintro ⟨c, hc, hn⟩
      exact ⟨c, hc, ((hnodes c hc).mem n).mpr hn⟩

end ChromiumUI.Forests.Forest
