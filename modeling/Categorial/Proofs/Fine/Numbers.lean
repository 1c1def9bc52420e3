import Categorial.Proofs.Double.Sums
import Categorial.Proofs.Fine.Trees
import Categorial.Proofs.Fine.Visits
set_option autoImplicit false

namespace Categorial

def Model.Numeric (m : Model Double) : Prop :=
  ∀ ctx e x, m.score ctx e = .ok x → x.isNaN = false

namespace FineChart

section

variable {α : Type} [Scalar α] {f : FineChart α} {m : Model α} {retain : Retain} {c : CoarseChart α}
  {done : List CoarseId} {S : α → Prop} (hs : Sound c m retain done f)
  (hboth : ∀ x y, S x → S y → S (Scalar.both x y)) (hm : m.ScoresIn f.context S)

include hs hboth hm

/-- If the steps of the sentence score some of these and sums stay among them, then so do all items. -/
theorem Sound.score_mem (i : FineId) : ∀ {x : FineItem α}, f.item? i = some x → S x.score := by
  -- children have smaller numbers than their item
  induction i using Nat.strong_induction_on with
  | _ i ih =>
    intro x hx
    obtain ⟨_, _, hmade⟩ := hs.made i x hx
    obtain ⟨e, rest, hedges, hscore⟩ := hmade.exists_first
    obtain ⟨hbuilt, hbelow⟩ := hmade.built_of_mem (hedges ▸ List.mem_cons_self)
    rw [hscore]
    exact hbuilt.score_mem hboth hm fun child hchild y hy => ih child (hbelow child hchild) hy

theorem Sound.descending_edges (hS : Scalar.TotalOn S) {i : FineId} {x : FineItem α}
    (hx : f.item? i = some x) : Descending FineEdge.score x.edges := by
  obtain ⟨source, ps, hmade⟩ := hs.made i x hx
  rw [hmade.item_eq]
  refine descending_kept hS fun e he => ?_
  obtain ⟨site, hp, _⟩ := mem_edgesFor.mp he
  exact (hmade.built _ hp).score_mem hboth hm fun child _ y hy => hs.score_mem hboth hm child hy

end

variable {f : FineChart Double} {m : Model Double} {retain : Retain} {c : CoarseChart Double}

section

variable (hs : Sound c m retain ((cellsOf c (spansOf c.sentence.length)).map Prod.fst) f)
  (hm : m.Numeric)

include hs hm

theorem isNaN_score (i : FineId) {x : FineItem Double} (hx : f.item? i = some x) :
    x.score.isNaN = false := by
  have hboth : ∀ x y : Double, x.isNaN = false → y.isNaN = false → (Scalar.both x y).isNaN = false :=
    fun _ _ => Double.isNaN_both
  exact hs.score_mem hboth (hm f.context) i hx

theorem descending_edges {i : FineId} {x : FineItem Double} (hx : f.item? i = some x) :
    Descending FineEdge.score x.edges := by
  have hboth : ∀ x y : Double, x.isNaN = false → y.isNaN = false → (Scalar.both x y).isNaN = false :=
    fun _ _ => Double.isNaN_both
  exact hs.descending_edges hboth (hm f.context) Double.totalOn hx

theorem descending_roots_of_numeric (hroots : f.roots = f.findRoots m) :
    Descending Root.score f.roots := by
  refine descending_roots Double.totalOn hroots fun r hr => ?_
  obtain ⟨_, _, x, _, _, hx, hlocal, hscore, _⟩ := hs.root_of_mem hroots hr
  rw [hscore]
  exact Double.isNaN_both (hm _ _ _ hlocal) (isNaN_score hs hm _ hx.1)

end

end FineChart

end Categorial
