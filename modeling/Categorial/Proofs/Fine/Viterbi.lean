import Categorial.Proofs.Coarse.Exact
import Categorial.Proofs.Fine.Complete
import Categorial.Proofs.Fine.Trees
set_option autoImplicit false

/-!
The best derivation. On exact scores no derivation under an item scores more than the item, and the best
tree of an item scores what the item does; so the first root has the best derivation of all.
-/

namespace Categorial

theorem CoarseChart.Packed.expansions {α : Type} {c : CoarseChart α} {t : Derivation} (h : c.Packed t)
    (m : Refiner) : ∃ steps, m.expansions ⟨c.grammar, c.sentence⟩ t = .ok steps := by
  obtain ⟨id, item, hmem, hstart, hpacks⟩ := h
  have hwalk : ∃ site es, m.walk ⟨c.grammar, c.sentence⟩ t = .ok (site, es) ∧
      ∀ item, c.item? id = some item → site.cat = item.cat := by
    clear hmem hstart
    induction hpacks with
    | lexical hget _ =>
      exact ⟨_, _, rfl, fun item hitem => by cases hget.symm.trans hitem; rfl⟩
    | unary hget _ _ ih =>
      obtain ⟨site, es, hwalk, _⟩ := ih
      refine ⟨_, _, by rw [Refiner.walk, hwalk]; rfl, fun item hitem => ?_⟩
      cases hget.symm.trans hitem
      rfl
    | binary hget _ _ _ ihl ihr =>
      obtain ⟨left, belowLeft, hl, _⟩ := ihl
      obtain ⟨right, belowRight, hr, _⟩ := ihr
      refine ⟨_, _, by rw [Refiner.walk, hl]; simp only [bind, Except.bind, hr]; rfl,
        fun item hitem => ?_⟩
      cases hget.symm.trans hitem
      rfl
  obtain ⟨site, es, hwalk, hcat⟩ := hwalk
  obtain ⟨rule, hrule⟩ := Option.isSome_iff_exists.mp hstart
  refine ⟨es ++ [.top rule site], ?_⟩
  simp [Refiner.expansions, hwalk, bind, Except.bind, hcat item (CoarseChart.item?_of_mem hmem), hrule]

namespace FineChart

variable {c : CoarseChart EReal} {m : Model EReal} {retain : Retain} {f : FineChart EReal}
  {tags : Supertags EReal}

theorem Sound.packed_of_top
    (hs : Sound c m retain ((cellsOf c (spansOf c.sentence.length)).map Prod.fst) f)
    (hroots : f.roots = f.findRoots m) {r : Root EReal} (hr : r ∈ f.roots) {m' : Model EReal}
    {t : Derivation} {x : FineItem EReal} {y z : EReal} (hx : f.item? r.item = some x)
    (ht : f.Under m' r.item t y) (htop : m'.score f.context (.top r.rule x.site) = .ok z) :
    c.Packed t ∧ m'.scoreDerivation f.context t = .ok (z + y) := by
  refine ⟨hs.packed_of_root hroots hr ht, ?_⟩
  obtain ⟨id, item, x', hmem, hrule, hx', _⟩ := hs.root_of_mem hroots hr
  obtain ⟨x'', hx'', _, hinside⟩ := ht
  cases hx.symm.trans hx'.1
  cases hx.symm.trans hx''
  refine Model.scoreDerivation_eq_ok.mpr ⟨x.site, y, r.rule, z, hinside, ?_, htop, rfl⟩
  rw [(hs.site_eq hx (hx'.2 ▸ hmem)).1]
  simpa only [context, hs.coarse_eq] using hrule

section

variable (hf : Finished c m retain f)

include hf

theorem Finished.exists_item_ge (hretain : retain ≠ .kBest 0) {span : Span} {id : CoarseId}
    {item : CoarseItem} (hspan : span.Within c.sentence.length) (hmem : (id, item) ∈ c.itemsOver span)
    {site : Site} {e : FineEdge EReal} (h : f.Built m item site e) :
    ∃ i x, f.Has id i x ∧ x.site = site ∧ e.score ≤ x.score := by
  obtain ⟨⟨i, hi⟩, he⟩ := hf.exists_item hspan hmem h
  obtain ⟨hcat, hsp⟩ := h.site_eq
  obtain ⟨first, hfirst, hle⟩ := le_head_kept ExactScalar.totalOn hretain (fun _ _ => trivial) e he
  refine ⟨i, _, hi, ?_, ?_⟩
  · rw [itemOf, ← hcat, ← hsp]
  · simp only [itemOf, hfirst, Option.elim_some]
    exact ExactScalar.le_iff.mp hle

variable (hc : c.Saturated tags) (hg : c.grammar.Indexed)

include hc hg

theorem Finished.exists_item_of_packs (hretain : retain ≠ .kBest 0) {id : CoarseId} {t : Derivation}
    (h : c.Packs id t) : ∀ {span : Span} {item : CoarseItem}, span.Within c.sentence.length →
      (id, item) ∈ c.itemsOver span → ∀ {site : Site} {y : EReal}, m.Inside f.context t site y →
      ∃ i x, f.Has id i x ∧ x.site = site ∧ y ≤ x.score := by
  -- the derivation below may not be the item's best, but it scores no more than the item does
  induction h with
  | lexical hget hstep =>
    intro span item hspan hmem site y hinside
    cases hget.symm.trans (CoarseChart.item?_of_mem hmem)
    cases hinside with
    | leaf hsite hx =>
      have hword := hc.word_eq hg hspan hmem hstep
      exact hf.exists_item_ge hretain hspan hmem (.lexical hstep (hword ▸ hsite) hx)
  | unary hget hstep _ ih =>
    intro span item hspan hmem site y hinside
    cases hget.symm.trans (CoarseChart.item?_of_mem hmem)
    cases hinside with
    | unary ht hsite hx =>
      obtain ⟨sub, child, hsub, hchild, _⟩ := hc.child hg hspan hmem hstep (List.mem_singleton.mpr rfl)
      obtain ⟨i, x, hi, rfl, hle⟩ := ih hsub hchild ht
      obtain ⟨j, z, hj, hz, hscore⟩ := hf.exists_item_ge hretain hspan hmem (.unary hstep hi hsite hx)
      refine ⟨j, z, hj, hz, le_trans ?_ hscore⟩
      simp only [ExactScalar.both_eq]
      exact add_le_add_right hle _
  | binary hget hstep _ _ ihl ihr =>
    intro span item hspan hmem site y hinside
    cases hget.symm.trans (CoarseChart.item?_of_mem hmem)
    cases hinside with
    | binary hl hr hsite hx =>
      obtain ⟨subl, left, hsubl, hleft, _⟩ :=
        hc.child hg hspan hmem hstep (List.mem_cons_self)
      obtain ⟨subr, right, hsubr, hright, _⟩ :=
        hc.child hg hspan hmem hstep (List.mem_cons_of_mem _ (List.mem_singleton.mpr rfl))
      obtain ⟨i, x, hi, rfl, hle⟩ := ihl hsubl hleft hl
      obtain ⟨j, z, hj, rfl, hle'⟩ := ihr hsubr hright hr
      obtain ⟨k, w, hk, hw, hscore⟩ :=
        hf.exists_item_ge hretain hspan hmem (.binary hstep hi hj hsite hx)
      refine ⟨k, w, hk, hw, le_trans ?_ hscore⟩
      simp only [ExactScalar.both_eq]
      exact add_le_add_right (add_le_add hle hle') _

omit hc hg in
theorem Finished.packed_of_root {r : Root EReal} (hr : r ∈ f.roots) {t : Derivation} {y : EReal}
    (ht : f.Under m r.item t y) :
    c.Packed t ∧ m.scoreDerivation f.context t = .ok (r.localScore + y) := by
  obtain ⟨_, _, x, _, _, hx, hlocal, _, _⟩ := hf.mem_roots.mp hr
  exact hf.sound.packed_of_top hf.roots_eq hr hx.1 ht hlocal

/-- A derivation of the chart whose score is not minus infinity is under a root, which scores no less. -/
theorem Finished.exists_root_ge (hretain : retain ≠ .kBest 0)
    (hwhole : c.wholeSpan.Within c.sentence.length) {t : Derivation} (ht : c.Packed t) {z : EReal}
    (hz : m.scoreDerivation f.context t = .ok z) (hne : z ≠ ⊥) :
    ∃ r ∈ f.roots, z ≤ r.score ∧ ∃ y, f.Under m r.item t y ∧ z = r.localScore + y := by
  obtain ⟨id, item, hmem, _, hpacks⟩ := ht
  obtain ⟨site, y, rule, x, hinside, htop, hx, rfl⟩ := Model.scoreDerivation_eq_ok.mp hz
  obtain ⟨i, fine, hi, rfl, hle⟩ := hf.exists_item_of_packs hc hg hretain hpacks hwhole hmem hinside
  have hsum : x + y ≤ x + fine.score := add_le_add_right hle x
  refine ⟨⟨i, rule, x, Scalar.both x fine.score⟩, hf.mem_roots.mpr ?_, by simpa using hsum, y, ?_, rfl⟩
  · refine ⟨id, item, fine, hmem, ?_, hi, hx, rfl, ?_⟩
    · rw [← (hf.site_eq hwhole hmem hi).1]
      simpa only [context, hf.sound.coarse_eq] using htop
    · rw [ExactScalar.both_eq, ← Bool.not_eq_true, ExactScalar.isBottom_iff]
      intro hbottom
      exact hne (le_bot_iff.mp (hbottom ▸ hsum))
  · refine ⟨fine, hi.1, ?_, hinside⟩
    rw [hf.sound.coarse_eq, hi.2]
    exact hpacks

theorem Finished.viterbi?_spec (hretain : retain ≠ .kBest 0)
    (hwhole : c.wholeSpan.Within c.sentence.length) :
    (f.viterbi? = none ↔ ∀ t, c.Packed t → ∀ x, m.scoreDerivation f.context t = .ok x → x = ⊥) ∧
      ∀ p, f.viterbi? = some p → c.Packed p.tree ∧ m.scoreDerivation f.context p.tree = .ok p.score ∧
        ∀ t, c.Packed t → ∀ x, m.scoreDerivation f.context t = .ok x → x ≤ p.score := by
  cases hcons : f.roots with
  | nil =>
    have hnone : f.viterbi? = none := by simp [viterbi?, hcons]
    refine ⟨iff_of_true hnone fun t ht x hx => ?_, fun p hp => absurd hp (by simp [hnone])⟩
    by_contra hne
    obtain ⟨r, hr, _⟩ := hf.exists_root_ge hc hg hretain hwhole ht hx hne
    simp [hcons] at hr
  | cons r rest =>
    have hr : r ∈ f.roots := by simp [hcons]
    obtain ⟨t, y, hviterbi, _, hunder, hscore⟩ :=
      viterbi?_of_cons hf.sound hc hg hf.roots_eq hcons
    obtain ⟨hpacked, hderivation⟩ := hf.packed_of_root hr hunder
    rw [ExactScalar.both_eq] at hscore
    rw [← hscore] at hderivation
    have hne : r.score ≠ ⊥ := by
      obtain ⟨_, _, _, _, _, _, _, _, hbottom⟩ := hf.mem_roots.mp hr
      exact fun h => by simp [ExactScalar.isBottom_iff.mpr h] at hbottom
    have hbest : ∀ t, c.Packed t → ∀ x, m.scoreDerivation f.context t = .ok x → x ≤ r.score := by
      intro t ht x hx
      by_cases hx' : x = ⊥
      · exact hx' ▸ bot_le
      · obtain ⟨r', hr', hle, _⟩ := hf.exists_root_ge hc hg hretain hwhole ht hx hx'
        have hdesc := descending_roots ExactScalar.totalOn hf.roots_eq fun _ _ => trivial
        have hfirst := hdesc.le_head ExactScalar.totalOn (fun _ _ => trivial)
          (by rw [hcons]; rfl) r' hr'
        exact hle.trans (ExactScalar.le_iff.mp hfirst)
    constructor
    · rw [hviterbi]
      exact iff_of_false (by simp) fun h => hne (h t hpacked _ hderivation)
    · intro p hp
      rw [hviterbi] at hp
      cases hp
      exact ⟨hpacked, hderivation, hbest⟩

end

/-- The best derivation is one of the chart's, has its score, and none has a higher one; there is one unless
every derivation of the chart is impossible or has a step that the model rejects. -/
theorem viterbi?_optimal {g : Grammar} {s : Sentence} {beta : EReal} {maxItems gid : Nat}
    {categories : Array Category} {rules : List Rule} {markups : List (CatId × Markup)}
    (hg : Grammar.ofRules gid categories rules markups = .ok g)
    (hc : CoarseChart.build g s tags beta maxItems = .ok c) (hm : m.grammarId = g.id)
    (hretain : retain ≠ .kBest 0) :
    ∃ f, FineChart.build c m retain none = .ok f ∧
      (f.viterbi? = none ↔
        ∀ t, c.Packed t → m.scoreDerivation ⟨g, s⟩ t = .ok ⊥ ∨ m.Rejects ⟨g, s⟩ t) ∧
      ∀ p, f.viterbi? = some p → c.Packed p.tree ∧ m.scoreDerivation ⟨g, s⟩ p.tree = .ok p.score ∧
        ∀ t, c.Packed t → ∀ x, m.scoreDerivation ⟨g, s⟩ t = .ok x → x ≤ p.score := by
  obtain ⟨rfl, rfl, hsat, hwhole⟩ := CoarseChart.build_ok hc
  have hindexed := Grammar.indexed_ofRules hg
  obtain ⟨f, hbuild⟩ := exists_build c hm retain none
  have hf := finished_build hsat hindexed hbuild
  obtain ⟨hnone, hsome⟩ := hf.viterbi?_spec hsat hindexed hretain hwhole
  rw [hf.sound.context_eq] at hnone hsome
  refine ⟨f, hbuild, hnone.trans (forall₂_congr fun t ht => ?_), hsome⟩
  rw [← Model.scoreDerivation_error_iff (ht.expansions m.toRefiner)]
  cases m.scoreDerivation ⟨c.grammar, c.sentence⟩ t with
  | error err => simp
  | ok x => simp

end FineChart

namespace Sample

noncomputable def flat : Model EReal where
  name := "flat"
  grammarId := 7
  refineLexical _ _ _ := .none
  refineUnary _ _ _ := .none
  refineBinary _ _ _ _ := .none
  score _ _ := .ok 0
  merit _ _ := 0

theorem viterbi?_optimal_dogs_run : ∃ g c, Grammar.ofRules 7 categories rules [] = .ok g ∧
    CoarseChart.build g dogsRun tags 1 10 = .ok c ∧ flat.grammarId = g.id ∧ Retain.best ≠ .kBest 0 ∧
    ∃ f, FineChart.build c flat .best none = .ok f ∧
      (f.viterbi? = none ↔
        ∀ t, c.Packed t → flat.scoreDerivation ⟨g, dogsRun⟩ t = .ok ⊥ ∨ flat.Rejects ⟨g, dogsRun⟩ t) ∧
      ∀ p, f.viterbi? = some p →
        c.Packed p.tree ∧ flat.scoreDerivation ⟨g, dogsRun⟩ p.tree = .ok p.score ∧
        ∀ t, c.Packed t → ∀ x, flat.scoreDerivation ⟨g, dogsRun⟩ t = .ok x → x ≤ p.score := by
  obtain ⟨g, hg, hid, hrules⟩ := exists_grammar
  have hbuild := build_eq (Grammar.indexed_ofRules hg) hrules
  have hretain : Retain.best ≠ .kBest 0 := by decide
  exact ⟨g, chart g, hg, hbuild, hid.symm, hretain, FineChart.viterbi?_optimal hg hbuild hid.symm hretain⟩

end Sample

end Categorial
