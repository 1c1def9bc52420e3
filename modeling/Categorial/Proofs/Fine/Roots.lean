import Categorial.Proofs.Fine.Kept
import Categorial.Proofs.Fine.Sound
set_option autoImplicit false

namespace Categorial

namespace FineChart

variable {α : Type} [Scalar α] {f : FineChart α} {m : Model α} {retain : Retain}

theorem mem_findRoots {r : Root α} : r ∈ f.findRoots m ↔ ∃ id item rule i x,
    (id, item) ∈ f.coarse.itemsOver f.coarse.wholeSpan ∧
      f.coarse.grammar.topRule? item.cat = some rule ∧ (i, x) ∈ f.liveItems id ∧
      f.root? m rule i x = some r := by
  unfold findRoots
  simp only
  rw [(foldl_insertByScore_perm Root.score _).mem_iff, List.mem_flatMap]
  constructor
  · rintro ⟨⟨id, item⟩, hmem, hr⟩
    simp only at hr
    cases htop : f.coarse.grammar.topRule? item.cat with
    | none => simp [htop] at hr
    | some rule =>
      rw [htop] at hr
      obtain ⟨⟨i, x⟩, hx, hroot⟩ := List.mem_filterMap.mp hr
      exact ⟨id, item, rule, i, x, hmem, htop, hx, hroot⟩
  · rintro ⟨id, item, rule, i, x, hmem, htop, hx, hroot⟩
    refine ⟨(id, item), hmem, ?_⟩
    simp only [htop]
    exact List.mem_filterMap.mpr ⟨(i, x), hx, hroot⟩

theorem root?_eq_some {rule : RuleId} {i : FineId} {x : FineItem α} {r : Root α} :
    f.root? m rule i x = some r ↔ ∃ y, m.score f.context (.top rule x.site) = .ok y ∧
      Scalar.isBottom (Scalar.both y x.score) = false ∧ r = ⟨i, rule, y, Scalar.both y x.score⟩ := by
  unfold root?
  cases m.score f.context (.top rule x.site) with
  | error _ => simp
  | ok y =>
    simp only [Except.ok.injEq, exists_eq_left']
    cases Scalar.isBottom (Scalar.both y x.score) with
    | true => simp
    | false => simp [eq_comm]

variable {c : CoarseChart α} {done : List CoarseId}

theorem Sound.root_of_mem (h : Sound c m retain done f) (hroots : f.roots = f.findRoots m) {r : Root α}
    (hr : r ∈ f.roots) : ∃ id item x, (id, item) ∈ c.itemsOver c.wholeSpan ∧
      c.grammar.topRule? item.cat = some r.rule ∧ f.Has id r.item x ∧
        m.score f.context (.top r.rule x.site) = .ok r.localScore ∧
        r.score = Scalar.both r.localScore x.score ∧ Scalar.isBottom r.score = false := by
  rw [hroots, mem_findRoots, h.coarse_eq] at hr
  obtain ⟨id, item, rule, i, x, hmem, htop, hx, hroot⟩ := hr
  obtain ⟨y, hy, hbottom, rfl⟩ := root?_eq_some.mp hroot
  obtain ⟨hlive, hget⟩ := mem_liveItems.mp hx
  obtain ⟨x', hx'⟩ := h.live id i hlive
  cases hget.symm.trans hx'.1
  exact ⟨id, item, x, hmem, htop, hx', hy, rfl, hbottom⟩

/-- The first root scores at least as much as every other, if the scores are comparable. -/
theorem descending_roots {S : α → Prop} (hS : Scalar.TotalOn S) (hroots : f.roots = f.findRoots m)
    (hscores : ∀ r ∈ f.roots, S r.score) : Descending Root.score f.roots := by
  rw [hroots] at hscores ⊢
  refine descending_foldl_insertByScore hS fun r hr => hscores r ?_
  exact (foldl_insertByScore_perm Root.score _).mem_iff.mpr hr

end FineChart

end Categorial
