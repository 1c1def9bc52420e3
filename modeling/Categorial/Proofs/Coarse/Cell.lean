import Categorial.Proofs.Coarse.Budget
import Categorial.Proofs.Lists
set_option autoImplicit false

namespace Categorial

namespace CoarseChart

/-- The categories that some steps build, each once. -/
def catsOf (steps : List (CatId × CoarseStep)) : List CatId := (steps.map Prod.fst).eraseDups

/-- The steps that build a category. -/
def stepsTo (steps : List (CatId × CoarseStep)) (cat : CatId) : List CoarseStep :=
  (steps.filter fun p => p.1 == cat).map Prod.snd

def itemFor (span : Span) (level : Level) (steps : List (CatId × CoarseStep)) (cat : CatId) :
    CoarseItem :=
  ⟨cat, span, level, (stepsTo steps cat).toArray⟩

/-- The items that some steps make at one level of a cell. -/
def grouped (span : Span) (level : Level) (steps : List (CatId × CoarseStep)) : List CoarseItem :=
  (catsOf steps).map (itemFor span level steps)

theorem catsOf_append_singleton (steps : List (CatId × CoarseStep)) (p : CatId × CoarseStep) :
    catsOf (steps ++ [p]) = if p.1 ∈ catsOf steps then catsOf steps else catsOf steps ++ [p.1] := by
  unfold catsOf
  rw [List.map_append]
  exact eraseDups_append_singleton _ _

theorem mem_catsOf {steps : List (CatId × CoarseStep)} {cat : CatId} :
    cat ∈ catsOf steps ↔ ∃ step, (cat, step) ∈ steps := by
  simp [catsOf, List.mem_eraseDups]

theorem catsOf_nodup (steps : List (CatId × CoarseStep)) : (catsOf steps).Nodup := nodup_eraseDups _

theorem stepsTo_append (steps more : List (CatId × CoarseStep)) (cat : CatId) :
    stepsTo (steps ++ more) cat = stepsTo steps cat ++ stepsTo more cat := by
  simp [stepsTo]

theorem mem_stepsTo {steps : List (CatId × CoarseStep)} {cat : CatId} {step : CoarseStep} :
    step ∈ stepsTo steps cat ↔ (cat, step) ∈ steps := by
  simp [stepsTo]

theorem stepsTo_singleton (p : CatId × CoarseStep) (cat : CatId) :
    stepsTo [p] cat = if p.1 = cat then [p.2] else [] := by
  by_cases h : p.1 = cat
  · simp [stepsTo, h]
  · simp [stepsTo, h]

variable {span : Span} {level : Level}

theorem getElem?_grouped (steps : List (CatId × CoarseStep)) (i : Nat) :
    (grouped span level steps)[i]? = (catsOf steps)[i]?.map (itemFor span level steps) := by
  simp [grouped]

theorem level_of_mem_grouped {steps : List (CatId × CoarseStep)} {item : CoarseItem}
    (h : item ∈ grouped span level steps) : item.level = level := by
  obtain ⟨cat, _, rfl⟩ := List.mem_map.mp h
  rfl

theorem modify_grouped (steps : List (CatId × CoarseStep)) (p : CatId × CoarseStep) {i : Nat}
    (hi : (catsOf steps)[i]? = some p.1) :
    (grouped span level steps).modify i (fun item => { item with steps := item.steps.push p.2 }) =
      grouped span level (steps ++ [p]) := by
  have hmem : p.1 ∈ catsOf steps := List.mem_of_getElem? hi
  apply List.ext_getElem?
  intro j
  rw [List.getElem?_modify, getElem?_grouped, getElem?_grouped, catsOf_append_singleton, if_pos hmem]
  cases hj : (catsOf steps)[j]? with
  | none => simp
  | some cat =>
    by_cases hij : i = j
    · subst hij
      have hcat : cat = p.1 := by simpa [hi] using hj.symm
      simp [hcat, itemFor, stepsTo_append, stepsTo_singleton]
    · have hne : p.1 ≠ cat := by
        rintro rfl
        obtain ⟨hlt, heq⟩ := List.getElem?_eq_some_iff.mp hi
        obtain ⟨hlt', heq'⟩ := List.getElem?_eq_some_iff.mp hj
        exact hij ((catsOf_nodup steps).getElem_inj_iff.mp (heq.trans heq'.symm))
      simp [hij, itemFor, stepsTo_append, stepsTo_singleton, hne]

theorem grouped_append_new (steps : List (CatId × CoarseStep)) (p : CatId × CoarseStep)
    (hnew : p.1 ∉ catsOf steps) :
    grouped span level steps ++ [⟨p.1, span, level, #[p.2]⟩] = grouped span level (steps ++ [p]) := by
  unfold grouped
  rw [catsOf_append_singleton, if_neg hnew, List.map_append]
  congr 1
  · refine List.map_congr_left fun cat hcat => ?_
    have hne : p.1 ≠ cat := by
      rintro rfl
      exact hnew hcat
    simp [itemFor, stepsTo_append, stepsTo_singleton, hne]
  · have hnone : stepsTo steps p.1 = [] := by
      refine List.eq_nil_iff_forall_not_mem.mpr fun step hstep => hnew ?_
      exact mem_catsOf.mpr ⟨step, mem_stepsTo.mp hstep⟩
    simp [itemFor, stepsTo_append, stepsTo_singleton, hnone]

theorem findIdx?_level {pre : List CoarseItem} (hpre : ∀ item ∈ pre, item.level ≠ level)
    (steps : List (CatId × CoarseStep)) (cat : CatId) :
    (pre ++ grouped span level steps).toArray.findIdx?
        (fun item => item.cat == cat && item.level == level) =
      ((catsOf steps).findIdx? fun c => c == cat).map fun i => i + pre.length := by
  have hnone : pre.findIdx? (fun item => item.cat == cat && item.level == level) = none := by
    refine List.findIdx?_eq_none_iff.mpr fun item hitem => ?_
    simp [hpre item hitem]
  have hcomp : (fun item : CoarseItem => item.cat == cat && item.level == level) ∘
      itemFor span level steps = fun c => c == cat := by
    funext c
    simp [itemFor]
  rw [List.findIdx?_toArray, List.findIdx?_append, hnone]
  simp [grouped, List.findIdx?_map, hcomp]

theorem place_grouped {pre : List CoarseItem} (hpre : ∀ item ∈ pre, item.level ≠ level)
    (steps : List (CatId × CoarseStep)) (p : CatId × CoarseStep) :
    place span level (pre ++ grouped span level steps).toArray p =
      (pre ++ grouped span level (steps ++ [p])).toArray := by
  unfold place
  rw [findIdx?_level hpre]
  cases hi : (catsOf steps).findIdx? fun c => c == p.1 with
  | none =>
    have hnew : p.1 ∉ catsOf steps := by
      intro hmem
      simpa using List.findIdx?_eq_none_iff.mp hi p.1 hmem
    rw [← grouped_append_new steps p hnew]
    simp
  | some i =>
    obtain ⟨hlt, hcat, _⟩ := List.findIdx?_eq_some_iff_getElem.mp hi
    have hget : (catsOf steps)[i]? = some p.1 := by
      rw [List.getElem?_eq_getElem hlt, eq_of_beq hcat]
    rw [← modify_grouped steps p hget]
    simp only [Option.map_some]
    rw [Nat.add_comm i]
    apply Array.ext'
    rw [Array.toList_modify]
    exact List.modifyTailIdx_add _ _ _ _

theorem foldl_place {pre : List CoarseItem} (hpre : ∀ item ∈ pre, item.level ≠ level)
    (steps : List (CatId × CoarseStep)) :
    steps.foldl (place span level) pre.toArray = (pre ++ grouped span level steps).toArray := by
  induction steps using List.reverseRecOn with
  | nil => simp [grouped, catsOf]
  | append_singleton steps p ih => rw [List.foldl_append, ih, List.foldl_cons, List.foldl_nil, place_grouped hpre]

theorem unarySteps_eq_nil {g : Grammar} (h : ∀ cat, g.unaryRules cat = []) (first : CoarseId)
    (cell : Array CoarseItem) : unarySteps g first cell = [] := by
  unfold unarySteps
  rw [List.flatMap_eq_nil_iff]
  intro entry _
  simp [h]

/-- The items of a cell whose lower level comes from `steps`. -/
def cellItems (g : Grammar) (first : CoarseId) (span : Span) (steps : List (CatId × CoarseStep)) :
    List CoarseItem :=
  grouped span .base steps ++ grouped span .unary (unarySteps g first (grouped span .base steps).toArray)

theorem wholeCell_eq (g : Grammar) (first : CoarseId) (span : Span) (steps : List (CatId × CoarseStep)) :
    wholeCell g first span steps = (cellItems g first span steps).toArray := by
  have hlower : steps.foldl (place span .base) #[] = (grouped span .base steps).toArray :=
    foldl_place (by simp) steps
  have hupper : ∀ item ∈ grouped span .base steps, item.level ≠ .unary := by
    intro item hitem
    rw [level_of_mem_grouped hitem]
    decide
  unfold wholeCell
  rw [hlower]
  exact foldl_place hupper _

theorem cellOf_eq (g : Grammar) (room : Nat) (first : CoarseId) (span : Span)
    (steps : List (CatId × CoarseStep)) :
    cellOf g room first span steps =
      if (cellItems g first span steps).length ≤ room then
        .ok (cellItems g first span steps).toArray
      else .error .abandoned := by
  rw [cellOf_eq_wholeCell, wholeCell_eq, List.size_toArray]

end CoarseChart

end Categorial
