import Categorial.Proofs.Except
import Categorial.Proofs.Forest.Trainable
import Categorial.Training.Trainer
set_option autoImplicit false

namespace Categorial

namespace Learner

variable {α : Type} [Scalar α]

theorem size_foldl_change (delta : Nat → α) (counts : List (Nat × Nat)) : ∀ l : Learner α,
    (counts.foldl (fun l (f, k) => l.change f (delta k)) l).weights.size = l.weights.size := by
  induction counts with
  | nil => exact fun _ => rfl
  | cons entry counts ih => exact fun l => (ih (l.change entry.1 (delta entry.2))).trans Array.size_modify

theorem size_update (l : Learner α) (gold predicted : List (Nat × Nat)) (rate : α) :
    (l.update gold predicted rate).weights.size = l.weights.size :=
  (size_foldl_change (fun k => Scalar.neg rate * Scalar.ofNat k) predicted _).trans
    (size_foldl_change (fun k => rate * Scalar.ofNat k) gold l)

theorem size_averaged (l : Learner α) : l.averaged.size = l.weights.size := by
  rw [averaged, Array.size_zipWith, l.size_totals, Nat.min_self]

end Learner

namespace Progress

theorem advance_ok {p : Progress} {target : Stage} (h : p.stage.canAdvance target = true) :
    p.advance target = .ok { p with stage := target } :=
  if_pos h

/-- The record after an epoch. -/
def updated (p : Progress) : Progress := { p with stage := .weightsUpdated }

end Progress

namespace Trainer

/-- The records of some sentences are updated, and no others are changed. -/
def Updates (sentences : List Nat) (before after : Array Progress) : Prop :=
  ∀ i : Nat, after[i]? = before[i]?.map fun p => if i ∈ sentences then p.updated else p

/-- The records of some sentences can be scored. -/
def Ready (sentences : List Nat) (progress : Array Progress) : Prop :=
  ∀ i ∈ sentences, ∃ p, progress[i]? = some p ∧ p.stage.canAdvance .scored = true

namespace Updates

variable {sentences : List Nat} {a b c : Array Progress}

theorem nil (a : Array Progress) : Updates [] a a := fun i => by simp

theorem cons {i : Nat} (h : Updates [i] a b) (h' : Updates sentences b c) : Updates (i :: sentences) a c := by
  intro j
  rw [h' j, h j, Option.map_map]
  congr 1
  funext p
  by_cases hj : j = i
  · simp [hj, Progress.updated]
  · simp [hj]

theorem again (h : Updates sentences a b) (h' : Updates sentences b c) : Updates sentences a c := by
  intro j
  rw [h' j, h j, Option.map_map]
  congr 1
  funext p
  by_cases hj : j ∈ sentences
  · simp [hj, Progress.updated]
  · simp [hj]

theorem ready {others : List Nat} (h : Updates sentences a b) (hready : Ready others a) : Ready others b := by
  intro i hi
  obtain ⟨p, hp, hcan⟩ := hready i hi
  rw [h i, hp]
  refine ⟨_, rfl, ?_⟩
  by_cases hmem : i ∈ sentences
  · simp only [hmem, if_true]
    rfl
  · simpa only [hmem, if_false] using hcan

end Updates

theorem updates_set {progress : Array Progress} {i : Nat} {p : Progress} (hp : progress[i]? = some p) :
    Updates [i] progress (progress.setIfInBounds i p.updated) := by
  intro j
  rw [Array.getElem?_setIfInBounds]
  by_cases hj : j = i
  · subst hj
    have hlt : j < progress.size := (Array.getElem?_eq_some_iff.mp hp).1
    rw [hp]
    simp [hlt]
  · have hne : ¬i = j := fun h => hj h.symm
    simp [hj, hne]

/-- The records of the sentences from `first` on, and the forests of those that are at a stage; the others are
unusable. -/
structure Tracks (stage : Stage) (first : Nat) (records : List Progress) (forests : List Forest) : Prop where
  sentences : records.map Progress.sentence = List.range' first records.length
  stages : ∀ p ∈ records, p.stage = .unparseable ∨ p.stage = stage
  forests : forests.map Forest.sentence = (records.filter fun p => p.stage == stage).map Progress.sentence

namespace Tracks

variable {stage : Stage} {first : Nat} {records : List Progress} {forests : List Forest}

theorem nil (stage : Stage) (first : Nat) : Tracks stage first [] [] := ⟨rfl, by simp, rfl⟩

theorem unparseable (h : Tracks stage (first + 1) records forests) (hstage : stage ≠ .unparseable) :
    Tracks stage first (⟨first, .unparseable⟩ :: records) forests where
  sentences := congrArg (first :: ·) h.sentences
  stages := List.forall_mem_cons.mpr ⟨.inl rfl, h.stages⟩
  forests := by
    rw [List.filter_cons_of_neg (by simpa using hstage.symm), h.forests]

theorem forest (h : Tracks stage (first + 1) records forests) {f : Forest} (hf : f.sentence = first) :
    Tracks stage first (⟨first, stage⟩ :: records) (f :: forests) where
  sentences := congrArg (first :: ·) h.sentences
  stages := List.forall_mem_cons.mpr ⟨.inr rfl, h.stages⟩
  forests := by
    rw [List.filter_cons_of_pos (by simp), List.map_cons, List.map_cons, h.forests, hf]

theorem length_eq (h : Tracks stage first records forests) :
    forests.length = records.countP fun p => p.stage == stage := by
  have hlength := congrArg List.length h.forests
  rwa [List.length_map, List.length_map, ← List.countP_eq_length_filter] at hlength

theorem sentence_eq (h : Tracks stage 0 records forests) {i : Nat} {p : Progress} (hp : records[i]? = some p) :
    p.sentence = i := by
  have hget : (records.map Progress.sentence)[i]? = some p.sentence := by rw [List.getElem?_map, hp]; rfl
  rw [h.sentences] at hget
  obtain ⟨_, hi⟩ := List.getElem?_eq_some_iff.mp hget
  simpa using hi.symm

theorem mem_iff (h : Tracks stage 0 records forests) {i : Nat} {p : Progress} (hp : records[i]? = some p) :
    i ∈ forests.map Forest.sentence ↔ p.stage = stage := by
  rw [h.forests]
  simp only [List.mem_map, List.mem_filter, beq_iff_eq]
  constructor
  · rintro ⟨q, ⟨hq, hstage⟩, rfl⟩
    obtain ⟨j, hj⟩ := List.mem_iff_getElem?.mp hq
    rw [h.sentence_eq hj] at hp
    cases hj.symm.trans hp
    exact hstage
  · exact fun hstage => ⟨p, ⟨List.mem_of_getElem? hp, hstage⟩, h.sentence_eq hp⟩

theorem ready (h : Tracks .forestBuilt 0 records forests) :
    Ready (forests.map Forest.sentence) records.toArray := by
  intro i hi
  rw [h.forests] at hi
  obtain ⟨p, hp, rfl⟩ := List.mem_map.mp hi
  obtain ⟨hp, hstage⟩ := List.mem_filter.mp hp
  obtain ⟨j, hj⟩ := List.mem_iff_getElem?.mp hp
  refine ⟨p, by simpa [h.sentence_eq hj] using hj, ?_⟩
  rw [beq_iff_eq.mp hstage]
  rfl

theorem toList_updates (h : Tracks .forestBuilt 0 records forests) {progress : Array Progress}
    (hupdates : Updates (forests.map Forest.sentence) records.toArray progress) :
    progress.toList = records.map fun p => if p.stage = .forestBuilt then p.updated else p := by
  refine List.ext_getElem? fun i => ?_
  rw [Array.getElem?_toList, hupdates i, List.getElem?_map, List.getElem?_toArray]
  cases hp : records[i]? with
  | none => rfl
  | some p => simp only [Option.map_some, h.mem_iff hp]

/-- The epochs take all sentences that have a forest to updated weights. -/
theorem updates (h : Tracks .forestBuilt 0 records forests) {progress : Array Progress}
    (hupdates : Updates (forests.map Forest.sentence) records.toArray progress) :
    progress.toList.length = records.length ∧ Tracks .weightsUpdated 0 progress.toList forests := by
  have hsentence : ∀ p : Progress, (if p.stage = .forestBuilt then p.updated else p).sentence = p.sentence := by
    intro p
    split <;> rfl
  rw [h.toList_updates hupdates]
  refine ⟨List.length_map _, ?_, ?_, ?_⟩
  · rw [List.length_map, ← h.sentences, List.map_map]
    exact List.map_congr_left fun p _ => hsentence p
  · intro q hq
    obtain ⟨p, hp, rfl⟩ := List.mem_map.mp hq
    by_cases hstage : p.stage = .forestBuilt
    · exact .inr (by rw [if_pos hstage]; rfl)
    · exact .inl (by rw [if_neg hstage]; exact (h.stages p hp).resolve_right hstage)
  · have hfilter : records.filter ((fun p => p.stage == .weightsUpdated) ∘ fun p =>
        if p.stage = .forestBuilt then p.updated else p) = records.filter fun p => p.stage == .forestBuilt := by
      refine List.filter_congr fun p hp => ?_
      by_cases hstage : p.stage = .forestBuilt
      · simp [hstage, Progress.updated]
      · simp [(h.stages p hp).resolve_right hstage]
    rw [h.forests, List.filter_map, hfilter, List.map_map]
    exact List.map_congr_left fun p _ => (hsentence p).symm

end Tracks

variable {α : Type} [Scalar α] (t : Trainer α)

theorem exists_learn {s : EpochState α} {f : Forest} (hf : f.Spanned) (hready : Ready [f.sentence] s.progress) :
    ∃ s', t.learn s f = .ok s' ∧ Updates [f.sentence] s.progress s'.progress ∧ s'.total = s.total + 1 ∧
      s'.learner.weights.size = s.learner.weights.size := by
  obtain ⟨prediction, hbest⟩ := hf.exists_best? s.learner.weights
  obtain ⟨p, hp, hcan⟩ := hready f.sentence (List.mem_singleton_self _)
  have hlast : Stage.canAdvance .scored .weightsUpdated = true := rfl
  simp only [learn, hp, hbest, Progress.advance_ok hcan, bind, Except.bind,
    Progress.advance_ok (p := { p with stage := .scored }) hlast]
  refine ⟨_, rfl, updates_set hp, rfl, ?_⟩
  split
  · rfl
  · exact s.learner.size_update _ _ _

theorem exists_foldlM_learn {forests : List Forest} (hforests : ∀ f ∈ forests, f.Spanned) : ∀ {s : EpochState α},
    Ready (forests.map Forest.sentence) s.progress →
      ∃ s', forests.foldlM t.learn s = .ok s' ∧
        Updates (forests.map Forest.sentence) s.progress s'.progress ∧
          s'.total = s.total + forests.length ∧ s'.learner.weights.size = s.learner.weights.size := by
  induction forests with
  | nil => exact fun {s} _ => ⟨s, rfl, .nil _, rfl, rfl⟩
  | cons f forests ih =>
    intro s hready
    obtain ⟨hf, hrest⟩ := List.forall_mem_cons.mp hforests
    have hfirst : Ready [f.sentence] s.progress := fun i hi => by
      obtain rfl := List.mem_singleton.mp hi
      exact hready _ (by simp)
    obtain ⟨s₁, hlearn, hupdates, htotal, hsize⟩ := t.exists_learn hf hfirst
    have hready₁ : Ready (forests.map Forest.sentence) s₁.progress :=
      hupdates.ready fun i hi => hready i (List.mem_cons_of_mem _ hi)
    obtain ⟨s₂, hlearns, hupdates', htotal', hsize'⟩ := ih hrest hready₁
    refine ⟨s₂, ?_, hupdates.cons hupdates', ?_, hsize'.trans hsize⟩
    · rw [List.foldlM_cons, hlearn]
      exact hlearns
    · rw [htotal', htotal, List.length_cons]
      omega

theorem exists_epoch {k : Compressor} {s : ForestStore} {forests : List Forest}
    (hs : s.reset.rest k t.storePath = (forests, none)) (hforests : ∀ f ∈ forests, f.Spanned) (learner : Learner α)
    {progress : Array Progress} (hready : Ready (forests.map Forest.sentence) progress) :
    ∃ s', t.epoch k s learner progress = .ok s' ∧ Updates (forests.map Forest.sentence) progress s'.progress ∧
      s'.total = forests.length ∧ s'.learner.weights.size = learner.weights.size := by
  obtain ⟨s', hlearn, hupdates, htotal, hsize⟩ :=
    t.exists_foldlM_learn hforests (s := ⟨learner, progress, 0, 0⟩) hready
  refine ⟨s', ?_, hupdates, by simpa using htotal, hsize⟩
  simp only [epoch, hs, hlearn, bind, Except.bind]
  rfl

end Trainer

end Categorial
