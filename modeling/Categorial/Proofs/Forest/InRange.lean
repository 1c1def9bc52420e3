import Categorial.Proofs.Forest.Derivations
set_option autoImplicit false

namespace Categorial

section

variable {α : Type} [Scalar α]

def ForestEdge.pickIn? (weights : Array α) (picks : Array (Pick α)) (e : ForestEdge) : Option (Pick α) := do
  let below ← e.children.mapM fun child => picks[child]?
  return ⟨below.foldl (fun x p => Scalar.both x p.score) (weigh weights e.features),
    Thunk.mk fun _ => e.features ++ below.reverse.flatMap fun p => p.features.get,
    e.gold && below.all Pick.correct⟩

/-- The best derivation of a node, if it has edges and each of them has one. -/
def ForestNode.pickIn? (weights : Array α) (picks : Array (Pick α)) (node : ForestNode) : Option (Pick α) := do
  let found ← node.mapM (ForestEdge.pickIn? weights picks)
  let (p, _) ← firstBest? Pick.score found
  return p

namespace Forest

def picksIn? (weights : Array α) (picks : Array (Pick α)) (nodes : List ForestNode) : Option (Array (Pick α)) :=
  nodes.foldlM (fun picks node => (ForestNode.pickIn? weights picks node).map picks.push) picks

def bestIn? (f : Forest) (weights : Array α) : Option (Prediction α) := do
  let picks ← picksIn? weights #[] f.nodes
  let candidates ← f.roots.mapM fun r => picks[r.node]?.map fun p => (r, p)
  let ((r, p), score) ← firstBest? (rootScore weights) candidates
  return ⟨score, (Tally.ofList (r.features ++ p.features.get)).toList, r.gold && p.correct⟩

end Forest

variable {weights : Array α} {picks : Array (Pick α)}

omit [Scalar α] in
theorem Picks.pick?_map_some (picks : Array (Pick α)) (i : Nat) : Picks.pick? (picks.map some) i = picks[i]? := by
  rw [Picks.pick?, Array.getElem?_map]
  cases picks[i]? <;> rfl

theorem Picks.foldl_score {children : List Nat} {below : List (Pick α)}
    (h : List.Forall₂ (fun child p => picks[child]? = some p) children below) (x : α) :
    children.foldl (fun x child => Scalar.both x (Picks.score (picks.map some) child)) x =
      below.foldl (fun x p => Scalar.both x p.score) x := by
  induction h generalizing x with
  | nil => rfl
  | cons hchild _ ih =>
    have hscore := congrArg (fun pick => pick.elim Scalar.bottom Pick.score) hchild
    rw [← Picks.pick?_map_some] at hscore
    rw [List.foldl_cons, List.foldl_cons, Picks.score, hscore]
    exact ih _

theorem ForestEdge.pickIn?_eq {e : ForestEdge} (h : ∀ child ∈ e.children, child < picks.size) :
    e.pickIn? weights picks = some (e.pick (picks.map some) (e.score weights (picks.map some))) := by
  obtain ⟨below, hbelow⟩ := exists_mapM (g := fun child => picks[child]?) fun child hchild =>
    ⟨_, Array.getElem?_eq_getElem (h child hchild)⟩
  have hpicks : e.children.filterMap (Picks.pick? (picks.map some)) = below := by
    rw [← filterMap_eq_of_mapM hbelow]
    exact List.filterMap_congr fun child _ => Picks.pick?_map_some picks child
  rw [pickIn?, hbelow, pick, hpicks, score, Picks.foldl_score (forall₂_of_mapM hbelow)]
  rfl

theorem ForestNode.exists_pickIn? (weights : Array α) {node : ForestNode} (hne : node ≠ [])
    (h : ∀ e ∈ node, ∀ child ∈ e.children, child < picks.size) :
    ∃ p, node.pickIn? weights picks = some p ∧ node.pick? weights (picks.map some) = some p := by
  have hfound : node.mapM (ForestEdge.pickIn? weights picks) =
      some (node.map fun e => e.pick (picks.map some) (e.score weights (picks.map some))) :=
    mapM_eq_some_of_forall₂ (List.forall₂_map_right_iff.mpr
      (List.forall₂_same.mpr fun e he => ForestEdge.pickIn?_eq (h e he)))
  obtain ⟨e, -, hfirst⟩ := exists_firstBest? (ForestEdge.score weights (picks.map some)) hne
  have hscores : (fun e : ForestEdge => (e.pick (picks.map some) (e.score weights (picks.map some))).score) =
      ForestEdge.score weights (picks.map some) := rfl
  refine ⟨e.pick (picks.map some) (e.score weights (picks.map some)), ?_, ?_⟩
  · rw [pickIn?, hfound, Option.bind_eq_bind, Option.bind_some, firstBest?_map, hscores, hfirst]
    rfl
  · rw [pick?, hfirst]
    rfl

namespace Forest

theorem exists_picksIn? (weights : Array α) (nodes : List ForestNode) (picks : Array (Pick α))
    (hedges : ∀ node ∈ nodes, node ≠ [])
    (hchildren : ∀ {i : Nat} {node : ForestNode}, nodes[i]? = some node →
      ∀ e ∈ node, ∀ child ∈ e.children, child < picks.size + i) :
    ∃ picked, picksIn? weights picks nodes = some picked ∧ picked.size = picks.size + nodes.length ∧
      nodes.foldl (fun picks node => picks.push (ForestNode.pick? weights picks node)) (picks.map some) =
        picked.map some := by
  induction nodes generalizing picks with
  | nil => exact ⟨picks, rfl, rfl, rfl⟩
  | cons node nodes ih =>
    obtain ⟨hne, hedges⟩ := List.forall_mem_cons.mp hedges
    obtain ⟨p, hpickIn, hpick⟩ := ForestNode.exists_pickIn? weights hne (hchildren (i := 0) rfl)
    have hlater : ∀ {i : Nat} {node : ForestNode}, nodes[i]? = some node →
        ∀ e ∈ node, ∀ child ∈ e.children, child < (picks.push p).size + i := by
      intro i node hnode e he child hchild
      rw [Array.size_push, Nat.add_right_comm]
      exact hchildren (i := i + 1) hnode e he child hchild
    obtain ⟨picked, hpicked, hsize, hfold⟩ := ih (picks.push p) hedges hlater
    refine ⟨picked, ?_, ?_, ?_⟩
    · rw [picksIn?, List.foldlM_cons, hpickIn]
      exact hpicked
    · rw [hsize, Array.size_push, List.length_cons]
      omega
    · rw [List.foldl_cons, hpick, ← hfold, Array.map_push]

/-- A forest that holds together has a best derivation under any weights, however many there are, and no place that is
looked up for it is missing. -/
theorem WellFormed.exists_bestIn? {f : Forest} (hf : f.WellFormed) (hroots : f.roots ≠ []) (weights : Array α) :
    ∃ p, f.best? weights = some p ∧ f.bestIn? weights = some p := by
  obtain ⟨picked, hpicked, hsize, hfold⟩ := exists_picksIn? weights f.nodes #[] hf.edges
    fun hnode e he child hchild => by simpa using hf.children hnode e he child hchild
  have hpicks : f.picks weights = picked.map some := by rwa [Array.map_empty] at hfold
  obtain ⟨candidates, hcandidates⟩ := exists_mapM (g := fun r : ForestRoot => picked[r.node]?.map fun p => (r, p))
    fun r hr => ⟨_, congrArg (Option.map _) (Array.getElem?_eq_getElem (by simpa [hsize] using hf.roots r hr))⟩
  have hall : f.candidates (f.picks weights) = candidates := by
    rw [← filterMap_eq_of_mapM hcandidates, Forest.candidates, hpicks]
    exact List.filterMap_congr fun r _ => by rw [Picks.pick?_map_some]
  have hne : candidates ≠ [] := by
    rintro rfl
    exact hroots (List.forall₂_nil_right_iff.mp (forall₂_of_mapM hcandidates))
  obtain ⟨⟨r, p⟩, -, hfirst⟩ := exists_firstBest? (rootScore weights) hne
  refine ⟨_, by rw [best?, hall, hfirst]; rfl, ?_⟩
  rw [bestIn?, hpicked, Option.bind_eq_bind, Option.bind_some, hcandidates, Option.bind_eq_bind, Option.bind_some,
    hfirst]
  rfl

end Forest

end

end Categorial
