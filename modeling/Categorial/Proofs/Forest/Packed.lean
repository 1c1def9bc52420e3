import Categorial.Forest.Packing
import Categorial.Proofs.Feature.Registered
import Mathlib.Data.List.Forall2
set_option autoImplicit false

namespace Categorial

namespace Registering

variable {α β γ δ : Type}

/-- The computation only registers features, and what it gives is as said for the model that it leaves and for
every later one. -/
def Yields (x : Registering α β) (post : Perceptron α → β → Prop) : Prop :=
  ∀ m a m', x.run m = (.ok a, m') →
    m.Grows m' ∧ m'.table.frozen = m.table.frozen ∧ ∀ p, m'.Grows p → post p a

theorem yields_pure {a : β} {post : Perceptron α → β → Prop} (h : ∀ p, post p a) :
    Yields (pure a) post := by
  intro m _ _ hrun
  cases hrun
  exact ⟨.refl m, rfl, fun p _ => h p⟩

theorem yields_bind {x : Registering α β} {f : β → Registering α γ} {P : Perceptron α → β → Prop}
    {Q : Perceptron α → γ → Prop} (hx : Yields x P) (hf : ∀ a, Yields (f a) fun p b => P p a → Q p b) :
    Yields (x >>= f) Q := by
  intro m b m'' hrun
  rw [exceptT_run_bind] at hrun
  obtain ⟨⟨result, m'⟩, hfirst⟩ : ∃ r, x.run m = r := ⟨_, rfl⟩
  rw [hfirst] at hrun
  cases result with
  | error e => cases hrun
  | ok a =>
    obtain ⟨hgrows, hfrozen, hpost⟩ := hx m a m' hfirst
    obtain ⟨hgrows', hfrozen', hpost'⟩ := hf a m' b m'' hrun
    exact ⟨hgrows.trans hgrows', hfrozen'.trans hfrozen, fun p hp => hpost' p hp (hpost p (hgrows'.trans hp))⟩

theorem yields_mapM {f : β → Registering α γ} {P : β → Perceptron α → γ → Prop}
    (hf : ∀ x, Yields (f x) (P x)) (xs : List β) :
    Yields (xs.mapM f) fun p ys => List.Forall₂ (fun x y => P x p y) xs ys := by
  induction xs with
  | nil =>
    rw [List.mapM_nil]
    exact yields_pure fun _ => .nil
  | cons x xs ih =>
    rw [List.mapM_cons]
    exact yields_bind (hf x) fun y => yields_bind ih fun ys => yields_pure fun p hys hy => .cons hy hys

theorem yields_check (x : Except Error β) : Yields (check x : Registering α β) fun _ a => x = .ok a := by
  intro m a m' hrun
  have hcheck : (check x : Registering α β).run m = (x, m) := rfl
  rw [hcheck] at hrun
  cases hrun
  exact ⟨.refl m, rfl, fun _ _ => rfl⟩

theorem yields_get : Yields (get : Registering α (Perceptron α)) fun p m => m.Grows p := by
  intro m a m' hrun
  cases hrun
  exact ⟨.refl m, rfl, fun _ hp => hp⟩

theorem run_features (ctx : Context) (e : Expansion) (m : Perceptron α) :
    (features ctx e : Registering α (List Nat)).run m = match m.register ctx e with
      | .ok (indices, m') => (.ok indices, m')
      | .error cause => (.error (.unlicensed (.step cause)), m) := by
  have hget : (get : Registering α (Perceptron α)).run m = (.ok m, m) := rfl
  rw [features, exceptT_run_bind, hget]
  simp only
  cases m.register ctx e with
  | error cause => rfl
  | ok result => rfl

theorem yields_features (ctx : Context) (e : Expansion) :
    Yields (features ctx e : Registering α (List Nat)) fun p indices => p.features ctx e = .ok indices := by
  intro m indices m' hrun
  rw [run_features] at hrun
  cases hregister : m.register ctx e with
  | error cause =>
    rw [hregister] at hrun
    cases hrun
  | ok result =>
    obtain ⟨indices', m''⟩ := result
    rw [hregister] at hrun
    cases hrun
    exact Perceptron.register_ok hregister

end Registering

namespace Forest

variable {α : Type}

/-- The edge of the forest for an edge of the chart that builds this phrase. -/
structure EdgeOf (f : FineChart α) (p : Perceptron α) (site : Site) (e : FineEdge α)
    (packed : ForestEdge) : Prop where
  children_eq : packed.children = e.step.children
  features : p.features f.context (f.expansionOf site e.step) = .ok packed.features

def NodeOf (f : FineChart α) (p : Perceptron α) (item : FineItem α) (node : ForestNode) : Prop :=
  List.Forall₂ (EdgeOf f p item.site) item.edges node

structure RootOf (f : FineChart α) (p : Perceptron α) (r : Root α) (packed : ForestRoot) : Prop where
  node_eq : packed.node = r.item
  features : p.features f.context (.top r.rule (f.siteOf r.item)) = .ok packed.features

/-- The forest has the nodes, edges and roots of a chart, with their features under a model. -/
structure Packs (forest : Forest) (f : FineChart α) (p : Perceptron α) : Prop where
  nodes : List.Forall₂ (NodeOf f p) f.items.toList forest.nodes
  roots : List.Forall₂ (RootOf f p) f.roots forest.roots
  spans : forest.roots ≠ []

open Registering

variable {f : FineChart α}

theorem yields_packEdge (gold : List StepKey) (nodes : Array ForestNode) (site : Site) (e : FineEdge α) :
    Yields (packEdge f gold nodes site e) fun p packed => EdgeOf f p site e packed :=
  yields_bind (yields_features _ _) fun _ => yields_pure fun _ hfeatures => ⟨rfl, hfeatures⟩

theorem yields_packItem (gold : List StepKey) (nodes : Array ForestNode) (item : FineItem α) :
    Yields (packItem f gold nodes item) fun p nodes' => ∃ node, nodes' = nodes.push node ∧
      NodeOf f p item node :=
  yields_bind (yields_mapM (fun e => yields_packEdge gold nodes item.site e) item.edges) fun edges =>
    yields_pure fun _ hedges => ⟨edges, rfl, hedges⟩

theorem yields_packItems (gold : List StepKey) (items : List (FineItem α)) : ∀ nodes : Array ForestNode,
    Yields (items.foldlM (packItem f gold) nodes) fun p nodes' => ∃ packed,
      nodes'.toList = nodes.toList ++ packed ∧ List.Forall₂ (NodeOf f p) items packed := by
  induction items with
  | nil =>
    intro nodes
    exact yields_pure fun _ => ⟨[], by simp, .nil⟩
  | cons item items ih =>
    intro nodes
    rw [List.foldlM_cons]
    refine yields_bind (yields_packItem gold nodes item) fun nodes' => ?_
    intro m nodes'' m' hrun
    obtain ⟨hgrows, hfrozen, hpost⟩ := ih nodes' m nodes'' m' hrun
    refine ⟨hgrows, hfrozen, fun p hp => ?_⟩
    rintro ⟨node, rfl, hnode⟩
    obtain ⟨packed, hpacked, hall⟩ := hpost p hp
    exact ⟨node :: packed, by simp [hpacked], .cons hnode hall⟩

theorem yields_packRoot (gold : Derivation) (nodes : Array ForestNode) (r : Root α) :
    Yields (packRoot f gold nodes r) fun p packed => RootOf f p r packed :=
  yields_bind (yields_features _ _) fun _ => yields_pure fun _ hfeatures => ⟨rfl, hfeatures⟩

/-- The forest counts the features of the gold derivation's steps. -/
def CountsGold (forest : Forest) (f : FineChart α) (p : Perceptron α) (gold : Derivation) : Prop :=
  ∃ steps lists, p.refiner.expansions f.context gold = .ok steps ∧
    List.Forall₂ (fun e indices => p.features f.context e = .ok indices) steps lists ∧
    forest.gold = (Tally.ofList lists.flatten).toList

theorem yields_pack (f : FineChart α) (sentence : Nat) (gold : Derivation) :
    Yields (pack f sentence gold) fun p forest? => ∀ forest, forest? = some forest →
      forest.Packs f p ∧ forest.CountsGold f p gold := by
  refine yields_bind yields_get fun m => yields_bind (yields_check _) fun steps =>
    yields_bind (yields_mapM (fun e => yields_features f.context e) steps) fun goldFeatures =>
    yields_bind (yields_packItems gold.stepKeys f.items.toList #[]) fun nodes =>
    yields_bind (yields_mapM (fun r => yields_packRoot gold nodes r) f.roots) fun roots =>
    yields_pure fun p hroots hnodes hfeatures hsteps hgrows forest hforest => ?_
  obtain ⟨packed, hpacked, hall⟩ := hnodes
  split at hforest
  · rename_i hgold
    cases hforest
    obtain rfl : nodes.toList = packed := by simpa using hpacked
    refine ⟨⟨hall, hroots, ?_⟩, steps, goldFeatures, ?_, hfeatures, rfl⟩
    · rintro rfl
      simp at hgold
    · cases hexpansions : m.refiner.expansions f.context gold with
      | error cause => simp [hexpansions, Except.mapError] at hsteps
      | ok steps' =>
        simp only [hexpansions, Except.mapError, Except.ok.injEq] at hsteps
        have hrefiner : p.refiner = m.refiner := by simp only [Perceptron.refiner, hgrows.grammarId_eq]
        rw [← hsteps, hrefiner, hexpansions]
  · cases hforest

theorem packs_of_pack {sentence : Nat} {gold : Derivation} {m m' : Perceptron α} {forest : Forest}
    (h : (pack f sentence gold).run m = (.ok (some forest), m')) :
    m.Grows m' ∧ m'.table.frozen = m.table.frozen ∧
      ∀ p, m'.Grows p → forest.Packs f p ∧ forest.CountsGold f p gold := by
  obtain ⟨hgrows, hfrozen, hpost⟩ := yields_pack f sentence gold m _ m' h
  exact ⟨hgrows, hfrozen, fun p hp => hpost p hp forest rfl⟩

end Forest

end Categorial
