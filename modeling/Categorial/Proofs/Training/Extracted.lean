import Categorial.Proofs.Coarse.Wider
import Categorial.Proofs.Files
import Categorial.Proofs.Forest.Stored
import Categorial.Proofs.Training.Epochs
set_option autoImplicit false

namespace Categorial

theorem Registering.run_check {α β : Type} {x : Except Error β} {b : β} (h : x = .ok b) (m : Perceptron α) :
    (check x).run m = (.ok b, m) := by
  rw [h]
  rfl

theorem Registering.run_check_eq_ok {α β : Type} {x : Except Error β} {b : β} {m m' : Perceptron α}
    (h : (check x).run m = (.ok b, m')) : x = .ok b ∧ m = m' :=
  ⟨congrArg Prod.fst h, congrArg Prod.snd h⟩

namespace ForestStore

/-- The file at the place is a store of these forests. -/
def Kept (k : Compressor) (c : Compression) (d : Disk) (p : Path) (forests : List Forest) : Prop :=
  d.files.lookup p = some ⟨(header c ++ records k c forests).toArray⟩

variable {k : Compressor} {c : Compression} {d d' : Disk} {path : String} {p : Path} {forests : List Forest}

theorem Kept.of_rewrites (h : Kept k c d p forests) {places : List Path} (hd : d.Rewrites places d')
    (hp : p ∉ places) : Kept k c d' p forests :=
  (hd.lookup p hp).trans h

theorem exists_create (k : Compressor) (c : Compression) (hp : d.Leads path p) :
    ∃ d', (create path c : Filing OnDisk Unit).run d = (.ok (), d') ∧ d.Rewrites [p] d' ∧ Kept k c d' p [] := by
  obtain ⟨d', hrun, hrewrites, hfile⟩ := Filing.exists_write hp ⟨(header c).toArray⟩
  refine ⟨d', hrun, hrewrites, ?_⟩
  rw [Kept, hfile, records_nil, List.append_nil]

theorem exists_append (hp : d.Leads path p) (h : Kept k c d p forests) {f : Forest} (hf : Recordable k c f) :
    ∃ d', (append k path c f : Filing OnDisk Unit).run d = (.ok (), d') ∧ d.Rewrites [p] d' ∧
      Kept k c d' p (forests ++ [f]) := by
  have hrecord : record k path c f = .ok (framed k c f) := if_pos hf.size
  obtain ⟨d', hrun, hrewrites, hfile⟩ := Filing.exists_append hp h ⟨(framed k c f).toArray⟩
  refine ⟨d', ?_, hrewrites, ?_⟩
  · rw [append, exceptT_run_bind, Filing.run_check hrecord]
    exact hrun
  · have hbytes : (⟨(header c ++ records k c forests).toArray⟩ : ByteArray) ++ ⟨(framed k c f).toArray⟩ =
        ⟨(header c ++ records k c (forests ++ [f])).toArray⟩ := by
      apply ByteArray.ext
      simp [records, ByteArray.data_append]
    rw [Kept, hfile, hbytes]

theorem exists_appendAll (hp : d.Leads path p) (g : Forest → Forest) {more : List Forest}
    (hmore : ∀ f ∈ more, Recordable k c (g f)) (h : Kept k c d p forests) :
    ∃ d', (more.forM fun f => append k path c (g f) : Filing OnDisk Unit).run d = (.ok (), d') ∧
      d.Rewrites [p] d' ∧ Kept k c d' p (forests ++ more.map g) := by
  induction more generalizing d forests with
  | nil => exact ⟨d, rfl, .refl d _, by simpa using h⟩
  | cons f more ih =>
    obtain ⟨hf, hrest⟩ := List.forall_mem_cons.mp hmore
    obtain ⟨d₁, hfirst, hrewrites, hkept⟩ := exists_append hp h hf
    obtain ⟨d₂, hmore, hrewrites', hkept'⟩ := ih (hrewrites.leads hp) hrest hkept
    refine ⟨d₂, ?_, hrewrites.trans hrewrites', by simpa using hkept'⟩
    rw [Filing.run_forM_cons, hfirst]
    exact hmore

theorem run_openAt (hp : d.Leads path p) (h : Kept k c d p forests) :
    (openAt path : Filing OnDisk ForestStore).run d = (.ok ⟨c, records k c forests, records k c forests⟩, d) := by
  rw [openAt, exceptT_run_bind, Filing.run_read hp h]
  exact Filing.run_check (ofBytes_header c _) d

end ForestStore

namespace Training

variable {α β γ : Type} {x : Training OnDisk α β} {m m' m'' : Perceptron α} {d d' d'' : Disk} {b : β}

def Does (x : Training OnDisk α β) (m : Perceptron α) (d : Disk) (b : β) (m' : Perceptron α) (d' : Disk) : Prop :=
  (x.run.run m).run d = ((.ok b, m'), d')

theorem run_bind (x : Training OnDisk α β) (f : β → Training OnDisk α γ) (m : Perceptron α) (d : Disk) :
    ((x >>= f).run.run m).run d = match (x.run.run m).run d with
      | ((r, m'), d') => ((ExceptT.bindCont f r).run m').run d' := rfl

theorem Does.bind {f : β → Training OnDisk α γ} {c : γ} (hx : x.Does m d b m' d') (hf : (f b).Does m' d' c m'' d'') :
    Does (x >>= f) m d c m'' d'' := by
  rw [Does, run_bind, hx]
  exact hf

/-- The work fails, and leaves a model and a disk behind. -/
def Fails (x : Training OnDisk α β) (m : Perceptron α) (d : Disk) (e : Error) (m' : Perceptron α) (d' : Disk) : Prop :=
  (x.run.run m).run d = ((.error e, m'), d')

theorem Fails.bind {f : β → Training OnDisk α γ} {e : Error} (hx : x.Fails m d e m' d') :
    Fails (x >>= f) m d e m' d' := by
  rw [Fails, run_bind, hx]
  rfl

theorem Does.bind_fails {f : β → Training OnDisk α γ} {e : Error} (hx : x.Does m d b m' d')
    (hf : (f b).Fails m' d' e m'' d'') : Fails (x >>= f) m d e m'' d'' := by
  rw [Fails, run_bind, hx]
  exact hf

theorem does_pure (b : β) (m : Perceptron α) (d : Disk) : Does (pure b) m d b m d := rfl

theorem does_check {x : Except Error β} (h : x = .ok b) (m : Perceptron α) (d : Disk) :
    Does (check x) m d b m d := by
  rw [h]
  rfl

theorem does_registering {x : Registering α β} (h : x.run m = (.ok b, m')) (d : Disk) :
    Does (registering x) m d b m' d := by
  have hrun : ((registering x : Training OnDisk α β).run.run m).run d = (x.run m, d) := rfl
  rw [Does, hrun, h]

theorem run_filing (x : Filing OnDisk β) (m : Perceptron α) (d : Disk) :
    ((filing x : Training OnDisk α β).run.run m).run d = match x.run d with
      | (r, d') => ((r, m), d') := rfl

theorem does_filing {x : Filing OnDisk β} (h : x.run d = (.ok b, d')) (m : Perceptron α) :
    Does (filing x) m d b m d' := by
  rw [Does, run_filing, h]

theorem fails_filing {x : Filing OnDisk β} {e : Error} (h : x.run d = (.error e, d')) (m : Perceptron α) :
    Fails (filing x) m d e m d' := by
  rw [Fails, run_filing, h]

theorem does_get (m : Perceptron α) (d : Disk) : Does get m d m m d := rfl

theorem does_set (m m' : Perceptron α) (d : Disk) : Does (set m') m d ⟨⟩ m' d := rfl

theorem does_modify (f : Perceptron α → Perceptron α) (m : Perceptron α) (d : Disk) :
    Does (modify f) m d ⟨⟩ (f m) d := rfl

end Training

namespace Trainer

variable {α : Type} [Scalar α]

/-- Extraction without a store: how far the examples get, and the forests. -/
def harvest (t : Trainer α) : Nat → List (TrainingExample α) → Registering α (List Progress × List Forest)
  | _, [] => pure ([], [])
  | i, e :: rest => do
    match ← t.extractOne e (.start i) with
    | (p, none) => do
      let (ps, forests) ← t.harvest (i + 1) rest
      pure (p :: ps, forests)
    | (p, some forest) => do
      let p ← Registering.check (p.advance .forestBuilt)
      let (ps, forests) ← t.harvest (i + 1) rest
      pure (p :: ps, forest :: forests)

variable {t : Trainer α} {k : Compressor} {d : Disk} {p : Path} {stored : List Forest}

theorem exists_extractFrom (hp : d.Leads t.storePath p) {corpus : List (TrainingExample α)} {i : Nat}
    {records : List Progress} {forests : List Forest} {m m' : Perceptron α}
    (h : (t.harvest i corpus).run m = (.ok (records, forests), m'))
    (hforests : ∀ f ∈ forests, ForestStore.Recordable k t.config.compression f)
    (hstored : ForestStore.Kept k t.config.compression d p stored) :
    ∃ d', (t.extractFrom k i corpus).Does m d (records, forests.length) m' d' ∧ d.Rewrites [p] d' ∧
      ForestStore.Kept k t.config.compression d' p (stored ++ forests) := by
  induction corpus generalizing i records forests m d stored with
  | nil =>
    cases h
    exact ⟨d, rfl, .refl d _, by simpa using hstored⟩
  | cons e corpus ih =>
    obtain ⟨⟨progress, found⟩, m₁, hfirst, h⟩ := exceptT_run_bind_eq_ok.mp h
    cases found with
    | none =>
      obtain ⟨⟨records', forests'⟩, m₂, hrest, h⟩ := exceptT_run_bind_eq_ok.mp h
      cases h
      obtain ⟨d', hdoes, hrewrites, hkept⟩ := ih hp hrest hforests hstored
      exact ⟨d', (Training.does_registering hfirst d).bind (hdoes.bind (Training.does_pure _ _ _)), hrewrites, hkept⟩
    | some forest =>
      obtain ⟨progress', m₂, hadvance, h⟩ := exceptT_run_bind_eq_ok.mp h
      obtain ⟨⟨records', forests'⟩, m₃, hrest, h⟩ := exceptT_run_bind_eq_ok.mp h
      cases h
      obtain ⟨hforest, hothers⟩ := List.forall_mem_cons.mp hforests
      obtain ⟨d₁, happend, hrewrites, hkept⟩ := ForestStore.exists_append hp hstored hforest
      obtain ⟨hcheck, rfl⟩ := Registering.run_check_eq_ok hadvance
      obtain ⟨d₂, hdoes, hrewrites', hkept'⟩ := ih (hrewrites.leads hp) hrest hothers hkept
      refine ⟨d₂, ?_, hrewrites.trans hrewrites', by simpa using hkept'⟩
      exact (Training.does_registering hfirst d).bind ((Training.does_filing happend m₁).bind
        ((Training.does_check hcheck m₁ d₁).bind (hdoes.bind (Training.does_pure _ _ _))))

omit [Scalar α] in
theorem exists_rewriteStore {q : Path} (hp : d.Leads t.storePath p) (hq : d.Leads t.prunedPath q)
    (hk : k.Lossless t.config.compression) (numbers : Forest.Renumbering)
    (hforests : ∀ f ∈ stored, ForestStore.Recordable k t.config.compression f)
    (hnew : ∀ f ∈ stored, ForestStore.Recordable k t.config.compression (f.renumber numbers))
    (hstored : ForestStore.Kept k t.config.compression d p stored) :
    ∃ d', (t.rewriteStore k numbers : Filing OnDisk Unit).run d = (.ok (), d') ∧ d.Rewrites [p, q] d' ∧
      ForestStore.Kept k t.config.compression d' p (stored.map fun f => f.renumber numbers) := by
  obtain ⟨d₁, hcreate, hrewrites₁, hkept₁⟩ := ForestStore.exists_create k t.config.compression hq
  obtain ⟨d₂, happend, hrewrites₂, hkept₂⟩ :=
    ForestStore.exists_appendAll (hrewrites₁.leads hq) (fun f => f.renumber numbers) hnew hkept₁
  have hwritten := hrewrites₁.trans hrewrites₂
  obtain ⟨d₃, hmove, hrewrites₃, hkept₃⟩ := Filing.exists_move (hwritten.leads hq) (hwritten.leads hp) hkept₂
  refine ⟨d₃, ?_, (hwritten.mono (by simp)).trans (hrewrites₃.mono (by simp)), hkept₃⟩
  simp only [rewriteStore, exceptT_run_bind, ForestStore.run_openAt hp hstored, hcreate,
    ForestStore.rest_records hk hforests, happend]
  exact hmove

section

variable {α : Type} [Scalar α] (t : Trainer α)

/-- An example gets a forest, or it turns out to be unusable; no step is out of order. -/
theorem exists_extractOne (e : TrainingExample α) {i : Nat} (hi : i < 2 ^ 32) {m : Perceptron α}
    (hid : m.grammarId = t.grammar.id) (ht : m.table.Consistent) :
    ∃ stage found m', (t.extractOne e (.start i)).run m = (.ok (⟨i, stage⟩, found), m') ∧
      m.Onward m' ∧ (stage = .unparseable ∧ found = none ∨ ∃ f, stage = .featuresExtracted ∧ found = some f ∧
        f.sentence = i ∧ f.Below m'.table.size ∧ f.Spanned) := by
  have hget : (get : Registering α (Perceptron α)).run m = (.ok m, m) := rfl
  cases hgold : e.gold with
  | none =>
    refine ⟨.unparseable, none, m, ?_, .refl m, .inl ⟨rfl, rfl⟩⟩
    rw [extractOne, hgold]
    rfl
  | some gold =>
    cases hcoarse : t.parser.coarseChart t.grammar e.sentence (e.tags.withGold gold) with
    | error failure =>
      refine ⟨.unparseable, none, m, ?_, .refl m, .inl ⟨rfl, rfl⟩⟩
      simp only [extractOne, hgold, exceptT_run_bind, Progress.advance, Progress.start, Stage.canAdvance, if_true,
        Registering.run_check rfl, hcoarse]
      rfl
    | ok c =>
      obtain ⟨beta, hbuild⟩ := ParserConfig.coarseChart_ok hcoarse
      obtain ⟨hgrammar, -, hsat, -⟩ := CoarseChart.build_ok hbuild
      have hmodel : m.toModel.grammarId = c.grammar.id := by rw [hgrammar]; exact hid
      obtain ⟨f, hf⟩ := FineChart.exists_build c hmodel .all none
      obtain ⟨found, m', hpack, honward, hfound⟩ := Forest.exists_packed ht hsat hf i gold
      have hnumber : i % UInt32.size = i := Nat.mod_eq_of_lt hi
      have hrun : (t.extractOne e (.start i)).run m = (.ok (found.elim (⟨i, .unparseable⟩, none) fun forest =>
          (⟨i, .featuresExtracted⟩, some forest)), m') := by
        simp only [extractOne, hgold, exceptT_run_bind, Progress.advance, Progress.start, Stage.canAdvance,
          if_true, Registering.run_check rfl, hcoarse, hget, Registering.run_check hf, hnumber, hpack]
        cases found <;> rfl
      cases found with
      | none => exact ⟨.unparseable, none, m', hrun, honward, .inl ⟨rfl, rfl⟩⟩
      | some forest =>
        exact ⟨.featuresExtracted, some forest, m', hrun, honward, .inr ⟨forest, rfl, rfl, hfound forest rfl⟩⟩

theorem exists_harvest (corpus : List (TrainingExample α)) : ∀ {i : Nat}, i + corpus.length ≤ 2 ^ 32 →
    ∀ {m : Perceptron α}, m.grammarId = t.grammar.id → m.table.Consistent →
      ∃ records forests m', (t.harvest i corpus).run m = (.ok (records, forests), m') ∧ m.Onward m' ∧
        records.length = corpus.length ∧ Tracks .forestBuilt i records forests ∧
        ∀ f ∈ forests, f.Below m'.table.size ∧ f.Spanned := by
  induction corpus with
  | nil => exact fun _ m _ _ => ⟨[], [], m, rfl, .refl m, rfl, .nil _ _, by simp⟩
  | cons e corpus ih =>
    intro i hbound m hid ht
    rw [List.length_cons] at hbound
    obtain ⟨stage, found, m₁, hfirst, honward, hcases⟩ := t.exists_extractOne e (i := i) (by omega) hid ht
    obtain ⟨records, forests, m₂, hrest, honward', hlength, htracks, hforests⟩ :=
      ih (i := i + 1) (by omega) (honward.grammarId_eq.trans hid) (honward.consistent ht)
    rcases hcases with ⟨rfl, rfl⟩ | ⟨f, rfl, rfl, hsentence, hbelow, hspanned⟩
    · refine ⟨⟨i, .unparseable⟩ :: records, forests, m₂, ?_, honward.trans honward', congrArg (· + 1) hlength,
        htracks.unparseable (by decide), hforests⟩
      simp only [harvest, exceptT_run_bind, hfirst, hrest]
      rfl
    · refine ⟨⟨i, .forestBuilt⟩ :: records, f :: forests, m₂, ?_, honward.trans honward',
        congrArg (· + 1) hlength, htracks.forest hsentence,
        List.forall_mem_cons.mpr ⟨⟨hbelow.mono honward'.size, hspanned⟩, hforests⟩⟩
      have hadvance : (⟨i, .featuresExtracted⟩ : Progress).advance .forestBuilt = .ok ⟨i, .forestBuilt⟩ := rfl
      simp only [harvest, exceptT_run_bind, hfirst, Registering.run_check hadvance, hrest]
      rfl

omit [Scalar α] in
theorem size_keptWeights {weights : Array α} {numbers : List (Option Nat)} (h : weights.size = numbers.length) :
    (keptWeights weights numbers).size = numbers.reduceOption.length := by
  have hlength : ∀ {ws : List α} {numbers : List (Option Nat)}, ws.length = numbers.length →
      ((ws.zip numbers).filterMap fun entry => entry.2.map fun _ => entry.1).length = numbers.reduceOption.length := by
    intro ws numbers
    induction numbers generalizing ws with
    | nil => simp
    | cons new numbers ih =>
      intro h
      cases ws with
      | nil => cases h
      | cons w ws =>
        have hrest := ih (Nat.succ.inj h)
        cases new with
        | none => simpa using hrest
        | some new => simpa using hrest
  have hlist : weights.toList.length = numbers.length := by rwa [Array.length_toList]
  exact hlength hlist

theorem size_resize (weights : Array α) (n : Nat) : (resize weights n).size = n := by
  have htake : (weights.take n).size = min n weights.size := by simp
  rw [resize, Array.size_append, htake, Array.size_replicate]
  omega

/-- The numbers that the features of a model get when the rare ones are dropped. -/
def newNumbers (m : Perceptron α) : Forest.Renumbering := (m.table.prune t.config.featureCutoff).1.toArray

variable {t} {k : Compressor} {d : Disk} {p q : Path} {forests : List Forest}

/-- Whether or not features are dropped, there are then as many weights as features, and the store has forests of
the same sentences with their features among these. -/
theorem exists_prune (hp : d.Leads t.storePath p) (hq : d.Leads t.prunedPath q)
    (hk : k.Lossless t.config.compression) (weights : Array α) {m : Perceptron α} (ht : m.table.Consistent)
    (hforests : ∀ f ∈ forests, f.Below m.table.size ∧ f.Spanned)
    (hrecords : ∀ f ∈ forests, ForestStore.Recordable k t.config.compression f)
    (hnew : t.config.dropsFeatures = true →
      ∀ f ∈ forests, ForestStore.Recordable k t.config.compression (f.renumber (t.newNumbers m)))
    (hstored : ForestStore.Kept k t.config.compression d p forests) :
    ∃ weights' forests' m' d', (t.prune k weights).Does m d weights' m' d' ∧ d.Rewrites [p, q] d' ∧
      ForestStore.Kept k t.config.compression d' p forests' ∧ m'.grammarId = m.grammarId ∧ m'.table.Consistent ∧
      weights'.size = m'.table.size ∧ forests'.map Forest.sentence = forests.map Forest.sentence ∧
      (∀ f ∈ forests', ForestStore.Recordable k t.config.compression f) ∧
      ∀ f ∈ forests', f.Below m'.table.size ∧ f.Spanned := by
  cases hdrops : t.config.dropsFeatures with
  | false =>
    refine ⟨resize weights m.table.size, forests, m, d, ?_, .refl d _, hstored, rfl, ht, size_resize _ _, rfl,
      hrecords, hforests⟩
    refine (Training.does_get m d).bind ?_
    simp only [hdrops]
    exact Training.does_pure _ m d
  | true =>
    obtain ⟨d', hrewrite, hrewrites, hkept⟩ :=
      exists_rewriteStore hp hq hk (t.newNumbers m) hrecords (hnew hdrops) hstored
    have hdoes : (t.prune k weights).Does m d
        (keptWeights (resize weights m.table.size) (m.table.prune t.config.featureCutoff).1)
        { m with table := (m.table.prune t.config.featureCutoff).2 } d' := by
      refine (Training.does_get m d).bind ?_
      simp only [hdrops]
      exact (Training.does_set m _ d).bind ((Training.does_filing hrewrite _).bind (Training.does_pure _ _ d'))
    refine ⟨_, _, _, d', hdoes, hrewrites, hkept, rfl, ht.prune _, ?_, ?_, fun f hf => ?_, fun f hf => ?_⟩
    · have hlength : (resize weights m.table.size).size = (m.table.prune t.config.featureCutoff).1.length := by
        rw [size_resize, FeatureTable.prune, FeatureTable.length_renumber, Array.length_toList, ht.counts]
        rfl
      rw [size_keptWeights hlength, FeatureTable.size_prune ht, FeatureTable.prune,
        FeatureTable.reduceOption_renumber, List.length_range']
    · rw [List.map_map]
      rfl
    · obtain ⟨f', hf', rfl⟩ := List.mem_map.mp hf
      exact hnew hdrops f' hf'
    · obtain ⟨f', hf', rfl⟩ := List.mem_map.mp hf
      refine ⟨Forest.below_renumber (fun i new hi => ?_) f', (hforests f' hf').2.renumber _⟩
      rw [newNumbers, List.getElem?_toArray] at hi
      exact FeatureTable.lt_size_prune ht _ hi

end

end Trainer

end Categorial
