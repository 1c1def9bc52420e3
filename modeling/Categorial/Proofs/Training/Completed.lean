import Categorial.Proofs.KBest.Agreement
import Categorial.Proofs.Supertags
import Categorial.Proofs.Training.Extracted
set_option autoImplicit false

/-!
Training completes. Of every corpus each sentence ends with updated weights or as unusable, and the store has one
forest for each of the former, which every epoch goes through.
-/

namespace Categorial

theorem toList_checkpointName (epoch : Nat) :
    (checkpointName epoch).toList = 'm' :: ("odel.".toList ++ Text.natDigits epoch) := by
  have htext : checkpointName epoch = "model." ++ toString epoch := rfl
  rw [htext, String.toList_append, Text.toList_toString]
  rfl

namespace Trainer

theorem fileName_checkpoint {epoch : Nat} {name : String}
    (h : name ∈ [checkpointName epoch, averagedName (checkpointName epoch)]) :
    Disk.FileName name ∧ name ≠ "forests" := by
  have hlist : ∃ rest, name.toList = 'm' :: rest ∧ '/' ∉ rest := by
    have hslash : '/' ∉ "odel.".toList ++ Text.natDigits epoch := by
      rw [List.mem_append]
      exact not_or.mpr ⟨by decide, Text.not_mem_natDigits rfl⟩
    rcases List.mem_pair.mp h with rfl | rfl
    · exact ⟨_, toList_checkpointName epoch, hslash⟩
    · refine ⟨("odel.".toList ++ Text.natDigits epoch) ++ ".averaged".toList, ?_, ?_⟩
      · rw [averagedName, String.toList_append, toList_checkpointName, List.cons_append]
      · rw [List.mem_append]
        exact not_or.mpr ⟨hslash, by decide⟩
  obtain ⟨rest, hname, hrest⟩ := hlist
  refine ⟨⟨?_, 'm', by rw [hname]; rfl, by decide⟩, ?_⟩
  · rw [hname, List.mem_cons]
    exact not_or.mpr ⟨by decide, hrest⟩
  · rintro rfl
    cases hname

section

variable {α : Type} {t : Trainer α} {d d' : Disk}

/-- A disk has places for the files of a training: the store, the one that takes its place, and two for every
checkpoint. -/
structure Room (t : Trainer α) (d : Disk) : Prop where
  store : ∃ p, d.Leads t.storePath p
  pruned : ∃ p, d.Leads t.prunedPath p
  checkpoints : ∀ directory ∈ t.config.checkpointDirectory, ∀ epoch, 1 ≤ epoch → epoch ≤ t.config.iterations →
    ∀ name ∈ [checkpointName epoch, averagedName (checkpointName epoch)],
      ∃ p, d.Leads (Files.within directory name) p

theorem Room.of_rewrites (h : t.Room d) {places : List Path} (hd : d.Rewrites places d') : t.Room d' where
  store := h.store.imp fun _ => hd.leads
  pruned := h.pruned.imp fun _ => hd.leads
  checkpoints directory hdirectory epoch hfirst hlast name hname :=
    (h.checkpoints directory hdirectory epoch hfirst hlast name hname).imp fun _ => hd.leads

end

section

variable {α : Type} [Scalar α] [Written α] {t : Trainer α} {d : Disk} {p : Path} {table : FeatureTable}

theorem exists_writeCheckpoint {c : Checkpoint α} (g : Grammar) {directory : String}
    (hplaces : ∀ name ∈ [checkpointName c.epoch, averagedName (checkpointName c.epoch)],
      ∃ q, d.Leads (Files.within directory name) q)
    (hweights : c.weights.size = table.size) (haveraged : c.averaged.size = table.size) :
    ∃ q q' d', d.Leads (Files.within directory (checkpointName c.epoch)) q ∧
      d.Leads (Files.within directory (averagedName (checkpointName c.epoch))) q' ∧
      (c.write g table directory : Filing OnDisk Unit).run d = (.ok (), d') ∧ d.Rewrites [q, q'] d' := by
  obtain ⟨text, htext⟩ : ∃ text, WeightFile.write g table Perceptron.modelName (some c.weights) = .ok text :=
    ⟨_, if_pos hweights⟩
  obtain ⟨text', htext'⟩ : ∃ text, WeightFile.write g table Perceptron.modelName (some c.averaged) = .ok text :=
    ⟨_, if_pos haveraged⟩
  have hfiles : c.files g table =
      .ok [(checkpointName c.epoch, text), (averagedName (checkpointName c.epoch), text')] := by
    rw [Checkpoint.files, htext, htext']
    rfl
  obtain ⟨q, hq⟩ := hplaces _ List.mem_cons_self
  obtain ⟨q', hq'⟩ := hplaces _ (List.mem_cons_of_mem _ List.mem_cons_self)
  obtain ⟨d₁, hwrite, hrewrites, -⟩ := Filing.exists_write hq text.toUTF8
  obtain ⟨d₂, hwrite', hrewrites', -⟩ := Filing.exists_write (hrewrites.leads hq') text'.toUTF8
  refine ⟨q, q', d₂, hq, hq', ?_, (hrewrites.mono (by simp)).trans (hrewrites'.mono (by simp))⟩
  rw [Checkpoint.write, exceptT_run_bind, Filing.run_check hfiles]
  simp only [Filing.run_forM_cons, hwrite, hwrite']
  rfl

theorem exists_keep (hroom : t.Room d) (hp : d.Leads t.storePath p) {c : Checkpoint α} (hfirst : 1 ≤ c.epoch)
    (hlast : c.epoch ≤ t.config.iterations) (hweights : c.weights.size = table.size)
    (haveraged : c.averaged.size = table.size) :
    ∃ d' places, (t.keep table c none : OnDisk (Option Error)).run d = (none, d') ∧ d.Rewrites places d' ∧
      p ∉ places := by
  cases hdirectory : t.config.checkpointDirectory with
  | none =>
    refine ⟨d, [], ?_, .refl d _, List.not_mem_nil⟩
    rw [keep, hdirectory]
    rfl
  | some directory =>
    obtain ⟨q, q', d', hq, hq', hwrite, hrewrites⟩ := exists_writeCheckpoint t.grammar
      (hroom.checkpoints directory hdirectory c.epoch hfirst hlast) hweights haveraged
    -- the store has another name than either file
    have hstore : p.getLast? = some "forests" := hp.getLast?_eq ⟨by decide, 'f', by decide, by decide⟩
    have hother : ∀ {name : String} {r : Path},
        name ∈ [checkpointName c.epoch, averagedName (checkpointName c.epoch)] →
          d.Leads (Files.within directory name) r → p ≠ r := by
      rintro name r hname hr rfl
      obtain ⟨hfile, hne⟩ := fileName_checkpoint hname
      exact hne (Option.some.inj ((hr.getLast?_eq hfile).symm.trans hstore))
    refine ⟨d', [q, q'], ?_, hrewrites, ?_⟩
    · have hstate : StateT.run (c.write t.grammar table directory : Filing OnDisk Unit).run d = (.ok (), d') := hwrite
      rw [keep, hdirectory]
      simp only [StateT.run_bind, hstate]
      rfl
    · have hfirst : p ≠ q := hother List.mem_cons_self hq
      have hsecond : p ≠ q' := hother (List.mem_cons_of_mem _ List.mem_cons_self) hq'
      simp [hfirst, hsecond]

variable {k : Compressor} {s : ForestStore} {forests : List Forest}

theorem exists_epochsFrom_succ (hroom : t.Room d) (hp : d.Leads t.storePath p)
    (hs : s.reset.rest k t.storePath = (forests, none)) (hforests : ∀ f ∈ forests, f.Spanned) {epoch : Nat}
    (hfirst : 1 ≤ epoch) (hlast : epoch ≤ t.config.iterations) {learner : Learner α}
    (hsize : learner.weights.size = table.size) {progress : Array Progress}
    (hready : Ready (forests.map Forest.sentence) progress) :
    ∃ (state : EpochState α) (d' : Disk) (places : List Path), (∀ more,
      (t.epochsFrom k table s epoch (more + 1) learner progress none : Filing OnDisk _).run d =
        match (t.epochsFrom k table s (epoch + 1) more state.learner state.progress none : Filing OnDisk _).run d' with
        | (.ok (learner, progress, counts, fault), d) =>
          (.ok (learner, progress, ⟨epoch, state.correct, forests.length⟩ :: counts, fault), d)
        | (.error e, d) => (.error e, d)) ∧
      d.Rewrites places d' ∧ p ∉ places ∧ Updates (forests.map Forest.sentence) progress state.progress ∧
      state.learner.weights.size = table.size := by
  obtain ⟨state, hepoch, hupdates, htotal, hsize'⟩ := t.exists_epoch hs hforests learner hready
  have hweights : state.learner.weights.size = table.size := hsize'.trans hsize
  obtain ⟨d', places, hkeep, hrewrites, hspared⟩ := exists_keep hroom hp
    (c := ⟨epoch, state.learner.weights, state.learner.averaged⟩) hfirst hlast hweights
    (state.learner.size_averaged.trans hweights)
  refine ⟨state, d', places, fun more => ?_, hrewrites, hspared, hupdates, hweights⟩
  simp only [epochsFrom, exceptT_run_bind, Filing.run_check hepoch, Filing.run_lift hkeep]
  obtain ⟨⟨result, d''⟩, hrest⟩ : ∃ r, (t.epochsFrom k table s (epoch + 1) more state.learner state.progress none :
    Filing OnDisk _).run d' = r := ⟨_, rfl⟩
  rw [hrest]
  cases result with
  | error e => rfl
  | ok found => rw [← htotal]; rfl

theorem exists_epochsFrom (hs : s.reset.rest k t.storePath = (forests, none)) (hforests : ∀ f ∈ forests, f.Spanned)
    (more : Nat) : ∀ {d : Disk} {epoch : Nat} {learner : Learner α} {progress : Array Progress}, t.Room d →
      d.Leads t.storePath p → 1 ≤ epoch → epoch + more ≤ t.config.iterations → learner.weights.size = table.size →
        Ready (forests.map Forest.sentence) progress →
      ∃ (learner' : Learner α) (progress' : Array Progress) (counts : List EpochCount) (d' : Disk)
        (places : List Path), (t.epochsFrom k table s epoch (more + 1) learner progress none : Filing OnDisk _).run d =
          (.ok (learner', progress', counts, none), d') ∧
        d.Rewrites places d' ∧ p ∉ places ∧ Updates (forests.map Forest.sentence) progress progress' ∧
        learner'.weights.size = table.size ∧ counts.map EpochCount.epoch = List.range' epoch (more + 1) ∧
        ∀ count ∈ counts, count.total = forests.length := by
  induction more with
  | zero =>
    intro d epoch learner progress hroom hp hfirst hlast hsize hready
    obtain ⟨state, d', places, hrun, hrewrites, hspared, hupdates, hsize'⟩ :=
      exists_epochsFrom_succ hroom hp hs hforests hfirst hlast hsize hready
    exact ⟨state.learner, state.progress, [⟨epoch, state.correct, forests.length⟩], d', places, hrun 0, hrewrites,
      hspared, hupdates, hsize', rfl, by simp⟩
  | succ more ih =>
    intro d epoch learner progress hroom hp hfirst hlast hsize hready
    obtain ⟨state, d₁, places, hrun, hrewrites, hspared, hupdates, hsize'⟩ :=
      exists_epochsFrom_succ hroom hp hs hforests hfirst (by omega) hsize hready
    obtain ⟨learner', progress', counts, d₂, places', hrest, hrewrites', hspared', hupdates', hsize'', hepochs,
        htotals⟩ := ih (hroom.of_rewrites hrewrites) (hrewrites.leads hp) (Nat.le_add_left 1 epoch) (by omega) hsize'
      (hupdates.ready hready)
    refine ⟨learner', progress', ⟨epoch, state.correct, forests.length⟩ :: counts, d₂, places ++ places', ?_,
      (hrewrites.mono (List.subset_append_left _ _)).trans (hrewrites'.mono (List.subset_append_right _ _)), ?_,
      hupdates.again hupdates', hsize'', ?_, List.forall_mem_cons.mpr ⟨rfl, htotals⟩⟩
    · rw [hrun, hrest]
    · rw [List.mem_append]
      exact not_or.mpr ⟨hspared, hspared'⟩
    · rw [List.map_cons, hepochs]
      rfl

theorem exists_epochs (hroom : t.Room d) (hp : d.Leads t.storePath p) (hk : k.Lossless t.config.compression)
    (hcounts : hasRoom countBytes t.config.iterations = true) (hiterations : t.config.iterations ≠ 0)
    (hrecords : ∀ f ∈ forests, ForestStore.Recordable k t.config.compression f)
    (hforests : ∀ f ∈ forests, f.Spanned) (hstored : ForestStore.Kept k t.config.compression d p forests)
    (learner : Learner α) (hsize : learner.weights.size = table.size) {progress : Array Progress}
    (hready : Ready (forests.map Forest.sentence) progress) :
    ∃ (learner' : Learner α) (progress' : Array Progress) (counts : List EpochCount) (d' : Disk)
      (places : List Path), (t.epochs k table learner progress : Filing OnDisk _).run d =
        (.ok (learner', progress', counts), d') ∧
      d.Rewrites places d' ∧ p ∉ places ∧ Updates (forests.map Forest.sentence) progress progress' ∧
      learner'.weights.size = table.size ∧ counts.map EpochCount.epoch = List.range' 1 t.config.iterations ∧
      ∀ count ∈ counts, count.total = forests.length := by
  let store : ForestStore := ⟨t.config.compression, ForestStore.records k t.config.compression forests,
    ForestStore.records k t.config.compression forests⟩
  have hs : store.reset.rest k t.storePath = (forests, none) := ForestStore.rest_records hk hrecords _
  obtain ⟨more, hmore⟩ := Nat.exists_eq_succ_of_ne_zero hiterations
  obtain ⟨learner', progress', counts, d', places, hrun, hrest⟩ :=
    exists_epochsFrom hs hforests more hroom hp (Nat.le_refl 1) (by omega) hsize hready
  rw [← Nat.succ_eq_add_one, ← hmore] at hrun hrest
  refine ⟨learner', progress', counts, d', places, ?_, hrest⟩
  simp only [epochs, exceptT_run_bind, ForestStore.run_openAt hp hstored, hcounts, Bool.not_true, Bool.false_eq_true,
    if_false]
  rw [hrun]
  rfl

end

/-- What training comes to: a record for each sentence, and in the store the forests of those that were trained on,
as many as each epoch counted, with features of the final table, which is frozen and has a weight for each of them. -/
structure Completes {α : Type} (iterations : Nat) (corpus : List (TrainingExample α)) (forests : List Forest)
    (r : TrainingReport α) (m : Perceptron α) : Prop where
  length_eq : r.progress.length = corpus.length
  tracks : Tracks .weightsUpdated 0 r.progress forests
  stored : r.forests = forests.length
  epochs : r.epochs.map EpochCount.epoch = List.range' 1 iterations
  totals : ∀ count ∈ r.epochs, count.total = r.forests
  below : ∀ f ∈ forests, f.Below m.table.size
  frozen : m.table.frozen = true
  weights : m.weights.size = m.table.size

section

variable {α : Type} [Scalar α]

/-- The forests of a corpus can be stored, also after rare features were dropped. -/
def Storable (t : Trainer α) (k : Compressor) (m : Perceptron α) (corpus : List (TrainingExample α)) : Prop :=
  ∀ records forests m', (t.harvest 0 corpus).run { m with table := m.table.thaw } = (.ok (records, forests), m') →
    ∀ f ∈ forests, ForestStore.Recordable k t.config.compression f ∧ (t.config.dropsFeatures = true →
      ForestStore.Recordable k t.config.compression (f.renumber (t.newNumbers m')))

variable {t : Trainer α} {k : Compressor} {d made : Disk} {corpus : List (TrainingExample α)} {m : Perceptron α}

/-- Before the epochs the forests of the corpus are in the store, with features of the table, and there are as many
weights as features. -/
theorem exists_prepare (hid : m.grammarId = t.grammar.id) (ht : m.table.Consistent) (hcorpus : corpus.length ≤ 2 ^ 32)
    (hk : k.Lossless t.config.compression) (hmade : (t.makeDirectories : Filing OnDisk Unit).run d = (.ok (), made))
    (hroom : t.Room made) (hstorable : t.Storable k m corpus) :
    ∃ records weights m' d' p forests, (t.prepare k corpus).Does m d (records, forests.length, weights) m' d' ∧
      records.length = corpus.length ∧ Tracks .forestBuilt 0 records forests ∧ weights.size = m'.table.size ∧
      m'.grammarId = m.grammarId ∧ m'.table.Consistent ∧ m'.table.frozen = true ∧ t.Room d' ∧
      d'.Leads t.storePath p ∧ ForestStore.Kept k t.config.compression d' p forests ∧
      (∀ f ∈ forests, ForestStore.Recordable k t.config.compression f) ∧
      ∀ f ∈ forests, f.Below m'.table.size ∧ f.Spanned := by
  obtain ⟨p, hp⟩ := hroom.store
  obtain ⟨q, hq⟩ := hroom.pruned
  have hthawed : FeatureTable.Consistent m.table.thaw := ⟨ht.keys, ht.counts, ht.symbols⟩
  obtain ⟨records, extracted, m₁, hharvest, honward, hlength, htracks, hextracted⟩ :=
    t.exists_harvest corpus (i := 0) (by omega) (m := { m with table := m.table.thaw }) hid hthawed
  have hrecords := hstorable _ _ _ hharvest
  -- the store is created and filled with the forests of the corpus, and then written again without rare features
  obtain ⟨d₁, hcreate, hrewrites₁, hkept₁⟩ := ForestStore.exists_create k t.config.compression hp
  obtain ⟨d₂, hextractFrom, hrewrites₂, hkept₂⟩ :=
    exists_extractFrom (hrewrites₁.leads hp) hharvest (fun f hf => (hrecords f hf).1) hkept₁
  have hextract : (t.extract k corpus).Does { m with table := m.table.thaw } made (records, extracted.length) m₁ d₂ :=
    (Training.does_filing hcreate _).bind hextractFrom
  have hrewritten := hrewrites₁.trans hrewrites₂
  obtain ⟨weights, forests, m₂, d₃, hprune, hrewrites₃, hkept₃, hid₂, ht₂, hweights, hsentences, hrecords', hforests⟩ :=
    exists_prune (hrewritten.leads hp) (hrewritten.leads hq) hk m.weights (honward.consistent hthawed) hextracted
      (fun f hf => (hrecords f hf).1) (fun hdrops f hf => (hrecords f hf).2 hdrops) hkept₂
  have hsame : extracted.length = forests.length := by
    simpa using (congrArg List.length hsentences).symm
  have hcheck : t.grammar.check m.grammarId = .ok () := if_pos hid
  refine ⟨records, weights, { m₂ with table := m₂.table.freeze }, d₃, p, forests, ?_, hlength,
    ⟨htracks.sentences, htracks.stages, hsentences.trans htracks.forests⟩, hweights, hid₂.trans honward.grammarId_eq,
    ⟨ht₂.keys, ht₂.counts, ht₂.symbols⟩, rfl, (hroom.of_rewrites hrewritten).of_rewrites hrewrites₃,
    hrewrites₃.leads (hrewritten.leads hp), hkept₃, hrecords', hforests⟩
  rw [← hsame]
  exact (Training.does_get m d).bind ((Training.does_check hcheck m d).bind ((Training.does_filing hmade m).bind
    ((Training.does_set m _ made).bind (hextract.bind (hprune.bind ((Training.does_modify _ m₂ d₃).bind
      (Training.does_pure _ _ d₃)))))))

variable [Written α] {g : Grammar} {parser : ParserConfig α} {config : TrainerConfig α}

theorem create_eq_ok (h : create g parser config = .ok t) :
    t.grammar = g ∧ t.parser = parser ∧ t.config = config ∧ config.iterations ≠ 0 := by
  obtain ⟨_, -, h⟩ := except_bind_eq_ok.mp h
  obtain ⟨_, hvalid, h⟩ := except_bind_eq_ok.mp h
  cases h
  refine ⟨rfl, rfl, rfl, fun hzero => ?_⟩
  rw [TrainerConfig.validate, if_pos hzero] at hvalid
  cases hvalid

/-- With valid settings training completes on every corpus, from every model of the grammar, if the files can be
written and every forest has a record. A sentence ends as unusable or with updated weights; in the latter case it has a
forest in the store, from which the forests are read back one by one in the order of the corpus. But there has to be
room for the counts of all epochs: too many of them are valid settings, and training stops before the first. -/
theorem train_completes (hcreate : create g parser config = .ok t) (hid : m.grammarId = g.id) (ht : m.table.Consistent)
    (hcorpus : corpus.length ≤ 2 ^ 32) (hk : k.Lossless config.compression)
    (hmade : (t.makeDirectories : Filing OnDisk Unit).run d = (.ok (), made)) (hroom : t.Room made)
    (hstorable : t.Storable k m corpus) :
    (hasRoom countBytes config.iterations = true → ∃ r m' d' forests,
      (t.train k corpus).Does m d r m' d' ∧ Completes config.iterations corpus forests r m' ∧
        r.forests = r.progress.countP (fun p => p.stage == .weightsUpdated) ∧ m'.grammarId = g.id ∧
        m'.table.Consistent ∧ ∃ file s, d'.read t.storePath = .contents file ∧
          ForestStore.ofBytes t.storePath file.data.toList = .ok s ∧ ForestStore.Gives k t.storePath s forests none) ∧
    (hasRoom countBytes config.iterations = false → ∃ m' d', (t.train k corpus).Fails m d .noRoom m' d') := by
  obtain ⟨rfl, rfl, rfl, hiterations⟩ := create_eq_ok hcreate
  obtain ⟨records, weights, m₁, d₁, p, forests, hprepare, hlength, hbuilt, hweights, hid₁, ht₁, hfrozen, hroom₁, hp,
    hkept, hrecords, hforests⟩ := exists_prepare hid ht hcorpus hk hmade hroom hstorable
  constructor
  · intro hcounts
    obtain ⟨learner, progress, counts, d₂, places, hepochs, hrewrites, hspared, hupdates, hlearner, hnumbers,
        htotals⟩ :=
      exists_epochs hroom₁ hp hk hcounts hiterations hrecords (fun f hf => (hforests f hf).2) hkept (.start weights)
        hweights hbuilt.ready
    obtain ⟨hprogress, hupdated⟩ := hbuilt.updates hupdates
    have hsize : learner.averaged.size = m₁.table.size := learner.size_averaged.trans hlearner
    have htrained : m₁.setWeights learner.averaged = .ok { m₁ with weights := learner.averaged } := if_pos hsize
    have hfile := hkept.of_rewrites hrewrites hspared
    refine ⟨⟨progress.toList, learner.weights, forests.length, m₁.table.size, counts⟩,
      { m₁ with weights := learner.averaged }, d₂, forests, ?_, ⟨hprogress.trans hlength, hupdated, rfl, hnumbers,
        htotals, fun f hf => (hforests f hf).1, hfrozen, hsize⟩, hupdated.length_eq, hid₁.trans hid, ht₁, _, _,
      Disk.read_eq (hrewrites.leads hp) hfile, ForestStore.ofBytes_header _ _, ForestStore.gives_records hk hrecords _⟩
    exact hprepare.bind ((Training.does_get m₁ d₁).bind ((Training.does_filing hepochs m₁).bind
      ((Training.does_get m₁ d₂).bind ((Training.does_check htrained m₁ d₂).bind ((Training.does_set m₁ _ d₂).bind
        (Training.does_pure _ _ d₂))))))
  · intro hcounts
    have hepochs : (t.epochs k m₁.table (.start weights) records.toArray : Filing OnDisk _).run d₁ =
        (.error .noRoom, d₁) := by
      simp only [epochs, exceptT_run_bind, ForestStore.run_openAt hp hkept, hcounts]
      rfl
    exact ⟨m₁, d₁, hprepare.bind_fails ((Training.does_get m₁ d₁).bind_fails
      (Training.fails_filing hepochs m₁).bind)⟩

end

end Trainer

namespace LoneWord

/-! Training on one word twice, the second time without a gold derivation. -/

open SwappedZeros CoarseChart

def gold : Derivation := .leaf ⟨0, 0⟩ (.word 0)

/-- The chart of the word with the tag of its gold category only. -/
def coarse (g : Grammar) : CoarseChart Double :=
  (empty g word one).addCell ⟨0, 1⟩ #[⟨0, ⟨0, 1⟩, .base, #[.lexical 0 0]⟩]

def site : Site := ⟨0, ⟨0, 1⟩, ⟨some 0, none⟩⟩

def item : FineItem Double := ⟨0, site, .minusZero, [⟨.lexical 0 0, .minusZero, .minusZero⟩], false⟩

def fine (g : Grammar) (roots : List (Root Double)) : FineChart Double :=
  ⟨coarse g, #[item], (∅ : Std.HashMap CoarseId (List FineId)).insert 0 [0], roots⟩

def symbols : Symbols := ⟨#["x", "X"], ((∅ : Std.HashMap String Nat).insert "x" 0).insert "X" 1⟩

def begun : FeatureTable where
  keys := #[.lexCat 0, .lexWord 0 0, .lexPos 0 1]
  index := (((∅ : Std.HashMap Feature Nat).insert (.lexCat 0) 0).insert (.lexWord 0 0) 1).insert (.lexPos 0 1) 2
  counts := #[1, 1, 1]
  symbols := symbols
  frozen := false

/-- The features of both steps, and how often each step was seen. -/
def learnt (n m : Nat) : FeatureTable where
  keys := #[.lexCat 0, .lexWord 0 0, .lexPos 0 1, .root 0, .rootWord 0 0]
  index := (begun.index.insert (.root 0) 3).insert (.rootWord 0 0) 4
  counts := #[n, n, n, m, m]
  symbols := symbols
  frozen := false

def knowing (g : Grammar) (table : FeatureTable) : Perceptron Double := ⟨g.id, table, #[]⟩

def forest : Forest :=
  ⟨0, [[⟨[], [0, 1, 2], true⟩]], [⟨0, [3, 4], true⟩], [(0, 1), (1, 1), (2, 1), (3, 1), (4, 1)]⟩

theorem lookup_empty (g : Grammar) (ctx : Context) (rule : Rule) (e : Expansion) :
    (knowing g .empty).lookup ctx rule e = [] := by
  simp [Perceptron.lookup, knowing, FeatureTable.get?, FeatureTable.empty]

theorem find_symbols : symbols.find .grow "x" = (some 0, symbols) ∧ symbols.find .grow "X" = (some 1, symbols) := by
  constructor <;> simp [Symbols.find, Symbols.intern, symbols, Std.HashMap.getElem_insert]

theorem within_withGold : ((Supertags.empty : Supertags Double).withGold gold).within 0 one = [⟨0, one⟩] := by
  have hgold : gold.leaves = [(⟨0, 0⟩, .word 0)] := rfl
  have hall : ((Supertags.empty : Supertags Double).withGold gold).all 0 = [⟨0, one⟩] := by
    rw [Supertags.withGold, Supertags.all_merge, hgold]
    simp [Supertags.ofWords, Supertags.sortTags, Supertags.addTag, Supertags.empty, Supertags.all, Supertags.best?]
    rfl
  have hbest : ((Supertags.empty : Supertags Double).withGold gold).best? 0 = some ⟨0, one⟩ := by
    rw [Supertags.best?, hall]
    rfl
  rw [Supertags.within, hall, hbest]
  rfl

section

variable {g : Grammar} (hrules : g.rules = rules.toArray)

include hrules

theorem lookupRule_eq : (⟨g, word⟩ : Context).lookupRule 0 = .ok ⟨0, .lexical, .lexical, 0, .terminal, 1⟩ ∧
    (⟨g, word⟩ : Context).lookupRule 2 = .ok ⟨2, .top, .top, 0, .unary 0, 1⟩ := by
  simp only [Context.lookupRule, Grammar.rule?, hrules]
  exact ⟨rfl, rfl⟩

theorem score_empty : (knowing g .empty).toModel.score ⟨g, word⟩ (.lexical 0 site) = .ok .minusZero ∧
    (knowing g .empty).toModel.score ⟨g, word⟩ (.top 2 site) = .ok .minusZero := by
  have hzero : Scalar.sum ([] : List Double) = .minusZero := rfl
  obtain ⟨hlexical, htop⟩ := lookupRule_eq hrules
  constructor <;> simp only [Perceptron.toModel, Expansion.check, Expansion.rule, hlexical, htop, bind, Except.bind,
    Perceptron.total, lookup_empty, List.map_nil, hzero] <;> rfl

theorem register_lexical (table table' : FeatureTable) (indices : List Nat)
    (hword : (table.symbols.find .grow "x").1 = some 0)
    (hpos : (table.symbols.find .grow "x").2.find .grow "X" = (some 1, symbols))
    (hall : FeatureTable.registerAll { table with symbols := symbols } [.lexCat 0, .lexWord 0 0, .lexPos 0 1] =
      (indices, table')) :
    (Registering.features ⟨g, word⟩ (.lexical 0 site)).run (knowing g table) = (.ok indices, knowing g table') := by
  have hkeys : ((Expansion.lexical 0 site).features .grow ⟨g, word⟩ ⟨0, .lexical, .lexical, 0, .terminal, 1⟩).run
      table.symbols = ([.lexCat 0, .lexWord 0 0, .lexPos 0 1], symbols) := by
    have hrun : ((Expansion.lexical 0 site).features .grow ⟨g, word⟩ ⟨0, .lexical, .lexical, 0, .terminal, 1⟩).run
        table.symbols = (.lexCat 0 :: ((table.symbols.find .grow "x").1.map (Feature.lexWord 0)).toList ++
          ((((table.symbols.find .grow "x").2.find .grow "X").1).map (Feature.lexPos 0)).toList,
            ((table.symbols.find .grow "x").2.find .grow "X").2) := rfl
    rw [hrun, hword, hpos]
    rfl
  have hregister : (knowing g table).register ⟨g, word⟩ (.lexical 0 site) = .ok (indices, knowing g table') := by
    simp only [Perceptron.register, Expansion.rule, (lookupRule_eq hrules).1, bind, Except.bind, knowing, hkeys, hall]
    rfl
  rw [Registering.run_features, hregister]

theorem register_top (table table' : FeatureTable) (indices : List Nat)
    (hword : table.symbols.find .grow "x" = (some 0, table.symbols))
    (hall : table.registerAll [.root 0, .rootWord 0 0] = (indices, table')) :
    (Registering.features ⟨g, word⟩ (.top 2 site)).run (knowing g table) = (.ok indices, knowing g table') := by
  have hkeys : ((Expansion.top 2 site).features .grow ⟨g, word⟩ ⟨2, .top, .top, 0, .unary 0, 1⟩).run table.symbols =
      ([.root 0, .rootWord 0 0], table.symbols) := by
    have hrun : ((Expansion.top 2 site).features .grow ⟨g, word⟩ ⟨2, .top, .top, 0, .unary 0, 1⟩).run table.symbols =
        (.root 0 :: ((table.symbols.find .grow "x").1.map (Feature.rootWord 0)).toList,
          (table.symbols.find .grow "x").2) := rfl
    rw [hrun, hword]
    rfl
  have hregister : (knowing g table).register ⟨g, word⟩ (.top 2 site) = .ok (indices, knowing g table') := by
    simp only [Perceptron.register, Expansion.rule, (lookupRule_eq hrules).2, bind, Except.bind, knowing, hkeys, hall]
    rfl
  rw [Registering.run_features, hregister]

variable (hg : g.Indexed)

include hg

theorem build_coarse : build g word ((Supertags.empty : Supertags Double).withGold gold) one 10 = .ok (coarse g) := by
  have hsteps : (empty g word one).lexicalSteps ((Supertags.empty : Supertags Double).withGold gold) 0 =
      [(0, .lexical 0 0)] := by
    have hgrammar : (empty g word one : CoarseChart Double).grammar = g := rfl
    have hbeta : (empty g word one : CoarseChart Double).beta = one := rfl
    simp [lexicalSteps, hgrammar, hbeta, within_withGold, lexicalRule?_eq hg hrules]
  refine build_word hg hrules hsteps (by decide) ?_
  have hwhole : (coarse g).itemsOver (coarse g).wholeSpan = [(0, ⟨0, ⟨0, 1⟩, .base, #[.lexical 0 0]⟩)] := rfl
  have hgrammar : (coarse g).grammar = g := rfl
  have hspans : (coarse g).spans = true := by
    simp [spans, hwhole, Grammar.isStart, hgrammar, topRule?_eq hg hrules]
  exact hspans

theorem build_fine : FineChart.build (coarse g) (knowing g .empty).toModel .all none =
    .ok (fine g [⟨0, 2, .minusZero, .minusZero⟩]) := by
  obtain ⟨hlexical, htop⟩ := score_empty hrules
  have hedges : (FineChart.unscored (coarse g)).edgesOf (knowing g .empty).toModel
      ⟨0, ⟨0, 1⟩, .base, #[.lexical 0 0]⟩ (.lexical 0 0) = [(site, ⟨.lexical 0 0, .minusZero, .minusZero⟩)] := by
    have hscore : (knowing g .empty).toModel.score (FineChart.unscored (coarse g)).context (.lexical 0 ⟨0, ⟨0, 1⟩,
        (knowing g .empty).toModel.refineLexical (FineChart.unscored (coarse g)).context 0 0⟩) = .ok .minusZero :=
      hlexical
    simp only [FineChart.edgesOf, FineChart.edge?, hscore]
    rfl
  have hfill : FineChart.fill (knowing g .empty).toModel .all none (FineChart.unscored (coarse g)) ⟨0, 1⟩ =
      fine g [] := by
    have hlevels : FineChart.levels ((FineChart.unscored (coarse g)).coarse.itemsOver ⟨0, 1⟩) =
        [(0, ⟨0, ⟨0, 1⟩, .base, #[.lexical 0 0]⟩)] := rfl
    simp only [FineChart.fill, hlevels, List.foldl_cons, List.foldl_nil, FineChart.expand, FineChart.refine,
      List.flatMap_cons, List.flatMap_nil, hedges]
    rfl
  have hroots : (fine g []).findRoots (knowing g .empty).toModel = [⟨0, 2, .minusZero, .minusZero⟩] := by
    have hlive : (fine g []).liveItems 0 = [(0, item)] := by
      simp [FineChart.liveItems, FineChart.liveOf, FineChart.item?, fine]
    have hroot : (fine g []).root? (knowing g .empty).toModel 2 0 item = some ⟨0, 2, .minusZero, .minusZero⟩ := by
      have hscore : (knowing g .empty).toModel.score (fine g []).context (.top 2 item.site) = .ok .minusZero := htop
      simp only [FineChart.root?, hscore]
      rfl
    have hwhole : (fine g []).coarse.itemsOver (fine g []).coarse.wholeSpan =
        [(0, ⟨0, ⟨0, 1⟩, .base, #[.lexical 0 0]⟩)] := rfl
    have hgrammar : (fine g []).coarse.grammar = g := rfl
    simp only [FineChart.findRoots, hwhole, hgrammar, hlive, (topRule?_eq hg hrules).1, List.flatMap_cons,
      List.flatMap_nil, List.filterMap_cons, List.filterMap_nil, hroot]
    rfl
  have hcheck : (coarse g).grammar.check (knowing g .empty).toModel.grammarId = .ok () := if_pos rfl
  have hspansOf : spansOf (coarse g).sentence.length = [⟨0, 1⟩] := rfl
  rw [FineChart.build, hcheck, hspansOf, List.foldl_cons, List.foldl_nil, hfill]
  change Except.ok { fine g [] with roots := (fine g []).findRoots (knowing g .empty).toModel } = _
  rw [hroots]
  rfl

theorem run_pack : (Forest.pack (fine g [⟨0, 2, .minusZero, .minusZero⟩]) 0 gold).run (knowing g .empty) =
    (.ok (some forest), knowing g (learnt 2 2)) := by
  have hexpansions : (knowing g .empty).refiner.expansions ⟨g, word⟩ gold =
      .ok [.lexical 0 site, .top 2 site] := by
    simp [gold, Refiner.expansions, Refiner.walk, Perceptron.refiner, (topRule?_eq hg hrules).1, bind, Except.bind,
      Span.word, site]
  -- the gold derivation registers all features, and the chart sees each of them once more
  have hfirst := register_lexical hrules .empty begun [0, 1, 2]
    (by simp [FeatureTable.empty, Symbols.find, Symbols.intern, Symbols.empty, Symbols.size])
    (by simp [FeatureTable.empty, Symbols.find, Symbols.intern, Symbols.empty, Symbols.size, symbols])
    (by simp [FeatureTable.registerAll, FeatureTable.register, FeatureTable.get?, begun, FeatureTable.bump,
      FeatureTable.insert, FeatureTable.empty, FeatureTable.size])
  have hsecond := register_top hrules begun (learnt 1 1) [3, 4] find_symbols.1
    (by simp [FeatureTable.registerAll, FeatureTable.register, FeatureTable.get?, begun, learnt, FeatureTable.bump,
      FeatureTable.insert, FeatureTable.size])
  have hthird := register_lexical hrules (learnt 1 1) (learnt 2 1) [0, 1, 2]
    (by simp [learnt, find_symbols]) (by simp [learnt, find_symbols])
    (by simp [FeatureTable.registerAll, FeatureTable.register, FeatureTable.get?, begun, learnt,
      Std.HashMap.getElem_insert, FeatureTable.bump])
  have hlast := register_top hrules (learnt 2 1) (learnt 2 2) [3, 4] find_symbols.1
    (by simp [FeatureTable.registerAll, FeatureTable.register, FeatureTable.get?, begun, learnt,
      Std.HashMap.getElem_insert, FeatureTable.bump])
  obtain ⟨f, hf⟩ : ∃ f, f = fine g [⟨0, 2, .minusZero, .minusZero⟩] := ⟨_, rfl⟩
  have hget : ∀ m : Perceptron Double, (get : Registering Double (Perceptron Double)).run m = (.ok m, m) := fun _ => rfl
  have hpure : ∀ {β : Type} (b : β) (m : Perceptron Double), (pure b : Registering Double β).run m = (.ok b, m) :=
    fun _ _ => rfl
  have hctx : f.context = ⟨g, word⟩ := by rw [hf]; rfl
  have hitems : f.items.toList = [item] := by rw [hf]; rfl
  have hroots : f.roots = [⟨0, 2, .minusZero, .minusZero⟩] := by rw [hf]; rfl
  have hsite : f.siteOf 0 = site := by rw [hf]; rfl
  have hitem : (Forest.packItem f gold.stepKeys #[] item).run (knowing g (learnt 1 1)) =
      (.ok #[[⟨[], [0, 1, 2], true⟩]], knowing g (learnt 2 1)) := by
    have hstep : f.expansionOf item.site (.lexical 0 0) = .lexical 0 site := rfl
    have hedges : item.edges = [⟨.lexical 0 0, .minusZero, .minusZero⟩] := rfl
    simp only [Forest.packItem, hedges, List.mapM_cons, List.mapM_nil, Forest.packEdge, exceptT_run_bind, hctx, hstep,
      hthird]
    rfl
  have hroot : (Forest.packRoot f gold #[[⟨[], [0, 1, 2], true⟩]] ⟨0, 2, .minusZero, .minusZero⟩).run
      (knowing g (learnt 2 1)) = (.ok ⟨0, [3, 4], true⟩, knowing g (learnt 2 2)) := by
    simp only [Forest.packRoot, exceptT_run_bind, hctx, hsite, hlast]
    rfl
  rw [← hf]
  simp only [Forest.pack, exceptT_run_bind, hctx, hget, hexpansions, Except.mapError, Registering.run_check rfl,
    List.mapM_cons, List.mapM_nil, hfirst, hsecond, hpure, hitems, hroots, List.foldlM_cons, List.foldlM_nil, hitem,
    hroot]
  rfl

end

def parser : ParserConfig Double := ⟨[one], 10, .best, none, 10, 1⟩

def config : TrainerConfig Double := ⟨"work", 2, one, 2, .none, some "checkpoints"⟩

def trainer (g : Grammar) : Trainer Double := ⟨g, parser, config⟩

def corpus : List (TrainingExample Double) := [⟨word, .empty, some gold⟩, ⟨word, .empty, none⟩]

theorem run_harvest {g : Grammar} (hrules : g.rules = rules.toArray) (hg : g.Indexed) :
    ((trainer g).harvest 0 corpus).run (knowing g .empty) =
      (.ok ([⟨0, .forestBuilt⟩, ⟨1, .unparseable⟩], [forest]), knowing g (learnt 2 2)) := by
  have hget : (get : Registering Double (Perceptron Double)).run (knowing g .empty) =
    (.ok (knowing g .empty), knowing g .empty) := rfl
  have hcoarse : parser.coarseChart g word ((Supertags.empty : Supertags Double).withGold gold) = .ok (coarse g) := by
    have hshort : ¬parser.maxLength < word.length := by decide
    have hbetas : parser.betas = [one] := rfl
    have hitems : parser.maxItems = 10 := rfl
    rw [ParserConfig.coarseChart, if_neg hshort, hbetas, hitems, ladderChart, build_coarse hrules hg]
  have hfirst : ((trainer g).extractOne ⟨word, .empty, some gold⟩ (.start 0)).run (knowing g .empty) =
      (.ok (⟨0, .featuresExtracted⟩, some forest), knowing g (learnt 2 2)) := by
    have hparser : (trainer g).parser = parser := rfl
    have hgrammar : (trainer g).grammar = g := rfl
    simp only [Trainer.extractOne, exceptT_run_bind, Progress.advance, Progress.start, Stage.canAdvance, if_true,
      Registering.run_check rfl, hparser, hgrammar, hcoarse, hget, Registering.run_check (build_fine hrules hg),
      Registering.attempt, exceptT_run_tryCatch, Nat.zero_mod, run_pack hrules hg]
    rfl
  have hsecond : ((trainer g).extractOne ⟨word, .empty, none⟩ (.start 1)).run (knowing g (learnt 2 2)) =
      (.ok (⟨1, .unparseable⟩, none), knowing g (learnt 2 2)) := rfl
  have hadvance : (⟨0, .featuresExtracted⟩ : Progress).advance .forestBuilt = .ok ⟨0, .forestBuilt⟩ := rfl
  simp only [corpus, Trainer.harvest, exceptT_run_bind, hfirst, hsecond, Registering.run_check hadvance]
  rfl

/-- The empty disk with a directory for forests, and then with one for checkpoints too. -/
def halfMade : Disk := ⟨Disk.empty.files, ["home", "work"] :: Disk.empty.directories, ""⟩

def made : Disk := ⟨Disk.empty.files, ["home", "checkpoints"] :: halfMade.directories, ""⟩

theorem room_made (g : Grammar) : (trainer g).Room made where
  store :=
    have hresolve : made.resolve (Files.within "work" "forests") = some ["home", "work", "forests"] := by decide
    ⟨_, hresolve, by decide, by decide⟩
  pruned :=
    have hresolve : made.resolve (Files.within "work" "forests.pruned") = some ["home", "work", "forests.pruned"] := by
      decide
    ⟨_, hresolve, by decide, by decide⟩
  checkpoints := by
    intro directory hdirectory epoch hfirst hlast
    obtain rfl : "checkpoints" = directory := Option.some.inj hdirectory
    have hlast : epoch ≤ 2 := hlast
    obtain rfl | rfl : epoch = 1 ∨ epoch = 2 := by omega
    · simp only [List.forall_mem_cons, List.not_mem_nil, false_implies, implies_true, and_true]
      exact ⟨⟨["home", "checkpoints", "model.1"], by decide, by decide, by decide⟩,
        ⟨["home", "checkpoints", "model.1.averaged"], by decide, by decide, by decide⟩⟩
    · simp only [List.forall_mem_cons, List.not_mem_nil, false_implies, implies_true, and_true]
      exact ⟨⟨["home", "checkpoints", "model.2"], by decide, by decide, by decide⟩,
        ⟨["home", "checkpoints", "model.2.averaged"], by decide, by decide, by decide⟩⟩

theorem run_makeDirectories (g : Grammar) :
    ((trainer g).makeDirectories : Filing OnDisk Unit).run .empty = (.ok (), made) := by
  have hwork : (Files.makeDirectory "work" : OnDisk Bool).run .empty = (true, halfMade) := by
    have hparts : (Disk.parts "work").filter (fun part => part ≠ "") = ["work"] := by decide
    have hpath : Disk.isPath "work" = true := by decide
    change Disk.empty.makeDirectory "work" = _
    simp only [Disk.makeDirectory, hparts, hpath]
    rfl
  have hcheckpoints : (Files.makeDirectory "checkpoints" : OnDisk Bool).run halfMade = (true, made) := by
    have hparts : (Disk.parts "checkpoints").filter (fun part => part ≠ "") = ["checkpoints"] := by decide
    have hpath : Disk.isPath "checkpoints" = true := by decide
    change halfMade.makeDirectory "checkpoints" = _
    simp only [Disk.makeDirectory, hparts, hpath]
    rfl
  have hfirst : (Filing.makeDirectory (trainer g).config.workDirectory : Filing OnDisk Unit).run .empty =
      (.ok (), halfMade) := Filing.run_require hwork
  rw [Trainer.makeDirectories, exceptT_run_bind, hfirst]
  exact Filing.run_require hcheckpoints

theorem recordable_forest : ForestStore.Recordable .raw .none forest where
  fits := by decide
  size := by decide +kernel

theorem train_completes_lone_word : ∃ g r m' d' forests, Trainer.create g parser config = .ok (trainer g) ∧
    ((trainer g).makeDirectories : Filing OnDisk Unit).run .empty = (.ok (), made) ∧ (trainer g).Room made ∧
    ((trainer g).harvest 0 corpus).run (.untrained g) =
      (.ok ([⟨0, .forestBuilt⟩, ⟨1, .unparseable⟩], [forest]), knowing g (learnt 2 2)) ∧
    (trainer g).Storable .raw (.untrained g) corpus ∧ hasRoom Trainer.countBytes config.iterations = true ∧
    ((trainer g).train .raw corpus).Does (.untrained g) .empty r m' d' ∧ Trainer.Completes 2 corpus forests r m' := by
  obtain ⟨g, hg, -, hrules⟩ := exists_grammar
  have hcreate : Trainer.create g parser config = .ok (trainer g) := rfl
  have hmade := run_makeDirectories g
  have hharvest := run_harvest hrules (Grammar.indexed_ofRules hg)
  have hstorable : (trainer g).Storable .raw (.untrained g) corpus := by
    intro records forests m' h
    cases hharvest.symm.trans h
    intro f hf
    obtain rfl := List.mem_singleton.mp hf
    exact ⟨recordable_forest, fun _ => recordable_forest⟩
  have hcorpus : corpus.length ≤ 2 ^ 32 := by decide
  obtain ⟨hcompletes, -⟩ := Trainer.train_completes hcreate (m := .untrained g) rfl FeatureTable.consistent_empty
    hcorpus (Compressor.lossless_none .raw) hmade (room_made g) hstorable
  obtain ⟨r, m', d', forests, hdoes, hall, -⟩ := hcompletes rfl
  exact ⟨g, r, m', d', forests, hcreate, hmade, room_made g, hharvest, hstorable, rfl, hdoes, hall⟩

end LoneWord

end Categorial
