import Categorial.Proofs.Forest.Stored
set_option autoImplicit false

/-!
The bytes of a record without compression. They are taken if they are the encoding of a forest, and then this is
the forest that is found; nothing else is taken, so that a forest has one encoding and an encoding one forest.
-/

namespace Categorial

namespace Forest

theorem write_injective {f f' : Forest} (hf : f.Fits) (hf' : f'.Fits) (h : wire.write f = wire.write f') : f = f' :=
  (exact_wire.write_inj hf hf' (congrArg (· ++ []) h)).1

/-- The bytes begin with the encoding of a forest. -/
def Leads (bytes : List UInt8) : Prop := ∃ f rest, f.Fits ∧ bytes = wire.write f ++ rest

theorem read_eq_none_iff {bytes : List UInt8} : wire.read bytes = none ↔ ¬ Leads bytes := by
  constructor
  · rintro hread ⟨f, rest, hf, rfl⟩
    rw [exact_wire.read_append hf rest] at hread
    cases hread
  · intro hnone
    cases hread : wire.read bytes with
    | none => rfl
    | some found => exact absurd ⟨found.1, found.2, (exact_wire bytes found.1 found.2).mp hread⟩ hnone

end Forest

namespace ForestStore

variable {k : Compressor} {path : String}

theorem forestOf_none_eq (bytes : List UInt8) : forestOf k path .none bytes =
    match Forest.wire.read bytes with
    | none => .error .undecodable
    | some (f, []) => .ok f
    | some _ => .error (.badContent path .recordRest) := by
  unfold forestOf
  rw [Compressor.unpack]
  rfl

theorem forestOf_write_append {f : Forest} (hf : f.Fits) (rest : List UInt8) :
    forestOf k path .none (Forest.wire.write f ++ rest) =
      if rest = [] then .ok f else .error (.badContent path .recordRest) := by
  rw [forestOf_none_eq, Forest.exact_wire.read_append hf rest]
  cases rest <;> rfl

theorem forestOf_of_not_leads {bytes : List UInt8} (h : ¬ Forest.Leads bytes) :
    forestOf k path .none bytes = .error .undecodable := by
  rw [forestOf_none_eq, Forest.read_eq_none_iff.mpr h]

theorem forestOf_ok_iff {bytes : List UInt8} {f : Forest} :
    forestOf k path .none bytes = .ok f ↔ f.Fits ∧ Forest.wire.write f = bytes := by
  constructor
  · intro h
    by_cases hleads : Forest.Leads bytes
    · obtain ⟨f', rest, hf', rfl⟩ := hleads
      rw [forestOf_write_append hf'] at h
      split at h
      · rename_i hrest
        cases h
        exact ⟨hf', by rw [hrest, List.append_nil]⟩
      · cases h
    · rw [forestOf_of_not_leads hleads] at h
      cases h
  · rintro ⟨hf, rfl⟩
    have h := @forestOf_write_append k path _ hf []
    rwa [List.append_nil, if_pos rfl] at h

/-- Decoding is the inverse of encoding, and encodings are all that is decoded: a payload is taken from a store
exactly if some forest has these bytes, and this forest is what is found and what is written with the same bytes
again. An encoding with more bytes behind it is refused, and so is all that does not begin with one. -/
theorem next_encoded (k : Compressor) (path : String) :
    (∀ payload f, forestOf k path .none payload = .ok f ↔ f.Fits ∧ Forest.wire.write f = payload) ∧
      (∀ payload, payload.length < 2 ^ 32 → ∀ contents rest f s,
        next k path ⟨.none, contents, Wire.word32.write payload.length ++ (payload ++ rest)⟩ = .ok (some (f, s)) ↔
          (f.Fits ∧ Forest.wire.write f = payload) ∧ s = ⟨.none, contents, rest⟩) ∧
      (∀ f f' : Forest, f.Fits → f'.Fits → Forest.wire.write f = Forest.wire.write f' → f = f') ∧
      (∀ payload f, payload.length < 2 ^ 32 → forestOf k path .none payload = .ok f →
        record k path .none f = .ok (Wire.word32.write payload.length ++ payload)) ∧
      (∀ f rest, f.Fits → rest ≠ [] →
        forestOf k path .none (Forest.wire.write f ++ rest) = .error (.badContent path .recordRest)) ∧
      ∀ payload, ¬ Forest.Leads payload → ∃ e, forestOf k path .none payload = .error e := by
  refine ⟨fun payload f => forestOf_ok_iff, fun payload hsize contents rest f s => ?_,
    fun f f' => Forest.write_injective, fun payload f hsize h => ?_, fun f rest hf hrest => ?_,
    fun payload hleads => ⟨_, forestOf_of_not_leads hleads⟩⟩
  · rw [next_record hsize, ← @forestOf_ok_iff k path]
    cases forestOf k path .none payload with
    | error e => simp [Except.map]
    | ok f' => simp [Except.map, eq_comm]
  · obtain ⟨-, rfl⟩ := forestOf_ok_iff.mp h
    exact if_pos hsize
  · rw [forestOf_write_append hf, if_neg hrest]

theorem next_encoded_sample : (sample 0).Fits ∧
    (Forest.wire.write (sample 0)).length < 2 ^ 32 ∧
    next .raw "forests" ⟨.none, [], Wire.word32.write (Forest.wire.write (sample 0)).length ++
      (Forest.wire.write (sample 0) ++ [7])⟩ = .ok (some (sample 0, ⟨.none, [], [7]⟩)) ∧
    forestOf .raw "forests" .none (Forest.wire.write (sample 0) ++ [7]) =
      .error (.badContent "forests" .recordRest) := by
  have hfits : (sample 0).Fits := by decide
  have hsize : (Forest.wire.write (sample 0)).length < 2 ^ 32 := by decide +kernel
  obtain ⟨-, htaken, -, -, hrest, -⟩ := next_encoded .raw "forests"
  exact ⟨hfits, hsize, (htaken _ hsize [] [7] _ _).mpr ⟨⟨hfits, rfl⟩, rfl⟩,
    hrest _ _ hfits (List.cons_ne_nil 7 [])⟩

/-- The flag of the first edge is neither 0 nor 1. -/
example : forestOf .raw "forests" .none ((Forest.wire.write (sample 0)).set 44 2) = .error .undecodable := by
  decide +kernel

end ForestStore

end Categorial
