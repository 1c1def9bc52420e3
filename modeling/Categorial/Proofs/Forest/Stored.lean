import Categorial.Forest.Codecs
import Categorial.Proofs.Except
import Categorial.Proofs.Wire
import Mathlib.Logic.Relation
set_option autoImplicit false

/-!
A store that is read again. With a compressor that loses nothing it gives the forests that were written, as
often as it is rewound; a file that was cut gives those whose records are whole, and is taken for a shorter
store only if the cut lies between two records.
-/

namespace Categorial

def Compressor.Lossless (k : Compressor) (c : Compression) : Prop :=
  ∀ bytes, k.unpack c (k.pack c bytes) = some bytes

theorem Compressor.lossless_none (k : Compressor) : k.Lossless .none := fun _ => rfl

namespace Zstd

theorem blockPayload_head {size : Nat} (hsize : size ≤ blockSize) (last : Bool) (rest : List UInt8) :
    blockPayload (blockHead last size ++ rest) =
      rest.take size ++ if last then [] else blockPayload (rest.drop size) := by
  rw [blockSize] at hsize
  obtain ⟨n, hn⟩ : ∃ n, n = 8 * size + if last then 1 else 0 := ⟨_, rfl⟩
  have hlast : n / 8 = size ∧ (n % 2 = 1 ↔ last = true) := by
    cases last <;> simp only [if_true, if_false, Bool.false_eq_true, iff_true, iff_false] at hn ⊢ <;> omega
  have hbytes : (UInt8.ofNat n).toNat + 256 * (UInt8.ofNat (n / 256)).toNat +
      65536 * (UInt8.ofNat (n / 256 / 256)).toNat = n := by
    simp only [UInt8.toNat_ofNat']
    cases last <;> simp only [if_true, if_false, Bool.false_eq_true] at hn <;> omega
  have hhead : blockHead last size ++ rest =
      UInt8.ofNat n :: UInt8.ofNat (n / 256) :: UInt8.ofNat (n / 256 / 256) :: rest := by
    rw [blockHead, ← hn]
    rfl
  rw [hhead, blockPayload]
  simp only [hbytes, hlast.1, hlast.2]

theorem blockPayload_blocks (bytes : List UInt8) : blockPayload (blocks bytes) = bytes := by
  rw [blocks]
  split
  · rename_i hshort
    rw [blockPayload_head hshort, if_pos rfl, List.append_nil, List.take_length]
  · rename_i hlong
    have htake : (bytes.take blockSize).length = blockSize := List.length_take_of_le (Nat.le_of_not_le hlong)
    rw [List.append_assoc, blockPayload_head (Nat.le_refl _), if_neg (by decide), List.take_left' htake,
      List.drop_left' htake, blockPayload_blocks, List.take_append_drop]
termination_by bytes.length
decreasing_by
  rw [List.length_drop, blockSize]
  omega

theorem lossless_raw (bytes : List UInt8) : raw.unpack (raw.pack bytes) = some bytes :=
  Codec.unpack_framing (fun bytes => by
    have hhead : (frameHead ++ Wire.word64.write bytes.length).length = 13 := by
      rw [List.length_append]
      exact congrArg (5 + ·) (Wire.length_writeWord 8 _)
    rw [frame, List.drop_left' hhead, blockPayload_blocks]) bytes

end Zstd

namespace Xz

theorem chunkPayload_head {size : Nat} (hpos : 0 < size) (hsize : size ≤ chunkSize) (first : Bool)
    (rest : List UInt8) :
    chunkPayload (chunkHead first size ++ rest) = rest.take size ++ chunkPayload (rest.drop size) := by
  rw [chunkSize] at hsize
  have hcontrol : (if first then 1 else 2 : UInt8) ≠ 0 := by cases first <;> decide
  have hbytes : 256 * (UInt8.ofNat ((size - 1) / 256)).toNat + (UInt8.ofNat (size - 1)).toNat + 1 = size := by
    simp only [UInt8.toNat_ofNat']
    omega
  rw [chunkHead, List.cons_append, List.cons_append, List.cons_append, List.nil_append, chunkPayload,
    if_neg hcontrol]
  simp only [hbytes]

theorem chunkPayload_end (rest : List UInt8) : chunkPayload (0 :: rest) = [] := by
  rw [chunkPayload.eq_def]
  split
  · rename_i heq
    cases heq
    rfl
  · rfl

theorem chunkPayload_chunks (first : Bool) (bytes rest : List UInt8) :
    chunkPayload (chunks first bytes ++ rest) = bytes := by
  rw [chunks]
  split
  · rename_i hnone
    rw [List.singleton_append, chunkPayload_end, List.length_eq_zero_iff.mp hnone]
  · rename_i hsome
    have htake : (bytes.take chunkSize).length = min chunkSize bytes.length := List.length_take
    have hpos : 0 < min chunkSize bytes.length := Nat.lt_min.mpr ⟨by decide, Nat.pos_of_ne_zero hsome⟩
    rw [List.append_assoc, List.append_assoc, chunkPayload_head hpos (Nat.min_le_left _ _), List.take_left' htake,
      List.drop_left' htake, chunkPayload_chunks, List.take_append_drop]
termination_by bytes.length
decreasing_by
  rw [List.length_drop, chunkSize]
  omega

theorem length_checksum (bytes : List UInt8) : (checksum bytes).length = 4 := Wire.length_writeWord 4 _

theorem lossless_raw (bytes : List UInt8) : raw.unpack (raw.pack bytes) = some bytes :=
  Codec.unpack_framing (fun bytes => by
    have hhead : (streamHead ++ blockHead).length = 24 := by
      simp only [streamHead, blockHead, sealed, List.length_append, length_checksum]
      rfl
    simp only [stream, padded, List.append_assoc]
    rw [← List.append_assoc streamHead, List.drop_left' hhead, chunkPayload_chunks]) bytes

end Xz

theorem Compressor.lossless_raw (c : Compression) : Compressor.raw.Lossless c := by
  cases c with
  | none => exact fun _ => rfl
  | zstd => exact Zstd.lossless_raw
  | xz => exact Xz.lossless_raw

/-- Numbers of 32 bits, as many as a word of 64 bits counts. -/
abbrev Words (xs : List Nat) : Prop := Wire.Counted (· < 2 ^ 32) xs

structure ForestEdge.Fits (e : ForestEdge) : Prop where
  children : Words e.children
  features : Words e.features

structure ForestRoot.Fits (r : ForestRoot) : Prop where
  node : r.node < 2 ^ 32
  features : Words r.features

/-- Every number of the forest has 32 bits. -/
structure Forest.Fits (f : Forest) : Prop where
  sentence : f.sentence < 2 ^ 32
  nodes : Wire.Counted (fun node => Wire.Counted ForestEdge.Fits node) f.nodes
  roots : Wire.Counted ForestRoot.Fits f.roots
  gold : Wire.Counted (fun entry => entry.1 < 2 ^ 32 ∧ entry.2 < 2 ^ 32) f.gold

namespace ForestEdge

theorem fits_iff (e : ForestEdge) : e.Fits ↔ Words e.children ∧ Words e.features :=
  ⟨fun h => ⟨h.children, h.features⟩, fun h => ⟨h.1, h.2⟩⟩

instance : DecidablePred ForestEdge.Fits := fun e => decidable_of_iff _ (fits_iff e).symm

theorem exact_wire : wire.Exact ForestEdge.Fits := by
  have hfields := Wire.exact_word32.list.both (Wire.exact_word32.list.both Wire.exact_flag)
  refine (hfields.mapped (fun _ => rfl) fun _ => rfl).congr fun e => ?_
  rw [fits_iff, and_true]

end ForestEdge

namespace ForestRoot

theorem fits_iff (r : ForestRoot) : r.Fits ↔ r.node < 2 ^ 32 ∧ Words r.features :=
  ⟨fun h => ⟨h.node, h.features⟩, fun h => ⟨h.1, h.2⟩⟩

instance : DecidablePred ForestRoot.Fits := fun r => decidable_of_iff _ (fits_iff r).symm

theorem exact_wire : wire.Exact ForestRoot.Fits := by
  have hfields := Wire.exact_word32.both (Wire.exact_word32.list.both Wire.exact_flag)
  refine (hfields.mapped (fun _ => rfl) fun _ => rfl).congr fun r => ?_
  rw [fits_iff, and_true]

end ForestRoot

namespace Forest

theorem fits_iff (f : Forest) : f.Fits ↔
    f.sentence < 2 ^ 32 ∧ Wire.Counted (fun node => Wire.Counted ForestEdge.Fits node) f.nodes ∧
      Wire.Counted ForestRoot.Fits f.roots ∧
        Wire.Counted (fun entry => entry.1 < 2 ^ 32 ∧ entry.2 < 2 ^ 32) f.gold :=
  ⟨fun h => ⟨h.sentence, h.nodes, h.roots, h.gold⟩, fun h => ⟨h.1, h.2.1, h.2.2.1, h.2.2.2⟩⟩

instance : DecidablePred Forest.Fits := fun f => decidable_of_iff _ (fits_iff f).symm

theorem exact_wire : wire.Exact Fits := by
  have hfields := Wire.exact_word32.both (ForestEdge.exact_wire.list.list.both
    (ForestRoot.exact_wire.list.both (Wire.exact_word32.both Wire.exact_word32).list))
  exact (hfields.mapped (fun _ => rfl) fun _ => rfl).congr fun f => (fits_iff f).symm

end Forest

namespace ForestStore

/-- The forests that are read one after the other, and the fault that ends them; without one they end at the
end of the store. -/
inductive Gives (k : Compressor) (path : String) : ForestStore → List Forest → Option Error → Prop where
  | finish {s : ForestStore} : s.next k path = .ok none → Gives k path s [] none
  | fail {s : ForestStore} {e : Error} : s.next k path = .error e → Gives k path s [] (some e)
  | next {s s' : ForestStore} {f : Forest} {fs : List Forest} {fault : Option Error} :
      s.next k path = .ok (some (f, s')) → Gives k path s' fs fault → Gives k path s (f :: fs) fault

/-- What a reader does with a store: it reads on, or it goes back to the first forest. -/
inductive Move (k : Compressor) (path : String) : ForestStore → ForestStore → Prop where
  | next {s s' : ForestStore} {f : Forest} : s.next k path = .ok (some (f, s')) → Move k path s s'
  | reset (s : ForestStore) : Move k path s s.reset

variable {k : Compressor} {path : String} {c : Compression}

theorem reset_of_next {s s' : ForestStore} {f : Forest} (h : s.next k path = .ok (some (f, s'))) :
    s'.reset = s.reset := by
  obtain ⟨part, -, hpart⟩ := except_bind_eq_ok.mp h
  cases part with
  | none => cases hpart
  | some part =>
    obtain ⟨f', -, hs⟩ := except_bind_eq_ok.mp hpart
    cases hs
    rfl

theorem reset_of_moves {s s' : ForestStore} (h : Relation.ReflTransGen (Move k path) s s') :
    s'.reset = s.reset := by
  induction h with
  | refl => rfl
  | tail _ hmove ih =>
    cases hmove with
    | next hnext => exact (reset_of_next hnext).trans ih
    | reset => exact ih

def framed (k : Compressor) (c : Compression) (f : Forest) : List UInt8 :=
  let bytes := k.pack c (Forest.wire.write f)
  Wire.word32.write bytes.length ++ bytes

theorem length_framed (f : Forest) :
    (framed k c f).length = 4 + (k.pack c (Forest.wire.write f)).length := by
  have hword : (Wire.word32.write (k.pack c (Forest.wire.write f)).length).length = 4 :=
    Wire.length_writeWord 4 _
  rw [framed, List.length_append, hword]

def records (k : Compressor) (c : Compression) (forests : List Forest) : List UInt8 :=
  forests.flatMap (framed k c)

/-- Where a record begins in the file; the one after the last begins at the end. -/
def recordStart (k : Compressor) (c : Compression) (forests : List Forest) (i : Nat) : Nat :=
  (header c).length + (records k c (forests.take i)).length

/-- The forest has a record, and it is read back from it. -/
structure Recordable (k : Compressor) (c : Compression) (f : Forest) : Prop where
  fits : f.Fits
  size : (k.pack c (Forest.wire.write f)).length < 2 ^ 32

@[simp] theorem records_nil : records k c [] = [] := rfl

@[simp] theorem records_cons (f : Forest) (forests : List Forest) :
    records k c (f :: forests) = framed k c f ++ records k c forests := List.flatMap_cons

theorem write_eq_ok {forests : List Forest} (h : ∀ f ∈ forests, Recordable k c f) :
    write k path c forests = .ok (header c ++ records k c forests) := by
  have hrecords : forests.mapM (record k path c) = .ok (forests.map (framed k c)) :=
    mapM_eq_ok fun f hf => if_pos (h f hf).size
  rw [write, hrecords, records, List.flatMap_def]
  rfl

theorem length_header (c : Compression) : (header c).length = magic.length + 2 := by
  rw [header, List.length_append]
  rfl

theorem ofBytes_header (c : Compression) (contents : List UInt8) :
    ofBytes path (header c ++ contents) = .ok ⟨c, contents, contents⟩ := by
  have hlength : ¬ (header c ++ contents).length < magic.length := by
    rw [List.length_append, length_header]
    omega
  have htake : (header c ++ contents).take magic.length = magic := by
    rw [header, List.append_assoc, List.take_left]
  have hdrop : (header c ++ contents).drop magic.length = version :: c.tag :: contents := by
    rw [header, List.append_assoc, List.drop_left]
    rfl
  rw [ofBytes, if_neg hlength, if_neg (not_not.mpr htake), hdrop]
  simp only [ne_eq, not_true_eq_false, if_false, Compression.ofTag?_tag]

theorem ofBytes_cut_header {n : Nat} (contents : List UInt8) (h : n < (header c).length) :
    ofBytes path ((header c ++ contents).take n) = .error .unreadable := by
  have hlength : ((header c ++ contents).take n).length = n := by
    rw [List.length_take, List.length_append]
    omega
  rw [length_header] at h
  rw [ofBytes, hlength]
  rcases Nat.lt_or_ge n magic.length with hn | hn
  · rw [if_pos hn]
  · have htake : ((header c ++ contents).take n).take magic.length = magic := by
      rw [List.take_take, Nat.min_eq_left hn, header, List.append_assoc, List.take_left]
    have hrest : ((header c ++ contents).take n).drop magic.length =
        (version :: c.tag :: contents).take (n - magic.length) := by
      rw [List.drop_take, header, List.append_assoc, List.drop_left]
      rfl
    rw [if_neg (Nat.not_lt.mpr hn), if_neg (not_not.mpr htake), hrest]
    -- at most the version is left behind the name of the format
    obtain h0 | h1 : n - magic.length = 0 ∨ n - magic.length = 1 := by omega
    · rw [h0]
      rfl
    · rw [h1]
      rfl

theorem nextRecord_word32 {n : Nat} (hn : n < 2 ^ 32) (bytes : List UInt8) :
    nextRecord path (Wire.word32.write n ++ bytes) =
      if bytes.length < n then .error (.badContent path .recordBody)
      else .ok (some (bytes.take n, bytes.drop n)) := by
  have hread : Wire.word32.read (Wire.word32.write n ++ bytes) = some (n, bytes) :=
    Wire.exact_word32.read_append hn bytes
  have hne : Wire.word32.write n ++ bytes ≠ [] := by
    simp [Wire.word32, Wire.word, Wire.writeWord]
  rw [nextRecord]
  · rw [hread]
  · exact hne

theorem next_record {payload : List UInt8} (hsize : payload.length < 2 ^ 32) (contents rest : List UInt8) :
    ForestStore.next k path ⟨c, contents, Wire.word32.write payload.length ++ (payload ++ rest)⟩ =
      (forestOf k path c payload).map fun f => some (f, ⟨c, contents, rest⟩) := by
  have hrecord : nextRecord path (Wire.word32.write payload.length ++ (payload ++ rest)) =
      .ok (some (payload, rest)) := by
    rw [nextRecord_word32 hsize, if_neg (by simp), List.take_left, List.drop_left]
  rw [ForestStore.next, hrecord]
  cases hforest : forestOf k path c payload <;> simp [bind, Except.bind, hforest, Except.map]

theorem next_framed {f : Forest} (hk : k.Lossless c) (hf : Recordable k c f) (contents rest : List UInt8) :
    ForestStore.next k path ⟨c, contents, framed k c f ++ rest⟩ = .ok (some (f, ⟨c, contents, rest⟩)) := by
  have hread : Forest.wire.read (Forest.wire.write f) = some (f, []) := by
    have hexact := Forest.exact_wire.read_append hf.fits []
    rwa [List.append_nil] at hexact
  have hforest : forestOf k path c (k.pack c (Forest.wire.write f)) = .ok f := by
    refine except_bind_eq_ok.mpr ⟨Forest.wire.write f, elim_error_eq_ok.mpr (hk _), ?_⟩
    simp only [hread, except_pure]
  rw [framed, List.append_assoc, next_record hf.size, hforest]
  rfl

theorem next_cut {f : Forest} (hf : (k.pack c (Forest.wire.write f)).length < 2 ^ 32)
    (contents : List UInt8) {n : Nat} (hpos : 0 < n) (hn : n < (framed k c f).length) :
    ∃ cause, ForestStore.next k path ⟨c, contents, (framed k c f).take n⟩ =
      .error (.badContent path cause) := by
  obtain ⟨bytes, hbytes⟩ : ∃ bytes, bytes = k.pack c (Forest.wire.write f) := ⟨_, rfl⟩
  have hframed : framed k c f = Wire.word32.write bytes.length ++ bytes := by rw [framed, hbytes]
  have hlength : ((framed k c f).take n).length = n := List.length_take_of_le (Nat.le_of_lt hn)
  rw [length_framed, ← hbytes] at hn
  rw [← hbytes] at hf
  have hfault : ∃ cause, nextRecord path ((framed k c f).take n) = .error (.badContent path cause) := by
    rcases Nat.lt_or_ge n 4 with h4 | h4
    · have hread : Wire.word32.read ((framed k c f).take n) = none :=
        Wire.readWord_of_length_lt (by rwa [hlength])
      have hne : (framed k c f).take n ≠ [] := List.ne_nil_of_length_pos (by rwa [hlength])
      refine ⟨.recordHeader ((framed k c f).take n).length, ?_⟩
      rw [nextRecord]
      · rw [hread]
      · exact hne
    · have hword : (Wire.word32.write bytes.length).length = 4 := Wire.length_writeWord 4 _
      have htake : (framed k c f).take n = Wire.word32.write bytes.length ++ bytes.take (n - 4) := by
        rw [hframed, List.take_append, hword, List.take_of_length_le (by omega)]
      have hshort : (bytes.take (n - 4)).length < bytes.length := by
        rw [List.length_take]
        omega
      exact ⟨.recordBody, by rw [htake, nextRecord_word32 hf, if_pos hshort]⟩
  obtain ⟨cause, hcause⟩ := hfault
  exact ⟨cause, except_bind_eq_error.mpr (.inl hcause)⟩

theorem gives_records {forests : List Forest} (hk : k.Lossless c) (h : ∀ f ∈ forests, Recordable k c f)
    (contents : List UInt8) : Gives k path ⟨c, contents, records k c forests⟩ forests none := by
  induction forests with
  | nil => exact .finish rfl
  | cons f forests ih =>
    rw [records_cons]
    exact .next (next_framed hk (h f (by simp)) _ _) (ih fun g hg => h g (by simp [hg]))

theorem readUpTo_records {forests : List Forest} (hk : k.Lossless c) (h : ∀ f ∈ forests, Recordable k c f)
    (contents : List UInt8) : ∀ {fuel : Nat}, forests.length < fuel →
      readUpTo k path fuel ⟨c, contents, records k c forests⟩ = (forests, none) := by
  induction forests with
  | nil =>
    intro fuel hfuel
    obtain ⟨fuel, rfl⟩ := Nat.exists_eq_succ_of_ne_zero (Nat.ne_zero_of_lt hfuel)
    rfl
  | cons f forests ih =>
    intro fuel hfuel
    obtain ⟨fuel, rfl⟩ := Nat.exists_eq_succ_of_ne_zero (Nat.ne_zero_of_lt hfuel)
    have hrest := ih (fun g hg => h g (List.mem_cons_of_mem _ hg)) (Nat.lt_of_succ_lt_succ hfuel)
    simp only [records_cons, readUpTo, next_framed hk (h f List.mem_cons_self), hrest]

theorem length_le_records (forests : List Forest) : forests.length ≤ (records k c forests).length := by
  induction forests with
  | nil => exact Nat.le_refl 0
  | cons f forests ih =>
    rw [records_cons, List.length_append, length_framed, List.length_cons]
    omega

theorem rest_records {forests : List Forest} (hk : k.Lossless c) (h : ∀ f ∈ forests, Recordable k c f)
    (contents : List UInt8) : ForestStore.rest k path ⟨c, contents, records k c forests⟩ = (forests, none) :=
  readUpTo_records hk h contents (Nat.lt_succ_of_le (length_le_records forests))

/-- Of records that are cut after `n` bytes the whole ones are read, and then an error unless the cut lies
between two of them. -/
theorem gives_cut {forests : List Forest} (hk : k.Lossless c) (h : ∀ f ∈ forests, Recordable k c f)
    (contents : List UInt8) {n : Nat} (hn : n < (records k c forests).length) :
    ∃ m < forests.length, (records k c (forests.take m)).length ≤ n ∧
      n < (records k c (forests.take (m + 1))).length ∧
      (n = (records k c (forests.take m)).length →
        Gives k path ⟨c, contents, (records k c forests).take n⟩ (forests.take m) none) ∧
      (n ≠ (records k c (forests.take m)).length →
        ∃ cause, Gives k path ⟨c, contents, (records k c forests).take n⟩ (forests.take m)
          (some (.badContent path cause))) := by
  induction forests generalizing n with
  | nil => exact absurd hn (Nat.not_lt_zero n)
  | cons f forests ih =>
    rw [records_cons, List.length_append] at hn
    rw [records_cons]
    rcases Nat.lt_or_ge n (framed k c f).length with hf | hf
    · rw [List.take_append_of_le_length (Nat.le_of_lt hf)]
      refine ⟨0, by simp, by simp, by simpa using hf, fun h0 => ?_, fun h0 => ?_⟩
      · obtain rfl : n = 0 := by simpa using h0
        exact .finish rfl
      · have hpos : 0 < n := Nat.pos_of_ne_zero (by simpa using h0)
        obtain ⟨cause, hcause⟩ := @next_cut _ path _ _ (h f (by simp)).size contents _ hpos hf
        exact ⟨cause, .fail hcause⟩
    · obtain ⟨i, rfl⟩ := Nat.exists_eq_add_of_le hf
      obtain ⟨m, hm, hfrom, hto, hend, hfault⟩ := ih (fun g hg => h g (by simp [hg])) (n := i) (by omega)
      have hnext := @next_framed _ path _ _ hk (h f (by simp)) contents ((records k c forests).take i)
      rw [List.take_append, List.take_of_length_le hf, Nat.add_sub_cancel_left]
      simp only [List.take_succ_cons, records_cons, List.length_append]
      refine ⟨m + 1, Nat.succ_lt_succ hm, ?_, ?_, fun he => ?_, fun he => ?_⟩
      · simpa using hfrom
      · simpa using hto
      · exact .next hnext (hend (by simpa using he))
      · obtain ⟨cause, hcause⟩ := hfault (by simpa using he)
        exact ⟨cause, .next hnext hcause⟩

/-- What was written is read back, from the first opening on and after every return to the first forest. A
cut in the header leaves no store; behind it the whole records are read, then the end if the cut lies at the
beginning of a record, and an error about the contents if not. -/
theorem write_reopened (hk : k.Lossless c) (forests : List Forest) (h : ∀ f ∈ forests, Recordable k c f) :
    ∃ file s, write k path c forests = .ok file ∧ ofBytes path file = .ok s ∧ s.compression = c ∧
      Gives k path s forests none ∧
      (∀ s', Relation.ReflTransGen (Move k path) s s' → Gives k path s'.reset forests none) ∧
      (∀ n < (header c).length, ∃ e, ofBytes path (file.take n) = .error e) ∧
      ∀ n, (header c).length ≤ n → n < file.length →
        ∃ cut m, ofBytes path (file.take n) = .ok cut ∧ m < forests.length ∧
          recordStart k c forests m ≤ n ∧ n < recordStart k c forests (m + 1) ∧
          (n = recordStart k c forests m → Gives k path cut (forests.take m) none) ∧
          (n ≠ recordStart k c forests m →
            ∃ cause, Gives k path cut (forests.take m) (some (.badContent path cause))) := by
  have hgives : Gives k path ⟨c, records k c forests, records k c forests⟩ forests none :=
    gives_records hk h _
  refine ⟨_, _, write_eq_ok h, ofBytes_header c _, rfl, hgives, fun s' hs' => ?_,
    fun n hn => ⟨_, ofBytes_cut_header _ hn⟩, fun n hheader hn => ?_⟩
  · rw [reset_of_moves hs']
    exact hgives
  · obtain ⟨i, rfl⟩ := Nat.exists_eq_add_of_le hheader
    rw [List.length_append] at hn
    have hopen : ofBytes path ((header c ++ records k c forests).take ((header c).length + i)) =
        .ok ⟨c, (records k c forests).take i, (records k c forests).take i⟩ := by
      rw [List.take_append, List.take_of_length_le (by omega), Nat.add_sub_cancel_left]
      exact ofBytes_header c _
    obtain ⟨m, hm, hfrom, hto, hend, hfault⟩ :=
      @gives_cut _ path _ _ hk h ((records k c forests).take i) i (by omega)
    refine ⟨_, m, hopen, hm, ?_, ?_, fun he => hend ?_, fun he => hfault ?_⟩
    · exact Nat.add_le_add_left hfrom _
    · exact Nat.add_lt_add_left hto _
    · exact Nat.add_left_cancel he
    · exact fun hi => he (congrArg _ hi)

/-- A word under a unary step, with its gold derivation. -/
def sample (sentence : Nat) : Forest where
  sentence := sentence
  nodes := [[⟨[], [0, 3], true⟩], [⟨[0], [1], false⟩]]
  roots := [⟨1, [2], false⟩]
  gold := [(0, 1), (3, 1)]

theorem write_reopened_sample :
    Compressor.raw.Lossless .none ∧ (∀ f ∈ [sample 0, sample 1], Recordable .raw .none f) ∧
      ∃ file cut cause, write .raw "forests" .none [sample 0, sample 1] = .ok file ∧
        ofBytes "forests" (file.take (recordStart .raw .none [sample 0, sample 1] 1 + 2)) = .ok cut ∧
        Gives .raw "forests" cut [sample 0] (some (.badContent "forests" cause)) := by
  have hrecords : ∀ f ∈ [sample 0, sample 1], Recordable .raw .none f := by
    simp only [List.forall_mem_cons, List.not_mem_nil, false_implies, implies_true, and_true]
    exact ⟨⟨by decide, by decide +kernel⟩, ⟨by decide, by decide +kernel⟩⟩
  obtain ⟨file, _, hwrite, -, -, -, -, -, hcut⟩ :=
    @write_reopened _ "forests" _ (Compressor.lossless_none .raw) [sample 0, sample 1] hrecords
  have hfile : file = header .none ++ records .raw .none [sample 0, sample 1] :=
    Except.ok.inj (hwrite.symm.trans (write_eq_ok hrecords))
  have hlength : recordStart .raw .none [sample 0, sample 1] 1 + 2 < file.length := by
    simp only [hfile, recordStart, List.take_succ_cons, List.take_zero, records_cons, records_nil,
      List.length_append, length_framed]
    omega
  obtain ⟨cut, m, hopen, hm, -, hto, -, hfault⟩ :=
    hcut (recordStart .raw .none [sample 0, sample 1] 1 + 2)
      (Nat.le_add_right_of_le (Nat.le_add_right _ _)) hlength
  have hsecond : m = 1 := by
    have hm : m < 2 := hm
    have hfirst : m ≠ 0 := by
      rintro rfl
      exact absurd hto (Nat.not_lt.mpr (Nat.le_add_right _ 2))
    omega
  subst hsecond
  obtain ⟨cause, hgives⟩ := hfault (by omega)
  exact ⟨Compressor.lossless_none .raw, hrecords, file, cut, cause, hwrite, hopen, hgives⟩

end ForestStore

end Categorial
