import Categorial.Files
import Categorial.Proofs.Except
import Categorial.Proofs.Text.Records
set_option autoImplicit false

namespace Categorial

namespace Disk

variable {d d' d'' : Disk} {path source target : String} {p q : Path} {bytes contents : ByteArray}

/-- The path leads to a place for a file, where what is written stays. -/
structure Leads (d : Disk) (path : String) (p : Path) : Prop where
  resolve : d.resolve path = some p
  isDirectory : d.isDirectory p = false
  ne_sink : p ≠ sink

/-- The disk with other contents at the place, and perhaps nothing any more at the others. -/
structure Rewrites (d : Disk) (places : List Path) (d' : Disk) : Prop where
  directories : d'.directories = d.directories
  lookup : ∀ q ∉ places, d'.files.lookup q = d.files.lookup q

namespace Rewrites

variable {places : List Path}

theorem refl (d : Disk) (places : List Path) : d.Rewrites places d := ⟨rfl, fun _ _ => rfl⟩

theorem trans (h : d.Rewrites places d') (h' : d'.Rewrites places d'') : d.Rewrites places d'' :=
  ⟨h'.directories.trans h.directories, fun q hq => (h'.lookup q hq).trans (h.lookup q hq)⟩

theorem mono {more : List Path} (h : d.Rewrites places d') (hmore : places ⊆ more) : d.Rewrites more d' :=
  ⟨h.directories, fun q hq => h.lookup q fun hmem => hq (hmore hmem)⟩

theorem follow_eq (h : d.Rewrites places d') (parts : List String) : ∀ p, d'.follow p parts = d.follow p parts := by
  induction parts with
  | nil => exact fun _ => rfl
  | cons part rest ih =>
    intro p
    have hdirectory : d'.isDirectory p = d.isDirectory p := by rw [isDirectory, isDirectory, h.directories]
    rw [follow, follow, hdirectory, ih]

/-- Paths lead where they led. -/
theorem leads (h : d.Rewrites places d') (hp : d.Leads path p) : d'.Leads path p where
  resolve := by
    rw [resolve, h.follow_eq]
    exact hp.resolve
  isDirectory := by
    rw [isDirectory, h.directories]
    exact hp.isDirectory
  ne_sink := hp.ne_sink

end Rewrites

theorem lookup_cons (files : List (Path × ByteArray)) (p q : Path) :
    ((p, contents) :: files).lookup q = if q = p then some contents else files.lookup q := by
  rw [List.lookup_cons]
  by_cases hq : q = p
  · rw [beq_iff_eq.mpr hq, if_pos hq]
  · rw [beq_eq_false_iff_ne.mpr hq, if_neg hq]

theorem lookup_remove (d : Disk) (p q : Path) :
    (d.remove p).files.lookup q = if q = p then none else d.files.lookup q := by
  obtain ⟨files, _, _⟩ := d
  rw [remove]
  induction files with
  | nil => simp
  | cons entry files ih =>
    obtain ⟨r, bytes⟩ := entry
    by_cases hr : r = p
    · subst hr
      rw [List.filter_cons_of_neg (by simp), ih, lookup_cons]
      split <;> rfl
    · rw [List.filter_cons_of_pos (by simpa using hr), lookup_cons, lookup_cons, ih]
      by_cases hq : q = r
      · simp [hq, hr]
      · simp [hq]

theorem lookup_put (hp : p ≠ sink) (q : Path) :
    (d.put p contents).files.lookup q = if q = p then some contents else d.files.lookup q := by
  rw [put, if_neg hp, lookup_cons, lookup_remove]
  by_cases hq : q = p <;> simp [hq]

theorem directories_put : (d.put p contents).directories = d.directories := by
  rw [put]
  split <;> rfl

theorem rewrites_put (hp : p ≠ sink) : d.Rewrites [p] (d.put p contents) where
  directories := directories_put
  lookup q hq := by rw [lookup_put hp, if_neg (by simpa using hq)]

theorem lookup_put_self (hp : p ≠ sink) : (d.put p contents).files.lookup p = some contents := by
  rw [lookup_put hp, if_pos rfl]

theorem write_eq (hp : d.Leads path p) : d.write path contents = (true, d.put p contents) := by
  rw [write, hp.resolve]
  exact if_neg (by simp [hp.isDirectory])

theorem readAt_eq (h : d.files.lookup p = some bytes) : d.readAt p = .contents bytes := by
  rw [readAt, h]

theorem read_eq (hp : d.Leads path p) (h : d.files.lookup p = some bytes) : d.read path = .contents bytes := by
  rw [read, hp.resolve]
  exact readAt_eq h

theorem append_eq (hp : d.Leads path p) (h : d.files.lookup p = some bytes) :
    d.append path contents = (true, d.put p (bytes ++ contents)) := by
  rw [append, hp.resolve]
  simp only [readAt_eq h]

theorem move_eq (hp : d.Leads source p) (hq : d.Leads target q) (h : d.files.lookup p = some bytes) :
    d.move source target = (true, (d.remove p).put q bytes) := by
  rw [move, hp.resolve, hq.resolve]
  simp only [readAt_eq h]
  exact if_neg (by simp [hq.isDirectory])

/-- The last step of the way to a place is its name. -/
theorem follow_append {part : String} (before : List String) : ∀ {p q : Path},
    d.follow p (before ++ [part]) = some q → ∃ above, q = step above part := by
  induction before with
  | nil =>
    intro p q h
    rw [List.nil_append, follow] at h
    split at h
    · exact ⟨p, (Option.some.inj h).symm⟩
    · cases h
  | cons first before ih =>
    intro p q h
    rw [List.cons_append, follow] at h
    split at h
    · exact ih h
    · cases h

/-- A name for a file: no path, and not hidden. -/
structure FileName (name : String) : Prop where
  noSlash : '/' ∉ name.toList
  head : ∃ c ∈ name.toList.head?, c ≠ '.'

theorem FileName.step_eq {name : String} (h : FileName name) (above : Path) : step above name = above ++ [name] := by
  obtain ⟨c, hc, hdot⟩ := h.head
  have hother : ∀ other : String, (∀ d ∈ other.toList.head?, d = '.') → name ≠ other := by
    rintro other hother rfl
    exact hdot (hother c hc)
  have hempty : name ≠ "" := hother "" (by simp)
  have hsame : name ≠ "." := hother "." (by simp)
  have hup : name ≠ ".." := hother ".." (by simp)
  rw [step, if_neg (by simp [hempty, hsame]), if_neg hup]

theorem FileName.getLast?_parts {name : String} (h : FileName name) (directory : String) :
    ∃ before, parts (Files.within directory name) = before ++ [name] := by
  have hlast : ∀ s : List Char, (Text.splitOn '/' (s ++ '/' :: name.toList)).map String.ofList =
      (Text.splitOn '/' s).map String.ofList ++ [name] := fun s => by
    rw [Text.splitOn_append_of_not_mem h.noSlash, List.map_append, List.map_singleton, String.ofList_toList]
  rw [parts, Files.within]
  split
  · rename_i hnone
    have hdirectory : directory.toList = [] := List.getLast?_eq_none_iff.mp hnone
    refine ⟨[], ?_⟩
    rw [String.toList_append, hdirectory, List.nil_append, Text.splitOn_of_not_mem h.noSlash, List.map_singleton,
      String.ofList_toList, List.nil_append]
  · rename_i hslash
    obtain ⟨before, hbefore⟩ := List.getLast?_eq_some_iff.mp hslash
    refine ⟨(Text.splitOn '/' before).map String.ofList, ?_⟩
    rw [String.toList_append, hbefore, List.append_assoc, List.singleton_append]
    exact hlast before
  · refine ⟨(Text.splitOn '/' directory.toList).map String.ofList, ?_⟩
    rw [String.toList_append, String.toList_append, List.append_assoc]
    exact hlast directory.toList

/-- A file is at a place that ends in its name. -/
theorem Leads.getLast?_eq {directory name : String} (hname : FileName name)
    (h : d.Leads (Files.within directory name) p) : p.getLast? = some name := by
  obtain ⟨before, hparts⟩ := hname.getLast?_parts directory
  have hresolve := h.resolve
  rw [Disk.resolve] at hresolve
  split at hresolve
  · rw [hparts] at hresolve
    obtain ⟨above, rfl⟩ := follow_append before hresolve
    rw [hname.step_eq, List.getLast?_concat]
  · cases hresolve

end Disk

namespace Filing

variable {d : Disk} {path source target : String} {p q : Path} {bytes contents : ByteArray}

theorem run_check {β : Type} {x : Except Error β} {b : β} (h : x = .ok b) (d : Disk) :
    (check x : Filing OnDisk β).run d = (.ok b, d) := by
  rw [h]
  rfl

theorem run_lift {β : Type} {x : OnDisk β} {b : β} {d' : Disk} (h : x.run d = (b, d')) :
    (ExceptT.lift x : Filing OnDisk β).run d = (.ok b, d') := by
  change (Except.ok (x.run d).1, (x.run d).2) = _
  rw [h]

theorem run_require {done : OnDisk Bool} {d' : Disk} (h : done.run d = (true, d')) :
    (require path done).run d = (.ok (), d') := by
  rw [require, exceptT_run_bind, run_lift h]
  rfl

theorem run_forM_cons {β : Type} (work : β → Filing OnDisk Unit) (x : β) (xs : List β) (d : Disk) :
    ((x :: xs).forM work).run d = match (work x).run d with
      | (.ok _, d') => (xs.forM work).run d'
      | (.error e, d') => (.error e, d') := by
  have hcons : (x :: xs).forM work = work x >>= fun _ => xs.forM work := rfl
  rw [hcons, exceptT_run_bind]
  cases (work x).run d with
  | mk r d' => cases r <;> rfl

theorem exists_write (hp : d.Leads path p) (contents : ByteArray) :
    ∃ d', (write path contents : Filing OnDisk Unit).run d = (.ok (), d') ∧ d.Rewrites [p] d' ∧
      d'.files.lookup p = some contents :=
  ⟨_, run_require (Disk.write_eq hp), Disk.rewrites_put hp.ne_sink, Disk.lookup_put_self hp.ne_sink⟩

theorem run_read (hp : d.Leads path p) (h : d.files.lookup p = some bytes) :
    (read path : Filing OnDisk ByteArray).run d = (.ok bytes, d) := by
  have hread : (Files.read path : OnDisk Found).run d = (.contents bytes, d) := by
    change (d.read path, d) = _
    rw [Disk.read_eq hp h]
  rw [read, exceptT_run_bind, run_lift hread]
  rfl

theorem exists_append (hp : d.Leads path p) (h : d.files.lookup p = some bytes) (contents : ByteArray) :
    ∃ d', (append path contents : Filing OnDisk Unit).run d = (.ok (), d') ∧ d.Rewrites [p] d' ∧
      d'.files.lookup p = some (bytes ++ contents) :=
  ⟨_, run_require (Disk.append_eq hp h), Disk.rewrites_put hp.ne_sink, Disk.lookup_put_self hp.ne_sink⟩

theorem exists_move (hp : d.Leads source p) (hq : d.Leads target q) (h : d.files.lookup p = some bytes) :
    ∃ d', (move source target : Filing OnDisk Unit).run d = (.ok (), d') ∧ d.Rewrites [p, q] d' ∧
      d'.files.lookup q = some bytes := by
  refine ⟨_, run_require (Disk.move_eq hp hq h), ⟨Disk.directories_put, fun r hr => ?_⟩,
    Disk.lookup_put_self hq.ne_sink⟩
  obtain ⟨hrp, hrq⟩ : r ≠ p ∧ r ≠ q := by simpa using hr
  rw [Disk.lookup_put hq.ne_sink, if_neg hrq, Disk.lookup_remove, if_neg hrp]

end Filing

end Categorial
