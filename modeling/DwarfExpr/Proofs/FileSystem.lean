/-
  DwarfExpr/Proofs/FileSystem.lean
  ================================
  **What a written file changes.** A file is written at the path that its name leads to, and many
  names lead to the same path: `a`, `./a`, `b/../a`.  So the change is described by the path
  (`FileSystem.Replaces`): nothing but the entry there is new, the names that lead there are read as
  the new content, and every other name is read as before.

  The last of these needs an argument, as a name is resolved through the entries that it passes.
  The path of a file is never passed, since only directories are: not before it is written, and not
  afterwards.  This is the invariant of `resolve_put`.
-/
import DwarfExpr.FileSystem
import DwarfExpr.Proofs.Except
import Mathlib.Data.List.Infix
import Mathlib.Tactic.Common

namespace DwarfExpr

namespace Place

/-- A file is at the path, or can be made there. -/
def IsFileAt (path : List FileName) : Place → Prop
  | found p (.file _) => p = path
  | found _ .directory => False
  | vacant p => p = path

instance (path : List FileName) (place : Place) : Decidable (place.IsFileAt path) :=
  match place with
  | found p (.file _) => inferInstanceAs (Decidable (p = path))
  | found _ .directory => inferInstanceAs (Decidable False)
  | vacant p => inferInstanceAs (Decidable (p = path))

/-- The place once a file has been written at a path. -/
def fill (path : List FileName) (content : List UInt8) (place : Place) : Place :=
  if place.IsFileAt path then .found path (.file content) else place

end Place

namespace FileSystem

variable {fs : FileSystem} {path directory : List FileName} {content : List UInt8}

/-! ### Entries -/

theorem lookup_filter_ne {other : List FileName} (h : other ≠ path)
    (entries : List (List FileName × Entry)) :
    (entries.filter (·.1 != path)).lookup other = entries.lookup other := by
  induction entries with
  | nil => rfl
  | cons e entries ih =>
    by_cases he : e.1 = path
    · have hother : (other == e.1) = false := by simpa [he] using h
      rw [List.filter_cons_of_neg (by simpa using he), List.lookup_cons, hother, ih]
    · rw [List.filter_cons_of_pos (by simpa using he), List.lookup_cons, List.lookup_cons, ih]

theorem get?_put (h : path ≠ []) (entry : Entry) (other : List FileName) :
    (fs.put path entry).get? other = if other = path then some entry else fs.get? other := by
  rw [get?, get?, put]
  by_cases hother : other = path
  · subst hother
    simp [h]
  · rw [if_neg hother, List.lookup_cons, beq_false_of_ne hother, lookup_filter_ne hother]

theorem ne_nil_of_get? (h : fs.get? path ≠ some .directory) : path ≠ [] := by
  rintro rfl
  exact h rfl

/-! ### Names -/

/-- A name leads to a path where a file is, or can be made. -/
structure NamesFile (fs : FileSystem) (name : FileName) (path : List FileName) : Prop where
  notSlash : name.endsInSlash = false
  leads : ∃ place, fs.locate name = .ok place ∧ place.IsFileAt path

theorem NamesFile.path_eq {name : FileName} {path' : List FileName} (h : fs.NamesFile name path)
    (h' : fs.NamesFile name path') : path = path' := by
  obtain ⟨-, place, hplace, hfile⟩ := h
  obtain ⟨-, place', hplace', hfile'⟩ := h'
  obtain rfl : place = place' := Except.ok.inj (hplace.symm.trans hplace')
  rcases place with ⟨p, c | -⟩ | p
  · exact hfile.symm.trans hfile'
  · exact hfile.elim
  · exact hfile.symm.trans hfile'

theorem get?_of_resolve {parts : List FileName} {place : Place}
    (h : fs.resolve directory parts = .ok place) (hfile : place.IsFileAt path) :
    fs.get? path ≠ some .directory := by
  fun_induction resolve fs directory parts with
  | case1 directory =>
    cases h
    exact hfile.elim
  | case2 directory rest ih => exact ih h
  | case3 directory rest hhere ih => exact ih h
  | case4 directory part rest hhere habove hlength => cases h
  | case5 directory part rest hhere habove hlength p hentry ih => exact ih h
  | case6 directory part rest hhere habove hlength p c hentry hrest =>
    cases h
    obtain rfl : p = path := hfile
    simp [hentry]
  | case7 directory part rest hhere habove hlength p c hentry hrest => cases h
  | case8 directory part rest hhere habove hlength p hentry hrest =>
    cases h
    obtain rfl : p = path := hfile
    simp [hentry]
  | case9 directory part rest hhere habove hlength p hentry hrest => cases h

/-- **Resolving a name once a file has been written.** Whether a name leads anywhere is as it was,
    and where it leads too, but for the file. -/
theorem resolve_put (hpath : fs.get? path ≠ some .directory) (parts : List FileName)
    (h : ¬ path <+: directory) :
    ((fs.put path (.file content)).resolve directory parts).toOption =
      (fs.resolve directory parts).toOption.map (Place.fill path content) := by
  induction parts generalizing directory with
  | nil => simp [resolve, Except.toOption, Place.fill, Place.IsFileAt]
  | cons part rest ih =>
    rw [resolve, resolve]
    split
    · exact ih h
    split
    · exact ih fun hdirectory => h (hdirectory.trans (List.dropLast_prefix _))
    split
    · rfl
    dsimp only
    rw [get?_put (ne_nil_of_get? hpath)]
    by_cases hp : directory ++ [part] = path
    · -- The file is the end of the name, or else the name leads nowhere.
      rw [if_pos hp, hp]
      rcases hentry : fs.get? path with - | - | -
      · cases rest <;> simp [Except.toOption, Place.fill, Place.IsFileAt]
      · cases rest <;> simp [Except.toOption, Place.fill, Place.IsFileAt]
      · exact absurd hentry hpath
    · rw [if_neg hp]
      rcases fs.get? (directory ++ [part]) with - | - | -
      · cases rest <;> simp [Except.toOption, Place.fill, Place.IsFileAt, hp]
      · cases rest <;> simp [Except.toOption, Place.fill, Place.IsFileAt, hp]
      · apply ih
        rw [List.prefix_concat_iff]
        exact not_or.2 ⟨Ne.symm hp, h⟩

/-! ### Reading and writing -/

theorem read_eq_ok_iff {name : FileName} :
    fs.read name = .ok content ↔
      name.endsInSlash = false ∧ ∃ path, fs.locate name = .ok (.found path (.file content)) := by
  rw [read, bind_eq_ok_iff]
  constructor
  · rintro ⟨place, hplace, hread⟩
    rcases place with ⟨path, c | -⟩ | path
    · simp only [ite_eq_iff, reduceCtorEq, and_false, false_or, Except.ok.injEq,
        Bool.not_eq_true] at hread
      obtain ⟨hslash, rfl⟩ := hread
      exact ⟨hslash, path, hplace⟩
    · cases hread
    · cases hread
  · rintro ⟨hslash, path, hplace⟩
    exact ⟨_, hplace, by simp [hslash]⟩

theorem write_eq_ok_iff {name : FileName} {fs' : FileSystem} :
    fs.write name content = .ok fs' ↔
      ∃ path, fs.NamesFile name path ∧ fs' = fs.put path (.file content) := by
  rw [write]
  cases hslash : name.endsInSlash with
  | true =>
    constructor
    · intro h
      obtain ⟨-, -, h⟩ := bind_eq_ok_iff.1 h
      obtain ⟨-, -, h⟩ := bind_eq_ok_iff.1 h
      cases h
    · rintro ⟨path, hnames, -⟩
      exact absurd hnames.notSlash (by simp [hslash])
  | false =>
    constructor
    · intro h
      obtain ⟨u, hcheck, h⟩ := bind_eq_ok_iff.1 h
      obtain ⟨place, hplace, h⟩ := bind_eq_ok_iff.1 h
      have hlocate : fs.locate name = .ok place := bind_eq_ok_iff.2 ⟨u, hcheck, hplace⟩
      rcases place with ⟨path, c | -⟩ | path
      · cases h
        exact ⟨path, ⟨hslash, _, hlocate, rfl⟩, rfl⟩
      · cases h
      · cases h
        exact ⟨path, ⟨hslash, _, hlocate, rfl⟩, rfl⟩
    · rintro ⟨path, ⟨-, place, hlocate, hfile⟩, rfl⟩
      obtain ⟨u, hcheck, hplace⟩ := bind_eq_ok_iff.1 hlocate
      refine bind_eq_ok_iff.2 ⟨u, hcheck, bind_eq_ok_iff.2 ⟨place, hplace, ?_⟩⟩
      rcases place with ⟨p, c | -⟩ | p
      · obtain rfl : p = path := hfile
        rfl
      · exact hfile.elim
      · obtain rfl : p = path := hfile
        rfl

theorem NamesFile.not_directory {name : FileName} (h : fs.NamesFile name path) :
    fs.get? path ≠ some .directory := by
  obtain ⟨place, hlocate, hfile⟩ := h.leads
  obtain ⟨-, -, hresolve⟩ := bind_eq_ok_iff.1 hlocate
  exact get?_of_resolve hresolve hfile

/-- Where a name leads once a file has been written. -/
theorem locate_put_eq_ok_iff (hpath : fs.get? path ≠ some .directory) {name : FileName}
    {place : Place} :
    (fs.put path (.file content)).locate name = .ok place ↔
      ∃ before, fs.locate name = .ok before ∧ before.fill path content = place := by
  rw [locate, locate]
  rcases name.check with fault | u
  · simp [bind, Except.bind]
  · have hroot : ¬ path <+: [] := by
      rw [List.prefix_nil]
      exact ne_nil_of_get? hpath
    change FileSystem.resolve _ [] name.parts = .ok place ↔
      ∃ before, fs.resolve [] name.parts = .ok before ∧ _
    rw [← toOption_eq_some_iff, resolve_put hpath _ hroot, Option.map_eq_some_iff]
    simp only [toOption_eq_some_iff]

/-- **One file is replaced**: the one at the path. -/
structure Replaces (fs : FileSystem) (path : List FileName) (content : List UInt8)
    (fs' : FileSystem) : Prop where
  entries : ∀ other, fs'.get? other = if other = path then some (.file content) else fs.get? other
  named : ∀ name, fs.NamesFile name path → fs'.read name = .ok content
  others : ∀ name, ¬ fs.NamesFile name path → ∀ c, fs'.read name = .ok c ↔ fs.read name = .ok c

theorem replaces_put (hpath : fs.get? path ≠ some .directory) :
    fs.Replaces path content (fs.put path (.file content)) := by
  refine ⟨get?_put (ne_nil_of_get? hpath) _, ?_, ?_⟩
  · rintro name ⟨hslash, place, hlocate, hfile⟩
    refine read_eq_ok_iff.2 ⟨hslash, path, (locate_put_eq_ok_iff hpath).2 ⟨place, hlocate, ?_⟩⟩
    rw [Place.fill, if_pos hfile]
  · intro name hnot c
    rw [read_eq_ok_iff, read_eq_ok_iff]
    apply and_congr_right
    intro hslash
    apply exists_congr
    intro p
    rw [locate_put_eq_ok_iff hpath]
    -- The name does not lead to the file, so that its place is the same.
    have hsame : ∀ before, fs.locate name = .ok before → before.fill path content = before :=
      fun before hbefore => if_neg fun hfile => hnot ⟨hslash, before, hbefore, hfile⟩
    constructor
    · rintro ⟨before, hbefore, hfill⟩
      rw [← hfill, hsame before hbefore]
      exact hbefore
    · intro hlocate
      exact ⟨_, hlocate, hsame _ hlocate⟩

end FileSystem

end DwarfExpr
