import BinaryLayout.Files.Tree
import BinaryLayout.Proofs.Success

/-!
# What a change to a tree leaves as it is

Directories are made where nothing is, and a text is written to one location.  This module says
which entries and which paths such a change keeps.

There are five groups.

* The entries around an insertion.  `find?_insert` and `find?_insert_of_ne` read a location after
  another one has been given an entry.
* Trees that grow.  `Grows` is a sequence of directories made one after another.  It keeps every
  entry and every path that leads somewhere.
* The directories that a path needs.  `makeDirectory_eq_ok` says what one step can do, and
  `onlyGrows_makeDirectories` is the run of such steps.
* Writing.  `names_of_write` and `write_eq_ok` say which location a text is written to, and
  `write_of_locate` is the converse for a file that the path leads to.  `locate_of_write` is where
  the path leads when the text has been written.
* Files.  `SameFileAt` compares one location of two trees, and nothing but a text that is written
  makes a difference there.
-/

namespace BinaryLayout.Tree

/-! ## The entries around an insertion -/

theorem lookup_insertSorted (place : Location) (entry : Entry)
    (entries : List (Location × Entry)) :
    (insertSorted place entry entries).lookup place = some entry := by
  induction entries with
  | nil => simp [insertSorted]
  | cons first rest ih =>
    obtain ⟨other, old⟩ := first
    rw [insertSorted]
    split
    · simp
    · rename_i hne
      split
      · simp
      · have hbeq : (place == other) = false := by simpa using Ne.symm hne
        rw [List.lookup_cons, hbeq]
        exact ih

theorem lookup_insertSorted_of_ne {place asked : Location} (hne : asked ≠ place) (entry : Entry)
    (entries : List (Location × Entry)) :
    (insertSorted place entry entries).lookup asked = entries.lookup asked := by
  have hplace : (asked == place) = false := by simpa using hne
  induction entries with
  | nil => simp [insertSorted, List.lookup_cons, hplace]
  | cons first rest ih =>
    obtain ⟨other, old⟩ := first
    rw [insertSorted]
    split
    · rename_i heq
      subst heq
      rw [List.lookup_cons, List.lookup_cons, hplace]
    · split
      · rw [List.lookup_cons, hplace]
      · rw [List.lookup_cons, List.lookup_cons, ih]

/-- The root is a directory, so nothing missing is the root. -/
theorem ne_nil_of_find?_eq_none {tree : Tree} {place : Location}
    (h : tree.find? place = none) : place ≠ [] := by
  intro heq
  obtain rfl := heq
  simp [find?] at h

/-- A file is not the root. -/
theorem ne_nil_of_find?_eq_file {tree : Tree} {place : Location} {bytes : Payload}
    (h : tree.find? place = some (.file bytes)) : place ≠ [] := by
  intro heq
  obtain rfl := heq
  simp [find?] at h

/-- A location holds what it was given. -/
theorem find?_insert (tree : Tree) {place : Location} (hplace : place ≠ []) (entry : Entry) :
    (tree.insert place entry).find? place = some entry := by
  rw [find?, if_neg hplace]
  exact lookup_insertSorted place entry tree.entries

/-- All other locations hold what they held. -/
theorem find?_insert_of_ne (tree : Tree) {place asked : Location} (hne : asked ≠ place)
    (entry : Entry) : (tree.insert place entry).find? asked = tree.find? asked := by
  rw [find?, find?]
  split
  · rfl
  · exact lookup_insertSorted_of_ne hne entry tree.entries

/-! ## Trees that grow -/

/-- Nothing is at a location, and it stands in a directory. -/
structure Vacant (tree : Tree) (place : Location) : Prop where
  missing : tree.find? place = none
  above : tree.find? place.dropLast = some .directory

/-- Directories have been made, one after another, each at a vacant location. -/
inductive Grows (tree : Tree) : Tree → Prop where
  | refl : Grows tree tree
  | make {made : Tree} {place : Location} (before : Grows tree made)
    (vacant : made.Vacant place) : Grows tree (made.insert place .directory)

/-- Every entry stands in a directory. -/
def IsRooted (tree : Tree) : Prop :=
  ∀ place entry, tree.find? place = some entry → tree.find? place.dropLast = some .directory

namespace Grows

variable {tree made later : Tree}

theorem trans (h : tree.Grows made) (h' : made.Grows later) : tree.Grows later := by
  induction h' with
  | refl => exact h
  | make _ vacant ih => exact ih.make vacant

/-- The working directory stays the same. -/
theorem here_eq (h : tree.Grows made) : made.here = tree.here := by
  induction h with
  | refl => rfl
  | make _ _ ih => exact ih

/-- Every entry is kept. -/
theorem find?_eq_some (h : tree.Grows made) {place : Location} {entry : Entry}
    (hentry : tree.find? place = some entry) : made.find? place = some entry := by
  induction h with
  | refl => exact hentry
  | @make made new _ vacant ih =>
    have hne : place ≠ new := by
      intro heq
      obtain rfl := heq
      rw [vacant.missing] at ih
      cases ih
    rw [find?_insert_of_ne made hne]
    exact ih

/-- No file is new. -/
theorem find?_eq_file (h : tree.Grows made) {place : Location} {bytes : Payload}
    (hfile : made.find? place = some (.file bytes)) : tree.find? place = some (.file bytes) := by
  induction h with
  | refl => exact hfile
  | @make made new _ vacant ih =>
    have hne : place ≠ new := by
      intro heq
      obtain rfl := heq
      rw [find?_insert made (ne_nil_of_find?_eq_none vacant.missing)] at hfile
      cases hfile
    rw [find?_insert_of_ne made hne] at hfile
    exact ih hfile

/-- Every entry still stands in a directory. -/
theorem isRooted (h : tree.Grows made) (hrooted : tree.IsRooted) : made.IsRooted := by
  induction h with
  | refl => exact hrooted
  | @make made new _ vacant ih =>
    have hnew := find?_insert made (ne_nil_of_find?_eq_none vacant.missing) .directory
    intro place entry hentry
    by_cases hup : place.dropLast = new
    · rw [hup]
      exact hnew
    · rw [find?_insert_of_ne made hup]
      by_cases hplace : place = new
      · rw [hplace]
        exact vacant.above
      · rw [find?_insert_of_ne made hplace] at hentry
        exact ih place entry hentry

end Grows

/-! ## Steps along a path -/

/-- What one part of a path leads to from a location. -/
inductive Steps (tree : Tree) (place : Location) : String → Location → Prop where
  | stay {part : String} (directory : tree.find? place = some .directory)
    (idle : Path.isIdle part = true) : Steps tree place part place
  | up (directory : tree.find? place = some .directory) : Steps tree place ".." place.dropLast
  | down {name : String} {entry : Entry} (directory : tree.find? place = some .directory)
    (idle : Path.isIdle name = false) (up : name ≠ "..")
    (short : name.utf8ByteSize ≤ longestName)
    (found : tree.find? (place ++ [name]) = some entry) : Steps tree place name (place ++ [name])

/-- A path is followed part by part. -/
theorem follow_cons_eq_ok {tree : Tree} {place last : Location} {part : String}
    {rest : List String} :
    tree.follow place (part :: rest) = .ok last ↔
      ∃ next, tree.Steps place part next ∧ tree.follow next rest = .ok last := by
  constructor
  · intro h
    rw [follow] at h
    split at h
    · cases h
    · cases h
    rename_i hdirectory
    split at h
    · rename_i hidle
      exact ⟨place, .stay hdirectory hidle, h⟩
    rename_i hidle
    split at h
    · rename_i hup
      subst hup
      exact ⟨place.dropLast, .up hdirectory, h⟩
    rename_i hup
    split at h
    · cases h
    rename_i hlong
    split at h
    · rename_i hsome
      obtain ⟨entry, hentry⟩ := Option.isSome_iff_exists.1 hsome
      exact ⟨place ++ [part],
        .down hdirectory (by simpa using hidle) hup (by omega) hentry, h⟩
    · cases h
  · intro h
    obtain ⟨next, hstep, h⟩ := h
    rw [follow]
    cases hstep with
    | stay hdirectory hidle =>
      rw [hdirectory]
      simp only [hidle, if_true]
      exact h
    | up hdirectory =>
      have hidle : Path.isIdle ".." = false := by decide
      rw [hdirectory]
      simp only [hidle, if_true, Bool.false_eq_true, if_false]
      exact h
    | down hdirectory hidle hup hshort hfound =>
      have hlong : ¬ longestName < part.utf8ByteSize := by omega
      rw [hdirectory]
      simp only [hidle, hup, hlong, hfound, Option.isSome_some, if_true, Bool.false_eq_true,
        if_false]
      exact h

/-- A path in two halves is followed half by half. -/
theorem follow_append_eq_ok {tree : Tree} {place last : Location} {parts more : List String} :
    tree.follow place (parts ++ more) = .ok last ↔
      ∃ middle, tree.follow place parts = .ok middle ∧ tree.follow middle more = .ok last := by
  induction parts generalizing place with
  | nil => simp [follow]
  | cons part rest ih =>
    simp only [List.cons_append, follow_cons_eq_ok, ih]
    constructor
    · intro h
      obtain ⟨next, hstep, middle, hrest, hmore⟩ := h
      exact ⟨middle, ⟨next, hstep, hrest⟩, hmore⟩
    · intro h
      obtain ⟨middle, ⟨next, hstep, hrest⟩, hmore⟩ := h
      exact ⟨next, hstep, middle, hrest, hmore⟩

/-- A path that can be followed leads to the same location when directories have been made. -/
theorem Grows.follow {tree made : Tree} (h : tree.Grows made) {parts : List String}
    {origin place : Location} (hfollow : tree.follow origin parts = .ok place) :
    made.follow origin parts = .ok place := by
  induction parts generalizing origin with
  | nil => exact hfollow
  | cons part rest ih =>
    obtain ⟨next, hstep, hrest⟩ := follow_cons_eq_ok.1 hfollow
    refine follow_cons_eq_ok.2 ⟨next, ?_, ih hrest⟩
    cases hstep with
    | stay hdirectory hidle => exact .stay (h.find?_eq_some hdirectory) hidle
    | up hdirectory => exact .up (h.find?_eq_some hdirectory)
    | down hdirectory hidle hup hshort hfound =>
      exact .down (h.find?_eq_some hdirectory) hidle hup hshort (h.find?_eq_some hfound)

theorem start_eq_of_here_eq {tree made : Tree} (h : made.here = tree.here) (path : String) :
    made.start path = tree.start path := by
  rw [start, start, h]

theorem parts_of_start {tree : Tree} {path : String} {origin : Location} {parts : List String}
    (h : tree.start path = .ok (origin, parts)) : parts = Path.parts path := by
  rw [start] at h
  split at h
  · cases h
  split at h
  · cases h
  · cases h
    rfl

theorem locate_eq_ok {tree : Tree} {path : String} {place : Location} :
    tree.locate path = .ok place ↔
      ∃ origin parts, tree.start path = .ok (origin, parts) ∧
        tree.follow origin parts = .ok place := by
  rw [locate, bind_eq_ok]
  constructor
  · intro h
    obtain ⟨⟨origin, parts⟩, hstart, hfollow⟩ := h
    exact ⟨origin, parts, hstart, hfollow⟩
  · intro h
    obtain ⟨origin, parts, hstart, hfollow⟩ := h
    exact ⟨(origin, parts), hstart, hfollow⟩

/-- A path that leads somewhere leads there also when directories have been made. -/
theorem Grows.locate {tree made : Tree} (h : tree.Grows made) {path : String} {place : Location}
    (hlocate : tree.locate path = .ok place) : made.locate path = .ok place := by
  obtain ⟨origin, parts, hstart, hfollow⟩ := locate_eq_ok.1 hlocate
  refine locate_eq_ok.2 ⟨origin, parts, ?_, ?_⟩
  · rw [start_eq_of_here_eq h.here_eq]
    exact hstart
  · exact h.follow hfollow

/-! ## The directories that a path needs -/

theorem followToLast_eq_ok {tree : Tree} {origin above : Location} {parts : List String} :
    tree.followToLast origin parts = .ok above ↔
      tree.follow origin parts.dropLast = .ok above ∧ tree.find? above = some .directory := by
  rw [followToLast]
  cases tree.follow origin parts.dropLast with
  | error e => simp
  | ok place =>
    dsimp only
    split <;> rename_i hplace
    · constructor
      · intro h
        cases h
        exact ⟨rfl, hplace⟩
      · exact fun h => h.1
    all_goals
      constructor
      · intro h
        cases h
      · intro h
        obtain ⟨h, hdirectory⟩ := h
        cases h
        rw [hplace] at hdirectory
        cases hdirectory

/-- Making a directory fills a vacant location. -/
theorem makeDirectory_eq_ok {tree made : Tree} {path : String}
    (h : tree.makeDirectory path = .ok made) :
    ∃ place, tree.Vacant place ∧ made = tree.insert place .directory := by
  rw [makeDirectory, bind_eq_ok] at h
  obtain ⟨⟨origin, parts⟩, _, h⟩ := h
  obtain ⟨above, habove, h⟩ := bind_eq_ok.1 h
  obtain ⟨_, hdirectory⟩ := followToLast_eq_ok.1 habove
  split at h
  · cases h
  rename_i name _
  split at h
  · cases h
  split at h
  · cases h
  split at h
  · cases h
  rename_i hmissing
  cases h
  refine ⟨above ++ [name], ⟨?_, ?_⟩, rfl⟩
  · simpa using hmissing
  · rw [List.dropLast_concat]
    exact hdirectory

/-- A change that makes directories and does nothing else. -/
def OnlyGrows {α : Type} (action : StateM Tree α) : Prop :=
  ∀ tree : Tree, tree.Grows (action.run tree).2

namespace OnlyGrows

theorem pure {α : Type} (a : α) : OnlyGrows (Pure.pure a : StateM Tree α) :=
  fun _ => .refl

theorem bind {α β : Type} {action : StateM Tree α} {next : α → StateM Tree β}
    (h : OnlyGrows action) (hnext : ∀ a, OnlyGrows (next a)) : OnlyGrows (action >>= next) :=
  fun tree => (h tree).trans (hnext _ _)

end OnlyGrows

theorem onlyGrows_makeDirectory (path : String) :
    OnlyGrows (FileChanges.makeDirectory path : StateM Tree (Except FileError Unit)) := by
  intro tree
  show tree.Grows (change (fun tree => tree.makeDirectory path) tree).2
  rw [change]
  split
  · rename_i made h
    obtain ⟨place, vacant, rfl⟩ := makeDirectory_eq_ok h
    exact .make .refl vacant
  · exact .refl

theorem onlyGrows_isDirectory (path : String) :
    OnlyGrows (FileChanges.isDirectory path : StateM Tree Bool) :=
  fun _ => .refl

/-- Making all directories of a path only makes directories, also where it fails. -/
theorem onlyGrows_makeDirectories (paths : List String) :
    OnlyGrows (makeDirectories paths : StateM Tree (Except FileError Unit)) := by
  have hcheck (path : String) (e : FileError) :
      OnlyGrows (do return if ← FileChanges.isDirectory path then .ok () else .error e :
        StateM Tree (Except FileError Unit)) :=
    (onlyGrows_isDirectory path).bind fun _ => .pure _
  induction paths with
  | nil => exact .pure _
  | cons path above ih =>
    rw [makeDirectories]
    split
    · exact .pure _
    refine (onlyGrows_makeDirectory path).bind fun result => ?_
    split
    · exact .pure _
    · -- A directory further up is missing: the ones above come first, and then a second attempt.
      refine ih.bind fun result => ?_
      split
      · exact .pure _
      refine (onlyGrows_makeDirectory path).bind fun result => ?_
      split
      · exact .pure _
      · exact hcheck path _
    · exact hcheck path _

/-! ## Writing -/

/-- Only slashes at the end are dropped. -/
theorem dropSlashes_concat {parts : List String} {name : String} (hname : name ≠ "") :
    dropSlashes (parts ++ [name]) = parts ++ [name] := by
  simp [dropSlashes, hname]

/-- What the last part of a path to a file says: it is the name of the file. -/
theorem Steps.down_of_file {tree : Tree} (hrooted : tree.IsRooted) {above place : Location}
    {part : String} {bytes : Payload} (h : tree.Steps above part place)
    (hfile : tree.find? place = some (.file bytes)) :
    tree.find? above = some .directory ∧ Path.isIdle part = false ∧ part ≠ ".." ∧
      part.utf8ByteSize ≤ longestName ∧ place = above ++ [part] := by
  cases h with
  | stay hdirectory _ =>
    rw [hdirectory] at hfile
    cases hfile
  | up hdirectory =>
    rw [hrooted above .directory hdirectory] at hfile
    cases hfile
  | down hdirectory hidle hup hshort _ => exact ⟨hdirectory, hidle, hup, hshort, rfl⟩

/-- The path leads to a directory and ends in a name there. -/
def Names (tree : Tree) (path : String) (above : Location) (name : String) : Prop :=
  ∃ origin parts, tree.start path = .ok (origin, parts ++ [name]) ∧
    tree.follow origin parts = .ok above ∧ tree.find? above = some .directory ∧
    Path.isIdle name = false ∧ name ≠ ".." ∧ name.utf8ByteSize ≤ longestName

/-- A path that ends in a name leads to what is there under the name. -/
theorem Names.locate {tree : Tree} {path : String} {above : Location} {name : String}
    (h : tree.Names path above name) {entry : Entry}
    (hentry : tree.find? (above ++ [name]) = some entry) :
    tree.locate path = .ok (above ++ [name]) := by
  obtain ⟨origin, parts, hstart, hfollow, hdirectory, hidle, hup, hshort⟩ := h
  refine locate_eq_ok.2 ⟨origin, _, hstart, follow_append_eq_ok.2 ⟨above, hfollow, ?_⟩⟩
  exact follow_cons_eq_ok.2 ⟨_, .down hdirectory hidle hup hshort hentry, rfl⟩

/-- A text is written to a name in a directory, which no directory has. -/
theorem names_of_write {tree next : Tree} {path text : String}
    (h : tree.write path text = .ok next) :
    ∃ above name, tree.Names path above name ∧ tree.find? (above ++ [name]) ≠ some .directory ∧
      next = tree.insert (above ++ [name]) (.file text.toUTF8.data) := by
  rw [write, bind_eq_ok] at h
  obtain ⟨⟨origin, parts⟩, hstart, h⟩ := h
  obtain ⟨above, habove, h⟩ := bind_eq_ok.1 h
  obtain ⟨hfollow, hdirectory⟩ := followToLast_eq_ok.1 habove
  split at h
  · cases h
  rename_i name hlast
  split at h
  · cases h
  rename_i hname
  split at h
  · cases h
  rename_i hlong
  split at h
  · cases h
  rename_i hother
  cases h
  simp only [Bool.or_eq_true, beq_iff_eq, not_or, Bool.not_eq_true] at hname
  obtain ⟨⟨hslash, hidle⟩, hup⟩ := hname
  -- No slash was dropped, so these are all the parts of the path.
  rcases List.eq_nil_or_concat parts with rfl | ⟨init, last, rfl⟩
  · simp [dropSlashes] at hlast
  rw [List.concat_eq_append] at *
  have hne : last ≠ "" := by simpa using hslash
  rw [dropSlashes_concat hne] at hlast hfollow
  obtain rfl : last = name := by simpa using hlast
  rw [List.dropLast_concat] at hfollow
  exact ⟨above, last, ⟨origin, init, hstart, hfollow, hdirectory, hidle, hup, by omega⟩, hother,
    rfl⟩

/-- A text is written to one location, and to one that holds something only where the path leads
to it already. -/
theorem write_eq_ok {tree next : Tree} {path text : String}
    (h : tree.write path text = .ok next) :
    ∃ place, place ≠ [] ∧ next = tree.insert place (.file text.toUTF8.data) ∧
      (tree.find? place ≠ none → tree.locate path = .ok place) := by
  obtain ⟨above, name, hnames, _, rfl⟩ := names_of_write h
  refine ⟨above ++ [name], by simp, rfl, fun hthere => ?_⟩
  obtain ⟨entry, hentry⟩ := Option.ne_none_iff_exists'.1 hthere
  exact hnames.locate hentry

/-- A path that can be followed leads to the same location when a file has been written, unless a
directory had to make room for it. -/
theorem follow_insert_file {tree : Tree} {written : Location} {bytes : Payload}
    (hwritten : tree.find? written ≠ some .directory) (hne : written ≠ []) {parts : List String}
    {origin place : Location} (h : tree.follow origin parts = .ok place) :
    (tree.insert written (.file bytes)).follow origin parts = .ok place := by
  have hdirectory {other : Location} (h : tree.find? other = some .directory) :
      (tree.insert written (.file bytes)).find? other = some .directory := by
    rw [find?_insert_of_ne tree (by rintro rfl; exact hwritten h), h]
  induction parts generalizing origin with
  | nil => exact h
  | cons part rest ih =>
    obtain ⟨next, hstep, hrest⟩ := follow_cons_eq_ok.1 h
    refine follow_cons_eq_ok.2 ⟨next, ?_, ih hrest⟩
    cases hstep with
    | stay hhere hidle => exact .stay (hdirectory hhere) hidle
    | up hhere => exact .up (hdirectory hhere)
    | down hhere hidle hup hshort hfound =>
      by_cases heq : origin ++ [part] = written
      · have hthere : (tree.insert written (.file bytes)).find? (origin ++ [part]) =
            some (.file bytes) := by rw [heq, find?_insert tree hne]
        exact .down (hdirectory hhere) hidle hup hshort hthere
      · rw [← find?_insert_of_ne tree heq (.file bytes)] at hfound
        exact .down (hdirectory hhere) hidle hup hshort hfound

/-- After a text has been written the path leads to it. -/
theorem locate_of_write {tree next : Tree} {path text : String}
    (h : tree.write path text = .ok next) :
    ∃ place, place ≠ [] ∧ next.locate path = .ok place ∧
      next = tree.insert place (.file text.toUTF8.data) := by
  obtain ⟨above, name, hnames, hother, rfl⟩ := names_of_write h
  have hne : above ++ [name] ≠ [] := by simp
  refine ⟨above ++ [name], hne, ?_, rfl⟩
  obtain ⟨origin, parts, hstart, hfollow, hdirectory, hname⟩ := hnames
  refine Names.locate ⟨origin, parts, ?_, follow_insert_file hother hne hfollow, ?_, hname⟩
    (find?_insert tree hne _)
  · have hhere : (tree.insert (above ++ [name]) (.file text.toUTF8.data)).here = tree.here := rfl
    rw [start_eq_of_here_eq hhere, hstart]
  · rw [find?_insert_of_ne tree (by simp), hdirectory]

/-- A text for a file that the path leads to is written to that file. -/
theorem write_of_locate {tree : Tree} (hrooted : tree.IsRooted) {path : String}
    {place : Location} {bytes : Payload} (hlocate : tree.locate path = .ok place)
    (hfile : tree.find? place = some (.file bytes)) (text : String) :
    tree.write path text = .ok (tree.insert place (.file text.toUTF8.data)) := by
  obtain ⟨origin, parts, hstart, hfollow⟩ := locate_eq_ok.1 hlocate
  rcases List.eq_nil_or_concat parts with rfl | ⟨init, last, rfl⟩
  · exact absurd (parts_of_start hstart).symm (Path.parts_ne_nil path)
  rw [List.concat_eq_append] at *
  obtain ⟨above, hinit, hlast⟩ := follow_append_eq_ok.1 hfollow
  obtain ⟨next, hstep, hdone⟩ := follow_cons_eq_ok.1 hlast
  cases hdone
  obtain ⟨hdirectory, hidle, hup, hshort, rfl⟩ := hstep.down_of_file hrooted hfile
  have hne : last ≠ "" := by
    intro heq
    obtain rfl := heq
    exact absurd hidle (by decide)
  have hlong : ¬ longestName < last.utf8ByteSize := by omega
  have habove : tree.followToLast origin (init ++ [last]) = .ok above := by
    rw [followToLast_eq_ok, List.dropLast_concat]
    exact ⟨hinit, hdirectory⟩
  rw [write, hstart]
  simp only [bind, Except.bind, dropSlashes_concat hne, habove, List.getLast?_concat]
  simp [hne, hidle, hup, hlong, hfile]

/-! ## Files -/

/-- The two trees hold the same file at a location, or both hold none there. -/
def SameFileAt (tree next : Tree) (place : Location) : Prop :=
  ∀ bytes, next.find? place = some (.file bytes) ↔ tree.find? place = some (.file bytes)

/-- Making directories changes no file. -/
theorem Grows.sameFileAt {tree made : Tree} (h : tree.Grows made) (place : Location) :
    tree.SameFileAt made place :=
  fun _ => ⟨h.find?_eq_file, h.find?_eq_some⟩

/-- Writing changes no other file than the one that the path leads to then. -/
theorem sameFileAt_of_write {tree next : Tree} {path text : String}
    (h : tree.write path text = .ok next) :
    ∃ place, next.locate path = .ok place ∧
      next.find? place = some (.file text.toUTF8.data) ∧
      ∀ other, other ≠ place → tree.SameFileAt next other := by
  obtain ⟨place, hne, hlocate, rfl⟩ := locate_of_write h
  refine ⟨place, hlocate, find?_insert tree hne _, fun other hother bytes => ?_⟩
  rw [find?_insert_of_ne tree hother]

end BinaryLayout.Tree
