import BinaryLayout.Proofs.Command.Outcome
import BinaryLayout.Proofs.Glob.Spells

/-!
# What a pattern finds in a tree

A path that is read as a pattern, and has no class in it, finds the file that it is the path of.
Only with stars or dots at some places does it find no file at all: `**` at the end stands for
directories alone, and behind `**` only names are looked for.

There are five groups.

* Expansion.  `Tree.expand` are the paths that the parts of a pattern lead to in a tree, without the
  questions that are asked for them, with one equation for each kind of part (`expand_literal` and
  the ones beside it); `answer_expandParts` is what is found by asking.
* What is below a place.  `mem_below` finds it by the names that lead there.
* Parts that find no file, wherever they start: `Tree.Barren`.
* Parts that find the place that some names lead to: `Tree.Finds`, with one lemma for each part.
  `finds_or_barren` is the induction.
* Patterns.  `expandPattern_finds` starts at the root or in the working directory.  There the empty
  name is lost (`expand_of_lost`).
-/

namespace BinaryLayout

namespace Tree

/-! ## Expansion -/

variable (tree : Tree)

/-- What a path leads to, if anything. -/
def kindAt (path : String) : Option FileKind := (tree.entry? path).map Entry.kind

/-- Everything below what a path leads to, each with the names that lead to it. -/
def descendantsAt (path : String) : List Location :=
  match tree.locate path with
  | .ok place => tree.below place
  | .error _ => []

/-- The names in the directory that a path leads to. -/
def childrenAt (path : String) : List String :=
  (tree.descendantsAt path).filterMap fun names =>
    match names with
    | [name] => some name
    | _ => none

/-- Whether a name is found under a path. -/
def hasUnder (path name : String) : Bool :=
  if name = "." ∨ name = ".." then tree.kindAt path == some .directory
  else (tree.kindAt (Glob.under path name)).isSome

/-- The paths that the parts of a pattern lead to from a path. -/
def expand (directoriesOnly : Bool) : List Glob.Part → String → List String
  | [], path =>
    if directoriesOnly then if tree.kindAt path == some .directory then [path] else [] else [path]
  | .literal name :: parts, path =>
    if tree.hasUnder path name then expand directoriesOnly parts (Glob.under path name) else []
  | .names tokens :: parts, path =>
    if tree.kindAt path == some .directory then
      let names := (tree.childrenAt path).filter fun name => Glob.matchesName tokens name.toList
      let next := (Glob.dots tokens).map (Path.join path) ++ names.map (Glob.under path)
      next.flatMap fun path => expand directoriesOnly parts path
    else []
  | [.anyDepth], path =>
    if tree.kindAt path == some .directory then
      let found := (tree.descendantsAt path).map (List.foldl Glob.under path)
      found.filter fun path => tree.kindAt path == some .directory
    else []
  | .anyDepth :: part :: parts, path =>
    if tree.kindAt path == some .directory then
      let found := (tree.descendantsAt path).filter fun names =>
        part.matchesName (names.getLast?.getD "")
      (found.map (List.foldl Glob.under path)).flatMap fun path => expand directoriesOnly parts path
    else []

section

variable (directoriesOnly : Bool) (path : String)

theorem expand_nil :
    tree.expand directoriesOnly [] path =
      if directoriesOnly then if tree.kindAt path == some .directory then [path] else []
      else [path] := rfl

theorem expand_literal (name : String) (parts : List Glob.Part) :
    tree.expand directoriesOnly (.literal name :: parts) path =
      if tree.hasUnder path name then tree.expand directoriesOnly parts (Glob.under path name)
      else [] := rfl

theorem expand_names (tokens : List Glob.Token) (parts : List Glob.Part) :
    tree.expand directoriesOnly (.names tokens :: parts) path =
      if tree.kindAt path == some .directory then
        let names := (tree.childrenAt path).filter fun name => Glob.matchesName tokens name.toList
        let next := (Glob.dots tokens).map (Path.join path) ++ names.map (Glob.under path)
        next.flatMap fun path => tree.expand directoriesOnly parts path
      else [] := rfl

/-- Any number of directories at the end stand for directories. -/
theorem expand_anyDepth_nil :
    tree.expand directoriesOnly [.anyDepth] path =
      if tree.kindAt path == some .directory then
        let found := (tree.descendantsAt path).map (List.foldl Glob.under path)
        found.filter fun path => tree.kindAt path == some .directory
      else [] := rfl

/-- Behind any number of directories the next part takes the last name. -/
theorem expand_anyDepth_cons (part : Glob.Part) (parts : List Glob.Part) :
    tree.expand directoriesOnly (.anyDepth :: part :: parts) path =
      if tree.kindAt path == some .directory then
        let found := (tree.descendantsAt path).filter fun names =>
          part.matchesName (names.getLast?.getD "")
        (found.map (List.foldl Glob.under path)).flatMap fun path =>
          tree.expand directoriesOnly parts path
      else [] := rfl

end

end Tree

namespace Command

variable {world : Surroundings}

theorem answer_flatMapM {α β : Type} {ask : α → ExceptT Failure (ReaderM Surroundings) (List β)}
    {found : α → List β} (h : ∀ a, answer world (ask a) = .ok (found a)) (as : List α) :
    answer world (as.flatMapM ask) = .ok (as.flatMap found) := by
  have hloop (as : List α) (before : List (List β)) :
      answer world (List.flatMapM.loop ask as before) =
        .ok (before.reverse.flatten ++ as.flatMap found) := by
    induction as generalizing before with
    | nil =>
      rw [List.flatMap_nil, List.append_nil]
      rfl
    | cons a as ih =>
      rw [List.flatMapM.loop, answer_bind_ok (h a), ih]
      simp [List.flatMap_cons]
  exact hloop as []

theorem answer_filterM {α : Type} {ask : α → ExceptT Failure (ReaderM Surroundings) Bool}
    {holds : α → Bool} (h : ∀ a, answer world (ask a) = .ok (holds a)) (as : List α) :
    answer world (as.filterM ask) = .ok (as.filter holds) := by
  have hloop (as before : List α) :
      answer world (List.filterAuxM ask as before) =
        .ok ((as.filter holds).reverse ++ before) := by
    induction as generalizing before with
    | nil => rfl
    | cons a as ih =>
      rw [List.filterAuxM, answer_bind_ok (h a), ih]
      cases ha : holds a <;> simp [ha]
  rw [List.filterM, answer_bind_ok (hloop as [])]
  simp
  rfl

theorem answer_isDirectory (path : String) :
    answer world (Glob.isDirectory path) = .ok (world.tree.kindAt path == some .directory) := rfl

theorem answer_descendants (path : String) :
    answer world (FileQueries.descendants path) = .ok (world.tree.descendantsAt path) := rfl

theorem answer_children (path : String) :
    answer world (FileQueries.children path) = .ok (world.tree.childrenAt path) := by
  show Except.ok (match world.tree.locate path with | .ok place => _ | .error _ => _) = _
  rw [Tree.childrenAt, Tree.descendantsAt]
  cases world.tree.locate path <;> rfl

theorem answer_isThere (path name : String) :
    answer world (Glob.isThere path name) = .ok (world.tree.hasUnder path name) := by
  rw [Glob.isThere, Tree.hasUnder]
  split <;> rfl

/-- What is found by asking. -/
theorem answer_expandParts (directoriesOnly : Bool) :
    ∀ (parts : List Glob.Part) (path : String),
      answer world (Glob.expandParts directoriesOnly parts path) =
        .ok (world.tree.expand directoriesOnly parts path)
  | [], path => by
    rw [Glob.expandParts, Tree.expand_nil]
    cases directoriesOnly with
    | false => rfl
    | true =>
      rw [if_pos rfl, if_pos rfl, answer_bind_ok (answer_isDirectory path)]
      rfl
  | .literal name :: parts, path => by
    rw [Glob.expandParts, Tree.expand_literal, answer_bind_ok (answer_isThere path name)]
    split
    · exact answer_expandParts directoriesOnly parts (Glob.under path name)
    · rfl
  | .names tokens :: parts, path => by
    rw [Glob.expandParts, Tree.expand_names, answer_bind_ok (answer_isDirectory path)]
    split
    · rw [answer_bind_ok (answer_children path)]
      exact answer_flatMapM (answer_expandParts directoriesOnly parts) _
    · rfl
  | [.anyDepth], path => by
    rw [Glob.expandParts, Tree.expand_anyDepth_nil, answer_bind_ok (answer_isDirectory path)]
    split
    · rw [answer_bind_ok (answer_descendants path)]
      exact answer_filterM answer_isDirectory _
    · rfl
  | .anyDepth :: part :: parts, path => by
    rw [Glob.expandParts, Tree.expand_anyDepth_cons, answer_bind_ok (answer_isDirectory path)]
    split
    · rw [answer_bind_ok (answer_descendants path)]
      exact answer_flatMapM (answer_expandParts directoriesOnly parts) _
    · rfl

end Command

namespace Tree

/-! ## What is below a place -/

variable {tree : Tree}

/-- No name in the tree leads nowhere or upwards. -/
def HasNames (tree : Tree) : Prop :=
  ∀ place entry, (place, entry) ∈ tree.entries → ∀ name ∈ place, Path.IsName name

theorem hasNames_of_all (h : (tree.entries.all fun (place, _) =>
    place.all fun name => !Path.isIdle name && name != "..") = true) : tree.HasNames := by
  intro place entry hentry name hname
  have hall := List.all_eq_true.1 (List.all_eq_true.1 h _ hentry) name hname
  simp only [Bool.and_eq_true, Bool.not_eq_true', bne_iff_ne] at hall
  exact ⟨hall.1, hall.2⟩

/-- What stands below a place is found below it. -/
theorem mem_below {place names : Location} {entry : Entry}
    (h : tree.find? (place ++ names) = some entry) (hne : names ≠ []) :
    names ∈ tree.below place := by
  have hnotRoot : place ++ names ≠ [] := by simp [hne]
  rw [find?, if_neg hnotRoot] at h
  obtain ⟨before, after, hentries, _⟩ := List.lookup_eq_some_iff.1 h
  refine List.mem_filterMap.2 ⟨(place ++ names, entry), by simp [hentries], ?_⟩
  simp [hne]

theorem isName_of_mem_below (h : tree.HasNames) {place names : Location}
    (hnames : names ∈ tree.below place) : names ≠ [] ∧ ∀ name ∈ names, Path.IsName name := by
  obtain ⟨⟨other, entry⟩, hmem, hother⟩ := List.mem_filterMap.1 hnames
  dsimp only at hother
  split at hother
  · next hbelow =>
    cases hother
    simp only [Bool.and_eq_true, List.isPrefixOf_iff_prefix, bne_iff_ne, ne_eq] at hbelow
    obtain ⟨⟨rest, rfl⟩, hne⟩ := hbelow
    rw [List.drop_left]
    refine ⟨?_, fun name hname => h _ _ hmem name (List.mem_append_right _ hname)⟩
    rintro rfl
    exact hne (List.append_nil place)
  · cases hother

theorem kindAt_of_locate {path : String} {place : Location} (h : tree.locate path = .ok place) :
    tree.kindAt path = (tree.find? place).map Entry.kind := by
  rw [kindAt, entry?, h]

theorem descendantsAt_of_locate {path : String} {place : Location}
    (h : tree.locate path = .ok place) : tree.descendantsAt path = tree.below place := by
  rw [descendantsAt, h]

theorem kindAt_of_directory {path : String} {place : Location} (h : tree.locate path = .ok place)
    (hdirectory : tree.find? place = some .directory) :
    (tree.kindAt path == some .directory) = true := by
  rw [kindAt_of_locate h, hdirectory]
  rfl

/-! ## Parts that find no file -/

/-- Wherever these parts start, they find no file. -/
def Barren (tree : Tree) (parts : List Glob.Part) : Prop :=
  ∀ path, ∀ found ∈ tree.expand false parts path, tree.kindAt found ≠ some .file

theorem Barren.literal {parts : List Glob.Part} (h : tree.Barren parts) (name : String) :
    tree.Barren (.literal name :: parts) := by
  intro path found hfound
  rw [expand_literal] at hfound
  split at hfound
  · exact h _ found hfound
  · cases hfound

theorem Barren.names {parts : List Glob.Part} (h : tree.Barren parts) (tokens : List Glob.Token) :
    tree.Barren (.names tokens :: parts) := by
  intro path found hfound
  rw [expand_names] at hfound
  split at hfound
  · obtain ⟨next, _, hnext⟩ := List.mem_flatMap.1 hfound
    exact h next found hnext
  · cases hfound

theorem Barren.anyDepth {parts : List Glob.Part} (h : tree.Barren parts) (part : Glob.Part) :
    tree.Barren (.anyDepth :: part :: parts) := by
  intro path found hfound
  rw [expand_anyDepth_cons] at hfound
  split at hfound
  · obtain ⟨next, _, hnext⟩ := List.mem_flatMap.1 hfound
    exact h next found hnext
  · cases hfound

/-- Any number of directories at the end are directories. -/
theorem barren_anyDepth : tree.Barren [.anyDepth] := by
  intro path found hfound
  rw [expand_anyDepth_nil] at hfound
  split at hfound
  · have hdirectory := (List.mem_filter.1 hfound).2
    rw [beq_iff_eq] at hdirectory
    rw [hdirectory]
    decide
  · cases hfound

/-- Behind any number of directories only names are looked for. -/
theorem barren_literal (h : tree.HasNames) {name : String} (hname : ¬ Path.IsName name)
    (parts : List Glob.Part) : tree.Barren (.anyDepth :: .literal name :: parts) := by
  intro path found hfound
  rw [expand_anyDepth_cons] at hfound
  split at hfound
  · obtain ⟨next, hnext, _⟩ := List.mem_flatMap.1 hfound
    obtain ⟨names, hnames, _⟩ := List.mem_map.1 hnext
    obtain ⟨hbelow, hlast⟩ := List.mem_filter.1 hnames
    have hexists : ∃ place, names ∈ tree.below place := by
      rw [descendantsAt] at hbelow
      split at hbelow
      · exact ⟨_, hbelow⟩
      · cases hbelow
    obtain ⟨place, hplace⟩ := hexists
    obtain ⟨hne, hall⟩ := isName_of_mem_below h hplace
    rw [List.getLast?_eq_some_getLast hne] at hlast
    have hname' : names.getLast hne = name := by simpa [Glob.Part.matchesName] using hlast
    exact absurd (hname' ▸ hall _ (List.getLast_mem hne)) hname
  · cases hfound

/-! ## Parts that find a place -/

/-- The empty name comes first, apart from dots. -/
def Lost : List String → Prop
  | [] => False
  | name :: names => name = "" ∨ name = "." ∧ Lost names

/-- The parts find the place that some names lead to, wherever these names can be followed. -/
def Finds (tree : Tree) (parts : List Glob.Part) (names : List String) : Prop :=
  ∀ path place last, tree.Reaches path place (Path.partsSize names) →
    tree.follow place names = .ok last → (∀ name ∈ names, '/' ∉ name.toList) →
      (Path.isHere path = true → ¬ Lost names) →
        ∃ found ∈ tree.expand false parts path, tree.locate found = .ok last

theorem hasUnder_of_steps {path name : String} {place next : Location} {room : Nat}
    (hpath : tree.locate path = .ok place) (hstep : tree.Steps place name next)
    (hunder : tree.Reaches (Glob.under path name) next room) : tree.hasUnder path name = true := by
  rw [hasUnder]
  split
  · exact kindAt_of_directory hpath hstep.directory
  · next hdots =>
    rw [kindAt_of_locate hunder.leads]
    cases hstep with
    | stay directory _ => simp [directory]
    | up _ => exact absurd (.inr rfl) hdots
    | down _ _ _ _ found => simp [found]

/-- A name that is written out is looked up, whatever it is. -/
theorem Finds.literal {parts : List Glob.Part} {names : List String} (h : tree.Finds parts names)
    (name : String) : tree.Finds (.literal name :: parts) (name :: names) := by
  intro path place last hreaches hfollow hslash hlost
  obtain ⟨next, hstep, hrest⟩ := follow_cons_eq_ok.1 hfollow
  have hname := hslash name List.mem_cons_self
  rw [Path.partsSize] at hreaches
  have hempty (heq : name = "") : Path.isHere path = false := by
    refine Bool.eq_false_iff.2 fun hhere => ?_
    exact hlost hhere (.inl heq)
  have hunder := hreaches.under hstep hname hempty
  rw [expand_literal, if_pos (hasUnder_of_steps hreaches.leads hstep hunder)]
  refine h _ next last hunder hrest (fun other hother => hslash other (.tail _ hother)) ?_
  intro hhere hnames
  obtain ⟨hhere, hdot⟩ := Path.of_isHere_under (of_locate hreaches.leads).1 hname hhere
  exact hlost hhere (.inr ⟨hdot, hnames⟩)

/-- A name among others is found by looking through the directory. -/
theorem Finds.names {parts : List Glob.Part} {names : List String} (h : tree.Finds parts names)
    {tokens : List Glob.Token} {name : String} (hfits : Glob.Fits tokens name.toList)
    (hname : Path.IsName name) : tree.Finds (.names tokens :: parts) (name :: names) := by
  intro path place last hreaches hfollow hslash _
  rw [← List.singleton_append] at hreaches hfollow
  rw [Path.partsSize_append] at hreaches
  obtain ⟨next, hstep, hrest⟩ := follow_append_eq_ok.1 hfollow
  obtain ⟨middle, hdown, _⟩ := follow_cons_eq_ok.1 hstep
  have hfront (other : String) (hother : other ∈ [name]) :
      Path.IsName other ∧ '/' ∉ other.toList := by
    rw [List.mem_singleton.1 hother]
    exact ⟨hname, hslash name List.mem_cons_self⟩
  obtain ⟨hunder, hhere, rfl, entry, hentry⟩ :=
    hreaches.foldl_under (List.cons_ne_nil name []) hfront hstep
  have hchild : name ∈ tree.childrenAt path := by
    refine List.mem_filterMap.2 ⟨[name], ?_, rfl⟩
    rw [descendantsAt_of_locate hreaches.leads]
    exact mem_below hentry (List.cons_ne_nil name [])
  have hmember : name ∈ (tree.childrenAt path).filter fun name =>
      Glob.matchesName tokens name.toList :=
    List.mem_filter.2 ⟨hchild, Glob.matchesName_iff.2 hfits⟩
  obtain ⟨found, hfound, hlast⟩ := h _ _ last hunder hrest
    (fun other hother => hslash other (.tail _ hother))
    (fun hstays => absurd hstays (Bool.eq_false_iff.1 hhere))
  rw [expand_names, if_pos (kindAt_of_directory hreaches.leads hdown.directory)]
  refine ⟨found, List.mem_flatMap.2 ⟨_, List.mem_append_right _ ?_, hfound⟩, hlast⟩
  exact List.mem_map_of_mem hmember

/-- Any number of directories and a name behind them are found by looking through everything. -/
theorem Finds.anyDepth {parts : List Glob.Part} {names : List String} (h : tree.Finds parts names)
    {part : Glob.Part} {name : String} (hmatches : part.matchesName name = true)
    (hname : Path.IsName name) (n : Nat) :
    tree.Finds (.anyDepth :: part :: parts) (List.replicate (n + 1) "**" ++ name :: names) := by
  intro path place last hreaches hfollow hslash _
  have hsplit : List.replicate (n + 1) "**" ++ name :: names =
      (List.replicate (n + 1) "**" ++ [name]) ++ names := by simp
  rw [hsplit] at hreaches hfollow hslash
  rw [Path.partsSize_append] at hreaches
  obtain ⟨next, hsteps, hrest⟩ := follow_append_eq_ok.1 hfollow
  obtain ⟨middle, hdown, _⟩ := follow_cons_eq_ok.1 hsteps
  have hfront (other : String) (hother : other ∈ List.replicate (n + 1) "**" ++ [name]) :
      Path.IsName other ∧ '/' ∉ other.toList := by
    refine ⟨?_, hslash other (List.mem_append_left _ hother)⟩
    rcases List.mem_append.1 hother with hstars | hlast
    · rw [(List.mem_replicate.1 hstars).2]
      exact ⟨by decide, by decide⟩
    · rw [List.mem_singleton.1 hlast]
      exact hname
  have hne : List.replicate (n + 1) "**" ++ [name] ≠ [] := by simp
  obtain ⟨hunder, hhere, rfl, entry, hentry⟩ := hreaches.foldl_under hne hfront hsteps
  have hmember : List.replicate (n + 1) "**" ++ [name] ∈
      (tree.descendantsAt path).filter fun names =>
        part.matchesName (names.getLast?.getD "") := by
    refine List.mem_filter.2 ⟨?_, ?_⟩
    · rw [descendantsAt_of_locate hreaches.leads]
      exact mem_below hentry hne
    · rw [List.getLast?_concat]
      exact hmatches
  obtain ⟨found, hfound, hlast⟩ := h _ _ last hunder hrest
    (fun other hother => hslash other (List.mem_append_right _ hother))
    (fun hstays => absurd hstays (Bool.eq_false_iff.1 hhere))
  rw [expand_anyDepth_cons, if_pos (kindAt_of_directory hreaches.leads hdown.directory)]
  exact ⟨found, List.mem_flatMap.2 ⟨_, List.mem_map_of_mem hmember, hfound⟩, hlast⟩

/-- Parts that spell some names find where these lead, or find no file at all. -/
theorem finds_or_barren (hnames : tree.HasNames) {parts : List Glob.Part} {names : List String}
    (h : Glob.Spells parts names) : tree.Finds parts names ∨ tree.Barren parts := by
  induction hlength : parts.length using Nat.strong_induction_on generalizing parts names with
  | _ length ih =>
    cases h with
    | nil =>
      refine .inl fun path place last hreaches hfollow _ _ => ?_
      cases hfollow
      exact ⟨path, List.mem_singleton_self path, hreaches.leads⟩
    | @literal parts names name rest =>
      rcases ih parts.length (by simp at hlength; omega) rest rfl with hfinds | hbarren
      · exact .inl (hfinds.literal name)
      · exact .inr (hbarren.literal name)
    | @names tokens name parts names hfits hname rest =>
      rcases ih parts.length (by simp at hlength; omega) rest rfl with hfinds | hbarren
      · exact .inl (hfinds.names hfits hname)
      · exact .inr (hbarren.names tokens)
    | @anyDepth parts names n hlast rest =>
      cases rest with
      | nil => exact .inr barren_anyDepth
      | @literal parts names name rest =>
        by_cases hname : Path.IsName name
        · rcases ih parts.length (by simp at hlength; omega) rest rfl with hfinds | hbarren
          · have hmatches : (Glob.Part.literal name).matchesName name = true :=
              beq_self_eq_true name
            exact .inl (hfinds.anyDepth hmatches hname n)
          · exact .inr (hbarren.anyDepth _)
        · exact .inr (barren_literal hnames hname parts)
      | @names tokens name parts names hfits hname rest =>
        rcases ih parts.length (by simp at hlength; omega) rest rfl with hfinds | hbarren
        · have hmatches : (Glob.Part.names tokens).matchesName name = true :=
            Glob.matchesName_iff.2 hfits
          exact .inl (hfinds.anyDepth hmatches hname n)
        · exact .inr (hbarren.anyDepth _)
      | anyDepth => exact absurd rfl hlast

/-! ## Patterns -/

/-- In the working directory nothing has the empty name. -/
theorem expand_of_lost {parts : List Glob.Part} {names : List String}
    (h : Glob.Spells parts names) (hlost : Lost names) {path : String}
    (hhere : Path.isHere path = true) : tree.expand false parts path = [] := by
  have hname {name : String} {names : List String} (hname : Path.IsName name) :
      ¬ Lost (name :: names) := by
    rintro (rfl | ⟨rfl, _⟩)
    · exact absurd hname.notIdle (by decide)
    · exact absurd hname.notIdle (by decide)
  induction h generalizing path with
  | nil => exact hlost.elim
  | literal name _ ih =>
    have hunder : Glob.under path name = name := if_pos hhere
    rw [expand_literal, hunder]
    rcases hlost with rfl | ⟨rfl, hlost⟩
    · have hnothing : tree.hasUnder path "" = false := by
        rw [hasUnder, if_neg (by decide), hunder]
        rfl
      rw [hnothing]
      rfl
    · split
      · exact ih hlost (by decide)
      · rfl
  | names _ isName _ _ => exact absurd hlost (hname isName)
  | anyDepth n _ _ _ =>
    have hstars : Path.IsName "**" := ⟨by decide, by decide⟩
    exact absurd hlost (hname hstars)

/-- The paths that a pattern leads to. -/
def expandPattern (tree : Tree) (pattern : Glob.Pattern) : List String :=
  if pattern.parts.isEmpty then []
  else tree.expand pattern.directoriesOnly pattern.parts (if pattern.absolute then "/" else ".")

theorem locate_root : tree.locate "/" = .ok [] := rfl

theorem locate_here (h : tree.find? tree.here = some .directory) :
    tree.locate "." = .ok tree.here :=
  locate_eq_ok.2 ⟨tree.here, ["."], rfl, follow_cons_eq_ok.2 ⟨tree.here, .stay h rfl, rfl⟩⟩

/-- The path of a file does not end in a slash. -/
theorem getLast?_ne_slash {path : String} {bytes : Payload} (h : tree.read path = .ok bytes) :
    path.toList.getLast? ≠ some '/' := by
  intro hslash
  obtain ⟨place, hlocate, hfile⟩ := entry?_eq_some.1 (read_eq_ok.1 h)
  obtain ⟨_, _, hfollow⟩ := of_locate hlocate
  obtain ⟨front, hfront⟩ := List.getLast?_eq_some_iff.1 hslash
  rw [Path.parts, hfront, Path.split_append_slash, List.map_append] at hfollow
  obtain ⟨middle, _, hlast⟩ := follow_append_eq_ok.1 hfollow
  obtain ⟨next, hstep, hdone⟩ := follow_cons_eq_ok.1 hlast
  cases hdone
  have hdirectory := hstep.directory
  obtain rfl := hstep.of_idle (by decide)
  rw [hfile] at hdirectory
  cases hdirectory

/-- The names of a path are followed from where a pattern starts: the root or the working
directory. -/
theorem exists_reaches_start {path : String} {place : Location}
    (hlocate : tree.locate path = .ok place) {names : List String} (hsome : names ≠ [])
    (hparts : Path.parts path = if Path.isAbsolute path then "" :: names else names) :
    ∃ origin, tree.Reaches (if Path.isAbsolute path then "/" else ".") origin
      (Path.partsSize names) ∧ tree.follow origin names = .ok place := by
  obtain ⟨_, hsize, hfollow⟩ := of_locate hlocate
  have htotal := Path.partsSize_parts path
  rw [hparts] at htotal hfollow
  by_cases hroot : Path.isAbsolute path = true
  · rw [if_pos hroot] at htotal hfollow ⊢
    rw [if_pos hroot] at hfollow
    rw [Path.partsSize] at htotal
    have hempty : "".utf8ByteSize = 0 := rfl
    have hfront : Path.frontSize "/" = 1 := rfl
    obtain ⟨next, hstep, hrest⟩ := follow_cons_eq_ok.1 hfollow
    rw [hstep.of_idle (by decide)] at hrest
    exact ⟨[], ⟨locate_root, by omega⟩, hrest⟩
  · rw [if_neg hroot] at htotal hfollow ⊢
    rw [if_neg hroot] at hfollow
    have hfront : Path.frontSize "." = 0 := rfl
    have hhere : tree.find? tree.here = some .directory := by
      obtain ⟨name, rest, rfl⟩ := List.exists_cons_of_ne_nil hsome
      obtain ⟨next, hstep, _⟩ := follow_cons_eq_ok.1 hfollow
      exact hstep.directory
    exact ⟨tree.here, ⟨locate_here hhere, by omega⟩, hfollow⟩

/-- The path of a file that is read as a pattern without classes finds the file, or no file at
all. -/
theorem expandPattern_finds (hnames : tree.HasNames) {path : String} {pattern : Glob.Pattern}
    (hpattern : Glob.Pattern.ofText path = .ok pattern) (hclass : '[' ∉ path.toList)
    {bytes : Payload} (hread : tree.read path = .ok bytes) :
    (∃ found ∈ tree.expandPattern pattern, tree.read found = .ok bytes) ∨
      ∀ found ∈ tree.expandPattern pattern, tree.kindAt found ≠ some .file := by
  obtain ⟨place, hlocate, hfile⟩ := entry?_eq_some.1 (read_eq_ok.1 hread)
  obtain ⟨habsolute, hdirectories, names, hsome, hspells, hslash, hparts⟩ :=
    Glob.spells_of_ofText hpattern (of_locate hlocate).1 hclass (getLast?_ne_slash hread)
  rw [expandPattern, hdirectories, habsolute]
  split
  · exact .inr nofun
  obtain ⟨origin, hreaches, hfollow⟩ := exists_reaches_start hlocate hsome hparts
  generalize (if Path.isAbsolute path then "/" else ".") = start at hreaches
  rcases finds_or_barren hnames hspells with hfinds | hbarren
  · by_cases hlost : Path.isHere start = true ∧ Lost names
    · rw [expand_of_lost hspells hlost.2 hlost.1]
      exact .inr nofun
    · obtain ⟨found, hfound, hlast⟩ := hfinds start origin place hreaches hfollow hslash
        fun hhere hnames => hlost ⟨hhere, hnames⟩
      exact .inl ⟨found, hfound, read_eq_ok.2 (entry?_eq_some.2 ⟨place, hlast, hfile⟩)⟩
  · exact .inr (hbarren start)

end Tree

end BinaryLayout
