import BinaryLayout.Proofs.Command.Halves

/-!
# Whether a run keeps the file it decodes

A run refuses an output path that leads to its input.  It asks before it makes the directories
above the output.  A path such as `new/../data.bin` leads nowhere while `new` is missing, so it
passes the test, and leads to `data.bin` once `new` has been made.

There are two groups.

* Paths that come to lead somewhere.  `EndsAt` is where a path leads when the directories above it
  have been made, and `Uncovers` says that it did not lead there before.
* The input of a run.  Saving a text keeps every file that its path does not end at
  (`find?_run_save`), and `input_kept_unless_uncovered` is the whole account for the file that is
  decoded.
-/

namespace BinaryLayout

/-! ## Paths that come to lead somewhere -/

namespace Tree

/-- A path leads to this location when the directories above it have been made. -/
def EndsAt (tree : Tree) (path : String) (place : Location) : Prop :=
  ∃ made,
    (makeDirectories (Path.ancestors path) : StateM Tree (Except FileError Unit)).run tree =
      (.ok (), made) ∧
    made.locate path = .ok place

/-- Making directories is what lets a path lead to this location. -/
def Uncovers (tree : Tree) (path : String) (place : Location) : Prop :=
  tree.EndsAt path place ∧ tree.locate path ≠ .ok place

/-- A path is uncovered only if it led nowhere. -/
theorem Uncovers.locate_ne_ok {tree : Tree} {path : String} {place : Location}
    (h : tree.Uncovers path place) (other : Location) : tree.locate path ≠ .ok other := by
  obtain ⟨⟨made, hmade, hplace⟩, hne⟩ := h
  intro hother
  have hkept := (Command.run_makeDirectories_grows hmade).locate hother
  rw [hplace] at hkept
  cases hkept
  exact hne hother

end Tree

namespace Command

/-! ## The input of a run -/

/-- Saving a text keeps the files that the path does not end at. -/
theorem find?_run_save {tree : Tree} {path : String} {place : Location} {content : Payload}
    (hfile : tree.find? place = some (.file content)) (hends : ¬ tree.EndsAt path place)
    (text note : String) :
    (((Action.save path text note).perform : StateM Tree Outcome).run tree).2.find? place =
      some (.file content) := by
  rw [run_save]
  split
  · rename_i e made hmade
    exact (run_makeDirectories_grows hmade).find?_eq_some hfile
  · rename_i made hmade
    have hkept := (run_makeDirectories_grows hmade).find?_eq_some hfile
    split
    · exact hkept
    · rename_i next hwrite
      obtain ⟨written, _, rfl, hlocate⟩ := Tree.write_eq_ok hwrite
      have hne : place ≠ written := by
        intro heq
        obtain rfl := heq
        refine hends ⟨made, hmade, hlocate ?_⟩
        rw [hkept]
        exact Option.some_ne_none _
      rw [Tree.find?_insert_of_ne made hne]
      exact hkept

/-- Saving a text puts it where the path ends, if that is a file. -/
theorem run_save_of_endsAt {tree : Tree} (hrooted : tree.IsRooted) {path : String}
    {place : Location} {content : Payload} (hfile : tree.find? place = some (.file content))
    (hends : tree.EndsAt path place) (text note : String) :
    ∃ next,
      ((Action.save path text note).perform : StateM Tree Outcome).run tree = (.saved note, next) ∧
        next.find? place = some (.file text.toUTF8.data) := by
  obtain ⟨made, hmade, hlocate⟩ := hends
  have hgrows := run_makeDirectories_grows hmade
  have hkept := hgrows.find?_eq_some hfile
  have hwrite := Tree.write_of_locate (hgrows.isRooted hrooted) hlocate hkept text
  refine ⟨made.insert place (.file text.toUTF8.data), ?_, ?_⟩
  · rw [run_save, hmade]
    dsimp only
    rw [hwrite]
  · exact Tree.find?_insert made (Tree.ne_nil_of_find?_eq_file hkept) _

/-- A run reads its bytes from the file that its input stands for. -/
theorem readSource_of_path {m : Type → Type} [Monad m] [FileQueries m] {arguments : Arguments}
    {input : String} (hsource : arguments.source = .path input) (hinput : input ≠ "-") :
    (readSource arguments : ExceptT Failure m Payload) = readFile input arguments.output := by
  rw [readSource, hsource]
  dsimp only
  rw [if_neg hinput]

/-- A run that gets past its limits and its format keeps the file it decodes, unless making the
directories above the output is what lets the output lead to that file: then the file holds the
printed data in the end.  An output that leads to the file from the start is refused. -/
theorem input_kept_unless_uncovered {world : Surroundings} {arguments : Arguments}
    {input output path : String} {place : Location} {content : Payload}
    (hsource : arguments.source = .path input) (hinput : input ≠ "-")
    (houtput : arguments.output = some output)
    (hpath : answer world (resolve input) = .ok path)
    (hplace : world.tree.locate path = .ok place)
    (hfile : world.tree.find? place = some (.file content)) :
    ((∀ format, ¬ Accepts world arguments format) →
        ∃ failure, runIn world arguments = (.failed failure, world.tree)) ∧
      ∀ format, Accepts world arguments format →
        (world.tree.locate output = .ok place →
          runIn world arguments = (.failed (.outputIsInput output), world.tree)) ∧
        (¬ world.tree.Uncovers output place →
          (runIn world arguments).2.find? place = some (.file content)) ∧
        (world.tree.IsRooted → world.tree.Uncovers output place →
          ∃ note next,
            runIn world arguments = (.saved note, next) ∧
            next.find? place = some (.file (Datum.printAll
              (if arguments.pretty then .pretty else .compact)
              (format.decode content arguments.offset)).toUTF8.data)) := by
  refine ⟨runIn_of_not_accepts, fun format haccepts => ?_⟩
  have hsource : (readSource arguments : ExceptT Failure (ReaderM Surroundings) Payload) =
      readFile input (some output) := by
    rw [readSource_of_path hsource hinput, houtput]
  have hrefused (hout : world.tree.locate output = .ok place) :
      runIn world arguments = (.failed (.outputIsInput output), world.tree) := by
    refine runIn_of_source_error haccepts ?_
    rw [hsource]
    exact answer_readFile hpath hplace hfile hout
  have hread (hout : world.tree.locate output ≠ .ok place) :
      answer world (readSource arguments) = .ok content := by
    rw [hsource]
    exact answer_readFile_of_ne hpath hplace hfile hout
  refine ⟨hrefused, fun hkept => ?_, fun hrooted huncovers => ?_⟩
  · by_cases hout : world.tree.locate output = .ok place
    · rw [hrefused hout]
      exact hfile
    · obtain ⟨note, hrun⟩ := runIn_of_source_ok haccepts (hread hout) houtput
      have hends : ¬ world.tree.EndsAt output place := fun hends => hkept ⟨hends, hout⟩
      rw [hrun]
      exact find?_run_save hfile hends _ _
  · obtain ⟨hends, hout⟩ := huncovers
    obtain ⟨note, hrun⟩ := runIn_of_source_ok haccepts (hread hout) houtput
    rw [hrun]
    exact ⟨note, run_save_of_endsAt hrooted hfile hends _ _⟩

/-- A working directory with one file in it. -/
def oneFile : Surroundings := ⟨⟨[], [(["data.bin"], .file #[1])]⟩, #[]⟩

theorem isRooted_oneFile : oneFile.tree.IsRooted := by
  intro place entry h
  by_cases hplace : place = ["data.bin"]
  · subst hplace
    rfl
  · have hne : (place == ["data.bin"]) = false := by simpa using hplace
    rw [Tree.find?] at h
    split at h
    · rename_i hroot
      subst hroot
      rfl
    · simp [oneFile, List.lookup_cons, hne] at h

/-- Arguments to decode that file, with an output that leads to it once a directory is made. -/
def throughNew : Arguments where
  format := "C"
  source := .path "data.bin"
  offset := 0
  output := some "new/../data.bin"
  pretty := false
  quiet := false
  config := none
  depth := none
  values := none

theorem read_throughNew :
    Arguments.read ["C", "data.bin", "-o", "new/../data.bin"] = .ok throughNew := by
  simp [Arguments.read, Draft.read, Word.ofText, Draft.place, Request.ofLetter, Setting.takes,
    Draft.set, path?, once, orUsage, Draft.arguments?, throughNew, bind, Except.bind]

theorem accepts_throughNew :
    Accepts oneFile throughNew ⟨"C", .field none (.number (.byte .unsigned)) 1 .done⟩ :=
  ⟨{}, rfl, by cbv⟩

theorem endsAt_throughNew : oneFile.tree.EndsAt "new/../data.bin" ["data.bin"] :=
  ⟨⟨[], [(["data.bin"], .file #[1]), (["new"], .directory)]⟩, rfl, rfl⟩

/-- The file of one byte ends up with the text of three bytes. -/
theorem input_lost_through_new :
    ∃ note next, runIn oneFile throughNew = (.saved note, next) ∧
      next.find? ["data.bin"] = some (.file "[1]".toUTF8.data) := by
  have hnowhere : oneFile.tree.locate "new/../data.bin" = .error .notFound := rfl
  have huncovers : oneFile.tree.Uncovers "new/../data.bin" ["data.bin"] := by
    refine ⟨endsAt_throughNew, ?_⟩
    rw [hnowhere]
    exact nofun
  obtain ⟨_, hruns⟩ := @input_kept_unless_uncovered oneFile throughNew "data.bin"
    "new/../data.bin" "data.bin" ["data.bin"] #[1] rfl (by decide) rfl rfl rfl rfl
  obtain ⟨_, _, hlost⟩ := hruns _ accepts_throughNew
  exact hlost isRooted_oneFile huncovers

/-- Neither is the input always kept, nor is every output refused that ends at the input. -/
theorem not_input_kept :
    ¬ ∀ (world : Surroundings) (words : List String) (arguments : Arguments)
        (input output path : String) (place : Location) (content : Payload),
      Arguments.read words = .ok arguments → arguments.source = .path input → input ≠ "-" →
      arguments.output = some output → world.tree.IsRooted →
      answer world (resolve input) = .ok path → world.tree.locate path = .ok place →
      world.tree.find? place = some (.file content) →
        (runIn world arguments).2.find? place = some (.file content) ∧
        (world.tree.EndsAt output place →
          runIn world arguments = (.failed (.outputIsInput output), world.tree)) := by
  intro h
  obtain ⟨hkept, _⟩ := h oneFile _ throughNew "data.bin" "new/../data.bin" "data.bin" ["data.bin"]
    #[1] read_throughNew rfl (by decide) rfl isRooted_oneFile rfl rfl rfl
  have hlost : (runIn oneFile throughNew).2.find? ["data.bin"] = some (.file #[91, 49, 93]) := by
    decide +kernel
  rw [hlost] at hkept
  exact absurd hkept (by decide)

end Command

end BinaryLayout
