import BinaryLayout.Command.Run
import BinaryLayout.Proofs.Files.Tree

/-!
# The two halves of a run

A run asks first and then acts.  This module says what each half can do, so that later proofs do
not open either of them.

There are two groups.

* Asking.  `answer` is what a query finds among some surroundings.  `prepareIn_eq` is the order in
  which the limits, the format and the bytes are read, and `answer_readFile` is how the bytes of a
  file are found.
* Acting.  `runIn_of_source_error` and `runIn_of_source_ok` say how a run goes on when its bytes
  have been asked for.  `run_save` is how a text is saved, and `run_makeDirectories_grows` is what
  that does to the tree before the text is written.
-/

namespace BinaryLayout.Command

/-! ## Asking -/

/-- What a query finds among these surroundings. -/
def answer {α : Type} (world : Surroundings) (query : ExceptT Failure (ReaderM Surroundings) α) :
    Except Failure α :=
  query.run world

theorem answer_bind {α β : Type} (world : Surroundings)
    (query : ExceptT Failure (ReaderM Surroundings) α)
    (next : α → ExceptT Failure (ReaderM Surroundings) β) :
    answer world (query >>= next) = answer world query >>= fun a => answer world (next a) := by
  show (ExceptT.bindCont next (query.run world)).run world = _
  rw [answer]
  cases query.run world <;> rfl

/-- A query that finds something goes on with that. -/
theorem answer_bind_ok {α β : Type} {world : Surroundings}
    {query : ExceptT Failure (ReaderM Surroundings) α} {a : α}
    (h : answer world query = .ok a) (next : α → ExceptT Failure (ReaderM Surroundings) β) :
    answer world (query >>= next) = answer world (next a) := by
  rw [answer_bind, h]
  rfl

/-- The limits come first, then the format, and then the bytes. -/
theorem prepareIn_eq (world : Surroundings) (arguments : Arguments) :
    prepareIn world arguments = do
      let limits ← answer world (readLimits arguments)
      match Format.ofText limits arguments.format with
      | .error e => .error (.formatInvalid e)
      | .ok format =>
        let bytes ← answer world (readSource arguments)
        return .ofValues arguments bytes (format.decode bytes arguments.offset) := by
  show answer world (prepare arguments) = _
  rw [prepare, answer_bind]
  congr 1
  funext limits
  cases Format.ofText limits arguments.format with
  | error e => rfl
  | ok format => exact answer_bind world _ _

/-- A run in which the limits are in order and the format is accepted under them. -/
def Accepts (world : Surroundings) (arguments : Arguments) (format : Format) : Prop :=
  ∃ limits, answer world (readLimits arguments) = .ok limits ∧
    Format.ofText limits arguments.format = .ok format

/-- A run in which the limits or the format fail ends there, whatever its input is. -/
theorem runIn_of_not_accepts {world : Surroundings} {arguments : Arguments}
    (h : ∀ format, ¬ Accepts world arguments format) :
    ∃ failure, runIn world arguments = (.failed failure, world.tree) := by
  have hprepared : ∃ failure, prepareIn world arguments = .error failure := by
    rw [prepareIn_eq]
    cases hlimits : answer world (readLimits arguments) with
    | error failure => exact ⟨failure, rfl⟩
    | ok limits =>
      cases hformat : Format.ofText limits arguments.format with
      | error e =>
        refine ⟨.formatInvalid e, ?_⟩
        simp only [bind, Except.bind, hformat]
      | ok format => exact absurd ⟨limits, hlimits, hformat⟩ (h format)
  obtain ⟨failure, hfailure⟩ := hprepared
  exact ⟨failure, by rw [runIn, hfailure]⟩

/-- What is prepared when limits and format are in order depends on the bytes alone. -/
theorem prepareIn_of_accepts {world : Surroundings} {arguments : Arguments} {format : Format}
    (h : Accepts world arguments format) :
    prepareIn world arguments = do
      let bytes ← answer world (readSource arguments)
      return .ofValues arguments bytes (format.decode bytes arguments.offset) := by
  obtain ⟨limits, hlimits, hformat⟩ := h
  rw [prepareIn_eq, hlimits]
  simp only [bind, Except.bind, hformat]

section

variable {world : Surroundings} {path output : String} {place : Location} {content : Payload}

/-- A path to a file is known to lead to one. -/
theorem answer_kind? (hplace : world.tree.locate path = .ok place)
    (hfile : world.tree.find? place = some (.file content)) :
    answer world (FileQueries.kind? path) = .ok (some .file) := by
  have hentry : world.tree.entry? path = some (.file content) := by
    rw [Tree.entry?, hplace]
    exact hfile
  show Except.ok ((world.tree.entry? path).map Entry.kind) = _
  rw [hentry]
  rfl

/-- The content of a file is what is read. -/
theorem answer_read (hplace : world.tree.locate path = .ok place)
    (hfile : world.tree.find? place = some (.file content)) :
    answer world (FileQueries.read path) = .ok (.ok content) := by
  have hread : world.tree.read path = .ok content := by
    rw [Tree.read, hplace]
    simp only [bind, Except.bind]
    rw [hfile]
  show Except.ok (world.tree.read path) = _
  rw [hread]

/-- Two paths are the same if they lead to one location. -/
theorem answer_same (hplace : world.tree.locate path = .ok place)
    (hout : world.tree.locate output = .ok place) :
    answer world (FileQueries.same output path) = .ok true := by
  have hsame : (FileQueries.same output path : ReaderM Surroundings Bool) world = true := by
    simp only [FileQueries.same, hplace, hout, beq_self_eq_true]
  show Except.ok ((FileQueries.same output path : ReaderM Surroundings Bool) world) = _
  rw [hsame]

/-- Two paths are not the same if one leads elsewhere or nowhere. -/
theorem answer_same_of_ne (hplace : world.tree.locate path = .ok place)
    (hout : world.tree.locate output ≠ .ok place) :
    answer world (FileQueries.same output path) = .ok false := by
  have hsame : (FileQueries.same output path : ReaderM Surroundings Bool) world = false := by
    simp only [FileQueries.same, hplace]
    cases hother : world.tree.locate output with
    | error e => rfl
    | ok other =>
      have hne : other ≠ place := by
        intro heq
        obtain rfl := heq
        exact hout hother
      exact beq_false_of_ne hne
  show Except.ok ((FileQueries.same output path : ReaderM Surroundings Bool) world) = _
  rw [hsame]

variable {input : String}

/-- The input is refused if the output leads to its file. -/
theorem answer_readFile (hpath : answer world (resolve input) = .ok path)
    (hplace : world.tree.locate path = .ok place)
    (hfile : world.tree.find? place = some (.file content))
    (hout : world.tree.locate output = .ok place) :
    answer world (readFile input (some output)) = .error (.outputIsInput output) := by
  rw [readFile, answer_bind_ok hpath, answer_bind_ok (answer_kind? hplace hfile)]
  dsimp only
  rw [answer_bind_ok (answer_same hplace hout)]
  rfl

/-- Otherwise its content is read. -/
theorem answer_readFile_of_ne (hpath : answer world (resolve input) = .ok path)
    (hplace : world.tree.locate path = .ok place)
    (hfile : world.tree.find? place = some (.file content))
    (hout : world.tree.locate output ≠ .ok place) :
    answer world (readFile input (some output)) = .ok content := by
  rw [readFile, answer_bind_ok hpath, answer_bind_ok (answer_kind? hplace hfile)]
  dsimp only
  rw [answer_bind_ok (answer_same_of_ne hplace hout)]
  rw [if_neg Bool.false_ne_true]
  rw [answer_bind_ok (answer_read hplace hfile)]
  rfl

end

/-! ## Acting -/

/-- A run without bytes changes nothing. -/
theorem runIn_of_source_error {world : Surroundings} {arguments : Arguments} {format : Format}
    (h : Accepts world arguments format) {failure : Failure}
    (hsource : answer world (readSource arguments) = .error failure) :
    runIn world arguments = (.failed failure, world.tree) := by
  rw [runIn, prepareIn_of_accepts h, hsource]
  rfl

/-- A run with an output saves the printed data there. -/
theorem runIn_of_source_ok {world : Surroundings} {arguments : Arguments} {format : Format}
    (h : Accepts world arguments format) {bytes : Payload} {output : String}
    (hsource : answer world (readSource arguments) = .ok bytes)
    (houtput : arguments.output = some output) :
    ∃ note, runIn world arguments =
      ((Action.save output (Datum.printAll (if arguments.pretty then .pretty else .compact)
        (format.decode bytes arguments.offset)) note).perform : StateM Tree Outcome).run
          world.tree := by
  rw [runIn, prepareIn_of_accepts h, hsource]
  simp only [bind, Except.bind, pure, Except.pure, Action.ofValues, houtput]
  exact ⟨_, rfl⟩

/-- Whether all directories can be made or not, nothing else is done to the tree. -/
theorem run_makeDirectories_grows {tree made : Tree} {paths : List String}
    {result : Except FileError Unit}
    (h : (makeDirectories paths : StateM Tree (Except FileError Unit)).run tree =
      (result, made)) : tree.Grows made := by
  have hgrows := Tree.onlyGrows_makeDirectories paths tree
  rw [h] at hgrows
  exact hgrows

/-- A text is written when all directories above its path have been made. -/
theorem run_save (tree : Tree) (path text note : String) :
    ((Action.save path text note).perform : StateM Tree Outcome).run tree =
      match (makeDirectories (Path.ancestors path) :
        StateM Tree (Except FileError Unit)).run tree with
      | (.error e, made) =>
        (.failed (.directoryNotMade ((Path.ancestors path).head?.getD "") e), made)
      | (.ok (), made) =>
        match made.write path text with
        | .error e => (.failed (.outputNotWritten path e), made)
        | .ok next => (.saved note, next) := by
  rw [Action.perform, StateT.run_bind]
  generalize (makeDirectories (Path.ancestors path) :
    StateM Tree (Except FileError Unit)).run tree = directories
  obtain ⟨result, made⟩ := directories
  cases result with
  | error e => rfl
  | ok _ =>
    have hrun : (FileChanges.write path text : StateM Tree (Except FileError Unit)).run made =
        Tree.change (fun tree => tree.write path text) made := rfl
    rw [Tree.change] at hrun
    show StateT.run (FileChanges.write path text >>= _) made = _
    rw [StateT.run_bind, hrun]
    dsimp only
    cases made.write path text <;> rfl

end BinaryLayout.Command
