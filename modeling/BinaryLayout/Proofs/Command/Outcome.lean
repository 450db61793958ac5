import BinaryLayout.Proofs.Command.Halves

/-!
# What a run leaves behind

A run ends with an exit code, a text on either output, and a tree of files.  Either it has failed
and left every file as it was, or it has decoded its input and left one text, the printed data, on
standard output or in one file.

There are three groups.

* What is asked for.  `HasLimits`, `HasBytes` and `Decodes` say which limits, which bytes and which
  data a run stands for, in whatever order it looks for them.
* What is found.  `answer_readLimits` and `answer_readSource_cases` tie them to the readers, and
  `prepareIn_of_decodes` says what is prepared.
* What is left.  `Fails`, `Prints` and `Saves` are the three ways to end, and `runIn_cases` says
  when a run ends in which.
-/

namespace BinaryLayout

namespace Tree

theorem entry?_eq_some {tree : Tree} {path : String} {entry : Entry} :
    tree.entry? path = some entry ↔
      ∃ place, tree.locate path = .ok place ∧ tree.find? place = some entry := by
  rw [Tree.entry?]
  cases tree.locate path with
  | error e => simp
  | ok place => simp

/-- A file is read where a path leads to one. -/
theorem read_eq_ok {tree : Tree} {path : String} {bytes : Payload} :
    tree.read path = .ok bytes ↔ tree.entry? path = some (.file bytes) := by
  rw [read, bind_eq_ok, entry?_eq_some]
  refine exists_congr fun place => and_congr_right fun _ => ?_
  cases tree.find? place with
  | none => simp
  | some entry => cases entry <;> simp

end Tree

namespace Command

/-! ## What is asked for -/

/-- The limits that the file at a path holds. -/
def ConfigHolds (tree : Tree) (path : String) (limits : Limits) : Prop :=
  ∃ bytes text, tree.read path = .ok bytes ∧ String.fromUTF8? ⟨bytes⟩ = some text ∧
    Limits.ofJson text = .ok limits

/-- The limits of a run: each is the one among the arguments, else the one in the file, else the
default. -/
def HasLimits (tree : Tree) (arguments : Arguments) (limits : Limits) : Prop :=
  ∃ base,
    (match arguments.config with
      | none => base = {}
      | some path => ConfigHolds tree path base) ∧
    limits = ⟨arguments.depth.getD base.depth, arguments.values.getD base.values⟩

/-- The bytes of a run: those of the digits, those of standard input, or those of the file that the
input stands for. -/
def HasBytes (world : Surroundings) : Source → Payload → Prop
  | .hex digits, bytes => readHex digits = .ok bytes
  | .path input, bytes =>
    if input = "-" then bytes = world.input
    else ∃ path, answer world (resolve input) = .ok path ∧ world.tree.read path = .ok bytes

/-- The data of a run: what its bytes hold by its format, which its limits allow. -/
def Decodes (world : Surroundings) (arguments : Arguments) (values : List Datum) : Prop :=
  ∃ limits format bytes, HasLimits world.tree arguments limits ∧
    Format.ofText limits arguments.format = .ok format ∧ HasBytes world arguments.source bytes ∧
    values = format.decode bytes arguments.offset

/-- A path leads to the file that holds the bytes of a run. -/
def LeadsToInput (world : Surroundings) (source : Source) (output : String) : Prop :=
  ∃ input path place, source = .path input ∧ answer world (resolve input) = .ok path ∧
    world.tree.locate path = .ok place ∧ world.tree.locate output = .ok place

/-- The text of the data of a run. -/
def textOf (arguments : Arguments) (values : List Datum) : String :=
  Datum.printAll (if arguments.pretty then .pretty else .compact) values

/-! ## What is found -/

variable {world : Surroundings} {arguments : Arguments}

theorem answer_readConfig {path : String} {limits : Limits} :
    answer world (readConfig path) = .ok limits ↔ ConfigHolds world.tree path limits := by
  have hread : answer world (FileQueries.read path) = .ok (world.tree.read path) := rfl
  rw [readConfig, answer_bind_ok hread]
  constructor
  · intro h
    cases hbytes : world.tree.read path with
    | error e =>
      rw [hbytes] at h
      cases h
    | ok bytes =>
      rw [hbytes] at h
      dsimp only at h
      split at h
      · cases h
      · rename_i text htext
        split at h
        · cases h
        · rename_i found hfound
          cases h
          exact ⟨bytes, text, hbytes, htext, hfound⟩
  · rintro ⟨bytes, text, hbytes, htext, hlimits⟩
    rw [hbytes]
    dsimp only
    rw [htext]
    dsimp only
    rw [hlimits]
    rfl

theorem answer_readLimits {limits : Limits} :
    answer world (readLimits arguments) = .ok limits ↔ HasLimits world.tree arguments limits := by
  rw [readLimits, HasLimits]
  cases arguments.config with
  | none =>
    constructor
    · intro h
      cases h
      exact ⟨{}, rfl, rfl⟩
    · rintro ⟨_, rfl, rfl⟩
      rfl
  | some path =>
    dsimp only
    rw [answer_bind, bind_eq_ok]
    refine exists_congr fun base => and_congr answer_readConfig ⟨fun h => ?_, fun h => ?_⟩
    · exact (Except.ok.inj h).symm
    · exact congrArg Except.ok h.symm

/-- The file that an input stands for is read, unless the output leads to it. -/
theorem answer_readFile_cases {input path : String} {bytes : Payload}
    (hpath : answer world (resolve input) = .ok path) (hread : world.tree.read path = .ok bytes)
    (output : Option String) :
    answer world (readFile input output) = .ok bytes ∨
      ∃ other, output = some other ∧ LeadsToInput world (.path input) other ∧
        answer world (readFile input output) = .error (.outputIsInput other) := by
  obtain ⟨place, hplace, hfile⟩ := Tree.entry?_eq_some.1 (Tree.read_eq_ok.1 hread)
  cases output with
  | none =>
    refine .inl ?_
    rw [readFile, answer_bind_ok hpath, answer_bind_ok (answer_kind? hplace hfile)]
    dsimp only
    rw [answer_bind_ok (answer_read hplace hfile)]
    rfl
  | some other =>
    by_cases hout : world.tree.locate other = .ok place
    · exact .inr ⟨other, rfl, ⟨input, path, place, rfl, hpath, hplace, hout⟩,
        answer_readFile hpath hplace hfile hout⟩
    · exact .inl (answer_readFile_of_ne hpath hplace hfile hout)

/-- A file that is read is the one that the input stands for. -/
theorem of_answer_readFile {input : String} {output : Option String} {bytes : Payload}
    (h : answer world (readFile input output) = .ok bytes) :
    ∃ path, answer world (resolve input) = .ok path ∧ world.tree.read path = .ok bytes := by
  have hfound := h
  rw [readFile, answer_bind, bind_eq_ok] at hfound
  obtain ⟨path, hpath, hfound⟩ := hfound
  have hkind : answer world (FileQueries.kind? path) =
      .ok ((world.tree.entry? path).map Entry.kind) := rfl
  rw [answer_bind_ok hkind] at hfound
  cases hentry : world.tree.entry? path with
  | none =>
    rw [hentry] at hfound
    cases hfound
  | some entry =>
    cases entry with
    | directory =>
      rw [hentry] at hfound
      cases hfound
    | file found =>
      have hread := Tree.read_eq_ok.2 hentry
      rcases answer_readFile_cases hpath hread output with heq | ⟨_, _, _, heq⟩
      · rw [h] at heq
        cases heq
        exact ⟨path, hpath, hread⟩
      · rw [h] at heq
        cases heq

/-- The bytes of a run are read, unless the output leads to the file that holds them. -/
theorem answer_readSource_cases {bytes : Payload} (h : HasBytes world arguments.source bytes) :
    answer world (readSource arguments) = .ok bytes ∨
      ∃ path, arguments.output = some path ∧ LeadsToInput world arguments.source path ∧
        answer world (readSource arguments) = .error (.outputIsInput path) := by
  rw [readSource]
  cases hsource : arguments.source with
  | hex digits =>
    rw [hsource] at h
    have hdigits : readHex digits = .ok bytes := h
    refine .inl ?_
    show answer world (liftM (readHex digits)) = _
    rw [hdigits]
    rfl
  | path input =>
    rw [hsource, HasBytes] at h
    dsimp only
    split at h
    · rename_i hdash
      rw [if_pos hdash, h]
      exact .inl rfl
    · rename_i hdash
      obtain ⟨path, hpath, hread⟩ := h
      rw [if_neg hdash]
      exact answer_readFile_cases hpath hread arguments.output

theorem hasBytes_of_answer {bytes : Payload}
    (h : answer world (readSource arguments) = .ok bytes) :
    HasBytes world arguments.source bytes := by
  rw [readSource] at h
  cases hsource : arguments.source with
  | hex digits =>
    rw [hsource] at h
    show readHex digits = .ok bytes
    cases hdigits : readHex digits with
    | error failure =>
      dsimp only at h
      rw [hdigits] at h
      cases h
    | ok found =>
      dsimp only at h
      rw [hdigits] at h
      cases h
      rfl
  | path input =>
    rw [hsource] at h
    dsimp only at h
    rw [HasBytes]
    split at h
    · rename_i hdash
      rw [if_pos hdash]
      cases h
      rfl
    · rename_i hdash
      rw [if_neg hdash]
      exact of_answer_readFile h

/-- A run that prepares anything decodes. -/
theorem decodes_of_prepareIn {action : Action} (h : prepareIn world arguments = .ok action) :
    ∃ values, Decodes world arguments values := by
  rw [prepareIn_eq, bind_eq_ok] at h
  obtain ⟨limits, hlimits, h⟩ := h
  split at h
  · cases h
  · rename_i format hformat
    obtain ⟨bytes, hbytes, _⟩ := bind_eq_ok.1 h
    exact ⟨_, limits, format, bytes, answer_readLimits.1 hlimits, hformat,
      hasBytes_of_answer hbytes, rfl⟩

/-- A run that decodes prepares to leave its data, unless its output leads to its input. -/
theorem prepareIn_of_decodes {values : List Datum} (h : Decodes world arguments values) :
    (∃ bytes, prepareIn world arguments = .ok (.ofValues arguments bytes values)) ∨
      ∃ path, arguments.output = some path ∧ LeadsToInput world arguments.source path ∧
        prepareIn world arguments = .error (.outputIsInput path) := by
  obtain ⟨limits, format, bytes, hlimits, hformat, hbytes, rfl⟩ := h
  rw [prepareIn_of_accepts ⟨limits, answer_readLimits.2 hlimits, hformat⟩]
  rcases answer_readSource_cases hbytes with heq | ⟨path, hpath, hleads, heq⟩
  · rw [heq]
    exact .inl ⟨bytes, rfl⟩
  · rw [heq]
    exact .inr ⟨path, hpath, hleads, rfl⟩

/-! ## What is left -/

/-- Why the output of a run that decodes is not written: it leads to the input, or the directory
above it cannot be made, or it cannot be written when that has been made. -/
inductive OutputFails (world : Surroundings) (source : Source) (path text : String) :
    Failure → Prop where
  | refused (leads : LeadsToInput world source path) :
      OutputFails world source path text (.outputIsInput path)
  | noDirectory {e : FileError} {made : Tree}
      (run : (makeDirectories (Path.ancestors path) : StateM Tree (Except FileError Unit)).run
        world.tree = (.error e, made)) :
      OutputFails world source path text
        (.directoryNotMade ((Path.ancestors path).head?.getD "") e)
  | notWritten {e : FileError} {made : Tree}
      (run : (makeDirectories (Path.ancestors path) : StateM Tree (Except FileError Unit)).run
        world.tree = (.ok (), made))
      (write : made.write path text = .error e) :
      OutputFails world source path text (.outputNotWritten path e)

theorem Failure.prefix_lines (message : String) (hint? : Option String) :
    "error: ".toList <+: (lines message hint?).toList := by
  unfold lines
  simp only [String.toList_append, List.append_assoc]
  exact List.prefix_append _ _

/-- A run has failed: there is a message, and every file is as it was. -/
structure Fails (world : Surroundings) (run : Outcome × Tree) : Prop where
  exitCode : run.1.exitCode = 2
  output : run.1.output = ""
  error : "error: ".toList <+: run.1.error.toList
  files : ∀ place, world.tree.SameFileAt run.2 place

/-- A run has printed a text in a line, and nothing else. -/
structure Prints (world : Surroundings) (text : String) (run : Outcome × Tree) : Prop where
  exitCode : run.1.exitCode = 0
  output : run.1.output = text ++ "\n"
  error : run.1.error = ""
  tree : run.2 = world.tree

/-- A run has saved a text where a path leads, and printed nothing.  No other file is new or
changed. -/
structure Saves (world : Surroundings) (path text : String) (run : Outcome × Tree) : Prop where
  exitCode : run.1.exitCode = 0
  output : run.1.output = ""
  files : ∃ place, run.2.locate path = .ok place ∧
    run.2.find? place = some (.file text.toUTF8.data) ∧
    ∀ other, other ≠ place → world.tree.SameFileAt run.2 other

theorem fails_of_grows {failure : Failure} {tree : Tree} (h : world.tree.Grows tree) :
    Fails world (.failed failure, tree) where
  exitCode := rfl
  output := rfl
  error := Failure.prefix_lines failure.message failure.hint?
  files := h.sameFileAt

/-- Saving a text fails for the output, or the text is saved. -/
theorem run_save_cases (world : Surroundings) (source : Source) (path text note : String) :
    (∃ failure, OutputFails world source path text failure ∧
      (((Action.save path text note).perform : StateM Tree Outcome).run world.tree).1 =
        .failed failure ∧
      Fails world (((Action.save path text note).perform : StateM Tree Outcome).run world.tree)) ∨
    Saves world path text
      (((Action.save path text note).perform : StateM Tree Outcome).run world.tree) := by
  rw [run_save]
  split
  · rename_i e made hmade
    exact .inl ⟨_, .noDirectory hmade, rfl, fails_of_grows (run_makeDirectories_grows hmade)⟩
  · rename_i made hmade
    have hgrows := run_makeDirectories_grows hmade
    split
    · rename_i e hwrite
      exact .inl ⟨_, .notWritten hmade hwrite, rfl, fails_of_grows hgrows⟩
    · rename_i next hwrite
      obtain ⟨place, hlocate, hfile, hothers⟩ := Tree.sameFileAt_of_write hwrite
      refine .inr ⟨rfl, rfl, place, hlocate, hfile, fun other hother bytes => ?_⟩
      exact (hothers other hother bytes).trans (hgrows.sameFileAt other bytes)

end Command

end BinaryLayout
