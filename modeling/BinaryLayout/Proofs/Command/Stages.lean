import BinaryLayout.Proofs.Command.Outcome
import Mathlib.Tactic.Ring

/-!
# The order in which a run fails

A run goes through stages: the limits, the format, the bytes, and then the output.  A stage that
fails ends the run, so how the run ends then depends on nothing that belongs to a later stage.

There are three groups.

* Files that are left alone.  `Tree.read_congr` says that a file is read alike in all trees that
  hold it and have the same directories, whatever their other files are.
* Agreement.  `ConfigFails` says why a config gives no limits, and `SameConfig` and `SameFormat`
  what two runs have in common that are given the same limits and the same format.
* Runs.  `StopsWith` is a run that ends with an error and leaves the tree as it is, and
  `runIn_stages` goes through the stages in order.
-/

namespace BinaryLayout

/-! ## Files that are left alone -/

namespace Tree

variable {tree other : Tree}

/-- A path leads to the same file where the directories are the same. -/
theorem follow_congr
    (hdirectories : ∀ place, tree.find? place = some .directory →
      other.find? place = some .directory)
    {origin place : Location} {parts : List String} {bytes : Payload}
    (h : tree.follow origin parts = .ok place) (hfile : tree.find? place = some (.file bytes))
    (hother : other.find? place = some (.file bytes)) : other.follow origin parts = .ok place := by
  induction parts generalizing origin with
  | nil => exact h
  | cons part rest ih =>
    obtain ⟨next, hstep, hrest⟩ := follow_cons_eq_ok.1 h
    refine follow_cons_eq_ok.2 ⟨next, ?_, ih hrest⟩
    cases hstep with
    | stay hdirectory hidle => exact .stay (hdirectories _ hdirectory) hidle
    | up hdirectory => exact .up (hdirectories _ hdirectory)
    | @down _ entry hdirectory hidle hup hshort hfound =>
      cases entry with
      | directory =>
        exact .down (hdirectories _ hdirectory) hidle hup hshort (hdirectories _ hfound)
      | file content =>
        -- No part leads on from a file, so this is the one that the path leads to.
        cases rest with
        | nil =>
          cases hrest
          exact .down (hdirectories _ hdirectory) hidle hup hshort hother
        | cons part rest =>
          rw [follow, hfound] at hrest
          cases hrest

/-- A file is read alike where the directories are the same, whatever the other files are. -/
theorem read_congr (hhere : other.here = tree.here)
    (hdirectories : ∀ place, tree.find? place = some .directory →
      other.find? place = some .directory)
    {path : String} {place : Location} {bytes : Payload} (hplace : tree.locate path = .ok place)
    (hfile : tree.find? place = some (.file bytes))
    (hother : other.find? place = some (.file bytes)) : other.read path = tree.read path := by
  obtain ⟨⟨origin, parts⟩, hstart, hfollow⟩ := bind_eq_ok.1 hplace
  have hfollows : other.follow origin parts = .ok place :=
    follow_congr hdirectories hfollow hfile hother
  have hlocate : other.locate path = .ok place := by
    rw [locate, start_eq_of_here_eq hhere, hstart]
    exact hfollows
  rw [read_eq_ok.2 (entry?_eq_some.2 ⟨place, hplace, hfile⟩),
    read_eq_ok.2 (entry?_eq_some.2 ⟨place, hlocate, hother⟩)]

end Tree

namespace Command

/-! ## Agreement -/

/-- Why the file at a path gives no limits: it cannot be read, it is no text, or the text is refused
as limits. -/
inductive ConfigFails (tree : Tree) (path : String) : Failure → Prop where
  | unread {e : FileError} (read : tree.read path = .error e) :
      ConfigFails tree path (.configUnreadable path e.message)
  | noText {bytes : Payload} (read : tree.read path = .ok bytes)
      (text : String.fromUTF8? ⟨bytes⟩ = none) :
      ConfigFails tree path (.configUnreadable path "stream did not contain valid UTF-8")
  | noLimits {bytes : Payload} {text : String} {refusal : Json.Refusal}
      (read : tree.read path = .ok bytes) (decoded : String.fromUTF8? ⟨bytes⟩ = some text)
      (json : Limits.ofJson text = .error refusal) :
      ConfigFails tree path (.configInvalid path refusal)

/-- Two runs have the same config: none, or one that reads alike in both. -/
structure SameConfig (world other : Surroundings) (arguments others : Arguments) : Prop where
  path : others.config = arguments.config
  read : ∀ path, arguments.config = some path → other.tree.read path = world.tree.read path

/-- Two runs have the same format, and the same limits among their arguments. -/
structure SameFormat (arguments others : Arguments) : Prop where
  format : others.format = arguments.format
  depth : others.depth = arguments.depth
  values : others.values = arguments.values

variable {world other : Surroundings} {arguments others : Arguments}

/-- Two runs have the same config if it is one file in the same directories, whatever other files
there are. -/
theorem sameConfig_of_file {path : String} {place : Location} {bytes : Payload}
    (hpath : arguments.config = some path) (hsame : others.config = arguments.config)
    (hhere : other.tree.here = world.tree.here)
    (hdirectories : ∀ place, world.tree.find? place = some .directory →
      other.tree.find? place = some .directory)
    (hplace : world.tree.locate path = .ok place)
    (hfile : world.tree.find? place = some (.file bytes))
    (hother : other.tree.find? place = some (.file bytes)) :
    SameConfig world other arguments others where
  path := hsame
  read found hfound := by
    obtain rfl : path = found := Option.some.inj (hpath.symm.trans hfound)
    exact Tree.read_congr hhere hdirectories hplace hfile hother

theorem configFails_of_read_eq {tree next : Tree} {path : String} {failure : Failure}
    (hread : next.read path = tree.read path) (h : ConfigFails tree path failure) :
    ConfigFails next path failure := by
  cases h with
  | unread h => exact .unread (hread.trans h)
  | noText h htext => exact .noText (hread.trans h) htext
  | noLimits h htext hjson => exact .noLimits (hread.trans h) htext hjson

/-- The limits of a run are those of every run with the same config and the same limits among its
arguments. -/
theorem hasLimits_of_same {limits : Limits} (hconfig : SameConfig world other arguments others)
    (hformat : SameFormat arguments others) (h : HasLimits world.tree arguments limits) :
    HasLimits other.tree others limits := by
  obtain ⟨base, hbase, rfl⟩ := h
  refine ⟨base, ?_, by rw [hformat.depth, hformat.values]⟩
  rw [hconfig.path]
  cases hpath : arguments.config with
  | none =>
    rw [hpath] at hbase
    exact hbase
  | some path =>
    rw [hpath] at hbase
    obtain ⟨bytes, text, hread, hlimits⟩ := hbase
    exact ⟨bytes, text, (hconfig.read path hpath).trans hread, hlimits⟩

/-! ## Runs -/

/-- A config that gives no limits fails when it is read. -/
theorem answer_readConfig_of_fails {path : String} {failure : Failure}
    (h : ConfigFails world.tree path failure) :
    answer world (readConfig path) = .error failure := by
  have hquery : answer world (FileQueries.read path) = .ok (world.tree.read path) := rfl
  rw [readConfig, answer_bind_ok hquery]
  cases h with
  | unread hread =>
    rw [hread]
    rfl
  | noText hread htext =>
    rw [hread]
    dsimp only
    rw [htext]
    rfl
  | noLimits hread htext hjson =>
    rw [hread]
    dsimp only
    rw [htext]
    dsimp only
    rw [hjson]
    rfl

/-- A config gives limits, or there is a reason why not. -/
theorem configHolds_or_fails (tree : Tree) (path : String) :
    (∃ limits, ConfigHolds tree path limits) ∨ ∃ failure, ConfigFails tree path failure := by
  cases hread : tree.read path with
  | error e => exact .inr ⟨_, .unread hread⟩
  | ok bytes =>
    cases htext : String.fromUTF8? ⟨bytes⟩ with
    | none => exact .inr ⟨_, .noText hread htext⟩
    | some text =>
      cases hjson : Limits.ofJson text with
      | error refusal => exact .inr ⟨_, .noLimits hread htext hjson⟩
      | ok limits => exact .inl ⟨limits, bytes, text, hread, htext, hjson⟩

/-- A run ends with this text on standard error and leaves everything as it is. -/
structure StopsWith (world : Surroundings) (text : String) (run : Outcome × Tree) : Prop where
  exitCode : run.1.exitCode = 2
  output : run.1.output = ""
  error : run.1.error = text
  tree : run.2 = world.tree

theorem Failure.report_formatInvalid (e : FormatError) :
    (Failure.formatInvalid e).report =
      "error: " ++ ("invalid format: " ++ e.message) ++ "\n" ++ ("hint: " ++ e.hint ++ "\n") := rfl

theorem stopsWith_of_failed {failure : Failure}
    (h : runIn world arguments = (.failed failure, world.tree)) :
    StopsWith world failure.report (runIn world arguments) := by
  rw [h]
  exact ⟨rfl, rfl, rfl, rfl⟩

/-- Nothing is done behind a config that fails. -/
theorem runIn_of_configFails {path : String} {failure : Failure}
    (hpath : arguments.config = some path) (h : ConfigFails world.tree path failure) :
    runIn world arguments = (.failed failure, world.tree) := by
  have hlimits : answer world (readLimits arguments) = .error failure := by
    rw [readLimits, hpath]
    dsimp only
    rw [answer_bind, answer_readConfig_of_fails h]
    rfl
  rw [runIn, prepareIn_eq, hlimits]
  rfl

/-- Nothing is done behind a format that is refused. -/
theorem runIn_of_format_error {limits : Limits} {e : FormatError}
    (hlimits : HasLimits world.tree arguments limits)
    (h : Format.ofText limits arguments.format = .error e) :
    runIn world arguments = (.failed (.formatInvalid e), world.tree) := by
  rw [runIn, prepareIn_eq, answer_readLimits.2 hlimits]
  simp only [bind, Except.bind, h]

/-- A run without bytes fails, and changes nothing. -/
theorem runIn_of_no_bytes {limits : Limits} {format : Format}
    (hlimits : HasLimits world.tree arguments limits)
    (hformat : Format.ofText limits arguments.format = .ok format)
    (h : ∀ bytes, ¬HasBytes world arguments.source bytes) :
    ∃ failure, runIn world arguments = (.failed failure, world.tree) := by
  cases hsource : answer world (readSource arguments) with
  | error failure =>
    have haccepts : Accepts world arguments format := ⟨limits, answer_readLimits.2 hlimits, hformat⟩
    exact ⟨failure, runIn_of_source_error haccepts hsource⟩
  | ok bytes => exact absurd (hasBytes_of_answer hsource) (h bytes)

/-- A run changes the tree only if it decodes and has an output. -/
theorem decodes_of_changes (h : (runIn world arguments).2 ≠ world.tree) :
    ∃ values path, Decodes world arguments values ∧ arguments.output = some path := by
  cases hprepare : prepareIn world arguments with
  | error failure =>
    rw [runIn, hprepare] at h
    exact absurd rfl h
  | ok action =>
    obtain ⟨values, hvalues⟩ := decodes_of_prepareIn hprepare
    cases houtput : arguments.output with
    | some path => exact ⟨values, path, hvalues, rfl⟩
    | none =>
      rcases prepareIn_of_decodes hvalues with ⟨bytes, hprints⟩ | ⟨path, hpath, _⟩
      · rw [runIn, hprints, Action.ofValues, houtput] at h
        exact absurd rfl h
      · rw [houtput] at hpath
        cases hpath

/-- **The stages of a run fail in order.**

If the config gives no limits, every run with this config ends in the same way, whatever the rest of
its arguments, its input and its other files are.  If the format is refused under the limits, every
run with the same config, limits and format ends with that error.  If there are no bytes then, the
run ends with an error.  None of these runs changes anything: one that does has decoded its bytes
and has an output. -/
theorem runIn_stages (world : Surroundings) (arguments : Arguments) :
    (∀ path, arguments.config = some path → (∀ limits, ¬ConfigHolds world.tree path limits) →
      ∃ failure, ConfigFails world.tree path failure ∧
        ∀ other others, SameConfig world other arguments others →
          StopsWith other failure.report (runIn other others)) ∧
    (∀ limits e, HasLimits world.tree arguments limits →
      Format.ofText limits arguments.format = .error e →
        ∀ other others, SameConfig world other arguments others → SameFormat arguments others →
          StopsWith other
            ("error: " ++ ("invalid format: " ++ e.message) ++ "\n" ++ ("hint: " ++ e.hint ++ "\n"))
            (runIn other others)) ∧
    (∀ limits format, HasLimits world.tree arguments limits →
      Format.ofText limits arguments.format = .ok format →
      (∀ bytes, ¬HasBytes world arguments.source bytes) →
        ∃ text, StopsWith world text (runIn world arguments)) ∧
    ((runIn world arguments).2 ≠ world.tree →
      ∃ values path, Decodes world arguments values ∧ arguments.output = some path) := by
  refine ⟨fun path hpath hnone => ?_, fun limits e hlimits hformat => ?_,
    fun limits format hlimits hformat hnone => ?_, decodes_of_changes⟩
  · obtain ⟨failure, hfails⟩ :=
      (configHolds_or_fails world.tree path).resolve_left (not_exists.2 hnone)
    refine ⟨failure, hfails, fun other others hsame => stopsWith_of_failed ?_⟩
    exact runIn_of_configFails (hsame.path.trans hpath)
      (configFails_of_read_eq (hsame.read path hpath) hfails)
  · intro other others hconfig hsame
    have hother : Format.ofText limits others.format = .error e := by rw [hsame.format, hformat]
    have hstops := stopsWith_of_failed
      (runIn_of_format_error (hasLimits_of_same hconfig hsame hlimits) hother)
    rw [Failure.report_formatInvalid] at hstops
    exact hstops
  · obtain ⟨failure, hrun⟩ := runIn_of_no_bytes hlimits hformat hnone
    exact ⟨_, stopsWith_of_failed hrun⟩

/-- Arguments to save what a format makes of a file. -/
def saving (config : Option String) (format : String) : Arguments where
  format := format
  source := .path "data.bin"
  offset := 0
  output := some "new/out.json"
  pretty := false
  quiet := false
  config := config
  depth := none
  values := none

/-- A working directory with a config that is cut off. -/
def cutOff : Surroundings := ⟨⟨[], [(["c.json"], .file #[0x7b])]⟩, #[]⟩

/-- The same directory with another file in it, and a byte on standard input. -/
def withData : Surroundings :=
  ⟨⟨[], [(["c.json"], .file #[0x7b]), (["data.bin"], .file #[1])]⟩, #[9]⟩

/-- The other file and the format do not touch the config. -/
theorem sameConfig_withData (format other : String) :
    SameConfig cutOff withData (saving (some "c.json") format) (saving (some "c.json") other) := by
  refine sameConfig_of_file rfl rfl rfl (fun place h => ?_) rfl rfl rfl
  have hroot : place = [] := by
    by_contra hplace
    rw [Tree.find?, if_neg hplace] at h
    obtain ⟨before, after, hentries, _⟩ := List.lookup_eq_some_iff.1 h
    have hmem : (place, Entry.directory) ∈ cutOff.tree.entries := by simp [hentries]
    simp [cutOff] at hmem
  rw [hroot]
  rfl

/-- Two runs with the config, two without it in which the format fails, and two with a good format,
of which only the one that has the file changes anything. -/
theorem runIn_stages_cutOff :
    (∃ failure, ConfigFails cutOff.tree "c.json" failure ∧
      StopsWith cutOff failure.report (runIn cutOff (saving (some "c.json") "C")) ∧
      StopsWith withData failure.report (runIn withData (saving (some "c.json") "["))) ∧
    (∀ other ∈ [cutOff, withData], StopsWith other
      ("error: " ++ ("invalid format: " ++ (FormatError.unterminatedGroup .array).message) ++ "\n" ++
        ("hint: " ++ (FormatError.unterminatedGroup .array).hint ++ "\n"))
      (runIn other (saving none "["))) ∧
    (∃ text, StopsWith cutOff text (runIn cutOff (saving none "C"))) ∧
    (runIn withData (saving none "C")).2 ≠ withData.tree ∧
    ∃ values path, Decodes withData (saving none "C") values ∧
      (saving none "C").output = some path := by
  have hbroken : (answer cutOff (readConfig "c.json")).isOk = false := by decide +kernel
  have hnone (limits : Limits) : ¬ConfigHolds cutOff.tree "c.json" limits := by
    intro hholds
    rw [← answer_readConfig] at hholds
    rw [hholds] at hbroken
    cases hbroken
  obtain ⟨hconfig, _⟩ := runIn_stages cutOff (saving (some "c.json") "C")
  obtain ⟨failure, hfails, hstops⟩ := hconfig "c.json" rfl hnone
  obtain ⟨_, hformat, _⟩ := runIn_stages cutOff (saving none "[")
  obtain ⟨_, _, hbytes, _⟩ := runIn_stages cutOff (saving none "C")
  obtain ⟨_, _, _, hchanges⟩ := runIn_stages withData (saving none "C")
  have hdefault (world : Surroundings) (format : String) :
      HasLimits world.tree (saving none format) {} := ⟨{}, rfl, rfl⟩
  have hsame (other : Surroundings) :
      SameConfig cutOff other (saving none "[") (saving none "[") :=
    ⟨rfl, fun _ hpath => by cases hpath⟩
  have hopen : Format.ofText {} "[" = .error (.unterminatedGroup .array) := by decide +kernel
  have hchanged : (runIn withData (saving none "C")).2 ≠ withData.tree := by
    intro heq
    have hsaved : (runIn withData (saving none "C")).2.read "new/out.json" =
        .ok #[91, 49, 93] := by
      decide +kernel
    rw [heq] at hsaved
    cases hsaved
  have hplain : Format.ofText {} "C" =
      .ok ⟨"C", .field none (.number (.byte .unsigned)) 1 .done⟩ := by
    decide +kernel
  have hmissing (bytes : Payload) : ¬HasBytes cutOff (.path "data.bin") bytes := by
    rintro ⟨path, hresolve, hread⟩
    cases hresolve
    cases hread
  refine ⟨⟨failure, hfails, hstops _ _ ⟨rfl, fun _ _ => rfl⟩, hstops _ _ (sameConfig_withData _ _)⟩,
    fun other _ => hformat {} _ (hdefault _ _) hopen other _ (hsame other) ⟨rfl, rfl, rfl⟩,
    hbytes {} _ (hdefault _ _) hplain hmissing, hchanged, hchanges hchanged⟩

end Command

end BinaryLayout
