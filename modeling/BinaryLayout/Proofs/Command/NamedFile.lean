import BinaryLayout.Proofs.Command.InputKept
import BinaryLayout.Proofs.Glob.Found

/-!
# Which file an input is

An input is a path, or a pattern if it has a star, a question mark or an opening bracket in it.  So
the path of a file need not stand for that file: as a pattern it may match other files, or none.

`runIn_of_named` is the whole account for an input that is, as it is written, the path of a file.
-/

namespace BinaryLayout.Command

variable {world : Surroundings}

/-! ## What an input stands for -/

/-- The paths of the files that a pattern leads to. -/
def filesOf (tree : Tree) (pattern : Glob.Pattern) : List String :=
  (tree.expandPattern pattern).filter fun path => tree.kindAt path == some .file

theorem answer_findFiles (pattern : Glob.Pattern) :
    answer world (findFiles pattern) = .ok (filesOf world.tree pattern) := by
  have hexpand : answer world pattern.expand = .ok (world.tree.expandPattern pattern) := by
    rw [Glob.Pattern.expand, Tree.expandPattern]
    split
    · rfl
    · exact answer_expandParts _ _ _
  rw [findFiles, answer_bind_ok hexpand]
  exact answer_filterM (fun _ => rfl) _

/-- A path that is no pattern stands for itself. -/
theorem answer_resolve_of_plain {input : String} (h : Glob.isPattern input = false) :
    answer world (resolve input) = .ok input := by
  rw [resolve, h]
  rfl

theorem answer_resolve_of_error {input : String} (h : Glob.isPattern input = true)
    {e : Glob.Error} (he : Glob.Pattern.ofText input = .error e) :
    answer world (resolve input) = .error (.patternInvalid input e) := by
  rw [resolve, h, he]
  rfl

/-- A pattern stands for the only file that it leads to. -/
theorem answer_resolve_of_pattern (world : Surroundings) {input : String}
    (h : Glob.isPattern input = true) {pattern : Glob.Pattern}
    (hpattern : Glob.Pattern.ofText input = .ok pattern) :
    answer world (resolve input) =
      match filesOf world.tree pattern with
      | [] => .error (.noMatch input)
      | [path] => .ok path
      | paths => .error (.manyMatches input paths) := by
  rw [resolve, h, hpattern]
  show answer world (findFiles pattern >>= _) = _
  rw [answer_bind_ok (answer_findFiles pattern)]
  rcases filesOf world.tree pattern with _ | ⟨path, _ | ⟨next, paths⟩⟩ <;> rfl

theorem read_of_mem_filesOf {tree : Tree} {pattern : Glob.Pattern} {path : String}
    (h : path ∈ filesOf tree pattern) : ∃ bytes, tree.read path = .ok bytes := by
  have hkind := (List.mem_filter.1 h).2
  rw [Tree.kindAt, beq_iff_eq, Option.map_eq_some_iff] at hkind
  obtain ⟨entry, hentry, hfile⟩ := hkind
  cases entry with
  | directory => cases hfile
  | file bytes => exact ⟨bytes, Tree.read_eq_ok.2 hentry⟩

/-- A pattern without classes that is the path of a file leads to that file, if it leads to one file
only. -/
theorem read_of_filesOf_eq {tree : Tree} (hnames : tree.HasNames) {input : String}
    {pattern : Glob.Pattern} (hpattern : Glob.Pattern.ofText input = .ok pattern)
    (hclass : '[' ∉ input.toList) {bytes : Payload} (hread : tree.read input = .ok bytes)
    {path : String} (hfiles : filesOf tree pattern = [path]) : tree.read path = .ok bytes := by
  rcases Tree.expandPattern_finds hnames hpattern hclass hread with ⟨found, hfound, hsame⟩ | hnone
  · have hmem : found ∈ filesOf tree pattern := by
      refine List.mem_filter.2 ⟨hfound, ?_⟩
      rw [Tree.kindAt, Tree.read_eq_ok.1 hsame]
      rfl
    rw [hfiles, List.mem_singleton] at hmem
    rw [← hmem]
    exact hsame
  · have hmem : path ∈ filesOf tree pattern := by
      rw [hfiles]
      exact List.mem_singleton_self path
    obtain ⟨hfound, hkind⟩ := List.mem_filter.1 hmem
    exact absurd (beq_iff_eq.1 hkind) (hnone path hfound)

/-! ## The run -/

section

variable {arguments : Arguments} {format : Format} {input : String}

/-- A run that prints the data of some bytes, and changes nothing. -/
def printed (world : Surroundings) (arguments : Arguments) (format : Format) (bytes : Payload) :
    Outcome × Tree :=
  (.printed (textOf arguments (format.decode bytes arguments.offset) ++ "\n"), world.tree)

/-- Without an output, the data of the file that the input stands for are printed. -/
theorem runIn_of_resolve (hsource : arguments.source = .path input) (hinput : input ≠ "-")
    (houtput : arguments.output = none) (haccepts : Accepts world arguments format) {path : String}
    (hpath : answer world (resolve input) = .ok path) {bytes : Payload}
    (hread : world.tree.read path = .ok bytes) :
    runIn world arguments = printed world arguments format bytes := by
  have hbytes : answer world (readSource arguments) = .ok bytes := by
    rw [readSource_of_path hsource hinput, houtput]
    rcases answer_readFile_cases hpath hread none with h | ⟨_, h, _⟩
    · exact h
    · cases h
  rw [runIn, prepareIn_of_accepts haccepts, hbytes]
  simp only [bind, Except.bind, pure, Except.pure, Action.ofValues, houtput]
  rfl

/-- Without a file the run fails, whatever else is asked. -/
theorem runIn_of_resolve_error (hsource : arguments.source = .path input) (hinput : input ≠ "-")
    (haccepts : Accepts world arguments format) {failure : Failure}
    (h : answer world (resolve input) = .error failure) :
    runIn world arguments = (.failed failure, world.tree) := by
  refine runIn_of_source_error haccepts ?_
  rw [readSource_of_path hsource hinput, readFile, answer_bind, h]
  rfl

/-- **An input that is the path of a file.**

It stands for that file if no star, no question mark and no opening bracket is in it.  Otherwise it
is a pattern: the run fails if it is an ill-formed one or does not lead to exactly one file, and
prints the data of that one file if it does.  This is the file that the input is the path of, unless
there is a bracket in it. -/
theorem runIn_of_named (hsource : arguments.source = .path input) (hinput : input ≠ "-")
    (houtput : arguments.output = none) (haccepts : Accepts world arguments format)
    {bytes : Payload} (hread : world.tree.read input = .ok bytes) :
    (Glob.isPattern input = false →
        runIn world arguments = printed world arguments format bytes) ∧
      (Glob.isPattern input = true →
        (∀ e, Glob.Pattern.ofText input = .error e →
          runIn world arguments = (.failed (.patternInvalid input e), world.tree)) ∧
        ∀ pattern, Glob.Pattern.ofText input = .ok pattern →
          ∃ paths, answer world (findFiles pattern) = .ok paths ∧
            match paths with
            | [] => runIn world arguments = (.failed (.noMatch input), world.tree)
            | [path] => ∃ other, world.tree.read path = .ok other ∧
                runIn world arguments = printed world arguments format other
            | _ => runIn world arguments = (.failed (.manyMatches input paths), world.tree)) ∧
      (world.tree.HasNames → '[' ∉ input.toList →
        runIn world arguments = printed world arguments format bytes ∨
          ∃ failure, runIn world arguments = (.failed failure, world.tree)) := by
  have hplain (h : Glob.isPattern input = false) :
      runIn world arguments = printed world arguments format bytes :=
    runIn_of_resolve hsource hinput houtput haccepts (answer_resolve_of_plain h) hread
  have hfailed {failure : Failure} (h : answer world (resolve input) = .error failure) :
      runIn world arguments = (.failed failure, world.tree) :=
    runIn_of_resolve_error hsource hinput haccepts h
  refine ⟨hplain, fun h => ⟨fun e he => hfailed (answer_resolve_of_error h he), ?_⟩, ?_⟩
  · intro pattern hpattern
    refine ⟨_, answer_findFiles pattern, ?_⟩
    have hresolve := answer_resolve_of_pattern world h hpattern
    rcases hfiles : filesOf world.tree pattern with _ | ⟨path, _ | ⟨next, paths⟩⟩
    · rw [hfiles] at hresolve
      exact hfailed hresolve
    · rw [hfiles] at hresolve
      obtain ⟨other, hother⟩ := read_of_mem_filesOf (hfiles ▸ List.mem_singleton_self path)
      exact ⟨other, hother, runIn_of_resolve hsource hinput houtput haccepts hresolve hother⟩
    · rw [hfiles] at hresolve
      exact hfailed hresolve
  · intro hnames hclass
    cases h : Glob.isPattern input with
    | false => exact .inl (hplain h)
    | true =>
      cases hpattern : Glob.Pattern.ofText input with
      | error e => exact .inr ⟨_, hfailed (answer_resolve_of_error h hpattern)⟩
      | ok pattern =>
        have hresolve := answer_resolve_of_pattern world h hpattern
        rcases hfiles : filesOf world.tree pattern with _ | ⟨path, _ | ⟨next, paths⟩⟩
        · rw [hfiles] at hresolve
          exact .inr ⟨_, hfailed hresolve⟩
        · rw [hfiles] at hresolve
          have hsame := read_of_filesOf_eq hnames hpattern hclass hread hfiles
          exact .inl (runIn_of_resolve hsource hinput houtput haccepts hresolve hsame)
        · rw [hfiles] at hresolve
          exact .inr ⟨_, hfailed hresolve⟩

end

/-- Arguments to decode one byte of an input. -/
def decoding (input : String) : Arguments where
  format := "C"
  source := .path input
  offset := 0
  output := none
  pretty := false
  quiet := false
  config := none
  depth := none
  values := none

/-- One byte. -/
def oneByte : Format := ⟨"C", .field none (.number (.byte .unsigned)) 1 .done⟩

theorem accepts_decoding (world : Surroundings) (input : String) :
    Accepts world (decoding input) oneByte := ⟨{}, rfl, by cbv⟩

/-- A working directory with a file that has a star in its name, and another file. -/
def starred : Surroundings :=
  ⟨⟨[], [(["a*.bin"], .file #[1]), (["b.bin"], .file #[2])]⟩, #[]⟩

/-- Both are read, each by its own path. -/
theorem runIn_starred :
    runIn starred (decoding "b.bin") = printed starred (decoding "b.bin") oneByte #[2] ∧
      runIn starred (decoding "a*.bin") = printed starred (decoding "a*.bin") oneByte #[1] := by
  have hplain : (decoding "b.bin").source = .path "b.bin" := rfl
  have hstar : (decoding "a*.bin").source = .path "a*.bin" := rfl
  obtain ⟨hread, _, _⟩ :=
    runIn_of_named hplain (by decide) rfl (accepts_decoding starred "b.bin") rfl
  obtain ⟨_, _, hsame⟩ :=
    runIn_of_named hstar (by decide) rfl (accepts_decoding starred "a*.bin") rfl
  refine ⟨hread (by decide), ?_⟩
  rcases hsame (Tree.hasNames_of_all (by decide)) (by decide) with hrun | ⟨failure, hfailed⟩
  · exact hrun
  · have hrun : (runIn starred (decoding "a*.bin")).1 = .printed "[1]\n" := by decide +kernel
    rw [hfailed] at hrun
    cases hrun

/-- A working directory with a file that has brackets in its name, and the file that this name
stands for. -/
def bracketed : Surroundings :=
  ⟨⟨[], [(["a1.bin"], .file #[2]), (["a[1].bin"], .file #[1])]⟩, #[]⟩

theorem isRooted_bracketed : bracketed.tree.IsRooted := by
  intro place entry h
  rw [Tree.find?] at h
  split at h
  · next hroot =>
    rw [hroot]
    rfl
  · obtain ⟨before, after, hentries, _⟩ := List.lookup_eq_some_iff.1 h
    have hmem : (place, entry) ∈ bracketed.tree.entries := by simp [hentries]
    simp only [bracketed, List.mem_cons, Prod.mk.injEq, List.not_mem_nil, or_false] at hmem
    rcases hmem with ⟨rfl, _⟩ | ⟨rfl, _⟩ <;> rfl

theorem read_bracketed :
    Arguments.read ["C", "a[1].bin"] = .ok (decoding "a[1].bin") := by
  simp [Arguments.read, Draft.read, Word.ofText, Draft.place, path?, once, orUsage,
    Draft.arguments?, decoding, bind, Except.bind]

/-- The path of a file does not always stand for that file: another one may be decoded. -/
theorem not_runIn_of_named :
    ¬ ∀ (world : Surroundings) (words : List String) (arguments : Arguments) (format : Format)
        (input : String) (bytes : Payload),
      Arguments.read words = .ok arguments → arguments.source = .path input → input ≠ "-" →
      arguments.output = none → Accepts world arguments format → world.tree.IsRooted →
      world.tree.HasNames → world.tree.read input = .ok bytes →
        runIn world arguments = printed world arguments format bytes := by
  intro h
  have hrun := h bracketed ["C", "a[1].bin"] (decoding "a[1].bin") oneByte "a[1].bin" #[1]
    read_bracketed rfl (by decide) rfl (accepts_decoding _ _) isRooted_bracketed
    (Tree.hasNames_of_all (by decide)) rfl
  have hother : (runIn bracketed (decoding "a[1].bin")).1 = .printed "[2]\n" := by
    decide +kernel
  rw [hrun] at hother
  exact absurd hother (by decide +kernel)

end BinaryLayout.Command
