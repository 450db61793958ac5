/-!
# Arguments of the command

The words of a command line are a format, an input, and options anywhere between them. Words are
read from left to right (`Draft.read`), and what has been found must then fit together
(`Draft.arguments?`). An option stands alone or takes a value, which follows as the next word or
after an equals sign; no option may be given twice. Behind a word of two dashes all words count as
they are.
-/

namespace BinaryLayout.Command

/-- Where the bytes come from. -/
inductive Source where
  /-- Digits among the arguments. -/
  | hex (digits : String)
  /-- A file, a pattern that stands for one file, or a dash for standard input. -/
  | path (path : String)
deriving DecidableEq, Repr

/-- What a run is asked to do. -/
structure Arguments where
  format : String
  source : Source
  offset : Int
  /-- Where the text goes, if not to standard output. -/
  output : Option String
  pretty : Bool
  quiet : Bool
  /-- The file that holds limits. -/
  config : Option String
  depth : Option UInt64
  values : Option UInt64
deriving DecidableEq, Repr

/-- Why words are no arguments of a run. -/
inductive Stop where
  /-- The words make no sense. -/
  | usage
  /-- The version is asked for. -/
  | version
  /-- Help is asked for. -/
  | help
deriving DecidableEq, Repr

/-- The name of the command and its version. -/
def versionText : String := "qunpack 0.1.0\n"

/-- How the command is called. -/
def helpText : String :=
  "Decode binary data with an unpack-style format string and print it as JSON.\n\n" ++
  "Usage: qunpack [OPTIONS] <FORMAT> [INPUT]\n\n" ++
  "  INPUT                a file, a pattern for one file, or - for standard input\n" ++
  "  --hex <DIGITS>       the input as hex digits\n" ++
  "  --offset <N>         where decoding starts\n" ++
  "  -o, --output <PATH>  where the JSON goes\n" ++
  "  --stdout             write to standard output (default)\n" ++
  "  --pretty             one element a line\n" ++
  "  --compact            no white space (default)\n" ++
  "  --config <PATH>      a JSON file with max_depth and max_values\n" ++
  "  --max-depth <N>      how deeply groups may be nested\n" ++
  "  --max-values <N>     how many values the format may produce\n" ++
  "  --quiet              no note on a file that is written\n" ++
  "  -h, --help           print this\n" ++
  "  -V, --version        print the version\n"

/-! ## Numbers -/

/-- The number that decimal digits stand for, if there are digits and nothing else. -/
def digits? (text : List Char) : Option Nat :=
  if text.isEmpty || !text.all Char.isDigit then none else some (Nat.ofDigitChars 10 text 0)

/-- A number below `2 ^ 64`, perhaps with a plus sign. -/
def word? (text : String) : Option UInt64 :=
  let digits :=
    match text.toList with
    | '+' :: rest => rest
    | chars => chars
  (digits? digits).bind fun n => if n < UInt64.size then some (UInt64.ofNat n) else none

/-- A number of 64 bits with a sign, which may be left out. -/
def integer? (text : String) : Option Int :=
  let number : Option Int :=
    match text.toList with
    | '+' :: rest => (digits? rest).map fun n => (n : Int)
    | '-' :: rest => (digits? rest).map fun n => -(n : Int)
    | chars => (digits? chars).map fun n => (n : Int)
  number.bind fun n =>
    if Int64.minValue.toInt ≤ n ∧ n ≤ Int64.maxValue.toInt then some n else none

/-- A path is not empty. -/
def path? (text : String) : Option String := if text.isEmpty then none else some text

/-! ## What has been found -/

/-- An option that stands alone. -/
inductive Switch where
  | stdout
  | pretty
  | compact
  | quiet
deriving DecidableEq, Repr

/-- The option of a name. -/
def Switch.ofName? : String → Option Switch
  | "stdout" => some .stdout
  | "pretty" => some .pretty
  | "compact" => some .compact
  | "quiet" => some .quiet
  | _ => none

/-- An option that takes a value. -/
inductive Setting where
  | hex
  | offset
  | output
  | config
  | depth
  | values
deriving DecidableEq, Repr

/-- The option of a name. -/
def Setting.ofName? : String → Option Setting
  | "hex" => some .hex
  | "offset" => some .offset
  | "output" => some .output
  | "config" => some .config
  | "max-depth" => some .depth
  | "max-values" => some .values
  | _ => none

/-- Whether the next word is the value of an option. A word that begins with a dash is none, but
for the dash alone and a negative offset. -/
def Setting.takes (setting : Setting) (word : String) : Bool :=
  match word.toList with
  | ['-'] => true
  | '-' :: rest => setting == .offset && (digits? rest).isSome
  | _ => true

/-- What has been found so far. -/
structure Draft where
  format : Option String := none
  input : Option String := none
  hex : Option String := none
  offset : Option Int := none
  output : Option String := none
  config : Option String := none
  depth : Option UInt64 := none
  values : Option UInt64 := none
  switches : List Switch := []
deriving DecidableEq, Repr

/-- A value for what has none yet. -/
def once {α : Type} (old new : Option α) : Option α := if old.isSome then none else new

namespace Draft

/-- Turns an option on. -/
def turnOn (draft : Draft) (switch : Switch) : Option Draft :=
  if draft.switches.contains switch then none
  else some { draft with switches := switch :: draft.switches }

/-- Gives an option its value. -/
def set (draft : Draft) (setting : Setting) (value : String) : Option Draft :=
  match setting with
  | .hex => (once draft.hex (some value)).map fun value => { draft with hex := some value }
  | .offset =>
    (once draft.offset (integer? value)).map fun value => { draft with offset := some value }
  | .output =>
    (once draft.output (path? value)).map fun value => { draft with output := some value }
  | .config =>
    (once draft.config (path? value)).map fun value => { draft with config := some value }
  | .depth => (once draft.depth (word? value)).map fun value => { draft with depth := some value }
  | .values =>
    (once draft.values (word? value)).map fun value => { draft with values := some value }

/-- Takes a word as it is: the first one is the format, and the second one the input. -/
def place (draft : Draft) (word : String) : Option Draft :=
  if draft.format.isNone then some { draft with format := some word }
  else (once draft.input (path? word)).map fun word => { draft with input := some word }

end Draft

/-! ## Words -/

/-- What a word is by its first characters. -/
inductive Word where
  /-- Two dashes alone. -/
  | divider
  /-- The name behind two dashes, and what follows an equals sign. -/
  | long (name : String) (value : Option String)
  /-- The letter behind a dash, and what follows it. -/
  | short (letter : Char) (rest : List Char)
  | plain
deriving DecidableEq, Repr

/-- What a word is. A dash alone is a plain word. -/
def Word.ofText (word : String) : Word :=
  match word.toList with
  | ['-', '-'] => .divider
  | '-' :: '-' :: rest =>
    let name := String.ofList (rest.takeWhile (· != '='))
    match rest.dropWhile (· != '=') with
    | [] => .long name none
    | _ :: value => .long name (some (String.ofList value))
  | '-' :: letter :: rest => .short letter rest
  | _ => .plain

/-- What an option asks for. -/
inductive Request where
  | stop (stop : Stop)
  | turnOn (switch : Switch)
  | set (setting : Setting) (value : String)
  /-- The value is still to come. -/
  | setNext (setting : Setting)
deriving DecidableEq, Repr

/-- An option with its value, if that is there. -/
def Request.ofSetting (setting : Setting) : Option String → Request
  | some value => .set setting value
  | none => .setNext setting

/-- What a named option asks for. -/
def Request.ofName (name : String) (value : Option String) : Request :=
  match Setting.ofName? name with
  | some setting => .ofSetting setting value
  | none =>
    if value.isSome then .stop .usage
    else if name = "help" then .stop .help
    else if name = "version" then .stop .version
    else
      match Switch.ofName? name with
      | some switch => .turnOn switch
      | none => .stop .usage

/-- What an option with one letter asks for. -/
def Request.ofLetter (letter : Char) (rest : List Char) : Request :=
  match letter, rest with
  | 'o', [] => .setNext .output
  | 'o', '=' :: value => .set .output (String.ofList value)
  | 'o', value => .set .output (String.ofList value)
  | 'V', _ => .stop .version
  | 'h', _ => .stop .help
  | _, _ => .stop .usage

/-- A draft that may have come to nothing. -/
def orUsage {α : Type} : Option α → Except Stop α
  | some a => .ok a
  | none => .error .usage

namespace Draft

/-- Takes words as they are. -/
def placeAll (draft : Draft) : List String → Except Stop Draft
  | [] => .ok draft
  | word :: words => do (← orUsage (draft.place word)).placeAll words

/-- Reads words from left to right. -/
def read (draft : Draft) : List String → Except Stop Draft
  | [] => .ok draft
  | word :: words =>
    let request? : Option Request :=
      match Word.ofText word with
      | .long name value => some (.ofName name value)
      | .short letter rest => some (.ofLetter letter rest)
      | _ => none
    match request? with
    | some (.stop stop) => .error stop
    | some (.turnOn switch) => do (← orUsage (draft.turnOn switch)).read words
    | some (.set setting value) => do (← orUsage (draft.set setting value)).read words
    | some (.setNext setting) =>
      match words with
      | [] => .error .usage
      | value :: words =>
        if setting.takes value then do (← orUsage (draft.set setting value)).read words
        else .error .usage
    | none =>
      if Word.ofText word = .divider then draft.placeAll words
      else do (← orUsage (draft.place word)).read words

/-- The arguments that have been found, if they fit together: there is one source of bytes, and no
two options contradict each other. -/
def arguments? (draft : Draft) : Option Arguments := do
  let format ← draft.format
  let source ←
    match draft.hex, draft.input with
    | some digits, none => some (.hex digits)
    | none, some path => some (.path path)
    | _, _ => none
  if draft.output.isSome && draft.switches.contains .stdout then none
  else if draft.switches.contains .pretty && draft.switches.contains .compact then none
  else
    some {
      format := format
      source := source
      offset := draft.offset.getD 0
      output := draft.output
      pretty := draft.switches.contains .pretty
      quiet := draft.switches.contains .quiet
      config := draft.config
      depth := draft.depth
      values := draft.values }

end Draft

/-- Reads the words of a command line. -/
def Arguments.read (words : List String) : Except Stop Arguments := do
  let draft ← Draft.read {} words
  orUsage draft.arguments?

end BinaryLayout.Command
