import FileGraph.Text.Decimal
import FileGraph.Text.Split

/-! # Reading command lines

A command line is a row of words. What may stand in it is given by a `Form`: options with long and
short names, perhaps an argument without a name, and commands with forms of their own.

* `Form.read`: reads the words behind the name of a program or a command.
* `Reading`: what was found: the values of options, and the command with its own reading.
* `Refusal`: why a command line is not accepted, or that it asks for help or for the version.

An option with a value may be written `--name value`, `--name=value`, `-n value`, `-nvalue` or
`-n=value`, and several short options may share one hyphen. Behind the word `--` there are only
arguments without a name. The value of an option is looked at when the next option begins, or at the
end.
-/

namespace FileGraph.CommandLine

/-- Why a command line is not carried out. -/
inductive Refusal where
  | unknownArgument
  | invalidValue
  | invalidNumber
  | missingArgument
  | unknownCommand
  | missingCommand
  | givenTwice
  | unwantedValue
  /-- Nothing was given where a command is needed. -/
  | nothingGiven
  | helpWanted
  | versionWanted
  deriving DecidableEq, Repr

/-- The exit code that goes with a refusal. Asking for help is no mistake. -/
def Refusal.exitCode : Refusal → Nat
  | .helpWanted | .versionWanted => 0
  | _ => 2

inductive ValueForm where
  /-- A path, which is not empty. -/
  | path
  | text
  | oneOf (names : List String)
  /-- A number without a sign that fits into 64 bits. -/
  | unsigned
  deriving DecidableEq, Repr

/-- Numbers on a command line lie below this. -/
def numberLimit : Nat := UInt64.size

/-- The number that a word stands for: digits, perhaps with a plus sign in front. -/
def number? (word : String) : Option Nat :=
  let digits :=
    match word.toList with
    | '+' :: rest => rest
    | text => text
  if digits ≠ [] ∧ digits.all Text.Decimal.isDigit ∧ Text.Decimal.value digits < numberLimit then
    some (Text.Decimal.value digits)
  else none

def ValueForm.check (form : ValueForm) (word : String) : Except Refusal Unit :=
  match form with
  | .path => if word.isEmpty then .error .invalidValue else .ok ()
  | .text => .ok ()
  | .oneOf names => if names.contains word then .ok () else .error .invalidValue
  | .unsigned => if (number? word).isSome then .ok () else .error .invalidNumber

/-- What an option does. -/
inductive Effect where
  | flag
  | value (form : ValueForm)
  | help
  | version
  deriving DecidableEq, Repr

/-- An option, which has a long name and perhaps a short one. -/
structure Switch where
  name : String
  short : Option Char
  effect : Effect
  isRequired : Bool
  /-- The variable of the environment that stands in for an option that is not given. -/
  variableName : Option String
  deriving DecidableEq, Repr

/-- What may stand in a command line. -/
inductive Form where
  /-- Options, the argument without a name, and commands. -/
  | mk (switches : List Switch) (argument : Option Switch) (commands : List (String × Form))

namespace Form

def switches : Form → List Switch
  | mk switches _ _ => switches

def argument : Form → Option Switch
  | mk _ argument _ => argument

def commands : Form → List (String × Form)
  | mk _ _ commands => commands

end Form

/-- What was found in a command line. -/
inductive Reading where
  /-- The values of options by their names, and the command that follows. A flag that was given has
  the empty value. -/
  | mk (values : List (String × String)) (command : Option (String × Reading))

namespace Reading

def values : Reading → List (String × String)
  | mk values _ => values

def command : Reading → Option (String × Reading)
  | mk _ command => command

def value? (reading : Reading) (name : String) : Option String :=
  reading.values.lookup name

def has (reading : Reading) (name : String) : Bool :=
  (reading.value? name).isSome

end Reading

/-! ## Options -/

/-- Where one is in a command line. -/
structure State where
  values : List (String × String)
  /-- The option whose value is not looked at yet, and its value if it was there. -/
  pending : Option (Switch × Option String)
  /-- Whether only arguments without a name may follow. -/
  isTrailing : Bool
  hasArgument : Bool

def State.start : State := ⟨[], none, false, false⟩

namespace State

def awaitsValue (s : State) : Bool :=
  match s.pending with
  | some (_, none) => true
  | _ => false

/-- Takes the value of an option, which must not have one yet. -/
def accept (s : State) (switch : Switch) (value : String) : Except Refusal State := do
  if (s.values.lookup switch.name).isSome then .error .givenTwice
  match switch.effect with
  | .value form => form.check value
  | _ => pure ()
  return { s with values := s.values ++ [(switch.name, value)] }

/-- Looks at the value that is not looked at yet. -/
def settle (s : State) : Except Refusal State :=
  match s.pending with
  | none => .ok s
  | some (_, none) => .error .invalidValue
  | some (switch, some value) => { s with pending := none }.accept switch value

/-- An option with no value written to it. -/
def begin (s : State) (switch : Switch) : Except Refusal State := do
  let s ← s.settle
  match switch.effect with
  | .flag => s.accept switch ""
  | .value _ => .ok { s with pending := some (switch, none) }
  | .help => .error .helpWanted
  | .version => .error .versionWanted

/-- An option with a value written to it. -/
def beginWith (s : State) (switch : Switch) (value : String) : Except Refusal State :=
  match switch.effect with
  | .value _ => do (← s.settle).accept switch value
  | _ => .error .unwantedValue

/-- A word that begins with two hyphens. -/
def long (s : State) (switches : List Switch) (text : List Char) : Except Refusal State :=
  let name := String.ofList (text.takeWhile (· != '='))
  match switches.find? (·.name == name), text.dropWhile (· != '=') with
  | none, _ => .error .unknownArgument
  | some switch, [] => s.begin switch
  | some switch, _ :: value => s.beginWith switch (String.ofList value)

/-- The letters behind one hyphen. -/
def short (s : State) (switches : List Switch) : List Char → Except Refusal State
  | [] => .ok s
  | c :: rest =>
    match switches.find? (·.short == some c) with
    | none => .error .unknownArgument
    | some switch =>
      match switch.effect, rest with
      | .value _, '=' :: value => s.beginWith switch (String.ofList value)
      | .value _, c :: value => s.beginWith switch (String.ofList (c :: value))
      | _, _ => do (← s.begin switch).short switches rest

/-- The state at the end of a command line: the variables of the environment stand in for options
that were not given, and all that is required must be there. -/
def finish (s : State) (form : Form) (environment : List (String × String)) :
    Except Refusal State := do
  let s ← s.settle
  let s ← form.switches.foldlM
    (fun (s : State) switch =>
      match switch.variableName.bind (fun name => environment.lookup name) with
      | some value =>
        if (s.values.lookup switch.name).isSome then .ok s else s.accept switch value
      | none => .ok s)
    s
  let required := (form.switches ++ form.argument.toList).filter (·.isRequired)
  if required.all fun switch => (s.values.lookup switch.name).isSome then .ok s
  else .error .missingArgument

end State

/-! ## Command lines -/

/-- The word that asks for help on commands. -/
def helpWord : String := "help"

/-- The answer to a request for help on the command that the words name. -/
def helpOn : Form → List String → Refusal
  | _, [] => .helpWanted
  | form, word :: later =>
    match form.commands.lookup word with
    | some form => helpOn form later
    | none =>
      if word = helpWord ∧ !form.commands.isEmpty then
        if later.isEmpty then .helpWanted else .unknownCommand
      else .unknownCommand

/-- The refusal of a word that has no place. -/
def misplaced (form : Form) (s : State) (word : String) : Refusal :=
  if s.isTrailing && ((form.commands.lookup word).isSome || word == helpWord) then .unknownArgument
  else if form.commands.isEmpty then .unknownArgument
  else .unknownCommand

/-- What is missing at the end of a command line without a command, if the form has commands. -/
def checkCommand (form : Form) (s : State) : Except Refusal Unit :=
  if form.commands.isEmpty then .ok ()
  else if s.values.isEmpty then .error .nothingGiven
  else .error .missingCommand

/-- Whether a word is one or more short options. -/
def isShort (word : List Char) : Bool :=
  match word with
  | '-' :: c :: _ => c != '-'
  | _ => false

def readFrom (environment : List (String × String)) :
    Form → State → List String → Except Refusal Reading
  | form, s, [] => do
    let settled ← s.settle
    checkCommand form settled
    return .mk (← s.finish form environment).values none
  | form, s, word :: rest => do
    if s.isTrailing then
      -- Behind `--` every word is an argument without a name, even one that names a command.
      match form.argument, s.hasArgument with
      | some argument, false =>
        let s ← s.settle
        readFrom environment form
          { s with pending := some (argument, some word), hasArgument := true } rest
      | _, _ => .error (misplaced form s word)
    -- A word that an option waits for is its value, even if it names a command.
    else if !s.awaitsValue ∧ (form.commands.lookup word).isSome then
      match form.commands.lookup word with
      | none => .error .unknownCommand
      | some inner =>
        -- What is wrong behind the command counts before what is missing in front of it.
        let command ← readFrom environment inner .start rest
        return .mk (← s.finish form environment).values (some (word, command))
    else if !s.awaitsValue ∧ word = helpWord ∧ !form.commands.isEmpty then
      .error (helpOn form rest)
    else if word = "--" then readFrom environment form { s with isTrailing := true } rest
    else
      match word.toList with
      | '-' :: '-' :: text => do
        readFrom environment form (← s.long form.switches text) rest
      | text =>
        if isShort text then do
          readFrom environment form (← s.short form.switches (text.drop 1)) rest
        else
          match s.pending with
          | some (switch, none) =>
            readFrom environment form { s with pending := some (switch, some word) } rest
          | _ =>
            match form.argument, s.hasArgument with
            | some argument, false =>
              let s ← s.settle
              readFrom environment form
                { s with pending := some (argument, some word), hasArgument := true } rest
            | _, _ => .error (misplaced form s word)

def Form.read (form : Form) (environment : List (String × String)) (words : List String) :
    Except Refusal Reading :=
  readFrom environment form .start words

end FileGraph.CommandLine
