/-!
# Arguments

Options stand before the name of the command or after it. Those of all commands can stand in both
places, and then what is given after the name counts.

## Main definitions

* `Command` — what the program is asked to do.
* `Invocation` — a command with the options that all commands have.
* `Invocation.ofArguments` — from the arguments of the program.
-/

namespace RuleLang

/-- The forms in which commands show their results. -/
inductive OutputForm where
  | text | json
  deriving DecidableEq, Repr, Inhabited

inductive Command where
  /-- Reports the diagnostics of files. -/
  | check (paths : List String) (form : OutputForm)
  /-- Runs recipes on files, and shows or writes what they change. -/
  | migrate (paths : List String) (write : Bool) (recipes disabled : List String)
      (form : OutputForm)
  /-- Shows the tree of a file. -/
  | tree (file : String) (trivia : Bool)
  /-- Lists the recipes. -/
  | recipes (form : OutputForm)
  deriving DecidableEq, Repr

structure Invocation where
  /-- The configuration file, if one is named. -/
  config? : Option String
  command : Command
  deriving DecidableEq, Repr

/-- Why arguments make no invocation. -/
inductive UsageFault where
  | unknownOption (text : String)
  | missingValue (option : String)
  | repeatedOption (option : String)
  | invalidValue (option value : String)
  | missingCommand
  | unknownCommand (name : String)
  | missingOperand (name : String)
  | emptyOperand
  | unexpectedOperand (text : String)
  deriving DecidableEq, Repr

def UsageFault.message : UsageFault → String
  | .unknownOption text => "unexpected argument '" ++ text ++ "' found"
  | .missingValue option => "a value is required for '--" ++ option ++ "' but none was supplied"
  | .repeatedOption option => "the argument '--" ++ option ++ "' cannot be used multiple times"
  | .invalidValue option value => "invalid value '" ++ value ++ "' for '--" ++ option ++ "'"
  | .missingCommand => "a command is required"
  | .unknownCommand name => "unrecognized command '" ++ name ++ "'"
  | .missingOperand name => "the argument <" ++ name ++ "> was not provided"
  | .emptyOperand => "a path is required but none was supplied"
  | .unexpectedOperand text => "unexpected argument '" ++ text ++ "' found"

/-! ## Options and operands -/

/-- An option: its name, the letter that stands for it, whether it has a value, and whether it can be
given more than once. -/
structure OptionForm where
  name : String
  letter? : Option Char := none
  hasValue : Bool := false
  repeatable : Bool := false
  deriving Inhabited

/-- The options that all commands have. -/
def globalOptions : List OptionForm := [
  ⟨"config", some 'c', true, false⟩, ⟨"no-color", none, false, false⟩,
  ⟨"threads", some 'j', true, false⟩, ⟨"verbose", some 'v', false, true⟩]

inductive Argument where
  /-- An option, with its value if it has one. -/
  | option (form : OptionForm) (value : String)
  | operand (text : String)

/-- The arguments in one word, and the option at its end that takes the next word as its value. -/
structure Word where
  arguments : List Argument := []
  open? : Option OptionForm := none

/-- A word that begins with a dash and has more than that. -/
def isOption (text : String) : Bool :=
  text != "-" && text.toList.head? == some '-'

/-- The options in a word after a single dash; a letter may take the rest of the word as its
value. -/
def ofLetters (forms : List OptionForm) (text : String) : List Char → Except UsageFault Word
  | [] => .ok {}
  | letter :: rest =>
    match forms.find? fun o => o.letter? == some letter with
    | none => .error (.unknownOption text)
    | some o =>
      if !o.hasValue then
        (ofLetters forms text rest).map fun w => { w with arguments := .option o "" :: w.arguments }
      else if rest.isEmpty then .ok ⟨[], some o⟩
      else
        let value := if rest.head? == some '=' then rest.tail else rest
        .ok ⟨[.option o (String.ofList value)], none⟩

/-- The option in a word after two dashes; a sign of equality may give it its value. -/
def ofName (forms : List OptionForm) (text : String) (word : List Char) : Except UsageFault Word :=
  let name := word.takeWhile (· != '=')
  let value := String.ofList (word.drop (name.length + 1))
  let given := name.length < word.length
  match forms.find? fun o => o.name.toList == name with
  | none => .error (.unknownOption text)
  | some o =>
    if o.hasValue then
      if given then .ok ⟨[.option o value], none⟩ else .ok ⟨[], some o⟩
    else if given then .error (.invalidValue o.name value)
    else .ok ⟨[.option o ""], none⟩

def ofWord (forms : List OptionForm) (text : String) : Except UsageFault Word :=
  match text.toList with
  | '-' :: '-' :: word => ofName forms text word
  | '-' :: letter :: letters => ofLetters forms text (letter :: letters)
  | _ => .ok ⟨[.operand text], none⟩

/-- Reads arguments, up to the first operand if `leading`; otherwise all words after two dashes are
operands. The words that are left are the other result. -/
def readArguments (forms : List OptionForm) (leading : Bool) :
    List String → Except UsageFault (List Argument × List String)
  | [] => .ok ([], [])
  | text :: rest =>
    if leading && (!isOption text || text == "--") then .ok ([], text :: rest)
    else if text == "--" then .ok (rest.map .operand, [])
    else
      match ofWord forms text with
      | .error fault => .error fault
      | .ok ⟨first, none⟩ =>
        (readArguments forms leading rest).map fun (more, left) => (first ++ more, left)
      | .ok ⟨first, some o⟩ =>
        match rest with
        | [] => .error (.missingValue o.name)
        | value :: rest =>
          if isOption value then .error (.missingValue o.name)
          else
            (readArguments forms leading rest).map fun (more, left) =>
              (first ++ .option o value :: more, left)

/-! ## Values -/

/-- All values of an option. -/
def valuesOf (name : String) (arguments : List Argument) : List String :=
  arguments.filterMap fun
    | .option o value => if o.name == name then some value else none
    | .operand _ => none

def operandsOf (arguments : List Argument) : List String :=
  arguments.filterMap fun
    | .option _ _ => none
    | .operand text => some text

/-- A number of threads: digits, which a plus sign may precede, of a number below 2⁶⁴. -/
def isThreadCount (value : String) : Bool :=
  let digits := match value.toList with
    | '+' :: digits => digits
    | digits => digits
  !digits.isEmpty && digits.all Char.isDigit &&
    digits.foldl (fun n c => 10 * n + (c.toNat - '0'.toNat)) 0 < 18446744073709551616

/-- An argument has a value that it can have, and stands among the others no more often than it
may. -/
def checkArgument (others : List Argument) : Argument → Except UsageFault Unit
  | .operand text => if text == "" then .error .emptyOperand else .ok ()
  | .option o value =>
    if !o.repeatable && 1 < (valuesOf o.name others).length then .error (.repeatedOption o.name)
    else if o.name == "config" && value == "" then .error (.missingValue o.name)
    else if o.name == "threads" && !isThreadCount value then .error (.invalidValue o.name value)
    else .ok ()

def formOf (arguments : List Argument) : Except UsageFault OutputForm :=
  match valuesOf "format" arguments with
  | [] => .ok .text
  | value :: _ =>
    if value == "text" then .ok .text
    else if value == "json" then .ok .json
    else .error (.invalidValue "format" value)

/-! ## Commands -/

/-- The options of a command that not all commands have. -/
def ownOptions (name : String) : Except UsageFault (List OptionForm) :=
  let format : OptionForm := ⟨"format", some 'f', true, false⟩
  if name == "check" || name == "lint" || name == "recipes" then .ok [format]
  else if name == "migrate" then
    .ok [format, ⟨"write", none, false, false⟩, ⟨"recipe", none, true, true⟩,
      ⟨"disable", none, true, true⟩]
  else if name == "tree" then .ok [⟨"no-trivia", none, false, false⟩]
  else .error (.unknownCommand name)

/-- Without a path, commands work on the current directory. -/
def pathsOf (operands : List String) : List String :=
  if operands.isEmpty then ["."] else operands

def Command.ofArguments (name : String) (arguments : List Argument) :
    Except UsageFault Command := do
  let form ← formOf arguments
  let operands := operandsOf arguments
  if name == "tree" then
    match operands with
    | [] => throw (.missingOperand "FILE")
    | [file] => return .tree file (valuesOf "no-trivia" arguments).isEmpty
    | _ :: extra :: _ => throw (.unexpectedOperand extra)
  else if name == "recipes" then
    match operands with
    | [] => return .recipes form
    | extra :: _ => throw (.unexpectedOperand extra)
  else if name == "migrate" then
    return .migrate (pathsOf operands) (!(valuesOf "write" arguments).isEmpty)
      (valuesOf "recipe" arguments) (valuesOf "disable" arguments) form
  else return .check (pathsOf operands) form

/-- The first operand names the command. -/
def Invocation.ofArguments (texts : List String) : Except UsageFault Invocation := do
  let (leading, left) ← readArguments globalOptions true texts
  leading.forM (checkArgument leading)
  match left with
  | [] => throw .missingCommand
  | name :: rest =>
    let (arguments, _) ← readArguments (globalOptions ++ (← ownOptions name)) false rest
    arguments.forM (checkArgument arguments)
    let configs := valuesOf "config" arguments ++ valuesOf "config" leading
    return ⟨configs.head?, ← Command.ofArguments name arguments⟩

end RuleLang
