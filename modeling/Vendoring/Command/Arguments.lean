import Vendoring.Decimal.Digits
import Vendoring.Decimal.Power
import Vendoring.Path

/-!
The command line: options, commands and their arguments. Global options may stand before and
behind the command; behind it they count more.
-/

namespace Vendoring.Command

/-- What a command is asked to resolve. -/
structure ResolveRequest where
  specifier : String
  conditions : List String
  /-- The directory of the importing file. -/
  importer? : Option Path
  maxDepth? : Option Nat
  deriving DecidableEq, Repr

inductive Task
  | version
  | build (dryRun : Bool)
  | resolve (request : ResolveRequest)
  | aliases
  deriving DecidableEq, Repr

/-- A command line that asks for something to be done. -/
structure Invocation where
  json : Bool
  cwd? : Option Path
  task : Task
  deriving DecidableEq, Repr

/-- How a command line can end that asks for nothing to be done. -/
inductive Stop
  /-- The version was asked for with an option. -/
  | version
  | help
  | misuse
  deriving DecidableEq, Repr

/-- The commands that can be named. -/
inductive Name
  | version
  | build
  | resolve
  | aliases
  deriving DecidableEq, Repr

def Name.ofText? : String → Option Name
  | "version" => some .version
  | "build" => some .build
  | "resolve" => some .resolve
  | "aliases" => some .aliases
  | _ => none

/-- An option, by what it sets. -/
inductive Setting
  | verbose | json | cwd | help | showVersion
  | dryRun | condition | importer | maxDepth
  deriving DecidableEq, Repr

namespace Setting

/-- Whether the option is followed by a value. -/
def takesValue : Setting → Bool
  | cwd | condition | importer | maxDepth => true
  | _ => false

/-- Whether the option may be given again. -/
def isRepeatable : Setting → Bool
  | verbose | condition => true
  | _ => false

/-- Whether the option may be given with a command; none stands for the place before it. -/
def isKnown : Setting → Option Name → Bool
  | verbose, _ | json, _ | cwd, _ | help, _ => true
  | showVersion, command => command = none
  | dryRun, command => command = some .build
  | condition, command | importer, command | maxDepth, command => command = some .resolve

def ofLong? : String → Option Setting
  | "verbose" => some verbose
  | "json" => some json
  | "cwd" => some cwd
  | "help" => some help
  | "version" => some showVersion
  | "dry-run" => some dryRun
  | "condition" => some condition
  | "parent" => some importer
  | "max-depth" => some maxDepth
  | _ => none

def ofShort? : Char → Option Setting
  | 'v' => some verbose
  | 'h' => some help
  | 'V' => some showVersion
  | 'C' => some condition
  | _ => none

end Setting

/-- The arguments read so far. -/
structure Reading where
  command? : Option Name := none
  /-- The options without a value since the command, or before it. -/
  flags : List Setting := []
  json : Bool := false
  cwd? : Option Path := none
  dryRun : Bool := false
  conditions : List String := []
  importer? : Option Path := none
  maxDepth? : Option Nat := none
  specifier? : Option String := none

abbrev Step := Except Stop Reading

/-- A number of 64 bits in base ten; a plus sign may stand before it. -/
def natural? (text : String) : Option Nat :=
  let digits := match text.toList with
    | '+' :: r => r
    | cs => cs
  if digits ≠ [] ∧ digits.all Char.isDigit then
    if decimalValue digits < twoTo 64 then some (decimalValue digits) else none
  else none

namespace Reading

/-- Refuses options that are unknown at this place, or were given before. -/
def accept (r : Reading) (o : Setting) : Step :=
  if !o.isKnown r.command? ∨ (o ∈ r.flags ∧ !o.isRepeatable) then .error .misuse
  else .ok { r with flags := o :: r.flags }

def setFlag (r : Reading) (o : Setting) : Step := do
  let r ← r.accept o
  match o with
  | .json => return { r with json := true }
  | .dryRun => return { r with dryRun := true }
  | .help => throw .help
  | .showVersion => throw .version
  | _ => return r

def setValue (r : Reading) (o : Setting) (value : String) : Step := do
  let r ← r.accept o
  match o with
  | .condition => return { r with conditions := r.conditions ++ [value] }
  | .maxDepth =>
    match natural? value with
    | some n => return { r with maxDepth? := some n }
    | none => throw .misuse
  | .cwd => if value = "" then throw .misuse else return { r with cwd? := some ⟨value⟩ }
  | .importer => if value = "" then throw .misuse else return { r with importer? := some ⟨value⟩ }
  | _ => throw .misuse

/-- Takes an argument that is no option: the name of a command, or what a command is about. -/
def setPlain (r : Reading) (text : String) : Step :=
  match r.command?, r.specifier? with
  | none, _ =>
    match Name.ofText? text with
    | some name => .ok { r with command? := some name, flags := [] }
    | none => .error (if text = "help" then .help else .misuse)
  | some .resolve, none => .ok { r with specifier? := some text }
  | _, _ => .error .misuse

end Reading

/-- How an argument begins. -/
inductive Shape
  /-- Ends the options. -/
  | divider
  | long (name : String) (value? : Option String)
  | short (letters : List Char)
  | plain

def Shape.of (text : String) : Shape :=
  match text.toList with
  | ['-', '-'] => .divider
  | '-' :: '-' :: r =>
    let name := String.ofList (r.takeWhile (· ≠ '='))
    match r.dropWhile (· ≠ '=') with
    | [] => .long name none
    | _ :: value => .long name (some (String.ofList value))
  | '-' :: c :: r => .short (c :: r)
  | _ => .plain

/-- What short options leave behind: nothing, or an option that waits for its value. -/
abbrev Pending := Reading × Option Setting

/-- Takes short options that are written as one argument. The rest behind an option with a value
is the value. -/
def Reading.setShort (r : Reading) : List Char → Except Stop Pending
  | [] => .ok (r, none)
  | c :: rest =>
    match Setting.ofShort? c with
    | none => .error .misuse
    | some o =>
      if o.takesValue then
        match rest with
        | [] => if o.isKnown r.command? then .ok (r, some o) else .error .misuse
        | '=' :: value => (r.setValue o (String.ofList value)).map (·, none)
        | value => (r.setValue o (String.ofList value)).map (·, none)
      else do
        let r ← r.setFlag o
        r.setShort rest

/-- Takes one argument. -/
def Reading.take (r : Reading) (text : String) : Except Stop Pending :=
  match Shape.of text with
  | .plain | .divider => (r.setPlain text).map (·, none)
  | .short letters => r.setShort letters
  | .long name value? =>
    match Setting.ofLong? name, value? with
    | none, _ => .error .misuse
    | some o, some value =>
      if o.takesValue then (r.setValue o value).map (·, none) else .error .misuse
    | some o, none =>
      if !o.takesValue then (r.setFlag o).map (·, none)
      else if o.isKnown r.command? then .ok (r, some o)
      else .error .misuse

/-- Takes the arguments behind the divider; none of them is an option. -/
def Reading.takePlain (r : Reading) : List String → Step
  | [] => .ok r
  | text :: rest =>
    if r.command? = none then .error .misuse
    else do
      let r ← r.setPlain text
      r.takePlain rest

/-- Takes all arguments; `waiting?` is an option that waits for its value. -/
def Reading.takeAll (r : Reading) (waiting? : Option Setting) : List String → Step
  | [] => if waiting?.isSome then .error .misuse else .ok r
  | text :: rest =>
    match Shape.of text, waiting? with
    | .plain, some o => do
      let r ← r.setValue o text
      r.takeAll none rest
    | _, some _ => .error .misuse
    | .divider, none => r.takePlain rest
    | _, none => do
      let (r, waiting?) ← r.take text
      r.takeAll waiting? rest

/-- The greatest depth: that of the option, or else that of the environment. -/
def maxDepthOf (r : Reading) (environment? : Option String) : Except Stop (Option Nat) :=
  match r.maxDepth?, environment? with
  | some n, _ => .ok (some n)
  | none, none => .ok none
  | none, some text =>
    match natural? text with
    | some n => .ok (some n)
    | none => .error .misuse

/-- What the arguments ask for; without a command it is the version. -/
def Reading.task (r : Reading) (environment? : Option String) : Except Stop Task :=
  match r.command? with
  | none | some .version => .ok .version
  | some .build => .ok (.build r.dryRun)
  | some .aliases => .ok .aliases
  | some .resolve => do
    let maxDepth? ← maxDepthOf r environment?
    match r.specifier? with
    | some specifier => return .resolve ⟨specifier, r.conditions, r.importer?, maxDepth?⟩
    | none => throw .misuse

/-- Reads a command line. `maxDepth?` is the depth that the environment sets. -/
def Invocation.parse (arguments : List String) (maxDepth? : Option String) :
    Except Stop Invocation := do
  let r ← ({} : Reading).takeAll none arguments
  return ⟨r.json, r.cwd?, ← r.task maxDepth?⟩

end Vendoring.Command
