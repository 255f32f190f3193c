/-!
# CommandLine/Options — reading the arguments of the program

Options come before, between or behind the name of a script; from the first argument of the script on,
everything belongs to the script. `Options.read` says what is asked for, or nothing if the arguments make
no sense.
-/

namespace CommandScript

/-- Options that take a value. -/
inductive Setting
  | command | shell | shellFlag
deriving DecidableEq

/-- Whether the value may start with a hyphen. -/
def Setting.allowsHyphen : Setting → Bool
  | .shellFlag => true
  | _ => false

/-- Options that take no value. -/
inductive Switch
  | dumpProgram | verbose | help | version
deriving DecidableEq

/-- What an option is, by its name. -/
inductive OptionName
  | setting (s : Setting)
  | switch (s : Switch)
deriving DecidableEq

namespace OptionName

/-- Options by long name. -/
def ofLong? : String → Option OptionName
  | "command" => some (.setting .command)
  | "shell" => some (.setting .shell)
  | "shell-flag" => some (.setting .shellFlag)
  | "dump-ast" => some (.switch .dumpProgram)
  | "verbose" => some (.switch .verbose)
  | "help" => some (.switch .help)
  | "version" => some (.switch .version)
  | _ => none

/-- Options by letter. -/
def ofLetter? : Char → Option OptionName
  | 'c' => some (.setting .command)
  | 'v' => some (.switch .verbose)
  | 'h' => some (.switch .help)
  | 'V' => some (.switch .version)
  | _ => none

end OptionName

/-- What the arguments say. -/
structure Options where
  /-- Text to run. -/
  command : Option String
  /-- The program that launches command lines. -/
  shell : Option String
  /-- The flag of that program. -/
  shellFlag : Option String
  /-- Whether the program is shown instead of run. -/
  dumpProgram : Bool
  /-- How much is logged. -/
  verbosity : Nat
  /-- The script to run. -/
  script : Option String
  /-- The arguments of the script. -/
  args : List String
deriving DecidableEq

/-- What is asked for. -/
inductive Request
  | run (options : Options)
  | help
  | version
deriving DecidableEq

namespace Options

/-- Nothing said. -/
def none : Options := ⟨.none, .none, .none, false, 0, .none, []⟩

/-- How far reading has come. -/
structure Progress where
  options : Options
  /-- An option that waits for its value. -/
  pending : Option Setting
  /-- Whether the rest belongs to the script. -/
  trailing : Bool
deriving DecidableEq

/-- Why reading stops early. -/
inductive Stop
  | usage | help | version
deriving DecidableEq

/-- Steps of reading. -/
abbrev Reading := Except Stop Progress

namespace Progress

/-- Whether the next plain argument is one of the script's. -/
def expectsArgs (p : Progress) : Bool := p.options.script.isSome

/-- Whether an option waits whose value may start with a hyphen. -/
def takesHyphen (p : Progress) : Bool := p.pending.any Setting.allowsHyphen

/-- Set an option; it may be set only once. -/
def set (p : Progress) (s : Setting) (value : String) : Reading :=
  let p := { p with pending := .none }
  let o := p.options
  match s with
  | .command =>
    if o.command.isSome then .error .usage else .ok { p with options := { o with command := value } }
  | .shell =>
    if o.shell.isSome then .error .usage else .ok { p with options := { o with shell := value } }
  | .shellFlag =>
    if o.shellFlag.isSome then .error .usage
    else .ok { p with options := { o with shellFlag := value } }

/-- No option may wait for a value. -/
def settled (p : Progress) : Reading := if p.pending.isSome then .error .usage else .ok p

/-- Turn a switch on. All but the one for logging may be given only once. -/
def turnOn (p : Progress) (s : Switch) : Reading := do
  let p ← p.settled
  match s with
  | .help => .error .help
  | .version => .error .version
  | .verbose => .ok { p with options := { p.options with verbosity := p.options.verbosity + 1 } }
  | .dumpProgram =>
    if p.options.dumpProgram then .error .usage
    else .ok { p with options := { p.options with dumpProgram := true } }

/-- An option that takes a value, with the value if it is attached. -/
def begin (p : Progress) (s : Setting) (value : Option String) : Reading := do
  let p ← p.settled
  match value with
  | some value => p.set s value
  | .none => .ok { p with pending := some s }

/-- The script, or one of its arguments. The name of a script is not empty. -/
def positional (p : Progress) (arg : String) : Reading :=
  if p.expectsArgs then
    .ok { p with trailing := true, options := { p.options with args := p.options.args ++ [arg] } }
  else if arg.isEmpty then .error .usage
  else .ok { p with options := { p.options with script := some arg } }

/-- A plain argument: the value of the option that waits for one, or else a positional argument. -/
def plain (p : Progress) (arg : String) : Reading :=
  match p.pending with
  | some s => p.set s arg
  | .none => p.positional arg

/-- Letters behind a hyphen. An option that takes a value takes the rest, without an equals sign in front. -/
def letters (p : Progress) : List Char → Reading
  | [] => .ok p
  | c :: rest =>
    match OptionName.ofLetter? c with
    | .none => .error .usage
    | some (.switch s) => do
      let p ← p.turnOn s
      letters p rest
    | some (.setting s) =>
      match rest with
      | [] => p.begin s .none
      | '=' :: value => p.begin s (some (String.ofList value))
      | value => p.begin s (some (String.ofList value))

/-- A name behind two hyphens, with the value behind an equals sign. -/
def long (p : Progress) (arg : String) (text : List Char) : Reading :=
  let name := text.takeWhile (· != '=')
  let value : Option String :=
    if name.length < text.length then some (String.ofList (text.drop (name.length + 1))) else .none
  match OptionName.ofLong? (String.ofList name) with
  | some (.setting s) => p.begin s value
  | some (.switch s) => if value.isSome then .error .usage else p.turnOn s
  | .none => if p.expectsArgs then p.plain arg else .error .usage

/-- Take one argument. -/
def step (p : Progress) (arg : String) : Reading :=
  if p.trailing then do (← p.settled).positional arg
  else if p.takesHyphen then p.plain arg
  else match arg.toList with
    | ['-', '-'] => .ok { p with trailing := true }
    | '-' :: '-' :: text => p.long arg text
    | '-' :: c :: cs =>
      if p.expectsArgs && !(c :: cs).all (fun c => (OptionName.ofLetter? c).isSome) then p.plain arg
      else p.letters (c :: cs)
    | _ => p.plain arg

/-- Take arguments in order. -/
def steps : Progress → List String → Reading
  | p, [] => p.settled
  | p, arg :: args => do
    let p ← p.step arg
    steps p args

end Progress

/-- What the arguments ask for, if they make sense. -/
def read (args : List String) : Option Request :=
  match Progress.steps ⟨none, .none, false⟩ args with
  | .ok p => some (.run p.options)
  | .error .help => some .help
  | .error .version => some .version
  | .error .usage => .none

end Options

end CommandScript
