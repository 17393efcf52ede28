import Worksheet.Command.Basic

/-! # Command lines

A command line is a subcommand with its options and positional arguments, in any order. An option
may have its value joined to it or as the next argument; that value is only looked at when the next
option or positional argument, or the end, has shown that there is no more to come. After `--` there
are only positional arguments. An expression may begin with `-` as long as it is not made of known
options. -/

namespace Worksheet.Command

/-- The reasons for which a command line gives no command. -/
inductive Usage where
  | help
  | version
  | nothingAsked
  | missingCommand
  | unknownCommand
  | missingArgument
  | unknownArgument
  | missingValue
  | unwantedValue
  | invalidValue
  | repeatedOption
deriving DecidableEq, Repr

/-- The subcommands. -/
inductive Subcommand where
  | eval
  | list
  | edit
  | sample
deriving DecidableEq, Repr

/-- The flags. -/
inductive Flag where
  | debug
  | help
  | version
deriving DecidableEq, Repr

/-- The options that take a value. -/
inductive ValueOption where
  | binding
  | rows
  | columns
deriving DecidableEq, Repr

/-- What an option on the command line stands for. -/
inductive Switch where
  | flag (flag : Flag)
  | option (option : ValueOption)
deriving DecidableEq, Repr

/-- A command, and how often more detail was asked for. -/
structure Invocation where
  command : Command
  debug : Nat
deriving DecidableEq, Repr

/-! ### Names -/

/-- The subcommand with a given name. -/
def Subcommand.ofName? : String → Option Subcommand
  | "eval" => some .eval
  | "show" => some .list
  | "set" => some .edit
  | "demo" => some .sample
  | _ => none

/-- The number of positional arguments. -/
def Subcommand.arity : Subcommand → Nat
  | eval | list | sample => 1
  | edit => 3

/-- The switch with a given long name, before the subcommand or after it. -/
def longSwitch? : Option Subcommand → String → Option Switch
  | _, "debug" => some (.flag .debug)
  | _, "help" => some (.flag .help)
  | none, "version" => some (.flag .version)
  | some .eval, "var" => some (.option .binding)
  | some .list, "rows" | some .edit, "rows" | some .sample, "rows" => some (.option .rows)
  | some .list, "columns" | some .edit, "columns" | some .sample, "columns" =>
    some (.option .columns)
  | _, _ => none

/-- The switch with a given letter, before the subcommand or after it. -/
def shortSwitch? : Option Subcommand → Char → Option Switch
  | _, 'd' => some (.flag .debug)
  | _, 'h' => some (.flag .help)
  | none, 'V' => some (.flag .version)
  | some .eval, 'v' => some (.option .binding)
  | _, _ => none

/-- The form of an argument before `--`. -/
inductive Form where
  | separator
  | long (name : String) (value : Option String)
  | letters (letters : List Char)
  | plain
deriving DecidableEq, Repr

/-- The form of an argument. A single `-` is plain. -/
def Form.ofArgument (argument : String) : Form :=
  match argument.toList with
  | ['-', '-'] => separator
  | '-' :: '-' :: s =>
    long (String.ofList (s.takeWhile (· != '=')))
      (match s.dropWhile (· != '=') with
        | _ :: value => some (String.ofList value)
        | [] => none)
  | '-' :: c :: s => letters (c :: s)
  | _ => plain

/-! ### After the subcommand -/

/-- What has been read after the subcommand. The option `pending` has been named and its value, if
it has come, has not been looked at. -/
structure Progress where
  debug : Nat
  positionals : List String
  bindings : List String
  rows : Option Nat
  columns : Option Nat
  pending : Option (ValueOption × Option String)
  separated : Bool

namespace Progress

/-- Nothing has been read. -/
def start : Progress := ⟨0, [], [], none, none, none, false⟩

/-- The number in a value: digits after an optional `+`, below the size of a word. -/
def number? (value : String) : Option Nat :=
  match value.toList with
  | '+' :: digits => Text.word? digits
  | digits => Text.word? digits

/-- The number of an option that may come once. -/
def once (old : Option Nat) (value : String) : Except Usage (Option Nat) :=
  match old, number? value with
  | some _, _ => .error .repeatedOption
  | none, some n => .ok (some n)
  | none, none => .error .invalidValue

/-- An option with its value is taken up. -/
def take (p : Progress) (option : ValueOption) (value : String) : Except Usage Progress :=
  match option with
  | .binding => .ok { p with bindings := p.bindings ++ [value] }
  | .rows => do return { p with rows := ← once p.rows value }
  | .columns => do return { p with columns := ← once p.columns value }

/-- The pending option is taken up. -/
def settle (p : Progress) : Except Usage Progress :=
  match p.pending with
  | none => .ok p
  | some (option, some value) => { p with pending := none }.take option value
  | some (_, none) => .error .missingValue

/-- The option whose value is to come next. -/
def awaiting (p : Progress) : Option ValueOption :=
  match p.pending with
  | some (option, none) => some option
  | _ => none

/-- A switch has been read, perhaps with its value. -/
def switch (p : Progress) : Switch → Option String → Except Usage Progress
  | .flag .debug, _ => do let p ← p.settle; return { p with debug := min 255 (p.debug + 1) }
  | .flag .help, _ => do let _ ← p.settle; throw .help
  | .flag .version, _ => do let _ ← p.settle; throw .version
  | .option option, some value => do (← p.settle).take option value
  | .option option, none => do let p ← p.settle; return { p with pending := some (option, none) }

/-- A group of letters after one `-` has been read. The letter of an option that takes a value takes
what follows it, without a `=` between. -/
def letters (command : Subcommand) (p : Progress) : List Char → Except Usage Progress
  | [] => .ok p
  | c :: s =>
    match shortSwitch? (some command) c with
    | none => .error .unknownArgument
    | some (.flag flag) => do (← p.switch (.flag flag) none).letters command s
    | some (.option option) =>
      p.switch (.option option) <|
        match s with
        | [] => none
        | '=' :: value => some (String.ofList value)
        | value => some (String.ofList value)

/-- A positional argument has been read. -/
def positional (command : Subcommand) (p : Progress) (argument : String) : Except Usage Progress :=
  if p.positionals.length < command.arity then do
    let p ← p.settle
    return { p with positionals := p.positionals ++ [argument] }
  else .error .unknownArgument

/-- An argument that is not a switch has been read: a value that is awaited, or else a positional
argument. -/
def value (command : Subcommand) (p : Progress) (argument : String) : Except Usage Progress :=
  match p.awaiting with
  | some option => .ok { p with pending := some (option, some argument) }
  | none => p.positional command argument

/-- Whether an argument with an unknown switch is an expression, or the value awaited before it. -/
def takesHyphens (command : Subcommand) (p : Progress) : Bool :=
  command == .eval && p.positionals.isEmpty

/-- One more argument has been read. -/
def step (command : Subcommand) (p : Progress) (argument : String) : Except Usage Progress :=
  if p.separated then p.positional command argument
  else
    match Form.ofArgument argument with
    | .separator => .ok { p with separated := true }
    | .long name joined =>
      match longSwitch? (some command) name with
      | some (.flag flag) =>
        if joined.isSome then .error .unwantedValue else p.switch (.flag flag) none
      | some (.option option) => p.switch (.option option) joined
      | none => if p.takesHyphens command then p.value command argument else .error .unknownArgument
    | .letters cs =>
      if p.takesHyphens command && cs.any fun c => (shortSwitch? (some command) c).isNone then
        p.value command argument
      else p.letters command cs
    | .plain => p.value command argument

/-- The command, all arguments having been read. -/
def finish (command : Subcommand) (p : Progress) : Except Usage Command := do
  let p ← p.settle
  let size : GridSize := ⟨p.rows.getD Grid.defaultRows, p.columns.getD Grid.defaultColumns⟩
  match command, p.positionals with
  | .eval, [expression] => .ok (.evaluate expression p.bindings)
  | .list, [file] => .ok (.list file size)
  | .edit, [file, address, text] => .ok (.edit file address text size)
  | .sample, [file] => .ok (.sample file size)
  | _, _ => .error .missingArgument

end Progress

/-- The invocation of a subcommand with its arguments. More detail asked for after the subcommand
counts instead of what was asked for before it. -/
def parseSubcommand (command : Subcommand) (debug : Nat) (arguments : List String) :
    Except Usage Invocation := do
  let p ← arguments.foldlM (Progress.step command) .start
  let c ← p.finish command
  return ⟨c, if p.debug = 0 then debug else p.debug⟩

/-! ### Before the subcommand -/

/-- How often more detail has been asked for after a group of letters before the subcommand. -/
def rootLetters (debug : Nat) : List Char → Except Usage Nat
  | [] => .ok debug
  | c :: s =>
    match shortSwitch? none c with
    | some (.flag .debug) => rootLetters (min 255 (debug + 1)) s
    | some (.flag .help) => .error .help
    | some (.flag .version) => .error .version
    | _ => .error .unknownArgument

/-- The outcome of asking for help, perhaps on one subcommand. -/
def helpOn : List String → Usage
  | [] => .help
  | [name] => if name = "help" ∨ (Subcommand.ofName? name).isSome then .help else .unknownCommand
  | _ => .unknownCommand

/-- The outcome if no subcommand comes. -/
def noCommand (debug : Nat) : Usage := if debug = 0 then .nothingAsked else .missingCommand

/-- The invocation of a command line, given how often more detail has been asked for so far. -/
def parseFrom (debug : Nat) : List String → Except Usage Invocation
  | [] => .error (noCommand debug)
  | argument :: rest =>
    match Subcommand.ofName? argument with
    | some command => parseSubcommand command debug rest
    | none =>
      if argument = "help" then .error (helpOn rest)
      else
        match Form.ofArgument argument with
        | .separator =>
          match rest with
          | [] => .error (noCommand debug)
          | name :: _ =>
            if name = "help" ∨ (Subcommand.ofName? name).isSome then .error .unknownArgument
            else .error .unknownCommand
        | .long name value =>
          match longSwitch? none name, value with
          | some (.flag _), some _ => .error .unwantedValue
          | some (.flag .debug), none => parseFrom (min 255 (debug + 1)) rest
          | some (.flag .help), none => .error .help
          | some (.flag .version), none => .error .version
          | _, _ => .error .unknownArgument
        | .letters cs => do parseFrom (← rootLetters debug cs) rest
        | .plain => .error .unknownCommand

/-- The invocation of a command line. -/
def parse (arguments : List String) : Except Usage Invocation := parseFrom 0 arguments

end Worksheet.Command
