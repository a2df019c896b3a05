/-!
# Arguments of a command

Arguments are options and positional arguments in any order.  An option is a flag, or a setting with
a value that is its next argument or follows an equals sign.  Flags with a letter can be given
together behind one dash.  After two dashes all arguments are positional.
-/

namespace Chip8.Command

/-- The options that a command knows. -/
structure Options where
  /-- The names of its flags. -/
  flags : List String
  /-- The letters that stand for flags. -/
  letters : List (Char × String)
  /-- The names of its settings. -/
  settings : List String
deriving DecidableEq, Repr

/-- The arguments of a command, sorted. -/
structure Arguments where
  /-- The flags that are given. -/
  flags : List String := []
  /-- The settings that are given with their values, latest last. -/
  settings : List (String × String) := []
  /-- The positional arguments. -/
  positional : List String := []
deriving DecidableEq, Repr

namespace Arguments

/-- Adds flags at the front. -/
def withFlags (names : List String) (a : Arguments) : Arguments :=
  { a with flags := names ++ a.flags }

/-- Adds a setting at the front. -/
def withSetting (name value : String) (a : Arguments) : Arguments :=
  { a with settings := (name, value) :: a.settings }

/-- Adds a positional argument at the front. -/
def withPositional (value : String) (a : Arguments) : Arguments :=
  { a with positional := value :: a.positional }

/-- The latest value of a setting. -/
def setting? (a : Arguments) (name : String) : Option String :=
  a.settings.reverse.lookup name

end Arguments

/-- Whether the argument is an option: a dash and something more. -/
def isOption (arg : String) : Bool :=
  match arg.toList with
  | '-' :: _ :: _ => true
  | _ => false

/-- The name and the value of an option that is written with an equals sign. -/
def splitValue (arg : String) : String × Option String :=
  let text := arg.toList
  match text.dropWhile (· ≠ '=') with
  | [] => (arg, none)
  | _ :: value => (String.ofList (text.takeWhile (· ≠ '=')), some (String.ofList value))

/-- The flags that stand behind one dash. -/
def Options.cluster? (o : Options) (arg : String) : Option (List String) :=
  match arg.toList with
  | '-' :: '-' :: _ => none
  | _ :: letters => letters.mapM fun c => o.letters.lookup c
  | [] => none

/-- Sorts the arguments, unless they make no sense. -/
def Options.sort? (o : Options) : List String → Option Arguments
  | [] => some {}
  | arg :: rest =>
    if arg = "--" then some { positional := rest }
    else if !isOption arg then (o.sort? rest).map (.withPositional arg)
    else
      let (name, value?) := splitValue arg
      if o.settings.contains name then
        -- The value is the next argument, even if that looks like an option.
        match value?, rest with
        | some value, rest => (o.sort? rest).map (.withSetting name value)
        | none, value :: rest => (o.sort? rest).map (.withSetting name value)
        | none, [] => none
      else if o.flags.contains name then
        match value? with
        | some _ => none
        | none => (o.sort? rest).map (.withFlags [name])
      else
        match o.cluster? arg with
        | some names => (o.sort? rest).map (.withFlags names)
        | none => none

end Chip8.Command
