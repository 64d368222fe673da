/-!
# Command line arguments

Arguments are read from left to right. Options have a long name, and most a short one;
short options can share one hyphen. An option with a value takes it from the same
argument, behind an equals sign or, after a short name, directly, or else from the next
argument, which must then not look like an option. Two hyphens end the options.
-/
namespace LiveTemplate.Cli

structure Arguments where
  input : Option String := none
  config : Option String := none
  values : List String := []
  tree : Bool := false
  live : Bool := false
  selfCloseVoid : Bool := false
deriving DecidableEq, Repr

/-- Options without a value. -/
inductive Switch where
  | tree
  | live
  | selfCloseVoid
  | help
deriving DecidableEq, Repr

/-- Options with a value. -/
inductive Setting where
  | config
  | value
deriving DecidableEq, Repr

/-- What the arguments ask for. -/
inductive Request where
  | run (arguments : Arguments)
  | help
  | misused
deriving DecidableEq, Repr

/-- What is to be done with the arguments still to come. -/
inductive Reading where
  | options (arguments : Arguments)
  | valueOf (setting : Setting) (arguments : Arguments)
  | positional (arguments : Arguments)
  | done (request : Request)
deriving DecidableEq, Repr

def longSwitch? : String → Option Switch
  | "tree" => some .tree
  | "live" => some .live
  | "self-close-void" => some .selfCloseVoid
  | "help" => some .help
  | _ => none

def longSetting? : String → Option Setting
  | "config" => some .config
  | "value" => some .value
  | _ => none

def shortSwitch? : Char → Option Switch
  | 't' => some .tree
  | 'l' => some .live
  | 'h' => some .help
  | _ => none

def shortSetting? : Char → Option Setting
  | 'c' => some .config
  | 'v' => some .value
  | _ => none

namespace Arguments

/-- A switch can be set once. -/
def flip (s : Switch) (a : Arguments) : Reading :=
  match s with
  | .tree => if a.tree then .done .misused else .options { a with tree := true }
  | .live => if a.live then .done .misused else .options { a with live := true }
  | .selfCloseVoid =>
      if a.selfCloseVoid then .done .misused else .options { a with selfCloseVoid := true }
  | .help => .done .help

/-- A configuration can be given once, and its path is not empty; values add up. -/
def give (s : Setting) (text : String) (a : Arguments) : Reading :=
  match s with
  | .config =>
      if a.config.isSome || text = "" then .done .misused
      else .options { a with config := some text }
  | .value => .options { a with values := a.values ++ [text] }

/-- The input can be given once, and its path is not empty. -/
def place (text : String) (a : Arguments) : Option Arguments :=
  if a.input.isSome || text = "" then none else some { a with input := some text }

def readLong (name : String) (attached : Option String) (a : Arguments) : Reading :=
  match longSwitch? name, longSetting? name, attached with
  | some s, _, none => a.flip s
  | _, some s, some text => a.give s text
  | _, some s, none => .valueOf s a
  | _, _, _ => .done .misused

/-- A cluster of short options. The first one with a value takes all that follows. -/
def readShort (a : Arguments) : List Char → Reading
  | [] => .options a
  | c :: rest =>
      match shortSwitch? c, shortSetting? c with
      | some s, _ =>
          match a.flip s with
          | .options a => readShort a rest
          | reading => reading
      | none, some s =>
          match rest with
          | [] => .valueOf s a
          | '=' :: text => a.give s (String.ofList text)
          | text => a.give s (String.ofList text)
      | none, none => .done .misused

def readOption (arg : String) (a : Arguments) : Reading :=
  match arg.toList with
  | ['-', '-'] => .positional a
  | '-' :: '-' :: long =>
      let name := String.ofList (long.takeWhile (· ≠ '='))
      match long.dropWhile (· ≠ '=') with
      | _ :: text => a.readLong name (some (String.ofList text))
      | [] => a.readLong name none
  | '-' :: c :: rest => a.readShort (c :: rest)
  | _ =>
      match a.place arg with
      | some a => .options a
      | none => .done .misused

end Arguments

/-- A single hyphen does not look like an option. -/
def looksLikeOption (arg : String) : Bool :=
  match arg.toList with
  | '-' :: _ :: _ => true
  | _ => false

namespace Reading

def next (reading : Reading) (arg : String) : Reading :=
  match reading with
  | .options a => a.readOption arg
  | .valueOf setting a => if looksLikeOption arg then .done .misused else a.give setting arg
  | .positional a =>
      match a.place arg with
      | some a => .positional a
      | none => .done .misused
  | .done request => .done request

/-- At the end no option may still lack its value. -/
def finish : Reading → Request
  | .options a => .run a
  | .valueOf _ _ => .misused
  | .positional a => .run a
  | .done request => request

end Reading

/-- The request that a list of arguments makes. -/
def Request.ofArguments (args : List String) : Request :=
  (args.foldl Reading.next (.options {})).finish

end LiveTemplate.Cli
