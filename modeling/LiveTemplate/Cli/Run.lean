import LiveTemplate.Cli.Arguments
import LiveTemplate.Cli.Excerpt
import LiveTemplate.Document.View
import LiveTemplate.Live.Renderer
import LiveTemplate.Markup
import LiveTemplate.Options.Toml
import LiveTemplate.Skeleton.Details
import LiveTemplate.Skeleton.Reading

/-!
# Running the command line

A template is one text in which every mark of a hole takes the next value. It is shown
as a listing of its skeleton, as markup, or as the markup of a document into which it
has been rendered. Files are read by the caller; the outcome is what is to be printed.
-/
namespace LiveTemplate.Cli

/-- Why a file could not be read as text. -/
inductive FileError where
  | notFound
  | isDirectory
  | notDirectory
  | permissionDenied
  | nameTooLong
  | notText
deriving DecidableEq, Repr

def FileError.message : FileError → String
  | .notFound => "No such file or directory (os error 2)"
  | .isDirectory => "Is a directory (os error 21)"
  | .notDirectory => "Not a directory (os error 20)"
  | .permissionDenied => "Permission denied (os error 13)"
  | .nameTooLong => "File name too long (os error 36)"
  | .notText => "stream did not contain valid UTF-8"

/-- The text that bytes encode. -/
def decode (bytes : ByteArray) : Except FileError String :=
  match String.fromUTF8? bytes with
  | some text => .ok text
  | none => .error .notText

inductive Outcome where
  | printed (text : String)
  | failed (message : String)
  | reported (report : Report)
deriving DecidableEq, Repr

/-- The pieces of a text between the marks of holes. -/
def splitAtHoles : List Char → List (List Char)
  | [] => [[]]
  | '$' :: '\x7b' :: '\x7d' :: rest => [] :: splitAtHoles rest
  | c :: rest =>
      match splitAtHoles rest with
      | [] => [[c]]
      | piece :: pieces => (c :: piece) :: pieces

/-- As many values as there are holes: the first ones given, then absent ones. -/
def fitValues (holes : Nat) (given : List String) : List Value :=
  let values := (given.take holes).map Value.text
  values ++ List.replicate (holes - values.length) .null

/-- The markup of a document with nothing but the value in it. -/
def renderAlone (v : Value) : Except DocumentError String :=
  let r := Renderer.render v Document.body {} {}
  match r.failure with
  | none => .ok (r.host.document.innerMarkup Document.body)
  | some e => .error e

/-- The options of a run. A switch on the command line wins over the file. -/
def optionsOf (a : Arguments) (config : Option (Except FileError ByteArray)) :
    Except String MarkupOptions := do
  let options ←
    match a.config, config with
    | some path, some contents =>
        let failed (reason : String) := "Error loading config '" ++ path ++ "': " ++ reason ++ "\n"
        let text ← (contents.bind decode).mapError fun e =>
          failed ("Failed to read config file: " ++ e.message)
        (Toml.read text).mapError fun e => failed ("Failed to parse config TOML: " ++ e.message)
    | _, _ => pure {}
  pure (if a.selfCloseVoid then { options with selfCloseVoid := true } else options)

/-- The name of the input in reports. -/
def inputName (a : Arguments) : String := a.input.getD "<stdin>"

/-- The text of the template. -/
def sourceOf (a : Arguments) (input : Except FileError ByteArray) : Except String String :=
  (input.bind decode).mapError fun e =>
    match a.input with
    | some path => "Error reading file '" ++ path ++ "': " ++ e.message ++ "\n"
    | none => "Error reading from stdin: " ++ e.message ++ "\n"

/-- What is printed of a skeleton that has been parsed. -/
def showSkeleton (a : Arguments) (options : MarkupOptions) (s : Skeleton) : Outcome :=
  if a.tree then .printed (s.listing.indented ++ "\n")
  else
    let v := Value.template 0 ⟨.parsed 0, s⟩ (fitValues s.holes a.values)
    if a.live then
      match renderAlone v with
      | .ok markup => .printed (markup ++ "\n")
      | .error e => .failed ("Error: " ++ e.message ++ "\n")
    else .printed (Markup.content options v ++ "\n")

/-- A run with the contents of the files it names. The configuration is looked at before
the input. -/
def run (a : Arguments) (config : Option (Except FileError ByteArray))
    (input : Except FileError ByteArray) : Outcome :=
  match optionsOf a config with
  | .error message => .failed message
  | .ok options =>
      match sourceOf a input with
      | .error message => .failed message
      | .ok source =>
          let fragments := (splitAtHoles source.toList).map String.ofList
          match Skeleton.parse fragments with
          | .error e => .reported (e.report fragments (inputName a))
          | .ok s => showSkeleton a options s

end LiveTemplate.Cli
