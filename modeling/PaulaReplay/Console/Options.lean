/-
  Options - the options and names given on a command line.

  An argument is an option if it begins with a dash and is longer than it.
  Two dashes begin a long name, to which a value may be joined by an equals
  sign; one dash begins a bundle of letters, of which one that takes a value
  takes the rest of the bundle.  A value that is joined to nothing is the next
  argument.  Two dashes alone end the options.  All else is free.

  * `Spec` describes an option, `OptionError` what may be wrong;
  * `Given` are the options met so far, with the free arguments;
  * `bundle` reads the letters after one dash, `parse` the whole line;
  * `usage` is the help text.
-/
import PaulaReplay.Text.Column

namespace PaulaReplay.Console

/-! ## Descriptions -/

/-- An option: its letter, its long name, what its value is called if it takes
    one, and a line of help. -/
structure Spec where
  letter : Char
  long : String
  value? : Option String
  help : String
deriving DecidableEq, Repr

/-- What may be wrong with options. -/
inductive OptionError where
  | unrecognized (name : String)
  | valueMissing (name : String)
  | valueRefused (name : String)
  | repeated (long : String)
deriving DecidableEq, Repr

/-- The wording of a wrong option. -/
def OptionError.message : OptionError → String
  | unrecognized name => "Unrecognized option: '" ++ name ++ "'"
  | valueMissing name => "Argument to option '" ++ name ++ "' missing"
  | valueRefused name => "Option '" ++ name ++ "' does not take an argument"
  | repeated long => "Option '" ++ long ++ "' given more than once"

/-- The options met, each with its value, and the free arguments, both in
    their order. -/
structure Given where
  options : List (Char × Option String) := []
  free : List String := []
deriving DecidableEq, Repr

namespace Given

/-- One more option. -/
def add (g : Given) (letter : Char) (value? : Option String) : Given :=
  { g with options := g.options ++ [(letter, value?)] }

/-- Free arguments. -/
def addFree (g : Given) (args : List String) : Given := { g with free := g.free ++ args }

/-- Whether an option was met. -/
def has (g : Given) (letter : Char) : Bool := g.options.any (·.1 == letter)

/-- The value of an option. -/
def value? (g : Given) (letter : Char) : Option String :=
  (g.options.lookup letter).join

end Given

/-! ## Reading -/

/-- The option of a letter. -/
def byLetter? (specs : List Spec) (letter : Char) : Option Spec :=
  specs.find? (·.letter == letter)

/-- The option of a long name; a name of one byte is a letter. -/
def byName? (specs : List Spec) (name : String) : Option Spec :=
  match name.toList with
  | [c] => if c.utf8Size = 1 then byLetter? specs c else none
  | _ => specs.find? (·.long == name)

/-- An option that waits for its value, by the name it was given with; the
    value is there already where it was joined to the name. -/
structure Waiting where
  name : String
  joined? : Option String
deriving DecidableEq, Repr

/-- The letters after one dash: the options among them, and the last one where
    it takes a value. -/
def bundle (specs : List Spec) : List Char → Given → Except OptionError (Given × Option Waiting)
  | [], g => .ok (g, none)
  | c :: rest, g =>
    match byLetter? specs c with
    | none => .error (.unrecognized c.toString)
    | some spec =>
      if spec.value?.isSome then
        .ok (g, some ⟨c.toString, if rest.isEmpty then none else some (String.ofList rest)⟩)
      else bundle specs rest (g.add c none)

/-- A long name, and the value joined to it. -/
def longName (cs : List Char) : Waiting :=
  ⟨String.ofList (cs.takeWhile (· != '=')),
    if '=' ∈ cs then some (String.ofList ((cs.dropWhile (· != '=')).drop 1)) else none⟩

/-- The option that waits, with the arguments that follow it: what is met, and
    the arguments left. -/
def settle (specs : List Spec) (w : Waiting) (rest : List String) (g : Given) :
    Except OptionError (Given × List String) :=
  match byName? specs w.name with
  | none => .error (.unrecognized w.name)
  | some spec =>
    if spec.value?.isNone then
      if w.joined?.isSome then .error (.valueRefused w.name)
      else .ok (g.add spec.letter none, rest)
    else match w.joined?, rest with
      | some v, _ => .ok (g.add spec.letter (some v), rest)
      | none, v :: rest => .ok (g.add spec.letter (some v), rest)
      | none, [] => .error (.valueMissing w.name)

/-- Read at most so many arguments. -/
def readArguments (specs : List Spec) : Nat → List String → Given → Except OptionError Given
  | 0, _, g => .ok g
  | _, [], g => .ok g
  | n + 1, arg :: rest, g =>
    match arg.toList with
    | ['-', '-'] => .ok (g.addFree rest)
    | '-' :: '-' :: name => do
      let (g, rest) ← settle specs (longName name) rest g
      readArguments specs n rest g
    | '-' :: c :: letters => do
      match ← bundle specs (c :: letters) g with
      | (g, none) => readArguments specs n rest g
      | (g, some w) => do
        let (g, rest) ← settle specs w rest g
        readArguments specs n rest g
    | _ => readArguments specs n rest (g.addFree [arg])

/-- The first option, in the order of their descriptions, that was met more
    than once. -/
def repeated? (specs : List Spec) (g : Given) : Option Spec :=
  specs.find? fun s => 1 < g.options.countP (·.1 == s.letter)

/-- Read a command line. -/
def parse (specs : List Spec) (args : List String) : Except OptionError Given := do
  let g ← readArguments specs args.length args {}
  match repeated? specs g with
  | some s => throw (.repeated s.long)
  | none => return g

/-! ## Help -/

/-- The column at which the help of an option begins. -/
def helpColumn : Nat := 24

/-- The line of help of an option. -/
def Spec.line (s : Spec) : String :=
  let name := "    -" ++ s.letter.toString ++ ", --" ++ s.long ++
    (match s.value? with
      | some v => " " ++ v
      | none => "")
  name ++ String.ofList (List.replicate (helpColumn - name.length) ' ') ++ s.help ++ "\n"

/-- The help text. -/
def usage (brief : String) (specs : List Spec) : String :=
  brief ++ "\n\nOptions:\n" ++ String.join (specs.map Spec.line)

end PaulaReplay.Console
