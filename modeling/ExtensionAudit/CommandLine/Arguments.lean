import ExtensionAudit.CommandLine.Options
import ExtensionAudit.Table
import ExtensionAudit.Text.Digit

/-!
# Reading arguments

Every argument is classified first, whatever stands before it; then the options take their values.

* `Word`: what an argument is by itself; `Word.classify`, `Word.classifyAll`;
* `Request.ofWords`, `Request.ofArguments`: what the arguments ask for.
-/

namespace ExtensionAudit.CommandLine

/-- What an argument is by itself. -/
inductive Word where
  /-- A text that may be the value of an option. -/
  | value
  /-- An option, with the value attached to it by an equals sign. -/
  | flag (f : Flag) (attached : Option Text)
  /-- The short help option with letters after it. -/
  | helpLetters (letters : Text)
  /-- Something that looks like an option. -/
  | unknown
  /-- The argument after which there are no options. -/
  | terminator
deriving DecidableEq

namespace Word

def hyphen : CodePoint := CodePoint.ofChar '-'

def equalsSign : CodePoint := CodePoint.ofChar '='

def isDigits (t : Text) : Bool := !t.isEmpty && t.all fun c => c.decimalValue?.isSome

def dropNewline (t : Text) : Text := if t.getLast? = some Text.newline then t.dropLast else t

/-- Is what follows a hyphen an unsigned number: digits, or digits after a point and perhaps before it? A
line feed may end it. -/
def isNumeral (t : Text) : Bool :=
  let point := CodePoint.ofChar '.'
  let t := dropNewline t
  match t.dropWhile (· != point) with
  | [] => isDigits t
  | _ :: fraction =>
    (t.takeWhile (· != point)).all (fun c => c.decimalValue?.isSome) && isDigits fraction

/-- An argument that starts with a hyphen and spells no option: a negative number and a text with a blank are
values. -/
def classifyOther (rest : Text) : Word :=
  if isNumeral rest || rest.contains (CodePoint.ofChar ' ') then .value else .unknown

/-- The value after the first equals sign, if there is one. -/
def attached? (t : Text) : Option Text :=
  match t.dropWhile (· != equalsSign) with
  | [] => none
  | _ :: rest => some rest

/-- The class of an argument. The beginning of one spelling alone stands for that spelling. -/
def classify (a : Text) : Except UsageError Word :=
  match a with
  | [] => .ok .value
  | c :: rest =>
    if c ≠ hyphen then .ok .value
    else match rest with
      | [] => .ok .value
      | d :: letters =>
        if d ≠ hyphen then
          if d = CodePoint.ofChar 'h' then .ok (.helpLetters letters) else .ok (classifyOther rest)
        else
          let spelling := a.takeWhile (· != equalsSign)
          match Table.get? Flag.table spelling with
          | some f => .ok (.flag f (attached? a))
          | none =>
            match Flag.table.filter fun e => e.1.startsWith spelling with
            | [] => .ok (classifyOther rest)
            | [e] => .ok (.flag e.2 (attached? a))
            | es => .error (.ambiguous a (es.map (·.1)))

/-- Every argument with its class. After the terminator there are values alone. -/
def classifyAll : List Text → Except UsageError (List (Text × Word))
  | [] => .ok []
  | a :: rest =>
    if a = [hyphen, hyphen] then .ok ((a, .terminator) :: rest.map (·, .value))
    else do
      let word ← classify a
      let words ← classifyAll rest
      return (a, word) :: words

/-- What letters after the short help option attach to it that it does not take. Repetitions of the option
are fine, and so is whatever follows once the help is shown. -/
def needlessLetters : Text → Option Text
  | [] => none
  | c :: rest =>
    if c = hyphen then some (c :: rest)
    else if c = equalsSign then some rest
    else if c = CodePoint.ofChar 'h' then needlessLetters rest
    else none

end Word

namespace Request

/-- What classified arguments ask for, given what the options before them set and the arguments before them
that are no options. The first request for help is granted at once. -/
def ofWords (o : Options) (strays : List Text) : List (Text × Word) → Except UsageError Request
  | [] => if strays.isEmpty then .ok (.run o) else .error (.unrecognized strays)
  | (_, .flag (.parameter p) (some v)) :: rest => ofWords (o.set v p) strays rest
  | (_, .flag (.parameter p) none) :: (v, .value) :: rest => ofWords (o.set v p) strays rest
  | (_, .flag (.parameter p) none) :: _ => .error (.missingValue p)
  | (_, .flag f (some v)) :: _ => .error (.needlessValue f v)
  | (_, .flag .help none) :: _ => .ok .help
  | (_, .flag .verbose none) :: rest => ofWords { o with verbose := true } strays rest
  | (_, .helpLetters letters) :: _ =>
    match Word.needlessLetters letters with
    | some v => .error (.needlessValue .help v)
    | none => .ok .help
  | (a, .value) :: rest => ofWords o (strays ++ [a]) rest
  | (a, .unknown) :: rest => ofWords o (strays ++ [a]) rest
  | (a, .terminator) :: rest => ofWords o (strays ++ [a]) rest

/-- What arguments ask for, given what is set without them. -/
def ofArguments (o : Options) (arguments : List Text) : Except UsageError Request := do
  ofWords o [] (← Word.classifyAll arguments)

end Request

end ExtensionAudit.CommandLine
