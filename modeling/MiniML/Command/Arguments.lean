/-
  MiniML/Command/Arguments.lean
  =============================
  **The command line** — a command, its flags and its operands, in any order.

      plambda [flags] eval <term> | type <term> | run <file> | demo

  A long flag is written `--name`, with its value behind an equals sign or as the
  next argument; a letter is written `-x`, and letters may share one dash as long as
  all but the last are switches.  After `--` every argument is an operand.  What
  begins with `test.` behind a dash is meant for a test runner and is passed over.

  The command is looked for first, and the flags that a command has are known only
  then.  During the search an unknown flag is taken to have a value, so the argument
  behind it is passed over.  What is wrong with the flags is found before what is
  wrong with the number of operands.  A command that does not exist is reported
  together with those that may have been meant.
-/
import MiniML.Text.EditDistance
import MiniML.Text.Numeral
import MiniML.Text.Quoted
import MiniML.Name

namespace MiniML

inductive Verb where
  | eval
  | type
  | run
  | demo
deriving DecidableEq, Repr

def Verb.ofName? : String → Option Verb
  | "eval" => some .eval
  | "type" => some .type
  | "run" => some .run
  | "demo" => some .demo
  | _ => none

inductive Flag where
  | config
  | color
  | debug
  | help
  | steps
  | ast
  | typecheck
deriving DecidableEq, Repr

namespace Flag

def all : List Flag := [.config, .color, .debug, .help, .steps, .ast, .typecheck]

/-- The name of a flag, without its dashes. -/
def name : Flag → String
  | .config => "config"
  | .color => "color"
  | .debug => "debug"
  | .help => "help"
  | .steps => "steps"
  | .ast => "ast"
  | .typecheck => "typecheck"

/-- The letter of a flag that has one. -/
def letter? : Flag → Option Char
  | .debug => some 'd'
  | .help => some 'h'
  | .steps => some 's'
  | _ => none

/-- How errors refer to a flag. -/
def text (f : Flag) : String :=
  match f.letter? with
  | some c => "-" ++ c.toString ++ ", --" ++ f.name
  | none => "--" ++ f.name

def isSwitch : Flag → Bool
  | .debug | .help | .ast | .typecheck => true
  | .config | .color | .steps => false

/-- Whether a command has a flag; `none` stands for the absence of a command. -/
def isFor (verb : Option Verb) : Flag → Bool
  | .config | .color | .debug | .help => true
  | .steps => verb == some .eval || verb == some .run
  | .ast | .typecheck => verb == some .eval

def ofName? (verb : Option Verb) (name : String) : Option Flag :=
  all.find? fun f => f.isFor verb && f.name == name

def ofLetter? (verb : Option Verb) (c : Char) : Option Flag :=
  all.find? fun f => f.isFor verb && f.letter? == some c

end Flag

structure Options where
  /-- The path of the settings file; the empty one stands for a search. -/
  config : String := ""
  color : Option String := none
  debug : Option Bool := none
  help : Bool := false
  steps : Option Int64 := none
  ast : Bool := false
  typecheck : Bool := false
deriving DecidableEq, Repr

inductive ValueFault where
  | integer (fault : NumeralFault)
  | boolean
deriving DecidableEq, Repr

def ValueFault.message (value : String) : ValueFault → String
  | .integer .malformed => "strconv.ParseInt: parsing " ++ Text.quoted value ++ ": invalid syntax"
  | .integer .outOfRange =>
    "strconv.ParseInt: parsing " ++ Text.quoted value ++ ": value out of range"
  | .boolean => "strconv.ParseBool: parsing " ++ Text.quoted value ++ ": invalid syntax"

inductive UsageError where
  /-- A command that does not exist, and the ones that it resembles. -/
  | unknownCommand (name context : String) (similar : List String)
  | unknownFlag (name : String)
  | unknownLetter (letter : Char) (group : String)
  /-- A long flag without a name. -/
  | badSyntax (word : String)
  | missingValue (name : String)
  | missingLetterValue (letter : Char) (group : String)
  | badValue (flag : Flag) (value : String) (fault : ValueFault)
  /-- A command with one operand was given another number of them. -/
  | operandCount (count : Nat)
deriving DecidableEq, Repr

/-- The first byte of a character, as a character of its own. -/
def leadingByte (c : Char) : Char :=
  match String.utf8EncodeChar c with
  | b :: _ => Char.ofNat b.toNat
  | [] => c

/-- Letters are bytes: what is shown of a letter outside ASCII is the first byte of
    the character that its own first byte stands for. -/
def shownLetter (c : Char) : Char := leadingByte (leadingByte c)

/-- The commands that may have been meant, one on each line. -/
def suggestion (similar : List String) : String :=
  if similar = [] then ""
  else "\n\nDid you mean this?\n" ++
    "".intercalate (similar.map fun name => "\t" ++ name ++ "\n")

def UsageError.message : UsageError → String
  | .unknownCommand name context similar =>
    "unknown command " ++ Text.quoted name ++ " for " ++ Text.quoted context ++ suggestion similar
  | .unknownFlag name => "unknown flag: --" ++ name
  | .unknownLetter c group =>
    "unknown shorthand flag: " ++ Text.quotedChar (shownLetter c) ++ " in -" ++ group
  | .badSyntax word => "bad flag syntax: " ++ word
  | .missingValue name => "flag needs an argument: --" ++ name
  | .missingLetterValue c group =>
    "flag needs an argument: " ++ Text.quotedChar c ++ " in -" ++ group
  | .badValue flag value fault =>
    "invalid argument " ++ Text.quoted value ++ " for " ++ Text.quoted flag.text ++ " flag: " ++
      fault.message value
  | .operandCount n => "accepts 1 arg(s), received " ++ toString n

/-! ### Values of flags -/

def readBool? (s : String) : Option Bool :=
  if ["1", "t", "T", "true", "TRUE", "True"].contains s then some true
  else if ["0", "f", "F", "false", "FALSE", "False"].contains s then some false
  else none

namespace Options

/-- The options with a flag set to a value. -/
def set (o : Options) (f : Flag) (value : String) : Except UsageError Options :=
  let switch (put : Bool → Options) : Except UsageError Options :=
    match readBool? value with
    | some b => .ok (put b)
    | none => .error (.badValue f value .boolean)
  match f with
  | .config => .ok { o with config := value }
  | .color => .ok { o with color := some value }
  | .debug => switch fun b => { o with debug := some b }
  | .help => switch fun b => { o with help := b }
  | .ast => switch fun b => { o with ast := b }
  | .typecheck => switch fun b => { o with typecheck := b }
  | .steps =>
    match readInt64 value with
    | .ok n => .ok { o with steps := some n }
    | .error fault => .error (.badValue f value (.integer fault))

end Options

/-! ### Arguments one by one -/

namespace Arguments

inductive Effect where
  | operand
  /-- No flag comes after this. -/
  | endFlags
  /-- A flag was set, and possibly the next argument was its value. -/
  | options (options : Options) (usesNext : Bool)
deriving DecidableEq, Repr

def setTo (o : Options) (f : Flag) (value : String) (usesNext : Bool) : Except UsageError Effect :=
  match o.set f value with
  | .ok o' => .ok (.options o' usesNext)
  | .error e => .error e

/-- The effect of a long flag, given without its dashes. -/
def long (verb : Option Verb) (o : Options) (body : List Char) (next : Option String) :
    Except UsageError Effect :=
  let name := String.ofList (body.takeWhile (· != '='))
  let value := body.dropWhile (· != '=')
  if body.head?.any (fun c => c == '-' || c == '=') then
    .error (.badSyntax ("--" ++ String.ofList body))
  else
    match Flag.ofName? verb name with
    | none => .error (.unknownFlag name)
    | some f =>
      if value ≠ [] then setTo o f (String.ofList value.tail) false
      else if f.isSwitch then setTo o f "true" false
      else
        match next with
        | some v => setTo o f v true
        | none => .error (.missingValue name)

/-- The beginning of flags that belong to a test runner. -/
def testMark : List Char := "test.".toList

/-- The effect of letters behind one dash. -/
def letters (verb : Option Verb) (next : Option String) :
    Options → List Char → Except UsageError Effect
  | o, [] => .ok (.options o false)
  | o, c :: rest =>
    let group := String.ofList (c :: rest)
    -- the whole group is passed over, whatever it holds
    if testMark.isPrefixOf (c :: rest) then .ok (.options o false)
    else
      match Flag.ofLetter? verb c with
      | none => .error (.unknownLetter c group)
      | some f =>
        -- an equals sign with nothing behind it is taken for a letter or a value
        if rest.head? = some '=' ∧ rest.length > 1 then setTo o f (String.ofList rest.tail) false
        else if f.isSwitch then
          match o.set f "true" with
          | .ok o' => letters verb next o' rest
          | .error e => .error e
        else if rest ≠ [] then setTo o f (String.ofList rest) false
        else
          match next with
          | some v => setTo o f v true
          | none => .error (.missingLetterValue c group)

/-- The effect of an argument, given the one behind it. -/
def effect (verb : Option Verb) (o : Options) (word : String) (next : Option String) :
    Except UsageError Effect :=
  match word.toList with
  | ['-', '-'] => .ok .endFlags
  | '-' :: '-' :: body => long verb o body next
  | '-' :: c :: rest => letters verb next o (c :: rest)
  | _ => .ok .operand

/-- Reads arguments from left to right: what the flags ask for, and the operands. -/
def read (verb : Option Verb) : Options → List String → Except UsageError (Options × List String)
  | o, [] => .ok (o, [])
  | o, word :: rest =>
    match effect verb o word rest.head? with
    | .error e => .error e
    -- whatever is left are operands, flags or not
    | .ok .endFlags => .ok (o, rest)
    | .ok .operand =>
      match read verb o rest with
      | .ok r => .ok (r.1, word :: r.2)
      | .error e => .error e
    | .ok (.options o' false) => read verb o' rest
    | .ok (.options o' true) =>
      match rest with
      | [] => .ok (o', [])
      | _ :: more => read verb o' more

/-! ### Finding the command -/

/-- Whether an argument is a flag whose value is the next argument, as far as this
    can be told without knowing the command. -/
def takesNext (word : String) : Bool :=
  let cs := word.toList
  match cs with
  | '-' :: '-' :: name => !cs.contains '=' && name != Flag.debug.name.toList
  | ['-', c] => c != '=' && Flag.debug.letter? != some c && c.utf8Size == 1
  | _ => false

/-- The first argument that is neither a flag nor the value of one.  A flag whose
    value is the last argument, or missing, ends the search. -/
def firstOperand? : List String → Option String
  | [] => none
  | word :: rest =>
    if word = "--" then none
    else if takesNext word then
      match rest with
      | [] => none
      -- the word behind a flag is its value, so that no operand is left
      | [_] => none
      | _ :: next :: more => firstOperand? (next :: more)
    else if word.toList.head?.all (· == '-') then firstOperand? rest
    else some word

/-- The arguments without the first operand that is the given word. -/
def without (word : String) : List String → List String
  | [] => []
  | w :: rest =>
    if w = "--" then w :: rest
    else if takesNext w then
      match rest with
      | [] => [w]
      | v :: more => w :: v :: without word more
    else if w = word then rest
    else w :: without word rest

end Arguments

/-! ### Invocations -/

inductive Action where
  | eval (source : String)
  | type (source : String)
  | run (file : String)
  | demo
deriving DecidableEq, Repr

/-- What a command line asks for. -/
inductive Invocation where
  | help
  | perform (action : Action) (options : Options)
deriving DecidableEq, Repr

namespace Invocation

def program : String := "plambda"

/-- The words that stand for a command, as far as suggestions go. -/
def commandNames : List String := ["eval", "type", "run", "demo", "completion"]

/-- The letters outside ASCII whose lower case has another number of bytes, with
    their lower case. -/
def resizedLetters : List (Nat × Nat) :=
  [(0x130, 0x69), (0x23A, 0x2C65), (0x23E, 0x2C66), (0x1E9E, 0xDF), (0x2126, 0x3C9),
   (0x212A, 0x6B), (0x212B, 0xE5), (0x2C62, 0x26B), (0x2C64, 0x27D), (0x2C6D, 0x251),
   (0x2C6E, 0x271), (0x2C6F, 0x250), (0x2C70, 0x252), (0x2C7E, 0x23F), (0x2C7F, 0x240),
   (0xA78D, 0x265), (0xA7AA, 0x266), (0xA7AB, 0x25C), (0xA7AC, 0x261), (0xA7AD, 0x26C),
   (0xA7AE, 0x26A), (0xA7B0, 0x29E), (0xA7B1, 0x287), (0xA7B2, 0x29D), (0xA7C5, 0x282)]

/-- A letter in lower case, as far as it matters for the distance to an ASCII word:
    of a letter that stays outside ASCII only the number of bytes counts. -/
def lowered (c : Char) : Char :=
  match resizedLetters.lookup c.toNat with
  | some n => Char.ofNat n
  | none => c.toLower

/-- The bytes of a word in lower case. -/
def loweredBytes (word : String) : List UInt8 :=
  (word.toList.map lowered).flatMap String.utf8EncodeChar

/-- The commands that a word resembles: it is a beginning of their name, or at most
    two bytes away from it. -/
def similarCommands (word : String) : List String :=
  let bytes := loweredBytes word
  commandNames.filter fun name =>
    Text.editDistance bytes (loweredBytes name) ≤ 2 || bytes.isPrefixOf (loweredBytes name)

def single (operands : List String) : Except UsageError String :=
  match operands with
  | [x] => .ok x
  | _ => .error (.operandCount operands.length)

def actionOf (verb : Verb) (operands : List String) : Except UsageError Action :=
  match verb with
  | .eval => (single operands).map .eval
  | .type => (single operands).map .type
  | .run => (single operands).map .run
  | .demo =>
    match operands with
    | [] => .ok .demo
    | x :: _ => .error (.unknownCommand x (program ++ " demo") [])

/-- Reads the arguments behind a command, or those of a line without one. -/
def ofCommand (verb : Option Verb) (args : List String) : Except UsageError Invocation :=
  match Arguments.read verb {} args with
  | .error e => .error e
  | .ok (options, operands) =>
    if options.help then .ok .help
    else
      match verb with
      | none => .ok .help
      | some verb =>
        match actionOf verb operands with
        | .ok action => .ok (.perform action options)
        | .error e => .error e

/-- Reads a command line.  The commands `help` and `completion` show how the program
    is used. -/
def ofArguments (args : List String) : Except UsageError Invocation :=
  match Arguments.firstOperand? args with
  | none => ofCommand none args
  | some word =>
    match Verb.ofName? word with
    | some verb => ofCommand (some verb) (Arguments.without word args)
    | none =>
      if word = "help" ∨ word = "completion" then ofCommand none (Arguments.without word args)
      else .error (.unknownCommand word program (similarCommands word))

end Invocation

end MiniML
