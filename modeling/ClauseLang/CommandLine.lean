import ClauseLang.Lift.Basic
import ClauseLang.Machine.Run
import ClauseLang.Reader.Grammar

namespace ClauseLang.CommandLine

def usage : String :=
  "usage: clausal [--lift] [--dump] [--max-depth N] [file]"

inductive NumeralError where
  | empty
  | invalidDigit
  | tooLarge
deriving DecidableEq

def NumeralError.message : NumeralError → String
  | .empty => "cannot parse integer from empty string"
  | .invalidDigit => "invalid digit found in string"
  | .tooLarge => "number too large to fit in target type"

/-- Read on after digits with the given value. -/
def readDigits : Nat → List Char → Except NumeralError Nat
  | n, [] => .ok n
  | n, c :: cs =>
    if c.isDigit then
      let next := 10 * n + (c.toNat - '0'.toNat)
      if next < 2 ^ 64 then readDigits next cs else .error .tooLarge
    else .error .invalidDigit

/-- An unsigned 64-bit numeral, which may begin with a plus sign. -/
def readDepth (numeral : String) : Except NumeralError Nat :=
  match numeral.toList with
  | [] => .error .empty
  | ['+'] => .error .invalidDigit
  | '+' :: cs => readDigits 0 cs
  | cs => readDigits 0 cs

inductive Failure where
  | missingDepth
  | badDepth (numeral : String) (error : NumeralError)
  | unknownOption (option : String)
  | secondFile
  | unreadable (file : String) (cause : String)
  | unreadableInput (cause : String)
  | parse (report : String)
  | lift (error : LiftError)
  | runtime (error : RuntimeError)

namespace Failure

def message : Failure → String
  | .missingDepth => "--max-depth needs a value"
  | .badDepth numeral _ => "invalid depth '" ++ numeral ++ "'"
  | .unknownOption option => "unknown option '" ++ option ++ "'\n" ++ usage
  | .secondFile => "only one input file is supported\n" ++ usage
  | .unreadable file _ => "failed to read '" ++ file ++ "'"
  | .unreadableInput _ => "failed to read program from stdin"
  | .parse report => report
  | .lift error => error.message
  | .runtime error => error.report

def cause? : Failure → Option String
  | .badDepth _ error => some error.message
  | .unreadable _ cause | .unreadableInput cause => some cause
  | _ => none

def report (e : Failure) : String :=
  "Error: " ++ e.message ++
    (match e.cause? with
      | none => ""
      | some cause => "\n\nCaused by:\n    " ++ cause) ++ "\n"

end Failure

structure Options where
  lift : Bool := false
  dump : Bool := false
  maxDepth : Nat := 10000
  file : Option String := none

inductive Request where
  | help
  | run (options : Options)

/-- Read the arguments from left to right. The first fault or request for help ends it. -/
def readArguments (options : Options) : List String → Except Failure Request
  | [] => .ok (.run options)
  | "--lift" :: rest => readArguments { options with lift := true } rest
  | "--dump" :: rest => readArguments { options with dump := true } rest
  | ["--max-depth"] => .error .missingDepth
  | "--max-depth" :: numeral :: rest =>
    match readDepth numeral with
    | .ok maxDepth => readArguments { options with maxDepth } rest
    | .error e => .error (.badDepth numeral e)
  | "-h" :: _ | "--help" :: _ => .ok .help
  | argument :: rest =>
    if argument.toList.head? = some '-' then .error (.unknownOption argument)
    else if options.file.isSome then .error .secondFile
    else readArguments { options with file := some argument } rest

/-- What is written, and how the program ends. A crash leaves no message. -/
inductive Ending where
  | success (output : String)
  | failure (output : String) (error : Failure)
  | crash (output : String)

def execute (options : Options) (source : String) : Ending :=
  match parse source with
  | .error e =>
    match e.report? with
    | some report => .failure "" (.parse report)
    | none => .crash ""
  | .ok program =>
    match if options.lift then lift program else .ok program with
    | .error e => .failure "" (.lift e)
    | .ok program =>
      let dump := if options.dump then program.render ++ "\n\n" else ""
      match run { maxDepth := options.maxDepth } ampleFuel program {} with
      | .ok value m => .success (dump ++ m.output ++ value.render ++ "\n")
      | .error (.error e) m => .failure (dump ++ m.output) (.runtime e)
      | .error .outOfFuel m => .crash (dump ++ m.output)

/-- Run the program that the options name, given what came of reading it. -/
def respond (options : Options) (source : Except String String) : Ending :=
  match source, options.file with
  | .ok source, _ => execute options source
  | .error cause, some file => .failure "" (.unreadable file cause)
  | .error cause, none => .failure "" (.unreadableInput cause)

end ClauseLang.CommandLine
