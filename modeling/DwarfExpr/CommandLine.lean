/-
  DwarfExpr/CommandLine.lean
  ==========================
  **The two programs.** The assembler takes a source file and prints its bytecode as a hex dump, or
  writes it to the file that `-o` names; the disassembler takes a file of bytecode and prints its
  instructions, a line each.  Both take the options of a target.

  Arguments are read from left to right.  The first one that is wrong, or that asks for the version
  or for help, settles what is done, whatever follows.  An option is given at most once; its value
  stands behind `=`, or is the next argument, which may then not look like an option.  Behind `--`
  nothing is an option.

  A run gives an exit code and a message (`run_assembler`, `run_disassembler`); its effect on files,
  and what it prints and logs, go through an `Environment`.
-/
import DwarfExpr.Console

namespace DwarfExpr

namespace CommandLine

/-- An argument; it need not be text. -/
abbrev Argument := List UInt8

inductive Program where
  | assembler
  | disassembler
  deriving DecidableEq, Repr

/-! ### What the arguments say -/

/-- An option that takes a value. -/
inductive Setting where
  | output
  | addressBits
  | wordBits
  deriving DecidableEq, Repr

/-- What a run is to do. -/
structure Options where
  input : FileName
  output : Option FileName
  addressBits : Nat
  wordBits : Nat
  bigEndian : Bool
  deriving DecidableEq, Repr

/-- What the arguments have said so far. -/
structure Given where
  input : Option FileName := none
  output : Option FileName := none
  addressBits : Option Nat := none
  wordBits : Option Nat := none
  bigEndian : Bool := false
  /-- An option whose value is still to come. -/
  pending : Option Setting := none
  /-- Whether `--` has been seen. -/
  optionsEnded : Bool := false
  deriving DecidableEq, Repr

/-- Why there is nothing to run. -/
inductive Halt where
  | wrong
  | version
  | help
  deriving DecidableEq, Repr

/-! ### Reading arguments -/

def dash : UInt8 := 0x2d

def equalsSign : UInt8 := 0x3d

/-- The value of a decimal digit. -/
def digit? (b : UInt8) : Option Nat :=
  if 0x30 ≤ b ∧ b ≤ 0x39 then some (b.toNat - 0x30) else none

/-- A number from its digits, of which there is at least one. -/
def readDigits : Argument → Option Nat
  | [] => none
  | b :: bs => (b :: bs).foldlM (fun n b => (digit? b).map (n * 10 + ·)) 0

/-- A number with an optional sign. -/
def readSigned : Argument → Option Int
  | [] => none
  | b :: bs =>
    if b = dash then (readDigits bs).map fun n => -(n : Int)
    else if b = 0x2b then (readDigits bs).map Int.ofNat
    else (readDigits (b :: bs)).map Int.ofNat

/-- A number of bits: any number of 32 bits without a sign bit. -/
def readBits (value : Argument) : Option Nat :=
  match readSigned value with
  | some i => if 0 ≤ i ∧ i < UInt32.size then some i.toNat else none
  | none => none

namespace Given

/-- Gives an option its value.  An output file has to have a name. -/
def assign (g : Given) (s : Setting) (value : Argument) : Except Halt Given :=
  match s with
  | .output =>
    if g.output.isSome || value.isEmpty then .error .wrong
    else .ok { g with output := some value, pending := none }
  | .addressBits =>
    match g.addressBits, readBits value with
    | none, some n => .ok { g with addressBits := some n, pending := none }
    | _, _ => .error .wrong
  | .wordBits =>
    match g.wordBits, readBits value with
    | none, some n => .ok { g with wordBits := some n, pending := none }
    | _, _ => .error .wrong

/-- An option with its value, or with the value still to come. -/
def option (g : Given) (s : Setting) : Option Argument → Except Halt Given
  | some value => g.assign s value
  | none => .ok { g with pending := some s }

/-- The file to work on. -/
def plain (g : Given) (value : Argument) : Except Halt Given :=
  match g.input with
  | none => .ok { g with input := some value }
  | some _ => .error .wrong

/-- The options with a value by their names; only the assembler has an output. -/
def setting? (p : Program) (name : String) : Option Setting :=
  match name with
  | "output" => if p = .assembler then some .output else none
  | "address-bits" => some .addressBits
  | "word-bits" => some .wordBits
  | _ => none

/-- What stands behind the first `=`, if there is one. -/
def valueOf (body : Argument) : Option Argument :=
  match body.dropWhile (· != equalsSign) with
  | [] => none
  | _ :: value => some value

/-- An option after two dashes. -/
def long (p : Program) (g : Given) (body : Argument) : Except Halt Given :=
  match Utf8.decode (body.takeWhile (· != equalsSign)), valueOf body with
  | .error _, _ => .error .wrong
  | .ok "version", none => .error .version
  | .ok "help", none => .error .help
  | .ok "big-endian", none =>
    if g.bigEndian then .error .wrong else .ok { g with bigEndian := true }
  | .ok name, value =>
    match setting? p name with
    | some s => g.option s value
    | none => .error .wrong

/-- An option after one dash; its value may stand right behind the letter. -/
def short (p : Program) (g : Given) (letter : UInt8) (rest : Argument) : Except Halt Given :=
  if letter = 'V'.toUInt8 then .error .version
  else if letter = 'h'.toUInt8 then .error .help
  else if letter = 'o'.toUInt8 ∧ p = .assembler then
    match rest with
    | [] => g.option .output none
    | b :: value => g.option .output (some (if b = equalsSign then value else rest))
  else .error .wrong

/-- An argument that is no value of an option before it. -/
def free (p : Program) (g : Given) (arg : Argument) : Except Halt Given :=
  match arg with
  | first :: second :: rest =>
    if first ≠ dash then g.plain arg
    else if second ≠ dash then g.short p second rest
    else if rest.isEmpty then .ok { g with optionsEnded := true }
    else g.long p rest
  | _ => g.plain arg

/-- Whether an argument begins like an option; a single dash does not. -/
def looksLikeOption : Argument → Bool
  | first :: _ :: _ => first == dash
  | _ => false

/-- The next argument. -/
def next (p : Program) (g : Given) (arg : Argument) : Except Halt Given :=
  match g.pending with
  | some s => if looksLikeOption arg then .error .wrong else g.assign s arg
  | none => if g.optionsEnded then g.plain arg else g.free p arg

/-- What is to be done when there are no more arguments. -/
def finish (g : Given) : Except Halt Options :=
  match g.pending, g.input with
  | none, some input =>
    .ok { input := input, output := g.output, addressBits := g.addressBits.getD 64
          wordBits := g.wordBits.getD 32, bigEndian := g.bigEndian }
  | _, _ => .error .wrong

end Given

/-- What the arguments of a program say. -/
def parse (p : Program) (args : List Argument) : Except Halt Options := do
  let given ← args.foldlM (Given.next p) {}
  given.finish

/-! ### Running -/

/-- How a run ends. -/
structure Exit where
  code : Nat
  stderr : String
  deriving DecidableEq, Repr

namespace Exit

def success : Exit := ⟨0, ""⟩

def failure (message : String) : Exit := ⟨1, message ++ "\n"⟩

end Exit

def version : String := "dwexpr-assembler 0.1.0\n"

def usage : Program → String
  | .assembler =>
    "usage: dwas INPUT [-o FILE] [--address-bits N] [--word-bits N] [--big-endian]\n"
  | .disassembler => "usage: dwdis INPUT [--address-bits N] [--word-bits N] [--big-endian]\n"

def Options.target (o : Options) : Except TargetFault Target :=
  Target.ofBits o.addressBits o.wordBits (if o.bigEndian then .big else .little)

/-- What is said if the filter of the log cannot be used. -/
def logFailure (p : Program) (reason : String) : String :=
  match p with
  | .assembler => "failed to initialise tracing filter " ++
    "(perhaps there is a problem with environment variables): " ++ reason
  | .disassembler => "failed to initialise tracing filter: " ++ reason

section

variable {m : Type → Type} [Monad m] (env : Environment m)

/-- Prints lines up to the first that cannot be printed. -/
def printLines : List String → m Exit
  | [] => return .success
  | line :: lines => do
    match ← env.print (line ++ "\n") with
    | .error fault => return .failure (FileFault.stdout fault).message
    | .ok () => printLines lines

/-- Runs a program on a target. -/
def runFor [Host] (p : Program) (o : Options) (t : Target) : m Exit := do
  match p with
  | .assembler =>
    match ← assembleFile env t o.input o.output with
    | .error fault =>
      env.log (.failed fault)
      return .failure fault.message
    | .ok bytes =>
      env.log .succeeded
      if o.output.isSome then return .success
      else printLines env [ByteText.dump bytes]
  | .disassembler =>
    match ← disassembleFile env t o.input with
    | .error fault => return .failure fault.message
    | .ok instructions =>
      env.log (.decoded instructions.length)
      printLines env (instructions.map (·.line))

/-- Runs a program.  The log is started before the target is checked, and that is done before any
    file is read. -/
def run [Host] (p : Program) (args : List Argument) : m Exit := do
  match parse p args with
  | .error .wrong => return ⟨2, usage p⟩
  | .error .version =>
    let _ ← env.print version
    return .success
  | .error .help =>
    let _ ← env.print (usage p)
    return .success
  | .ok options =>
    match ← env.startLog with
    | .error reason => return .failure (logFailure p reason)
    | .ok () =>
      match options.target with
      | .error fault => return .failure ("invalid target: " ++ fault.message)
      | .ok t => runFor env p options t

end

end CommandLine

end DwarfExpr
