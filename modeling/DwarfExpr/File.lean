/-
  DwarfExpr/File.lean
  ===================
  **Sources and bytecode in files.** `assembleFile` reads a source (`read_input`), assembles it and
  writes the bytecode to another file if one is named (`write_output`); nothing is written unless
  the whole source assembles.  `disassembleFile` reads bytecode.  An error names the file that it is
  about (`AssemblerFailure`).

  Files, the log and standard output are reached through an `Environment`.
-/
import DwarfExpr.Assembly
import DwarfExpr.FileSystem
import DwarfExpr.Instruction

namespace DwarfExpr

/-- Why an input file cannot be used as it is. -/
inductive InputFault where
  | os (fault : OsFault)
  | notText (fault : Utf8.Fault)
  deriving DecidableEq, Repr

def InputFault.message : InputFault → String
  | os fault => fault.message
  | notText fault => fault.message

/-- Why the work on a file failed. -/
inductive FileFault where
  /-- The result could not be printed. -/
  | stdout (fault : OsFault)
  | input (name : FileName) (fault : InputFault)
  | output (name : FileName) (fault : OsFault)
  | badSource (name : FileName) (diagnostic : Diagnostic)
  | badBytecode (name : FileName) (fault : DisassemblyFault)
  deriving DecidableEq, Repr

/-- A file name in a message.  One that is not text is shown as well as it can be, with a remark. -/
def FileName.shown (name : FileName) : String :=
  match Utf8.decode name with
  | .ok text => text
  | .error _ =>
    Utf8.decodeLossy name ++ " (some non-Unicode characters changed to make it printable)"

namespace FileFault

/-- What went wrong, apart from the file. -/
def reason : FileFault → String
  | stdout fault => fault.message
  | input _ fault => fault.message
  | output _ fault => fault.message
  | badSource _ diagnostic => diagnostic.message
  | badBytecode _ fault => fault.message

/-- What the message says about the file. -/
def place : FileFault → String
  | stdout _ => "error writing on stdout"
  | input name _ => "I/O error reading input file " ++ name.shown
  | output name _ => "I/O error writing output file " ++ Utf8.decodeLossy name
  | badSource name _ => name.shown
  | badBytecode name _ => name.shown

def message (f : FileFault) : String := f.place ++ ": " ++ f.reason

end FileFault

/-! ### The log of a program -/

/-- What a program logs. -/
inductive Record where
  /-- What happened during an assembly. -/
  | event (e : Event)
  /-- So many bytes have been written to a file. -/
  | wrote (count : Nat) (name : FileName)
  /-- So many instructions have been read. -/
  | decoded (count : Nat)
  | failed (fault : FileFault)
  | succeeded
  deriving DecidableEq, Repr

namespace Record

def level : Record → LogLevel
  | event e => e.level
  | failed _ => .error
  | wrote .. | succeeded => .info
  | decoded _ => .debug

/-- Whether the record is a line of its own: the start of an assembly is told with the events of the
    assembly. -/
def isLine : Record → Bool
  | event e => e.message.isSome
  | wrote .. | decoded _ | failed _ | succeeded => true

end Record

/-- What a program needs of the system that it runs on. -/
structure Environment (m : Type → Type) extends FileAccess m where
  /-- Starts the log, or says why its filter cannot be used. -/
  startLog : m (Except String Unit)
  log : Record → m Unit
  /-- Prints a text on standard output. -/
  print : String → m (Except OsFault Unit)

/-! ### Work on files -/

section

variable {m : Type → Type} [Monad m] (env : Environment m)

/-- Assembles a file, and writes the bytecode to the output file, if there is one
    (`assemble_file`). -/
def assembleFile [Host] (t : Target) (input : FileName) (output : Option FileName) :
    m (Except FileFault (List UInt8)) := do
  match ← env.read input with
  | .error fault => return .error (.input input (.os fault))
  | .ok content =>
    match Utf8.decode content with
    | .error fault => return .error (.input input (.notText fault))
    | .ok source =>
      let a := assembly t source
      a.log.forM fun e => env.log (.event e)
      match a.result, output with
      | .error diagnostic, _ => return .error (.badSource input diagnostic)
      | .ok bytes, none => return .ok bytes
      | .ok bytes, some name =>
        match ← env.write name bytes with
        | .error fault => return .error (.output name fault)
        | .ok () =>
          env.log (.wrote bytes.length name)
          return .ok bytes

/-- Disassembles a file (`disassemble_file`). -/
def disassembleFile (t : Target) (input : FileName) :
    m (Except FileFault (List Instruction)) := do
  match ← env.read input with
  | .error fault => return .error (.input input (.os fault))
  | .ok content => return (disassemble t content).mapError (.badBytecode input)

end

end DwarfExpr
