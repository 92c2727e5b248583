/-
  DwarfExpr/Main.lean
  ===================
  **The executable.** Its first argument names the program to run, `dwas` or `dwdis`; the others are
  the program's own.  What is left of a run for `main` is its message and its exit code.
-/
import DwarfExpr.CommandLine

namespace DwarfExpr

namespace Main

/-- A refusal of the system as the programs know it. -/
def faultOf : IO.Error → OsFault
  | .noFileOrDirectory .. => .notFound
  | .alreadyExists .. => .alreadyExists
  | .inappropriateType _ code _ => if code = 20 then .notDirectory else .isDirectory
  | e => .other (toString e)

def attempt {α : Type} (action : IO α) : IO (Except OsFault α) := do
  match ← action.toBaseIO with
  | .ok a => return .ok a
  | .error e => return .error (faultOf e)

/-- The system that the process runs on.  It keeps no log. -/
def environment : Environment IO where
  read name := attempt do return (← IO.FS.readBinFile (Utf8.decodeLossy name)).toList
  write name content :=
    attempt (IO.FS.writeBinFile (Utf8.decodeLossy name) (ByteArray.mk content.toArray))
  startLog := return .ok ()
  log _ := return
  print text := attempt (IO.print text)

def program? : String → Option CommandLine.Program
  | "dwas" => some .assembler
  | "dwdis" => some .disassembler
  | _ => none

def run (p : CommandLine.Program) (args : List String) : IO UInt32 := do
  let exit ← CommandLine.run environment p (args.map Utf8.encode)
  IO.eprint exit.stderr
  return exit.code.toUInt32

end Main

end DwarfExpr

def main (args : List String) : IO UInt32 := do
  match args with
  | [] =>
    IO.eprintln "usage: (dwas | dwdis) INPUT [OPTION...]"
    return 2
  | name :: rest =>
    match DwarfExpr.Main.program? name with
    | some p => DwarfExpr.Main.run p rest
    | none =>
      IO.eprintln s!"unknown program {name}"
      return 2
