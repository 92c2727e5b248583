/-
  DwarfExpr/Console.lean
  ======================
  **A machine to run programs on.** It has files and a standard output.  The log is shown on the
  standard output, too, among what a program prints; a filter decides which records are shown, and
  by default these are the ones down to `INFO`.  Standard output need not take what is written to
  it: a line of the log is lost then, and a program that prints is told.
-/
import DwarfExpr.File

namespace DwarfExpr

/-- Something on standard output. -/
inductive Printed where
  /-- A line of the log. -/
  | line (record : Record)
  /-- What a program prints itself. -/
  | text (text : String)
  deriving DecidableEq, Repr

structure Machine where
  files : FileSystem := {}
  stdout : List Printed := []
  deriving DecidableEq, Repr

/-- What the programs themselves have printed. -/
def Machine.printed (m : Machine) : String :=
  String.join <| m.stdout.filterMap fun
    | .text text => some text
    | .line _ => none

/-- The way to standard output. -/
structure Console where
  /-- The records that the log shows, or why its filter cannot be used. -/
  filter : Except String (Record → Bool)
  /-- What standard output holds after something has been written to it, and whether that failed. -/
  write : List Printed → Printed → List Printed × Except OsFault Unit

namespace Console

/-- Shows the log down to a level, or not at all, and takes everything. -/
def upTo (limit : Option LogLevel) : Console where
  filter := .ok fun r => limit.any (r.level.detail ≤ ·.detail)
  write stdout p := (stdout ++ [p], .ok ())

/-- The records that make lines in the log. -/
def shown (c : Console) (records : List Record) : List Record :=
  match c.filter with
  | .ok shows => records.filter fun r => r.isLine && shows r
  | .error _ => []

/-- Standard output after records have been logged. -/
def logged (c : Console) (stdout : List Printed) (records : List Record) : List Printed :=
  (c.shown records).foldl (fun out r => (c.write out (.line r)).1) stdout

/-- The machine as the programs see it. -/
def environment (c : Console) : Environment (StateM Machine) where
  read name := do return (← get).files.read name
  write name content := do
    let m ← get
    match m.files.write name content with
    | .ok files =>
      set { m with files := files }
      return .ok ()
    | .error fault => return .error fault
  startLog := return c.filter.map fun _ => ()
  log record := modify fun m => { m with stdout := c.logged m.stdout [record] }
  print text := do
    let m ← get
    let (stdout, result) := c.write m.stdout (.text text)
    set { m with stdout := stdout }
    return result

end Console

end DwarfExpr
