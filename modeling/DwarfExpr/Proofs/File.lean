/-
  DwarfExpr/Proofs/File.lean
  ==========================
  **A file is assembled whole or not at all** (`assembleFile_all_or_nothing`).  Everything that can
  go wrong with the input goes wrong before the output is opened.  So a run is settled by two
  things: whether the input holds a text that assembles (`AssemblesTo`), and where the output's name
  leads (`FileSystem.NamesFile`).

  The output may be the input.  The input has been read by then, so that nothing is special about
  this case; it is only that the names of the input are then read as the bytecode.

  Standard output has the log on it as well.  What the assembler prints there itself is the dump and
  nothing else, but it is alone there only if the log shows nothing (`PrintsDump`).
-/
import DwarfExpr.CommandLine
import DwarfExpr.Proofs.FileSystem
import DwarfExpr.Proofs.Segment
import DwarfExpr.Proofs.Utf8

namespace DwarfExpr

/-! ### The log on standard output -/

namespace Console

variable {c : Console}

theorem shown_append (a b : List Record) : c.shown (a ++ b) = c.shown a ++ c.shown b := by
  unfold shown
  cases c.filter <;> simp

@[simp] theorem shown_nil : c.shown [] = [] := by
  unfold shown
  cases c.filter <;> rfl

theorem logged_append (stdout : List Printed) (a b : List Record) :
    c.logged stdout (a ++ b) = c.logged (c.logged stdout a) b := by
  simp only [logged, shown_append, List.foldl_append]

/-- Standard output takes everything that is written to it. -/
def TakesAll (c : Console) : Prop := ∀ stdout p, c.write stdout p = (stdout ++ [p], .ok ())

theorem TakesAll.logged_eq (h : c.TakesAll) (stdout : List Printed) (records : List Record) :
    c.logged stdout records = stdout ++ (c.shown records).map .line := by
  unfold logged
  induction c.shown records generalizing stdout with
  | nil => simp
  | cons r rs ih => rw [List.foldl_cons, h stdout, ih, List.map_cons, List.append_assoc]; rfl

/-! Each thing that a program does, as a step of the machine. -/

variable (machine : Machine)

@[simp] theorem run_read (name : FileName) :
    StateT.run (c.environment.read name) machine =
      (pure (machine.files.read name, machine) : Id _) :=
  rfl

@[simp] theorem run_write (name : FileName) (content : List UInt8) :
    StateT.run (c.environment.write name content) machine =
      (pure (match machine.files.write name content with
        | .ok files => (.ok (), { machine with files := files })
        | .error fault => (.error fault, machine)) : Id _) := by
  simp only [environment, StateT.run_bind, StateT.run_get, pure_bind]
  cases machine.files.write name content <;> rfl

@[simp] theorem run_startLog :
    StateT.run c.environment.startLog machine =
      (pure (c.filter.map fun _ => (), machine) : Id _) :=
  rfl

@[simp] theorem run_log (record : Record) :
    StateT.run (c.environment.log record) machine =
      (pure ((), { machine with stdout := c.logged machine.stdout [record] }) : Id _) :=
  rfl

@[simp] theorem run_print (text : String) :
    StateT.run (c.environment.print text) machine =
      (pure ((c.write machine.stdout (.text text)).2,
        { machine with stdout := (c.write machine.stdout (.text text)).1 }) : Id _) :=
  rfl

@[simp] theorem run_forM_log (events : List Event) :
    StateT.run (forM events fun e => c.environment.log (.event e)) machine =
      (pure ((), { machine with stdout := c.logged machine.stdout (events.map .event) }) :
        Id _) := by
  induction events generalizing machine with
  | nil => simp [logged]
  | cons e events ih =>
    have hlog : c.logged machine.stdout ((e :: events).map .event) =
        c.logged (c.logged machine.stdout [.event e]) (events.map .event) :=
      logged_append _ [.event e] _
    rw [List.forM_cons, StateT.run_bind, run_log, pure_bind, ih, hlog]

end Console

/-! ### Runs on a file -/

section

variable [Host] {t : Target} {console : Console} {machine : Machine} {input : FileName}
  {source : String} {bytes : List UInt8}

/-- A file holds a text, and the text assembles. -/
def AssemblesTo (t : Target) (fs : FileSystem) (input : FileName) (bytes : List UInt8) : Prop :=
  ∃ source, fs.read input = .ok (Utf8.encode source) ∧ assemble t source = .ok bytes

/-- A run on an input that assembles: it is left to the output how it ends. -/
theorem run_assembleFile_of_assemble (console : Console)
    (hread : machine.files.read input = .ok (Utf8.encode source))
    (hassemble : assemble t source = .ok bytes) (output : Option FileName) :
    (assembleFile console.environment t input output).run machine =
      let events := (assembly t source).log.map .event
      match output with
      | none => (.ok bytes, { machine with stdout := console.logged machine.stdout events })
      | some name =>
        match machine.files.write name bytes with
        | .ok files =>
          (.ok bytes,
            ⟨files, console.logged machine.stdout (events ++ [.wrote bytes.length name])⟩)
        | .error fault =>
          (.error (.output name fault),
            { machine with stdout := console.logged machine.stdout events }) := by
  have hdecode : Utf8.decode (Utf8.encode source) = .ok source := Utf8.decode_eq_ok_iff.2 rfl
  have hresult : (assembly t source).result = .ok bytes := hassemble
  change Id.run (StateT.run _ machine) = _
  rcases output with - | name
  · simp [assembleFile, hread, hdecode, hresult]
  · rcases hwrite : machine.files.write name bytes with fault | files
    · simp [assembleFile, hread, hdecode, hresult, hwrite]
    · simp [assembleFile, hread, hdecode, hresult, hwrite, Console.logged_append]

/-- A run on an input that does not assemble: no file is written. -/
theorem run_assembleFile_of_not_assemblesTo (console : Console)
    (h : ∀ bytes, ¬ AssemblesTo t machine.files input bytes) (output : Option FileName) :
    ∃ fault records, (assembleFile console.environment t input output).run machine =
      (.error fault, { machine with stdout := console.logged machine.stdout records }) := by
  have hquiet : console.logged machine.stdout [] = machine.stdout := by
    rw [Console.logged, Console.shown_nil, List.foldl_nil]
  change ∃ fault records, Id.run (StateT.run _ machine) = _
  rcases hread : machine.files.read input with fault | content
  · exact ⟨.input input (.os fault), [], by simp [assembleFile, hread, hquiet]⟩
  · rcases hdecode : Utf8.decode content with fault | source
    · exact ⟨.input input (.notText fault), [], by simp [assembleFile, hread, hdecode, hquiet]⟩
    · rcases hresult : (assembly t source).result with diagnostic | bytes
      · exact ⟨.badSource input diagnostic, (assembly t source).log.map .event,
          by simp [assembleFile, hread, hdecode, hresult]⟩
      · obtain rfl := Utf8.decode_eq_ok_iff.1 hdecode
        exact absurd ⟨source, hread, hresult⟩ (h bytes)

/-- **A run with a result**: the input assembles to it, and it could be written. -/
theorem assemblesTo_of_run_assembleFile {output : Option FileName} {machine' : Machine}
    (hrun : (assembleFile console.environment t input output).run machine =
      (.ok bytes, machine')) :
    AssemblesTo t machine.files input bytes ∧
      match output with
      | none => machine'.files = machine.files
      | some name => machine.files.write name bytes = .ok machine'.files := by
  by_cases h : ∃ bytes, AssemblesTo t machine.files input bytes
  · obtain ⟨bytes₀, source, hread, hassemble⟩ := h
    rw [run_assembleFile_of_assemble console hread hassemble] at hrun
    rcases output with - | name
    · cases hrun
      exact ⟨⟨source, hread, hassemble⟩, rfl⟩
    · rcases hwrite : machine.files.write name bytes₀ with fault | files
      · simp only [hwrite] at hrun
        cases hrun
      · simp only [hwrite] at hrun
        cases hrun
        exact ⟨⟨source, hread, hassemble⟩, hwrite⟩
  · obtain ⟨fault, records, herror⟩ :=
      run_assembleFile_of_not_assemblesTo console (not_exists.1 h) output
    rw [herror] at hrun
    cases hrun

/-! ### Runs of the assembler -/

variable {args : List CommandLine.Argument} {options : CommandLine.Options}

/-- If the filter of the log cannot be used, nothing at all is done. -/
theorem run_of_filter_eq_error (p : CommandLine.Program)
    (hparse : CommandLine.parse p args = .ok options) {reason : String}
    (hfilter : console.filter = .error reason) :
    (CommandLine.run console.environment p args).run machine =
      (.failure (CommandLine.logFailure p reason), machine) := by
  change Id.run (StateT.run _ machine) = _
  simp [CommandLine.run, hparse, hfilter, Except.map]

section

variable {shows : Record → Bool} (hparse : CommandLine.parse .assembler args = .ok options)
  (htarget : options.target = .ok t) (houtput : options.output = none)
  (hfilter : console.filter = .ok shows) {machine' : Machine}

include hparse htarget houtput hfilter

/-- The assembler tells in the log and in its message why a file is not assembled. -/
theorem run_assembler_of_error {fault : FileFault}
    (hrun : (assembleFile console.environment t options.input none).run machine =
      (.error fault, machine')) :
    (CommandLine.run console.environment .assembler args).run machine =
      (.failure fault.message,
        { machine' with stdout := console.logged machine'.stdout [.failed fault] }) := by
  change Id.run (StateT.run _ machine) = _ at hrun
  change Id.run (StateT.run _ machine) = _
  simp [CommandLine.run, CommandLine.runFor, hparse, htarget, houtput, hfilter, hrun, Except.map]

/-- The assembler prints the dump of a file that is assembled, and fails if it cannot. -/
theorem run_assembler_of_ok
    (hrun : (assembleFile console.environment t options.input none).run machine =
      (.ok bytes, machine'))
    (stdout : List Printed) (result : Except OsFault Unit) :
    console.write (console.logged machine'.stdout [.succeeded])
        (.text (ByteText.dump bytes ++ "\n")) = (stdout, result) →
      (CommandLine.run console.environment .assembler args).run machine =
        (match result with
          | .ok () => .success
          | .error fault => .failure (FileFault.stdout fault).message,
          { machine' with stdout := stdout }) := by
  intro hwrite
  change Id.run (StateT.run _ machine) = _ at hrun
  change Id.run (StateT.run _ machine) = _
  rcases result with fault | ⟨⟩
  · simp [CommandLine.run, CommandLine.runFor, CommandLine.printLines, hparse, htarget, houtput,
      hfilter, hrun, hwrite, Except.map]
  · simp [CommandLine.run, CommandLine.runFor, CommandLine.printLines, hparse, htarget, houtput,
      hfilter, hrun, hwrite, Except.map]

end

/-! ### All or nothing -/

/-- The bytes are in the output file, if there is one, and nothing else is new. -/
def FileSystem.Receives (fs : FileSystem) (bytes : List UInt8) (output : Option FileName)
    (fs' : FileSystem) : Prop :=
  match output with
  | none => fs' = fs
  | some name => ∃ path, fs.NamesFile name path ∧ fs.Replaces path bytes fs'

/-- A run prints a dump once the records are logged.  Files stay as they are. -/
structure PrintsDump (console : Console) (machine : Machine) (records : List Record)
    (bytes : List UInt8) (run : CommandLine.Exit × Machine) : Prop where
  /-- The dump is the one text on standard output, behind the lines that the log shows. -/
  whole : console.TakesAll → run =
    (.success, { machine with stdout := machine.stdout ++ (console.shown records).map .line ++
      [.text (ByteText.dump bytes ++ "\n")] })
  taken : ∀ stdout, console.write (console.logged machine.stdout records)
      (.text (ByteText.dump bytes ++ "\n")) = (stdout, .ok ()) →
    run = (.success, { machine with stdout := stdout })
  refused : ∀ stdout fault, console.write (console.logged machine.stdout records)
      (.text (ByteText.dump bytes ++ "\n")) = (stdout, .error fault) →
    run = (.failure (FileFault.stdout fault).message, { machine with stdout := stdout })

theorem printsDump_run_assembler {shows : Record → Bool}
    (hparse : CommandLine.parse .assembler args = .ok options)
    (htarget : options.target = .ok t) (houtput : options.output = none)
    (hfilter : console.filter = .ok shows)
    (hread : machine.files.read options.input = .ok (Utf8.encode source))
    (hassemble : assemble t source = .ok bytes) :
    PrintsDump console machine ((assembly t source).log.map .event ++ [.succeeded]) bytes
      ((CommandLine.run console.environment .assembler args).run machine) := by
  have hrun := run_assembleFile_of_assemble console hread hassemble none
  have hprints := run_assembler_of_ok hparse htarget houtput hfilter hrun
  rw [← Console.logged_append] at hprints
  refine ⟨fun hall => ?_, fun stdout => hprints stdout (.ok ()),
    fun stdout fault => hprints stdout (.error fault)⟩
  rw [← hall.logged_eq]
  exact hprints _ _ (hall _ _)

end

end DwarfExpr
