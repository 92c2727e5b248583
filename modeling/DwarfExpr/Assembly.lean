/-
  DwarfExpr/Assembly.lean
  =======================
  **Assembling a source.** The whole source is cut into tokens, the tokens are read as calls, and
  the calls are encoded.  The first step that fails settles the result, with one exception: if the
  tokens break off, the calls before that point are encoded first, and then the operands of a call
  that is not closed, and what is wrong with those is reported instead.  Errors are thus reported in
  the order of the source.

  `assembly` gives the result together with a log of what was done (`assemble_source`); `assemble`
  gives the result alone (`assemble_for_target`).
-/
import DwarfExpr.Diagnostic

namespace DwarfExpr

/-! ### The log -/

inductive LogLevel where
  | error
  | info
  | debug
  | trace
  deriving DecidableEq, Repr

namespace LogLevel

def text : LogLevel → String
  | error => "ERROR"
  | info => "INFO"
  | debug => "DEBUG"
  | trace => "TRACE"

/-- How much a log has to tell for this level to be in it. -/
def detail : LogLevel → Nat
  | error => 0
  | info => 1
  | debug => 2
  | trace => 3

end LogLevel

/-- What happened during an assembly. -/
inductive Event where
  | started (bytes : Nat) (target : Target)
  | lexicalError (error : Spanned LexicalFault)
  | tokenized (count : Nat)
  | syntaxError (error : Spanned SyntaxFault)
  | encodeError (error : Spanned EncodeFault)
  | encoded (call : Call) (bytes : List UInt8)
  | assembled (count : Nat)
  | failed (diagnostic : Diagnostic)
  deriving DecidableEq, Repr

namespace Event

def level : Event → LogLevel
  | tokenized _ | encoded .. => .trace
  | started .. | lexicalError _ | syntaxError _ | encodeError _ | assembled _ | failed _ => .debug

/-- The message of an event.  The start of an assembly has fields only. -/
def message : Event → Option String
  | started .. => none
  | lexicalError e => s!"lexical error at {e.span.text}: {e.value.message}"
  | tokenized count => s!"input contains {count} tokens"
  | syntaxError e => s!"syntax error at {e.span.text}: {e.value.message}"
  | encodeError e => s!"cannot encode operand at {e.span.text}: {e.value.message}"
  | encoded call bytes => s!"encoded {call.text} as {ByteText.list bytes}"
  | assembled count => s!"assembled {count} bytes"
  | failed diagnostic => s!"assembly failed: {diagnostic.message}"

/-- What a log line begins with: the level, or for the start of an assembly the span that it
    opens. -/
def heading (e : Event) : String :=
  match e with
  | started .. => e.level.text ++ " span assemble"
  | _ => e.level.text

/-- The named fields of a log line. -/
def fields (e : Event) : List (String × String) :=
  match e with
  | started bytes target => [("bytes_in", toString bytes), ("target", target.text)]
  | _ => e.message.toList.map (("message", ·))

end Event

/-! ### Assembling -/

/-- The result of an assembly and the log of it. -/
structure Assembly where
  result : Except Diagnostic (List UInt8)
  log : List Event

/-- The span of the end of a source. -/
def endOfSource (source : String) : Span := ⟨source.utf8ByteSize, source.utf8ByteSize⟩

/-- What the log tells about encoding. -/
def Progress.events (p : Progress) : List Event :=
  p.encoded.map (fun (call, bytes) => .encoded call bytes) ++ p.fault.toList.map .encodeError

namespace Assembly

/-- Encodes the calls of an expression that is complete. -/
def ofCalls [Host] (t : Target) (source : String) (calls : List Call) : Assembly :=
  let progress := encodeCalls t (endOfSource source) calls
  { result := match progress.fault with
      | some fault => .error (.ofSource source (.encoding fault.value) fault.span)
      | none => .ok progress.bytes
    log := progress.events }

/-- How far an expression that breaks off can be encoded: its complete calls, and then the open
    one. -/
def upToBreak [Host] (t : Target) (e : SyntaxError) : Progress :=
  let progress := encodeCalls t e.stop e.calls
  match progress.fault, e.incomplete with
  | none, some call =>
    match call.check t with
    | .error fault => { progress with fault := some fault }
    | .ok () => progress
  | _, _ => progress

/-- Encodes what there is of an expression that breaks off; it is an error in any case. -/
def ofBreak [Host] (t : Target) (source : String) (e : SyntaxError) : Assembly :=
  let progress := upToBreak t e
  { result := .error <| match progress.fault with
      | some fault => .ofSource source (.encoding fault.value) fault.span
      | none => e.diagnostic source
    log := .syntaxError e.fault :: progress.events }

/-- Assembles a source up to the result. -/
def ofSource [Host] (t : Target) (source : String) : Assembly :=
  match tokenize source with
  | .error fault =>
    { result := .error (.ofSource source (.lexical fault.value) fault.span)
      log := [.lexicalError fault] }
  | .ok tokens =>
    let rest := match parse source.utf8ByteSize tokens with
      | .ok calls => ofCalls t source calls
      | .error e => ofBreak t source e
    { rest with log := .tokenized tokens.length :: rest.log }

/-- The event that ends the log. -/
def lastEvent (a : Assembly) : Event :=
  match a.result with
  | .ok bytes => .assembled bytes.length
  | .error diagnostic => .failed diagnostic

end Assembly

/-- Assembles a source, and keeps a log that ends with the result. -/
def assembly [Host] (t : Target) (source : String) : Assembly :=
  let a := Assembly.ofSource t source
  { a with log := .started source.utf8ByteSize t :: a.log ++ [a.lastEvent] }

/-- The bytecode of a source, or what is wrong with it. -/
def assemble [Host] (t : Target) (source : String) : Except Diagnostic (List UInt8) :=
  (assembly t source).result

/-! ### Parsing and encoding apart -/

/-- The calls of a source.  An expression that breaks off is told apart from a lexical error. -/
def parseSource (source : String) : Except Diagnostic (Except SyntaxError (List Call)) :=
  match tokenize source with
  | .error fault => .error (.ofSource source (.lexical fault.value) fault.span)
  | .ok tokens => .ok (parse source.utf8ByteSize tokens)

/-- The bytecode after each call of a source, up to the first call that cannot be encoded. -/
def encodeSteps [Host] (t : Target) (source : String) :
    Except Diagnostic (List (List UInt8) × Option Diagnostic) :=
  match parseSource source with
  | .error diagnostic => .error diagnostic
  | .ok (.error e) => .error (e.diagnostic source)
  | .ok (.ok calls) =>
    let progress := encodeCalls t (endOfSource source) calls
    .ok (Progress.totals [] progress.encoded,
      progress.fault.map fun fault => .ofSource source (.encoding fault.value) fault.span)

end DwarfExpr
