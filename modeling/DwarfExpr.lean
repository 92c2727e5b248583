import DwarfExpr.Main
import DwarfExpr.Proofs.Acceptance
import DwarfExpr.Proofs.Disassembly
import DwarfExpr.Proofs.RoundTrip
import DwarfExpr.Proofs.SourceOrder
import DwarfExpr.Proofs.Sentence
import DwarfExpr.Proofs.SyntaxError
import DwarfExpr.Proofs.Relocation
import DwarfExpr.Proofs.Concatenation
import DwarfExpr.Proofs.Continuation
import DwarfExpr.Proofs.Truncation
import DwarfExpr.Proofs.Spelling
import DwarfExpr.Proofs.ByteOrder
import DwarfExpr.Proofs.Codec
import DwarfExpr.Proofs.Printing
import DwarfExpr.Proofs.Diagnostics
import DwarfExpr.Proofs.File
import DwarfExpr.Proofs.GroupBuffer
import DwarfExpr.Proofs.NumeralText
import DwarfExpr.Proofs.Location
import DwarfExpr.Proofs.Log
import DwarfExpr.Proofs.Bits
import DwarfExpr.Proofs.Representation
