/-
  DwarfExpr/Operation/Table.lean
  ==============================
  **The table of operations** (`operations`), in the order of their codes: the operations of the
  standard in groups of neighbouring codes, and the vendor extensions.  Three families of 32
  operations (small literals, registers, register-relative addresses) have consecutive codes and
  numbered names.  An operation is found by its name and by its code (`by_name`, `by_code`).
-/
import DwarfExpr.Operation

namespace DwarfExpr

namespace Operation

/-- An operation by the part of its name after `DW_OP_`. -/
def op (name : String) (code : UInt8) (operands : List OperandKind) : Operation :=
  ⟨"DW_OP_" ++ name, code, operands⟩

/-- 32 operations with consecutive codes, numbered from 0. -/
def family (name : String) (first : UInt8) (operands : List OperandKind) : List Operation :=
  (List.range 32).map fun i => op (name ++ toString i) (first + i.toUInt8) operands

/-- Constants, the stack, arithmetic and branches. -/
def basics : List Operation :=
  [op "addr" 0x03 [.address],
   op "deref" 0x06 [],
   op "const1u" 0x08 [.unsigned .bits8],
   op "const1s" 0x09 [.signed .bits8],
   op "const2u" 0x0a [.unsigned .bits16],
   op "const2s" 0x0b [.signed .bits16],
   op "const4u" 0x0c [.unsigned .bits32],
   op "const4s" 0x0d [.signed .bits32],
   op "const8u" 0x0e [.unsigned .bits64],
   op "const8s" 0x0f [.signed .bits64],
   op "constu" 0x10 [.uleb128],
   op "consts" 0x11 [.sleb128],
   op "dup" 0x12 [],
   op "drop" 0x13 [],
   op "over" 0x14 [],
   op "pick" 0x15 [.unsigned .bits8],
   op "swap" 0x16 [],
   op "rot" 0x17 [],
   op "xderef" 0x18 [],
   op "abs" 0x19 [],
   op "and" 0x1a [],
   op "div" 0x1b [],
   op "minus" 0x1c [],
   op "mod" 0x1d [],
   op "mul" 0x1e [],
   op "neg" 0x1f [],
   op "not" 0x20 [],
   op "or" 0x21 [],
   op "plus" 0x22 [],
   op "plus_uconst" 0x23 [.uleb128],
   op "shl" 0x24 [],
   op "shr" 0x25 [],
   op "shra" 0x26 [],
   op "xor" 0x27 [],
   op "bra" 0x28 [.signed .bits16],
   op "eq" 0x29 [],
   op "ge" 0x2a [],
   op "gt" 0x2b [],
   op "le" 0x2c [],
   op "lt" 0x2d [],
   op "ne" 0x2e [],
   op "skip" 0x2f [.signed .bits16]]

/-- Registers by number, frames, pieces and calls. -/
def locations : List Operation :=
  [op "regx" 0x90 [.uleb128],
   op "fbreg" 0x91 [.sleb128],
   op "bregx" 0x92 [.uleb128, .sleb128],
   op "piece" 0x93 [.uleb128],
   op "deref_size" 0x94 [.unsigned .bits8],
   op "xderef_size" 0x95 [.unsigned .bits8],
   op "nop" 0x96 [],
   op "push_object_address" 0x97 [],
   op "call2" 0x98 [.unsigned .bits16],
   op "call4" 0x99 [.unsigned .bits32],
   op "call_ref" 0x9a [.word],
   op "form_tls_address" 0x9b [],
   op "call_frame_cfa" 0x9c [],
   op "bit_piece" 0x9d [.uleb128, .uleb128],
   op "implicit_value" 0x9e [.uleb128, .block],
   op "stack_value" 0x9f []]

/-- References to other entries and typed values. -/
def typed : List Operation :=
  [op "implicit_pointer" 0xa0 [.word, .sleb128],
   op "addrx" 0xa1 [.uleb128],
   op "constx" 0xa2 [.uleb128],
   op "entry_value" 0xa3 [.uleb128, .block],
   op "const_type" 0xa4 [.uleb128, .unsigned .bits8, .block],
   op "regval_type" 0xa5 [.uleb128, .uleb128],
   op "deref_type" 0xa6 [.unsigned .bits8, .uleb128],
   op "xderef_type" 0xa7 [.unsigned .bits8, .uleb128],
   op "convert" 0xa8 [.uleb128],
   op "reinterpret" 0xa9 [.uleb128]]

/-- Operations of vendors, some of them early forms of the standard ones. -/
def extensions : List Operation :=
  [op "GNU_push_tls_address" 0xe0 [],
   op "GNU_uninit" 0xf0 [],
   op "GNU_implicit_pointer" 0xf2 [.word, .sleb128],
   op "GNU_entry_value" 0xf3 [.uleb128, .block],
   op "GNU_const_type" 0xf4 [.uleb128, .unsigned .bits8, .block],
   op "GNU_regval_type" 0xf5 [.uleb128, .uleb128],
   op "GNU_deref_type" 0xf6 [.unsigned .bits8, .uleb128],
   op "GNU_convert" 0xf7 [.uleb128],
   op "GNU_reinterpret" 0xf9 [.uleb128],
   op "GNU_parameter_ref" 0xfa [.unsigned .bits32],
   op "GNU_addr_index" 0xfb [.uleb128],
   op "GNU_const_index" 0xfc [.uleb128],
   op "GNU_variable_value" 0xfd [.word]]

/-- All operations, in the order of their codes. -/
def all : List Operation :=
  basics ++ family "lit" 0x30 [] ++ family "reg" 0x50 [] ++ family "breg" 0x70 [.sleb128] ++
    locations ++ typed ++ extensions

def ofName? (name : String) : Option Operation := all.find? (·.name == name)

def ofCode? (code : UInt8) : Option Operation := all.find? (·.code == code)

end Operation

end DwarfExpr
