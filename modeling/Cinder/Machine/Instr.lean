import Cinder.Machine.Register

/-!
# Machine instructions

The part of the instruction set that code generation uses, with its text in the
assembler's Intel dialect.
-/

namespace Cinder.Machine

inductive Address where
  /-- At an offset from the frame pointer. -/
  | frame (offset : Int)
  /-- An entry of the data section, by its number. -/
  | data (entry : Nat)
  /-- On top of the stack. -/
  | top
deriving DecidableEq, Repr

def dataLabel (entry : Nat) : String :=
  s!".LCF{entry}"

namespace Address

def signed (offset : Int) : String :=
  if offset < 0 then toString offset else s!"+{offset}"

def text : Address → String
  | frame offset => s!"[rbp{signed offset}]"
  | data entry => s!"[rip + {dataLabel entry}]"
  | top => "[rsp]"

end Address

inductive Operand where
  | reg (reg : Reg) (size : Size)
  | xmm (xmm : Xmm)
  | mem (size : Size) (address : Address)
  | imm (value : BitVec 64)
deriving DecidableEq, Repr

namespace Operand

def text : Operand → String
  | reg r size => r.view size
  | xmm x => x.name
  | mem size address => s!"{size.keyword} {address.text}"
  | imm value => toString value.toInt

end Operand

inductive Alu where
  | add
  | sub
  | imul
  | cmp
  | test
  | xor
  | or
deriving DecidableEq, Repr

namespace Alu

def mnemonic : Alu → String
  | add => "add"
  | sub => "sub"
  | imul => "imul"
  | cmp => "cmp"
  | test => "test"
  | xor => "xor"
  | or => "or"

end Alu

inductive FloatAlu where
  | add
  | sub
  | mul
  | div
  | comi
  | ucomi
deriving DecidableEq, Repr

namespace FloatAlu

def mnemonic : FloatAlu → String
  | add => "add"
  | sub => "sub"
  | mul => "mul"
  | div => "div"
  | comi => "comi"
  | ucomi => "ucomi"

end FloatAlu

inductive Condition where
  | greater
  | above
  | less
  | below
  | notEqual
  | parity
deriving DecidableEq, Repr

namespace Condition

def suffix : Condition → String
  | greater => "g"
  | above => "a"
  | less => "l"
  | below => "b"
  | notEqual => "ne"
  | parity => "p"

end Condition

def floatSuffix : FloatWidth → String
  | .w32 => "ss"
  | .w64 => "sd"

inductive Instr where
  | mov (dst src : Operand)
  /-- Sign extension from one or two bytes. -/
  | movsx (dst src : Operand)
  /-- Sign extension from four bytes. -/
  | movsxd (dst src : Operand)
  /-- Zero extension from one or two bytes. -/
  | movzx (dst src : Operand)
  | alu (op : Alu) (dst src : Operand)
  | set (condition : Condition) (dst : Operand)
  /-- Spreads the sign of `rax` over `rdx`. -/
  | cqo
  | idiv (src : Operand)
  | div (src : Operand)
  | push (src : Operand)
  | pop (dst : Operand)
  | jmp (label : String)
  | jne (label : String)
  | call (label : String)
  | ret
  | syscall
  | movFloat (width : FloatWidth) (dst src : Operand)
  | floatAlu (op : FloatAlu) (width : FloatWidth) (dst src : Operand)
  /-- Sets a vector register to zero. -/
  | clear (dst : Operand)
  | intToFloat (width : FloatWidth) (dst src : Operand)
  | floatToInt (width : FloatWidth) (dst src : Operand)
  | floatToFloat (source target : FloatWidth) (dst src : Operand)
deriving DecidableEq, Repr

namespace Instr

private def two (mnemonic : String) (dst src : Operand) : String :=
  s!"{mnemonic} {dst.text}, {src.text}"

def text : Instr → String
  | mov dst src => two "mov" dst src
  | movsx dst src => two "movsx" dst src
  | movsxd dst src => two "movsxd" dst src
  | movzx dst src => two "movzx" dst src
  | alu op dst src => two op.mnemonic dst src
  | set condition dst => s!"set{condition.suffix} {dst.text}"
  | cqo => "cqo"
  | idiv src => s!"idiv {src.text}"
  | div src => s!"div {src.text}"
  | push src => s!"push {src.text}"
  | pop dst => s!"pop {dst.text}"
  | jmp label => s!"jmp {label}"
  | jne label => s!"jne {label}"
  | call label => s!"call {label}"
  | ret => "ret"
  | syscall => "syscall"
  | movFloat width dst src => two s!"mov{floatSuffix width}" dst src
  | floatAlu op width dst src => two s!"{op.mnemonic}{floatSuffix width}" dst src
  | clear dst => two "xorps" dst dst
  | intToFloat width dst src => two s!"cvtsi2{floatSuffix width}" dst src
  | floatToInt width dst src => two s!"cvtt{floatSuffix width}2si" dst src
  | floatToFloat source target dst src =>
    two s!"cvt{floatSuffix source}2{floatSuffix target}" dst src

end Instr

end Cinder.Machine
