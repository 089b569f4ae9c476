import Cinder.Machine.Instr

/-!
# Assembly text

An assembly file is a list of lines.  Labels stand at the margin, everything
else is indented.
-/

namespace Cinder.Machine

inductive Line where
  | instr (instr : Instr)
  | directive (text : String)
  | label (name : String)
  | comment (text : String)
  /-- A comment at the margin. -/
  | heading (text : String)
  | blank
deriving DecidableEq, Repr

namespace Line

def text : Line → String
  | instr i => s!"    {i.text}"
  | directive text => s!"    {text}"
  | label name => s!"{name}:"
  | comment text => s!"    # {text}"
  | heading text => s!"# {text}"
  | blank => ""

def render (lines : List Line) : String :=
  String.join (lines.map fun line => line.text ++ "\n")

end Line

def globalLabel (name : String) : List Line :=
  [.directive s!".globl {name}", .label name]

abbrev full (r : Reg) : Operand := .reg r .qword

abbrev immediate (value : Int) : Operand := .imm (BitVec.ofInt 64 value)

def enterFrame (size : Nat) : List Line :=
  [Line.instr (.push (full .rbp)), .instr (.mov (full .rbp) (full .rsp))]
    ++ if size = 0 then [] else [Line.instr (.alu .sub (full .rsp) (immediate size))]

def leaveFrame : List Line :=
  [.instr (.mov (full .rsp) (full .rbp)), .instr (.pop (full .rbp)), .instr .ret]

end Cinder.Machine
