import Cinder.Fault

/-!
# Registers of the x86-64 architecture

General registers can be seen at four sizes; a vector register holds one
floating point value in its low lanes.
-/

namespace Cinder.Machine

inductive Size where
  | byte
  | word
  | dword
  | qword
deriving DecidableEq, Repr

namespace Size

def bytes : Size → Nat
  | byte => 1
  | word => 2
  | dword => 4
  | qword => 8

def ofBytes (n : Nat) : Except Fault Size :=
  match n with
  | 1 => .ok byte
  | 2 => .ok word
  | 4 => .ok dword
  | 8 => .ok qword
  | n => .error (.registerSize n)

def ofTy : Ty → Size
  | .int .w8 _ => byte
  | .int .w16 _ => word
  | .int .w32 _ => dword
  | .int .w64 _ => qword
  | .float .w32 => dword
  | .float .w64 => qword
  | .bool => byte

def keyword : Size → String
  | byte => "BYTE PTR"
  | word => "WORD PTR"
  | dword => "DWORD PTR"
  | qword => "QWORD PTR"

theorem bytes_ofTy (ty : Ty) : (ofTy ty).bytes = ty.bytes := by
  rcases ty with ⟨⟨⟩, ⟨⟩⟩ | ⟨⟨⟩⟩ | ⟨⟩ <;> rfl

end Size

inductive Reg where
  | rax
  | rbx
  | rcx
  | rdx
  | rsi
  | rdi
  | rbp
  | rsp
  | r8
  | r9
  | r10
  | r11
  | r12
  | r13
  | r14
  | r15
deriving DecidableEq, Repr

namespace Reg

def all : List Reg :=
  [rax, rbx, rcx, rdx, rsi, rdi, rbp, rsp, r8, r9, r10, r11, r12, r13, r14, r15]

def name : Reg → String
  | rax => "rax"
  | rbx => "rbx"
  | rcx => "rcx"
  | rdx => "rdx"
  | rsi => "rsi"
  | rdi => "rdi"
  | rbp => "rbp"
  | rsp => "rsp"
  | r8 => "r8"
  | r9 => "r9"
  | r10 => "r10"
  | r11 => "r11"
  | r12 => "r12"
  | r13 => "r13"
  | r14 => "r14"
  | r15 => "r15"

def letters : Reg → Option String
  | rax => some "ax"
  | rbx => some "bx"
  | rcx => some "cx"
  | rdx => some "dx"
  | rsi => some "si"
  | rdi => some "di"
  | rbp => some "bp"
  | rsp => some "sp"
  | _ => none

def lowByte : Reg → String
  | rax => "al"
  | rbx => "bl"
  | rcx => "cl"
  | rdx => "dl"
  | rsi => "sil"
  | rdi => "dil"
  | rbp => "bpl"
  | rsp => "spl"
  | r => r.name ++ "b"

def view (r : Reg) : Size → String
  | .qword => r.name
  | .dword => match r.letters with
    | some letters => "e" ++ letters
    | none => r.name ++ "d"
  | .word => match r.letters with
    | some letters => letters
    | none => r.name ++ "w"
  | .byte => r.lowByte

def ofName? (text : String) : Option Reg :=
  all.find? fun r => r.name == text

end Reg

inductive Xmm where
  | xmm0
  | xmm1
  | xmm2
  | xmm3
  | xmm4
  | xmm5
  | xmm6
  | xmm7
  | xmm8
  | xmm9
  | xmm10
  | xmm11
  | xmm12
  | xmm13
  | xmm14
  | xmm15
deriving DecidableEq, Repr

namespace Xmm

def number : Xmm → Nat
  | xmm0 => 0
  | xmm1 => 1
  | xmm2 => 2
  | xmm3 => 3
  | xmm4 => 4
  | xmm5 => 5
  | xmm6 => 6
  | xmm7 => 7
  | xmm8 => 8
  | xmm9 => 9
  | xmm10 => 10
  | xmm11 => 11
  | xmm12 => 12
  | xmm13 => 13
  | xmm14 => 14
  | xmm15 => 15

def name (x : Xmm) : String :=
  s!"xmm{x.number}"

end Xmm

/-! ## Roles of the registers -/

def argumentRegs : List Reg :=
  [.rdi, .rsi, .rdx, .rcx, .r8, .r9]

def argumentXmms : List Xmm :=
  [.xmm0, .xmm1, .xmm2, .xmm3, .xmm4, .xmm5, .xmm6, .xmm7]

/-- Registers given to variables.  A called function preserves all of them. -/
def allocatableRegs : List Reg :=
  [.rbx, .r12, .r13, .r14, .r15]

/-- Vector registers given to variables.  A called function may overwrite them. -/
def allocatableXmms : List Xmm :=
  [.xmm8, .xmm9, .xmm10, .xmm11, .xmm12, .xmm13, .xmm14]

abbrev scratch : Reg := .r11

abbrev scratchXmm : Xmm := .xmm15

def precision (ty : Ty) : Except Fault FloatWidth :=
  match ty.bytes with
  | 4 => .ok .w32
  | 8 => .ok .w64
  | _ => .error (.notAFloat ty)

end Cinder.Machine
