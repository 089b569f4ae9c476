import Cinder.Text.Styled

/-!
# Value types

The closed set of types a Cinder value can have.  There are no composite types:
every value fits in one machine register.
-/

namespace Cinder

inductive Width where
  | w8
  | w16
  | w32
  | w64
deriving DecidableEq, Repr

namespace Width

def bits : Width → Nat
  | w8 => 8
  | w16 => 16
  | w32 => 32
  | w64 => 64

end Width

inductive FloatWidth where
  | w32
  | w64
deriving DecidableEq, Repr

namespace FloatWidth

def bits : FloatWidth → Nat
  | w32 => 32
  | w64 => 64

end FloatWidth

/-- Register file that holds the values of a type. -/
inductive ValueClass where
  | general
  | float
deriving DecidableEq, Repr

inductive Ty where
  | int (width : Width) (signed : Bool)
  | float (width : FloatWidth)
  | bool
deriving DecidableEq, Repr

namespace Ty

abbrev s8 : Ty := .int .w8 true
abbrev s16 : Ty := .int .w16 true
abbrev s32 : Ty := .int .w32 true
abbrev s64 : Ty := .int .w64 true
abbrev u8 : Ty := .int .w8 false
abbrev u16 : Ty := .int .w16 false
abbrev u32 : Ty := .int .w32 false
abbrev u64 : Ty := .int .w64 false
abbrev f32 : Ty := .float .w32
abbrev f64 : Ty := .float .w64

def all : List Ty :=
  [s8, s16, s32, s64, u8, u16, u32, u64, f32, f64, bool]

def name : Ty → String
  | .int .w8 true => "s8"
  | .int .w16 true => "s16"
  | .int .w32 true => "s32"
  | .int .w64 true => "s64"
  | .int .w8 false => "u8"
  | .int .w16 false => "u16"
  | .int .w32 false => "u32"
  | .int .w64 false => "u64"
  | .float .w32 => "f32"
  | .float .w64 => "f64"
  | .bool => "bool"

def ofName? (text : String) : Option Ty :=
  all.find? fun ty => ty.name == text

def display (ty : Ty) : String :=
  "@" ++ ty.name

def styled (ty : Ty) : Styled :=
  Styled.styled .yellow ty.display

/-- Width in bits; a boolean takes a byte. -/
def size : Ty → Nat
  | .int width _ => width.bits
  | .float width => width.bits
  | .bool => 8

def bytes (ty : Ty) : Nat :=
  ty.size / 8

def isFloating : Ty → Bool
  | .float _ => true
  | _ => false

def isBoolean : Ty → Bool
  | .bool => true
  | _ => false

/-- Signed integer types only; booleans count as unsigned. -/
def isSigned : Ty → Bool
  | .int _ signed => signed
  | _ => false

def valueClass : Ty → ValueClass
  | .float _ => .float
  | _ => .general

def outline : Ty → String
  | .int width signed => s!"Integral \x7b width: W{width.bits}, signed: {signed} \x7d"
  | .float width => s!"Floating(F{width.bits})"
  | .bool => "Boolean"

theorem ofName?_name (ty : Ty) : ofName? ty.name = some ty := by
  rcases ty with ⟨⟨⟩, ⟨⟩⟩ | ⟨⟨⟩⟩ | ⟨⟩ <;> decide

end Ty

end Cinder
