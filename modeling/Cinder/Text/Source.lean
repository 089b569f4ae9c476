import Cinder.Text.Styled

/-!
# Source text and positions

Positions are byte offsets into the encoded text.  A report shows the line a
position lies on, with the offending part underlined.
-/

namespace Cinder

structure Span where
  start : Nat
  stop : Nat
deriving DecidableEq, Repr

namespace Span

def through (a b : Span) : Span :=
  ⟨min a.start b.start, max a.stop b.stop⟩

end Span

structure Source where
  contents : String
  file : Option String := none

namespace Source

def origin (source : Source) : String :=
  source.file.getD "<memory>"

/-- Splits characters at a byte offset.  Offsets past the end count as the end;
`none` if the offset lies inside a character. -/
def splitAtByte : List Char → Nat → Option (List Char × List Char)
  | cs, 0 => some ([], cs)
  | [], _ + 1 => some ([], [])
  | c :: cs, n + 1 =>
    if c.utf8Size ≤ n + 1 then
      (splitAtByte cs (n + 1 - c.utf8Size)).map fun (before, after) => (c :: before, after)
    else none

def splitAt (source : Source) (position : Nat) : Option (List Char × List Char) :=
  splitAtByte source.contents.toList position

def byteCount (cs : List Char) : Nat :=
  cs.foldr (fun c total => c.utf8Size + total) 0

@[simp] theorem byteCount_nil : byteCount [] = 0 :=
  rfl

@[simp] theorem byteCount_cons (c : Char) (cs : List Char) :
    byteCount (c :: cs) = c.utf8Size + byteCount cs :=
  rfl

theorem utf8ByteSize_ofList (cs : List Char) : (String.ofList cs).utf8ByteSize = byteCount cs := by
  induction cs with
  | nil => rfl
  | cons c cs ih =>
    rw [String.ofList_cons, String.utf8ByteSize_append, String.utf8ByteSize_singleton, ih,
      byteCount_cons]

def lastLine (cs : List Char) : List Char :=
  (cs.reverse.takeWhile (· ≠ '\n')).reverse

/-- One-based row and column of a position; the column counts bytes. -/
def location (source : Source) (position : Nat) : Option (Nat × Nat) :=
  (source.splitAt position).map fun (before, _) =>
    (before.count '\n' + 1, byteCount (lastLine before) + 1)

def lineAt (source : Source) (position : Nat) : Option String :=
  (source.splitAt position).map fun (before, after) =>
    String.ofList (lastLine before ++ after.takeWhile (· ≠ '\n'))

private def blanks (n : Nat) : String :=
  String.ofList (List.replicate n ' ')

/-- Length in bytes that no text exceeds. -/
def maxTextSize : Nat :=
  (BitVec.intMax 64).toNat

/-- A message with the source line it is about.  `none` if the span starts
inside a character, ends before it starts or cannot be underlined. -/
def report (source : Source) (message : String) (span : Span) : Option Styled := do
  let (row, column) ← source.location span.start
  let line ← source.lineAt span.start
  if span.stop < span.start ∨ maxTextSize < span.stop - span.start then none
  let gutter := blanks (toString row).length
  let bar := Styled.styled .blue "|"
  let underline := String.ofList (List.replicate (max (span.stop - span.start) 1) '^')
  some <|
    Styled.styled .boldRed "error" ++ Styled.plain ": " ++ Styled.styled .bold message
      ++ Styled.plain ("\n" ++ gutter) ++ Styled.styled .blue "-->"
      ++ Styled.plain s!" {source.origin}:{row}:{column}\n{gutter} " ++ bar
      ++ Styled.plain s!"\n{row} " ++ bar ++ Styled.plain s!" {line}\n{gutter} " ++ bar
      ++ Styled.plain (" " ++ blanks (column - 1)) ++ Styled.styled .red underline

end Source

end Cinder
