import Cinder.Token.Scan

/-!
# Layout

The second pass turns the indentation of logical lines into block structure.  A
stack holds the widths of the open levels: a wider line opens a level, a narrower
one closes levels until its own width is on top.
-/

namespace Cinder

namespace Layout

/-- Closes the levels wider than `width`, innermost first, and counts them.  `none`
if no open level has that width. -/
def close (width : Nat) : List Nat → Option (Nat × List Nat)
  | [] => if width = 0 then some (0, []) else none
  | level :: outer =>
    if level > width then (close width outer).map fun (n, levels) => (n + 1, levels)
    else if level = width then some (0, level :: outer)
    else none

def top (levels : List Nat) : Nat :=
  levels.headD 0

/-- Tokens of the scanned items, given the open levels, the last token if any, and
the length of the text.  The levels still open at the end are closed there. -/
def arrange (stop : Nat) : List Nat → Option TokenKind → List Scan.Item →
    Except Diagnostic (List Token)
  | levels, last, [] =>
    let at_ (kind : TokenKind) : Token := ⟨kind, "", ⟨stop, stop⟩⟩
    let newline := if last.any (· ≠ .newline) then [at_ .newline] else []
    .ok (newline ++ levels.map (fun _ => at_ .dedent) ++ [at_ .endOfFile])
  | levels, _, .token token :: items => do
    .ok (token :: (← arrange stop levels (some token.kind) items))
  | levels, last, .line width blanks span :: items =>
    if width > top levels then do
      .ok (⟨.indent, blanks, span⟩ :: (← arrange stop (width :: levels) (some .indent) items))
    else
      match close width levels with
      | none => .error ⟨.inconsistentIndentation, span⟩
      | some (0, levels) => arrange stop levels last items
      | some (n + 1, levels) => do
        .ok (List.replicate (n + 1) ⟨.dedent, blanks, span⟩
          ++ (← arrange stop levels (some .dedent) items))
  | _, _, .stop diagnostic :: _ => .error diagnostic

end Layout

/-- The tokens of a program text, block structure included. -/
def tokenize (text : String) : Except Diagnostic (List Token) :=
  Layout.arrange text.utf8ByteSize [] none (Scan.lines 0 text.toList)

theorem tokenize_ofList (cs : List Char) :
    tokenize (String.ofList cs) =
      Layout.arrange (Source.byteCount cs) [] none (Scan.lines 0 cs) := by
  rw [tokenize, Source.utf8ByteSize_ofList, String.toList_ofList]

end Cinder
