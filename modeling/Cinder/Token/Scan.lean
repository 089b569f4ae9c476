import Cinder.Diagnostic
import Cinder.Token.Basic

/-!
# Scanning

The first pass over a program text finds the logical lines: where each one
starts, how far it is indented, and which tokens stand on it.  Blank lines and
comments leave no trace, and a line feed inside parentheses does not end a line.
-/

namespace Cinder.Scan

inductive Item where
  /-- A logical line starts behind some blanks of a given width. -/
  | line (width : Nat) (blanks : String) (span : Span)
  | token (token : Token)
  /-- The text cannot be split any further. -/
  | stop (diagnostic : Diagnostic)
deriving DecidableEq, Repr

def isBlank (c : Char) : Bool :=
  c = ' ' || c = '\t' || c = '\r'

def inLine (c : Char) : Bool :=
  c != '\n'

def isWordStart (c : Char) : Bool :=
  c.isAlpha || c = '_'

def isWordPart (c : Char) : Bool :=
  c.isAlphanum || c = '_'

/-- Columns that a leading blank counts for. -/
def blankWidth (c : Char) : Nat :=
  if c = ' ' then 1 else if c = '\t' then 4 else 0

def indentation (blanks : List Char) : Nat :=
  blanks.foldr (fun c total => blankWidth c + total) 0

def mark? : Char → Option TokenKind
  | '(' => some .openParen
  | ')' => some .closeParen
  | ',' => some .comma
  | ':' => some .colon
  | '*' => some .star
  | '/' => some .slash
  | '+' => some .plus
  | '-' => some .minus
  | '<' => some .less
  | '>' => some .greater
  | '=' => some .equals
  | _ => none

def exponent : List Char → List Char
  | e :: rest =>
    if e = 'e' || e = 'E' then
      match rest with
      | s :: d :: rest' =>
        if (s = '+' || s = '-') && d.isDigit then
          e :: s :: (d :: rest').takeWhile Char.isDigit
        else if s.isDigit then e :: rest.takeWhile Char.isDigit
        else []
      | [d] => if d.isDigit then [e, d] else []
      | [] => []
    else []
  | [] => []

def fraction : List Char → List Char
  | '.' :: rest => '.' :: rest.takeWhile Char.isDigit
  | _ => []

def number (cs : List Char) : TokenKind × List Char :=
  let whole := cs.takeWhile Char.isDigit
  let cs := cs.drop whole.length
  let part := fraction cs
  let power := exponent (cs.drop part.length)
  (if part.isEmpty && power.isEmpty then .integer else .float, whole ++ part ++ power)

/-- Kind of a word: reserved words and truth values are set apart. -/
def wordKind (text : String) : TokenKind :=
  match Keyword.ofText? text with
  | some keyword => .keyword keyword
  | none => if text == "true" || text == "false" then .boolean else .identifier

/-- The token that starts with a character, given the text behind it: its kind and
its further characters. -/
def lexeme (c : Char) (cs : List Char) : Except Complaint (TokenKind × List Char) :=
  if c.isDigit || (c = '.' && (cs.head?.any Char.isDigit)) then
    let (kind, text) := number (c :: cs)
    .ok (kind, text.tail)
  else if isWordStart c then
    let rest := cs.takeWhile isWordPart
    .ok (wordKind (String.ofList (c :: rest)), rest)
  else if c = '@' then
    if cs.head?.any Char.isAlpha then .ok (.type, cs.takeWhile Char.isAlphanum)
    else .error .missingTypeName
  else
    match mark? c with
    | some kind => .ok (kind, [])
    | none => .error (.strayCharacter c)

/-- Parenthesis depth behind a token; an unmatched closing one is ignored. -/
def depthAfter (depth : Nat) : TokenKind → Nat
  | .openParen => depth + 1
  | .closeParen => depth - 1
  | _ => depth

/-- Items of a text that starts with the token of `c`; `next` scans on behind it. -/
def tokenItems (pos : Nat) (c : Char) (cs : List Char)
    (next : TokenKind → List Char → List Item) : List Item :=
  match lexeme c cs with
  | .ok (kind, more) =>
    let text := c :: more
    .token ⟨kind, String.ofList text, ⟨pos, pos + Source.byteCount text⟩⟩ :: next kind more
  | .error complaint => [.stop ⟨complaint, ⟨pos, pos + c.utf8Size⟩⟩]

mutual

def lines (pos : Nat) (cs : List Char) : List Item :=
  let blanks := cs.takeWhile isBlank
  let start := pos + blanks.length
  match h : cs.dropWhile isBlank with
  | [] => []
  | c :: rest =>
    have : (c :: rest).length ≤ cs.length := h ▸ (List.dropWhile_sublist isBlank).length_le
    have : rest.length + 1 ≤ cs.length := this
    if c = '\n' then lines (start + 1) rest
    else if c = '#' then
      let comment := rest.takeWhile inLine
      have := (List.dropWhile_sublist (l := rest) inLine).length_le
      lines (start + 1 + Source.byteCount comment) (rest.dropWhile inLine)
    else
      .line (indentation blanks) (String.ofList blanks) ⟨pos, start⟩ :: tokens 0 start (c :: rest)
termination_by 2 * cs.length + 1

def tokens (depth pos : Nat) (cs : List Char) : List Item :=
  match cs with
  | [] => []
  | c :: rest =>
    if c = '\n' then
      if depth = 0 then .token ⟨.newline, "\n", ⟨pos, pos + 1⟩⟩ :: lines (pos + 1) rest
      else tokens depth (pos + 1) rest
    else if isBlank c then tokens depth (pos + 1) rest
    else if c = '#' then
      let comment := rest.takeWhile inLine
      have := (List.dropWhile_sublist (l := rest) inLine).length_le
      tokens depth (pos + 1 + Source.byteCount comment) (rest.dropWhile inLine)
    else
      tokenItems pos c rest fun kind more =>
        tokens (depthAfter depth kind) (pos + Source.byteCount (c :: more))
          (rest.drop more.length)
termination_by 2 * cs.length

end

end Cinder.Scan
