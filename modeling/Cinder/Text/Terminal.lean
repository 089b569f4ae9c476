/-!
# What a terminal shows

A terminal shows characters and obeys control characters and control sequences,
which it does not show.  `visible` is what is left of a text.  Ordinary text is
left as it is (`visible_eq_self`).
-/

namespace Cinder.Terminal

/-- Control characters, with or without the eighth bit. -/
def isControl (c : Char) : Bool :=
  c < ' ' || ('\u0080' ≤ c && c ≤ '\u009f')

/-- Characters that reach the reader.  The line feed is the one control character
that does. -/
def isShown (c : Char) : Bool :=
  c = '\n' || !isControl c

/-! ## Bytes of control sequences -/

def isIntermediate (c : Char) : Bool :=
  ' ' ≤ c && c ≤ '/'

def isParameter (c : Char) : Bool :=
  '0' ≤ c && c ≤ '?'

/-- Parameter bytes that may only come first. -/
def isPrivate (c : Char) : Bool :=
  '<' ≤ c && c ≤ '?'

def isFinal (c : Char) : Bool :=
  '@' ≤ c && c ≤ '~'

inductive Mode where
  | text
  /-- The rest of an escape sequence. -/
  | escape
  /-- The rest of an escape sequence that has intermediate bytes. -/
  | escapeTail
  /-- A control sequence, up to its final byte. -/
  | control
  /-- The head of a device control string. -/
  | device
  /-- The head of a device control string that has parameters. -/
  | deviceParameters
  /-- The head of a device control string that has intermediate bytes. -/
  | deviceTail
  | deviceData
  /-- A command to the operating system. -/
  | command
  /-- A string that means nothing. -/
  | ignored
deriving DecidableEq, Repr

/-- The bytes of a character that are left when one of its bytes ends the data of
a device control string. -/
def afterTerminator (c : Char) : Option (List UInt8) :=
  match (String.utf8EncodeChar c).dropWhile (· ≠ 0x9c) with
  | [] => none
  | _ :: rest => some rest

namespace Mode

/-- The mode after a character.  An escape character starts a sequence in every
mode, and two control characters break any sequence off. -/
def next (mode : Mode) (c : Char) : Mode :=
  if c = '\x1b' then escape
  else if c = '\x18' || c = '\x1a' then text
  else match mode with
  | text => text
  | escape =>
    if isIntermediate c then escapeTail
    else if c = '[' then control
    else if c = 'P' then device
    else if c = ']' then command
    else if c = 'X' || c = '^' || c = '_' then ignored
    else if isParameter c || isFinal c then text
    else escape
  | escapeTail => if isParameter c || isFinal c then text else escapeTail
  | control => if isFinal c then text else control
  | device =>
    if isIntermediate c then deviceTail
    else if isParameter c then deviceParameters
    else if isFinal c then deviceData
    else device
  | deviceParameters =>
    if isIntermediate c then deviceTail
    else if isPrivate c then ignored
    else if isFinal c then deviceData
    else deviceParameters
  | deviceTail =>
    if isParameter c then ignored
    else if isFinal c then deviceData
    else deviceTail
  | deviceData => if (afterTerminator c).isSome then text else deviceData
  | command => if c = '\x07' then text else command
  | ignored => ignored

/-- What is shown for a character.  Line feeds are obeyed inside of escape and
control sequences too.  Bytes left over behind the data of a device control string
are no characters: they are controls or show as replacement characters. -/
def shows (mode : Mode) (c : Char) : List Char :=
  match mode with
  | text => if isShown c then [c] else []
  | escape | escapeTail | control => if c = '\n' then [c] else []
  | deviceData =>
    (((afterTerminator c).getD []).filter (0x9f < ·)).map fun _ => '\ufffd'
  | _ => []

end Mode

structure Screen where
  mode : Mode
  shown : String
deriving DecidableEq, Repr

namespace Screen

def read (screen : Screen) (c : Char) : Screen :=
  ⟨screen.mode.next c, screen.shown ++ String.ofList (screen.mode.shows c)⟩

def readAll (screen : Screen) (cs : List Char) : Screen :=
  cs.foldl read screen

theorem readAll_append (screen : Screen) (xs ys : List Char) :
    screen.readAll (xs ++ ys) = (screen.readAll xs).readAll ys :=
  List.foldl_append

theorem read_text {c : Char} (h : isShown c) (shown : String) :
    read ⟨.text, shown⟩ c = ⟨.text, shown ++ String.ofList [c]⟩ := by
  have hc : c ≠ '\x1b' := by
    rintro rfl
    exact absurd h (by decide)
  simp only [read, Mode.next, Mode.shows, hc, h, if_true, if_false, ite_self]

/-- Shown characters are shown in order, and no sequence starts. -/
theorem readAll_text {cs : List Char} (h : ∀ c ∈ cs, isShown c) (shown : String) :
    readAll ⟨.text, shown⟩ cs = ⟨.text, shown ++ String.ofList cs⟩ := by
  induction cs generalizing shown with
  | nil => simp [readAll]
  | cons c cs ih =>
    rw [readAll, List.foldl_cons, read_text (h c List.mem_cons_self), ← readAll,
      ih fun d hd => h d (List.mem_cons_of_mem c hd), String.append_assoc, ← String.ofList_append]
    rfl

end Screen

def visible (text : String) : String :=
  (Screen.readAll ⟨.text, ""⟩ text.toList).shown

theorem visible_eq_self {text : String} (h : ∀ c ∈ text.toList, isShown c) :
    visible text = text := by
  rw [visible, Screen.readAll_text h]
  simp

end Cinder.Terminal
