import Cinder.Text.Terminal

/-!
# Styled text

Text for a terminal is a list of pieces, each with an optional style.  Styles
are dropped when the text goes to a file and become control sequences otherwise.
What is shown of ordinary text does not depend on that (`shown_eq_toPlain`).
-/

namespace Cinder

inductive Style where
  | red
  | green
  | yellow
  | blue
  | magenta
  | cyan
  | white
  | brightRed
  | bold
  | boldRed
deriving DecidableEq, Repr

namespace Style

def code : Style → String
  | red => "31"
  | green => "32"
  | yellow => "33"
  | blue => "34"
  | magenta => "35"
  | cyan => "36"
  | white => "37"
  | brightRed => "91"
  | bold => "1"
  | boldRed => "1;31"

def start (style : Style) : String :=
  s!"\x1b[{style.code}m"

def reset : String :=
  "\x1b[0m"

/-- Turns the style on again behind every reset in a text. -/
def resume (style : Style) : List Char → List Char
  | '\x1b' :: '[' :: '0' :: 'm' :: rest => reset.toList ++ style.start.toList ++ style.resume rest
  | c :: rest => c :: style.resume rest
  | [] => []

def wrap (style : Style) (text : String) : String :=
  style.start ++ String.ofList (style.resume text.toList) ++ reset

theorem resume_eq_self (style : Style) {cs : List Char} (h : '\x1b' ∉ cs) :
    style.resume cs = cs := by
  fun_induction style.resume cs with
  | case1 rest => exact absurd List.mem_cons_self h
  | case2 c rest _ ih => rw [ih fun hc => h (List.mem_cons_of_mem c hc)]
  | case3 => rfl

open Terminal

theorem readAll_start (style : Style) (shown : String) :
    Screen.readAll ⟨.text, shown⟩ style.start.toList = ⟨.text, shown⟩ := by
  have h : isShown '\x1b' = false := by decide
  cases style <;>
    simp [start, code, Screen.readAll, Screen.read, Mode.next, Mode.shows, isFinal,
      isIntermediate, toString, h]

theorem readAll_reset (shown : String) :
    Screen.readAll ⟨.text, shown⟩ reset.toList = ⟨.text, shown⟩ := by
  have h : isShown '\x1b' = false := by decide
  simp [reset, Screen.readAll, Screen.read, Mode.next, Mode.shows, isFinal, isIntermediate, h]

/-- A style is not seen in what is shown. -/
theorem readAll_wrap (style : Style) {text : String} (h : ∀ c ∈ text.toList, isShown c)
    (shown : String) :
    Screen.readAll ⟨.text, shown⟩ (style.wrap text).toList = ⟨.text, shown ++ text⟩ := by
  have hesc : '\x1b' ∉ text.toList := fun hc => absurd (h _ hc) (by decide)
  rw [wrap, style.resume_eq_self hesc, String.toList_append, String.toList_append,
    Screen.readAll_append, Screen.readAll_append, readAll_start, String.toList_ofList,
    Screen.readAll_text h, readAll_reset, String.ofList_toList]

end Style

structure Piece where
  style : Option Style
  text : String
deriving DecidableEq, Repr

abbrev Styled := List Piece

namespace Styled

def plain (text : String) : Styled :=
  [⟨none, text⟩]

def styled (style : Style) (text : String) : Styled :=
  [⟨some style, text⟩]

def intercalate (separator : String) : List Styled → Styled
  | [] => []
  | [text] => text
  | text :: rest => text ++ plain separator ++ intercalate separator rest

def toPlain (text : Styled) : String :=
  String.join (text.map Piece.text)

/-- The text with a control sequence around every styled piece, empty ones too. -/
def toTerminal (text : Styled) : String :=
  String.join <| text.map fun piece =>
    piece.style.elim piece.text fun style => style.wrap piece.text

def render (color : Bool) (text : Styled) : String :=
  if color then text.toTerminal else text.toPlain

/-- What a terminal shows of the text.  Colors matter only to texts with control
sequences of their own: a style ends a sequence that was left open. -/
def shown (color : Bool) (text : Styled) : String :=
  Terminal.visible (text.render color)

/-- Whether a text has neither control characters nor control sequences. -/
def isOrdinary (text : Styled) : Bool :=
  text.all fun piece => piece.text.toList.all Terminal.isShown

theorem readAll_toTerminal {text : Styled} (h : text.isOrdinary) (shown : String) :
    Terminal.Screen.readAll ⟨.text, shown⟩ text.toTerminal.toList =
      ⟨.text, shown ++ text.toPlain⟩ := by
  induction text generalizing shown with
  | nil => simp [toTerminal, toPlain, Terminal.Screen.readAll]
  | cons piece text ih =>
    obtain ⟨hpiece, htext⟩ : (∀ c ∈ piece.text.toList, Terminal.isShown c) ∧ isOrdinary text := by
      simpa [isOrdinary] using h
    have hread : Terminal.Screen.readAll ⟨.text, shown⟩
        (piece.style.elim piece.text fun style => style.wrap piece.text).toList =
        ⟨.text, shown ++ piece.text⟩ := by
      cases piece.style with
      | none => rw [Option.elim_none, Terminal.Screen.readAll_text hpiece, String.ofList_toList]
      | some style => exact style.readAll_wrap hpiece shown
    simp only [toTerminal, toPlain, List.map_cons, String.join_cons, String.toList_append,
      Terminal.Screen.readAll_append, hread]
    rw [← String.append_assoc]
    exact ih htext (shown ++ piece.text)

/-- Colors make no difference to what is shown of ordinary text. -/
theorem shown_eq_toPlain {text : Styled} (h : text.isOrdinary) (color : Bool) :
    text.shown color = text.toPlain := by
  have hplain : ∀ c ∈ text.toPlain.toList, Terminal.isShown c := by
    intro c hc
    rw [toPlain, String.toList_join] at hc
    obtain ⟨_, hs, hc⟩ := List.mem_flatMap.1 hc
    obtain ⟨piece, hp, rfl⟩ := List.mem_map.1 hs
    exact List.all_eq_true.1 (List.all_eq_true.1 h piece hp) c hc
  cases color with
  | false => exact Terminal.visible_eq_self hplain
  | true => simp [shown, render, Terminal.visible, readAll_toTerminal h]

end Styled

end Cinder
