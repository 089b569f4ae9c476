import Cinder.Text.Source
import Mathlib.Data.List.TakeWhile

/-!
# Spans of a text

Spans that begin and end between characters of a text.  Such spans can be joined, and
reports about them show the row and the column where they begin.
-/

namespace Cinder

namespace Source

/-! ## Bytes -/

@[simp] theorem byteCount_append (cs ds : List Char) :
    byteCount (cs ++ ds) = byteCount cs + byteCount ds := by
  induction cs with
  | nil => simp
  | cons c cs ih => simp [ih, Nat.add_assoc]

theorem byteCount_toList (text : String) : byteCount text.toList = text.utf8ByteSize := by
  rw [← utf8ByteSize_ofList, String.ofList_toList]

theorem byteCount_eq_length {cs : List Char} (h : ∀ c ∈ cs, c.utf8Size = 1) :
    byteCount cs = cs.length := by
  induction cs with
  | nil => rfl
  | cons c cs ih =>
    rw [List.forall_mem_cons] at h
    rw [byteCount_cons, h.1, ih h.2, List.length_cons, Nat.add_comm]

/-! ## Boundaries -/

/-- An offset that does not lie inside of a character. -/
def Boundary (cs : List Char) (offset : Nat) : Prop :=
  ∃ before after, cs = before ++ after ∧ offset = byteCount before

namespace Boundary

variable {cs : List Char} {offset : Nat}

theorem mk (before after : List Char) : Boundary (before ++ after) (byteCount before) :=
  ⟨before, after, rfl, rfl⟩

theorem zero (cs : List Char) : Boundary cs 0 :=
  ⟨[], cs, rfl, rfl⟩

theorem byteCount (cs : List Char) : Boundary cs (byteCount cs) :=
  ⟨cs, [], (List.append_nil cs).symm, rfl⟩

theorem le (h : Boundary cs offset) : offset ≤ Source.byteCount cs := by
  obtain ⟨before, after, rfl, rfl⟩ := h
  rw [byteCount_append]
  exact Nat.le_add_right _ _

theorem isValid {text : String} (h : Boundary text.toList offset) :
    String.Pos.Raw.IsValid text ⟨offset⟩ := by
  obtain ⟨before, after, hsplit, rfl⟩ := h
  rw [← String.ofList_toList (s := text), hsplit, String.Pos.Raw.isValid_ofList]
  refine ⟨before.length, ?_⟩
  rw [List.take_left, utf8ByteSize_ofList]

end Boundary

theorem splitAtByte_append (before after : List Char) :
    splitAtByte (before ++ after) (byteCount before) = some (before, after) := by
  induction before with
  | nil => cases after <;> rfl
  | cons c before ih =>
    obtain ⟨n, hn⟩ : ∃ n, c.utf8Size + byteCount before = n + 1 :=
      Nat.exists_eq_succ_of_ne_zero (by have := c.utf8Size_pos; omega)
    rw [List.cons_append, byteCount_cons, hn, splitAtByte, if_pos (by omega),
      show n + 1 - c.utf8Size = byteCount before by omega, ih]
    rfl

/-! ## Rows and columns -/

/-- Row and column of an offset: in front of it are `row - 1` line feeds, and the line that
it is on begins `column - 1` bytes in front of it. -/
def Locates (cs : List Char) (offset row column : Nat) : Prop :=
  ∃ earlier line after, cs = earlier ++ line ++ after ∧
    offset = byteCount earlier + byteCount line ∧
    (earlier = [] ∨ earlier.getLast? = some '\n') ∧ '\n' ∉ line ∧
    row = earlier.count '\n' + 1 ∧ column = byteCount line + 1

/-- A text ends with its last line, and what is in front of it with a line feed. -/
theorem exists_append_lastLine (cs : List Char) : ∃ earlier, cs = earlier ++ lastLine cs ∧
    (earlier = [] ∨ earlier.getLast? = some '\n') ∧ '\n' ∉ lastLine cs := by
  refine ⟨(cs.reverse.dropWhile (· ≠ '\n')).reverse, ?_, ?_, ?_⟩
  · rw [lastLine, ← List.reverse_append, List.takeWhile_append_dropWhile, List.reverse_reverse]
  · rw [List.getLast?_reverse]
    cases hrest : cs.reverse.dropWhile (· ≠ '\n') with
    | nil => exact .inl rfl
    | cons c rest =>
      have hhead := List.head?_dropWhile_not (· ≠ '\n') cs.reverse
      rw [hrest] at hhead
      exact .inr (by simpa using hhead)
  · intro hmem
    rw [lastLine, List.mem_reverse] at hmem
    simpa using List.mem_takeWhile_imp hmem

theorem exists_location {source : Source} {offset : Nat}
    (h : Boundary source.contents.toList offset) :
    ∃ row column, source.location offset = some (row, column) ∧
      Locates source.contents.toList offset row column := by
  obtain ⟨before, after, hsplit, rfl⟩ := h
  refine ⟨before.count '\n' + 1, byteCount (lastLine before) + 1, ?_, ?_⟩
  · rw [location, splitAt, hsplit, splitAtByte_append]
    rfl
  · obtain ⟨earlier, hlines, hearlier, hline⟩ := exists_append_lastLine before
    refine ⟨earlier, lastLine before, after, ?_, ?_, hearlier, hline, ?_, rfl⟩
    · rw [← hlines, hsplit]
    · rw [← byteCount_append, ← hlines]
    · have hcount := congrArg (List.count '\n') hlines
      rw [List.count_append, List.count_eq_zero.2 hline] at hcount
      exact congrArg (· + 1) hcount

end Source

/-! ## Spans -/

namespace Span

/-- The span covers characters of a text. -/
structure Within (span : Span) (cs : List Char) : Prop where
  le : span.start ≤ span.stop
  start : Source.Boundary cs span.start
  stop : Source.Boundary cs span.stop

namespace Within

variable {cs : List Char}

theorem empty {offset : Nat} (h : Source.Boundary cs offset) : Within ⟨offset, offset⟩ cs :=
  ⟨Nat.le_refl _, h, h⟩

theorem of_append {before middle after : List Char} (h : cs = before ++ (middle ++ after)) :
    Within ⟨Source.byteCount before, Source.byteCount before + Source.byteCount middle⟩ cs where
  le := Nat.le_add_right _ _
  start := by
    rw [h]
    exact .mk _ _
  stop := by
    rw [h, ← Source.byteCount_append, ← List.append_assoc]
    exact .mk _ _

theorem through {a b : Span} (ha : a.Within cs) (hb : b.Within cs) : (a.through b).Within cs where
  le := calc
    min a.start b.start ≤ a.start := Nat.min_le_left _ _
    _ ≤ a.stop := ha.le
    _ ≤ max a.stop b.stop := Nat.le_max_left _ _
  start := by
    rcases Nat.le_total a.start b.start with h | h
    · simpa [Span.through, Nat.min_eq_left h] using ha.start
    · simpa [Span.through, Nat.min_eq_right h] using hb.start
  stop := by
    rcases Nat.le_total a.stop b.stop with h | h
    · simpa [Span.through, Nat.max_eq_right h] using hb.stop
    · simpa [Span.through, Nat.max_eq_left h] using ha.stop

end Within

end Span

/-! ## Reports -/

theorem Styled.toPlain_cons (piece : Piece) (text : Styled) :
    Styled.toPlain (piece :: text) = piece.text ++ text.toPlain := by
  rw [Styled.toPlain, List.map_cons, String.join_cons, Styled.toPlain]

namespace Source

/-- How a report begins: the message, then the place behind an arrow that is indented by the
width of the row. -/
def heading (source : Source) (message : String) (row column : Nat) : String :=
  "error" ++ ": " ++ message ++ "\n" ++ String.ofList (List.replicate (toString row).length ' ')
    ++ "-->" ++ " " ++ source.origin ++ ":" ++ toString row ++ ":" ++ toString column ++ "\n"

theorem toPlain_heading {gutter : String} {row : Nat}
    (hgutter : gutter = String.ofList (List.replicate (toString row).length ' '))
    (source : Source) (message : String) (column : Nat) (tail : String) (rest : Styled) :
    Styled.toPlain (⟨some .boldRed, "error"⟩ :: ⟨none, ": "⟩ :: ⟨some .bold, message⟩ ::
      ⟨none, "\n" ++ gutter⟩ :: ⟨some .blue, "-->"⟩ ::
      ⟨none, s!" {source.origin}:{row}:{column}\n{gutter}" ++ tail⟩ :: rest) =
      source.heading message row column ++ (gutter ++ tail ++ Styled.toPlain rest) := by
  have htext : ∀ text : String, toString text = text := fun _ => rfl
  unfold heading
  rw [← hgutter]
  simp only [Styled.toPlain_cons, htext]
  simp only [String.append_assoc]

/-- A report about a span of a text can be made, and shows row and column of its
beginning. -/
theorem exists_report {source : Source} {span : Span} (message : String)
    (h : span.Within source.contents.toList)
    (hsize : source.contents.utf8ByteSize ≤ Source.maxTextSize) :
    ∃ shown row column rest, source.report message span = some shown ∧
      shown.toPlain = source.heading message row column ++ rest ∧
      Source.Locates source.contents.toList span.start row column := by
  obtain ⟨row, column, hlocation, hlocates⟩ := exists_location h.start
  obtain ⟨line, hline⟩ : ∃ line, source.lineAt span.start = some line := by
    obtain ⟨before, after, hsplit, hstart⟩ := h.start
    rw [lineAt, splitAt, hsplit, hstart, splitAtByte_append]
    exact ⟨_, rfl⟩
  have hstop := h.stop.le
  rw [byteCount_toList] at hstop
  have hlong : ¬ (span.stop < span.start ∨ maxTextSize < span.stop - span.start) := by
    have := h.le
    omega
  rw [report, hlocation, hline]
  simp only [bind, Option.bind, if_neg hlong, Option.some.injEq]
  simp only [Styled.styled, Styled.plain, List.cons_append, List.nil_append]
  exact ⟨_, row, column, _, rfl, toPlain_heading rfl source message column _ _, hlocates⟩

end Source

end Cinder
