import Cinder.Proofs.Token.Phrases

/-!
# Pages

What scanning and layout make of a text that is written line by line, each line indented by
four blanks for every level that it is on.  A line gives the tokens of its phrase, and in front
of it as many levels are opened or closed as its depth asks for.  Lines that begin at one depth
and do not get in front of it are a page; pages are put together like the blocks of a program.
-/

namespace Cinder

/-! ## Lines -/

namespace Layout

/-- A line and the number of levels that it is indented by. -/
structure Line (α : Type) where
  depth : Nat
  content : α
deriving DecidableEq, Repr

/-- Four blanks for every level, and a line feed behind the line. -/
def Line.source (line : Line String) : String :=
  String.ofList (List.replicate (4 * line.depth) ' ') ++ line.content ++ "\n"

/-- Lines with more words, and a blank, in front of the first one. -/
def Line.lead (words : String) : List (Line String) → List (Line String)
  | [] => []
  | line :: lines => ⟨line.depth, words ++ " " ++ line.content⟩ :: lines

structure Line.Reads (line : Line String) (read : Line (List Lexeme)) : Prop where
  depth : line.depth = read.depth
  content : Scan.Phrase line.content read.content

end Layout

open Layout (Line)

namespace Scan

theorem indentation_replicate (n : Nat) : indentation (List.replicate n ' ') = n := by
  induction n with
  | zero => rfl
  | succ n ih =>
    rw [List.replicate_succ, indentation, List.foldr_cons, ← indentation, ih]
    exact Nat.add_comm 1 n

theorem lines_replicate_append {c : Char} (hc : Solid c) (n : Nat) (cs : List Char) (pos : Nat) :
    lines pos (List.replicate n ' ' ++ c :: cs) =
      .line n (String.ofList (List.replicate n ' ')) ⟨pos, pos + n⟩ ::
        tokens 0 (pos + n) (c :: cs) := by
  rw [lines_append (by simp [isBlank]) hc.blank, if_neg hc.lineFeed, if_neg hc.hash,
    indentation_replicate, List.length_replicate]

theorem exists_lines_source {line : Line String} {read : Line (List Lexeme)} (h : line.Reads read)
    (pos : Nat) (rest : List Char) :
    ∃ (span : Span) (found : List Token) (feed : Span) (next : Nat),
      lines pos (line.source.toList ++ rest) =
        .line (4 * read.depth) (String.ofList (List.replicate (4 * read.depth) ' ')) span ::
          (found.map Item.token ++ .token ⟨.newline, "\n", feed⟩ :: lines next rest) ∧
      found.map Token.lexeme = read.content := by
  obtain ⟨c, hhead, hc⟩ := h.content.solid
  have htext : line.source.toList ++ rest =
      List.replicate (4 * line.depth) ' ' ++ (line.content.toList ++ '\n' :: rest) := by
    simp [Line.source]
  obtain ⟨cs, hcs⟩ : ∃ cs, line.content.toList = c :: cs := List.head?_eq_some_iff.1 hhead
  obtain ⟨found, next, htokens, hfound⟩ :=
    h.content.reads 0 (pos + 4 * line.depth) ('\n' :: rest) (.lineFeed rest)
  refine ⟨⟨pos, pos + 4 * line.depth⟩, found, ⟨next, next + 1⟩, next + 1, ?_, hfound⟩
  rw [htext, hcs, List.cons_append, lines_replicate_append hc, ← List.cons_append, ← hcs, htokens,
    h.content.closed, h.depth, tokens, if_pos rfl, if_pos rfl]

end Scan

/-! ## Levels -/

namespace Layout

def stack : Nat → List Nat
  | 0 => []
  | depth + 1 => 4 * (depth + 1) :: stack depth

theorem top_stack (depth : Nat) : top (stack depth) = 4 * depth := by
  cases depth <;> rfl

theorem close_stack (depth n : Nat) :
    close (4 * depth) (stack (depth + n)) = some (n, stack depth) := by
  induction n with
  | zero =>
    cases depth with
    | zero => rfl
    | succ depth => simp [stack, close]
  | succ n ih =>
    rw [← Nat.add_assoc, stack, close, if_pos (by omega), ih]
    rfl

/-- No line is more than one level further in than the one before. -/
def Stepwise {α : Type} : Nat → List (Line α) → Prop
  | _, [] => True
  | depth, line :: lines => line.depth ≤ depth + 1 ∧ Stepwise line.depth lines

/-- What opens or closes the levels between two depths. -/
def turn (old new : Nat) : List Lexeme :=
  if old < new then [⟨.indent, ""⟩] else List.replicate (old - new) ⟨.dedent, ""⟩

/-- The tokens of some lines behind a line of a given depth. -/
def stream : Nat → List (Line (List Lexeme)) → List Lexeme
  | depth, [] => List.replicate depth ⟨.dedent, ""⟩ ++ [⟨.endOfFile, ""⟩]
  | depth, line :: lines =>
    turn depth line.depth ++ line.content ++ ⟨.newline, ""⟩ :: stream line.depth lines

theorem length_stack (depth : Nat) : (stack depth).length = depth := by
  induction depth with
  | zero => rfl
  | succ depth ih => rw [stack, List.length_cons, ih]

theorem arrange_token (stop : Nat) (levels : List Nat) (last : Option TokenKind) (token : Token)
    (items : List Scan.Item) :
    arrange stop levels last (.token token :: items) =
      (arrange stop levels (some token.kind) items).map (token :: ·) := by
  rw [arrange]
  cases arrange stop levels (some token.kind) items <;> rfl

theorem arrange_tokens (stop : Nat) (levels : List Nat) (last : Option TokenKind)
    (found : List Token) (token : Token) (items : List Scan.Item) :
    arrange stop levels last (found.map Scan.Item.token ++ .token token :: items) =
      (arrange stop levels (some token.kind) items).map (found ++ token :: ·) := by
  induction found generalizing last with
  | nil => exact arrange_token stop levels last token items
  | cons first found ih =>
    rw [List.map_cons, List.cons_append, arrange_token, ih]
    cases arrange stop levels (some token.kind) items <;> rfl

theorem exists_arrange_line {stop old new : Nat} (hstep : new ≤ old + 1) (last : Option TokenKind)
    (blanks : String) (span : Span) {items : List Scan.Item} {tokens : List Token}
    (h : ∀ last, arrange stop (stack new) last items = .ok tokens) :
    ∃ turned, arrange stop (stack old) last (.line (4 * new) blanks span :: items) =
      .ok (turned ++ tokens) ∧ turned.map Token.lexeme = turn old new := by
  rw [arrange, top_stack]
  by_cases hdeeper : old < new
  · obtain rfl : new = old + 1 := by omega
    rw [if_pos (by omega), ← stack, h]
    refine ⟨[⟨.indent, blanks, span⟩], rfl, ?_⟩
    rw [turn, if_pos hdeeper]
    rfl
  · obtain ⟨n, rfl⟩ : ∃ n, old = new + n := Nat.exists_eq_add_of_le (by omega)
    rw [if_neg (by omega), close_stack, turn, if_neg hdeeper, Nat.add_sub_cancel_left]
    cases n with
    | zero => exact ⟨[], h last, rfl⟩
    | succ n =>
      refine ⟨List.replicate (n + 1) ⟨.dedent, blanks, span⟩, ?_, ?_⟩
      · dsimp only
        rw [h]
        rfl
      · rw [List.map_replicate]
        rfl

theorem exists_arrange_lines {lines : List (Line String)} {read : List (Line (List Lexeme))}
    (h : List.Forall₂ Line.Reads lines read) {depth : Nat} (hstep : Stepwise depth read)
    {last : Option TokenKind} (hlast : ∀ kind ∈ last, kind = .newline) (stop pos : Nat) :
    ∃ tokens, arrange stop (stack depth) last
        (Scan.lines pos (lines.flatMap fun line => line.source.toList)) = .ok tokens ∧
      tokens.map Token.lexeme = stream depth read := by
  induction h generalizing depth last pos with
  | nil =>
    have hitems : Scan.lines pos [] = [] := by simp [Scan.lines]
    have hnewline : ¬ (last.any fun kind => decide (kind ≠ .newline)) = true := by
      cases last with
      | none => simp
      | some kind => simp [hlast kind rfl]
    rw [List.flatMap_nil, hitems, arrange, if_neg hnewline]
    refine ⟨_, rfl, ?_⟩
    simp [stream, length_stack, List.map_const', Token.lexeme, TokenKind.hasText]
  | @cons line read lines reads hline _ ih =>
    obtain ⟨span, found, feed, next, hitems, hfound⟩ := Scan.exists_lines_source hline pos
      (lines.flatMap fun line => line.source.toList)
    have hfeed : ∀ kind ∈ some TokenKind.newline, kind = .newline := by simp
    obtain ⟨tokens, htokens, hstream⟩ := ih hstep.2 hfeed next
    -- what is behind the indentation ends with a line feed, whatever was read before it
    have hrest : ∀ last, arrange stop (stack read.depth) last
        (found.map Scan.Item.token ++ .token ⟨.newline, "\n", feed⟩ :: Scan.lines next
          (lines.flatMap fun line => line.source.toList)) =
        .ok (found ++ ⟨.newline, "\n", feed⟩ :: tokens) := by
      intro last
      rw [arrange_tokens, htokens]
      rfl
    obtain ⟨turned, hturned, hturn⟩ := exists_arrange_line hstep.1 last
      (String.ofList (List.replicate (4 * read.depth) ' ')) span hrest
    rw [List.flatMap_cons, hitems]
    refine ⟨_, hturned, ?_⟩
    rw [stream, List.map_append, List.map_append, List.map_cons, hturn, hfound, hstream,
      List.append_assoc]
    rfl

/-! ## Pages -/

/-- The next line, if there is one, is not further in. -/
def Outside {α : Type} (depth : Nat) (lines : List (Line α)) : Prop :=
  ∀ line ∈ lines.head?, line.depth ≤ depth

/-- A line opens or closes the levels between its depth and the one before. -/
theorem stream_succ_of_outside {depth : Nat} {lines : List (Line (List Lexeme))}
    (h : Outside depth lines) : stream (depth + 1) lines = ⟨.dedent, ""⟩ :: stream depth lines := by
  cases lines with
  | nil => rw [stream, List.replicate_succ, List.cons_append, ← stream]
  | cons line lines =>
    have hle : line.depth ≤ depth := h line rfl
    rw [stream, stream, turn, turn, if_neg (by omega), if_neg (by omega),
      Nat.succ_sub hle, List.replicate_succ, List.cons_append, List.cons_append]

theorem Stepwise.succ {α : Type} {depth : Nat} {lines : List (Line α)} (h : Stepwise depth lines) :
    Stepwise (depth + 1) lines := by
  cases lines with
  | nil => exact trivial
  | cons line lines => exact ⟨Nat.le_succ_of_le h.1, h.2⟩

/-- Lines at a depth, and further in, that are read as some tokens: they begin at that depth,
and at their end every level beyond it is closed. -/
structure Page (depth : Nat) (lines : List (Line String)) (lexemes : List Lexeme)
    (read : List (Line (List Lexeme))) : Prop where
  reads : List.Forall₂ Line.Reads lines read
  start : ∀ line ∈ read.head?, line.depth = depth
  stepwise : ∀ rest, Outside depth rest → Stepwise depth rest → Stepwise depth (read ++ rest)
  stream : ∀ rest, Outside depth rest →
    stream depth (read ++ rest) = lexemes ++ Layout.stream depth rest

/-- Some lines are a page. -/
def Spells (depth : Nat) (lines : List (Line String)) (lexemes : List Lexeme) : Prop :=
  ∃ read, Page depth lines lexemes read

namespace Spells

variable {depth : Nat} {lines lines' : List (Line String)} {ls ls' : List Lexeme} {text : String}

theorem nil : Spells depth [] [] :=
  ⟨[], .nil, by simp, fun _ _ h => h, fun _ _ => rfl⟩

theorem append (h : Spells depth lines ls) (h' : Spells depth lines' ls') :
    Spells depth (lines ++ lines') (ls ++ ls') := by
  obtain ⟨read, h⟩ := h
  obtain ⟨read', h'⟩ := h'
  have houtside : ∀ rest, Outside depth rest → Outside depth (read' ++ rest) := by
    intro rest hrest line hline
    cases hread : read' with
    | nil =>
      rw [hread] at hline
      exact hrest line hline
    | cons first read' =>
      rw [hread] at hline
      exact Nat.le_of_eq (h'.start line (by rw [hread]; exact hline))
  refine ⟨read ++ read', List.rel_append h.reads h'.reads, ?_, ?_, ?_⟩
  · intro line hline
    cases hread : read with
    | nil =>
      rw [hread] at hline
      exact h'.start line hline
    | cons first read =>
      rw [hread] at hline
      exact h.start line (by rw [hread]; exact hline)
  · intro rest hrest hstep
    rw [List.append_assoc]
    exact h.stepwise _ (houtside rest hrest) (h'.stepwise rest hrest hstep)
  · intro rest hrest
    rw [List.append_assoc, h.stream _ (houtside rest hrest), h'.stream rest hrest,
      List.append_assoc]

theorem line (h : Scan.Phrase text ls) : Spells depth [⟨depth, text⟩] (ls ++ [⟨.newline, ""⟩]) := by
  refine ⟨[⟨depth, ls⟩], .cons ⟨rfl, h⟩ .nil, ?_, ?_, ?_⟩
  · intro line hline
    cases hline
    rfl
  · intro rest _ hstep
    exact ⟨Nat.le_succ _, hstep⟩
  · intro rest _
    rw [List.singleton_append, Layout.stream, turn, if_neg (Nat.lt_irrefl _), Nat.sub_self]
    simp

theorem nest (h : Scan.Phrase text ls) (h' : Spells (depth + 1) lines ls') (hne : lines ≠ []) :
    Spells depth (⟨depth, text⟩ :: lines)
      (ls ++ ⟨.newline, ""⟩ :: ⟨.indent, ""⟩ :: ls' ++ [⟨.dedent, ""⟩]) := by
  obtain ⟨read, h'⟩ := h'
  -- the lines further in begin with one that opens a level
  obtain ⟨first, inner, rfl⟩ : ∃ first inner, read = first :: inner := by
    cases h'.reads with
    | nil => exact absurd rfl hne
    | cons _ _ => exact ⟨_, _, rfl⟩
  have hfirst : first.depth = depth + 1 := h'.start first rfl
  have houtside : ∀ rest : List (Line (List Lexeme)), Outside depth rest →
      Outside (depth + 1) rest :=
    fun rest hrest line hline => Nat.le_succ_of_le (hrest line hline)
  refine ⟨⟨depth, ls⟩ :: first :: inner, .cons ⟨rfl, h⟩ h'.reads, ?_, ?_, ?_⟩
  · intro line hline
    cases hline
    rfl
  · intro rest hrest hstep
    have hinner := h'.stepwise rest (houtside rest hrest) hstep.succ
    exact ⟨Nat.le_succ _, Nat.le_of_eq hfirst, hinner.2⟩
  · intro rest hrest
    have hinner := h'.stream rest (houtside rest hrest)
    rw [stream_succ_of_outside hrest, List.cons_append, Layout.stream, hfirst] at hinner
    rw [List.cons_append, List.cons_append, Layout.stream, Layout.stream, hfirst]
    simp only [turn] at hinner ⊢
    simp at hinner ⊢
    exact hinner

theorem lead {words : String} (h : Scan.Phrase words ls) (h' : Spells depth lines ls')
    (hne : lines ≠ []) : Spells depth (Line.lead words lines) (ls ++ ls') := by
  obtain ⟨read, h'⟩ := h'
  obtain ⟨reads, start, stepwise, stream⟩ := h'
  cases reads with
  | nil => exact absurd rfl hne
  | @cons line first lines inner hline hlines =>
    have hfirst : first.depth = depth := start first rfl
    refine ⟨⟨depth, ls ++ first.content⟩ :: inner, .cons ⟨?_, ?_⟩ hlines, ?_, ?_, ?_⟩
    · exact hline.depth.trans hfirst
    · exact h.spaced hline.content
    · intro line hline
      cases hline
      rfl
    · intro rest hrest hstep
      have hinner := stepwise rest hrest hstep
      rw [List.cons_append, Stepwise, hfirst] at hinner
      exact hinner
    · intro rest hrest
      have hinner := stream rest hrest
      rw [List.cons_append, Layout.stream, hfirst] at hinner
      rw [List.cons_append, Layout.stream, List.append_assoc ls ls', ← hinner]
      simp [turn]

end Spells

end Layout

theorem exists_tokenize_lines {lines : List (Line String)} {lexemes : List Lexeme}
    (h : Layout.Spells 0 lines lexemes) :
    ∃ tokens, tokenize (String.join (lines.map Line.source)) = .ok tokens ∧
      tokens.map Token.lexeme = lexemes ++ [⟨.endOfFile, ""⟩] := by
  have htext : (String.join (lines.map Line.source)).toList =
      lines.flatMap fun line => line.source.toList := by
    clear h
    induction lines with
    | nil => rfl
    | cons line lines ih =>
      rw [List.map_cons, String.join_cons, String.toList_append, ih, List.flatMap_cons]
  obtain ⟨read, h⟩ := h
  have hnil : Layout.Outside 0 ([] : List (Line (List Lexeme))) := by simp [Layout.Outside]
  have hstep := h.stepwise [] hnil trivial
  have hstream := h.stream [] hnil
  rw [List.append_nil] at hstep hstream
  have hnone : ∀ kind ∈ (none : Option TokenKind), kind = .newline := by simp
  obtain ⟨tokens, htokens, hlexemes⟩ := Layout.exists_arrange_lines h.reads hstep
    hnone (String.join (lines.map Line.source)).utf8ByteSize 0
  rw [tokenize, htext]
  exact ⟨tokens, htokens, hlexemes.trans hstream⟩

end Cinder
