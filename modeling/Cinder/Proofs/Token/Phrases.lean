import Cinder.Token.Layout
import Cinder.Ty
import Mathlib.Data.List.Forall2

/-!
# Phrases

What scanning makes of the words and marks of a line.  A phrase is a text that is read as some
tokens wherever it stands; phrases are put together from words and marks, with a blank between
them where they would run into each other.
-/

namespace Cinder

structure Lexeme where
  kind : TokenKind
  text : String := ""
deriving DecidableEq, Repr

def TokenKind.hasText : TokenKind → Bool
  | .identifier | .type | .boolean | .integer | .float => true
  | _ => false

def Token.lexeme (token : Token) : Lexeme :=
  ⟨token.kind, if token.kind.hasText then token.text else ""⟩

@[simp] theorem Token.lexeme_kind (token : Token) : token.lexeme.kind = token.kind :=
  rfl

namespace Scan

/-! ## Words and marks -/

structure Solid (c : Char) : Prop where
  lineFeed : c ≠ '\n'
  blank : isBlank c = false
  hash : c ≠ '#'

/-- What may stand directly behind a word or a number. -/
def Break (cs : List Char) : Prop :=
  ∀ c ∈ cs.head?, isWordPart c = false ∧ c ≠ '.'

variable {cs rest more : List Char} {c : Char} {kind : TokenKind}

theorem Break.append {ds : List Char} (hcs : Break cs) (hds : Break ds) : Break (cs ++ ds) := by
  cases cs with
  | nil => exact hds
  | cons c cs => exact hcs

theorem takeWhile_append_of_break {p : Char → Bool} (hp : ∀ c, p c = true → isWordPart c = true)
    (hcs : ∀ c ∈ cs, p c = true) (hrest : Break rest) :
    (cs ++ rest).takeWhile p = cs := by
  rw [List.takeWhile_append_of_pos hcs]
  cases rest with
  | nil => simp
  | cons c rest =>
    have hc : ¬ p c = true := by
      intro hpc
      have := (hrest c rfl).1
      rw [hp c hpc] at this
      cases this
    rw [List.takeWhile_cons_of_neg hc, List.append_nil]

theorem isWordPart_of_isDigit (c : Char) (h : c.isDigit = true) : isWordPart c = true := by
  simp [isWordPart, Char.isAlphanum, h]

theorem isWordPart_of_isAlphanum (c : Char) (h : c.isAlphanum = true) : isWordPart c = true := by
  simp [isWordPart, h]

theorem fraction_of_break (h : Break rest) : fraction rest = [] := by
  unfold fraction
  split
  · exact absurd rfl (h '.' rfl).2
  · rfl

theorem exponent_of_break (h : Break rest) : exponent rest = [] := by
  cases rest with
  | nil => rfl
  | cons c rest =>
    have hc : ¬ (c = 'e' || c = 'E') = true := by
      intro hc
      simp only [Bool.or_eq_true, decide_eq_true_eq] at hc
      have hpart := (h c rfl).1
      rcases hc with rfl | rfl <;> revert hpart <;> decide
    unfold exponent
    dsimp only
    rw [if_neg hc]

theorem number_append (hcs : ∀ c ∈ cs, c.isDigit = true) (h : Break rest) :
    number (cs ++ rest) = (.integer, cs) := by
  have hwhole : (cs ++ rest).takeWhile Char.isDigit = cs :=
    takeWhile_append_of_break isWordPart_of_isDigit hcs h
  unfold number
  simp [hwhole, fraction_of_break h, exponent_of_break h]

theorem not_isDigit_of_isWordStart (h : isWordStart c = true) : c.isDigit = false := by
  simp only [isWordStart, Bool.or_eq_true, decide_eq_true_eq] at h
  rcases h with h | rfl
  · have hletter : (decide ('A'.val ≤ c.val ∧ c.val ≤ 'Z'.val) ||
        decide ('a'.val ≤ c.val) && decide (c.val ≤ 'z'.val)) = true := h
    simp only [Bool.or_eq_true, Bool.and_eq_true, decide_eq_true_eq] at hletter
    simp only [Char.isDigit, Bool.and_eq_false_iff, decide_eq_false_iff_not]
    grind
  · rfl

theorem lexeme_word (hc : isWordStart c = true) (hmore : ∀ d ∈ more, isWordPart d = true)
    (h : Break rest) :
    lexeme c (more ++ rest) = .ok (wordKind (String.ofList (c :: more)), more) := by
  have hdot : c ≠ '.' := by
    rintro rfl
    revert hc
    decide
  unfold lexeme
  rw [if_neg (by simp [not_isDigit_of_isWordStart hc, hdot]), if_pos hc]
  simp [takeWhile_append_of_break (fun _ h => h) hmore h]

theorem lexeme_type (hhead : more.head?.any Char.isAlpha = true)
    (hmore : ∀ d ∈ more, d.isAlphanum = true) (h : Break rest) :
    lexeme '@' (more ++ rest) = .ok (.type, more) := by
  have htext : (more ++ rest).takeWhile Char.isAlphanum = more :=
    takeWhile_append_of_break isWordPart_of_isAlphanum hmore h
  have hfirst : (more ++ rest).head?.any Char.isAlpha = true := by
    cases more with
    | nil => cases hhead
    | cons d more => exact hhead
  show (if (more ++ rest).head?.any Char.isAlpha then
    Except.ok (TokenKind.type, (more ++ rest).takeWhile Char.isAlphanum) else _) = _
  rw [if_pos hfirst, htext]

theorem lexeme_integer (hc : c.isDigit = true) (hmore : ∀ d ∈ more, d.isDigit = true)
    (h : Break rest) :
    lexeme c (more ++ rest) = .ok (.integer, more) := by
  have hnumber : number (c :: (more ++ rest)) = (.integer, c :: more) :=
    number_append (List.forall_mem_cons.2 ⟨hc, hmore⟩) h
  unfold lexeme
  rw [if_pos (by simp [hc]), hnumber]
  rfl

theorem lexeme_mark (hc : mark? c = some kind) (rest : List Char) :
    lexeme c rest = .ok (kind, []) := by
  unfold mark? at hc
  split at hc <;> cases hc <;> rfl

theorem Solid.of_isWordPart (h : isWordPart c = true) : Solid c where
  lineFeed := by
    rintro rfl
    revert h
    decide
  blank := by
    rw [Bool.eq_false_iff]
    intro hblank
    simp only [isBlank, Bool.or_eq_true, decide_eq_true_eq] at hblank
    rcases hblank with (rfl | rfl) | rfl <;> revert h <;> decide
  hash := by
    rintro rfl
    revert h
    decide

theorem Solid.of_mark (h : mark? c = some kind) : Solid c := by
  unfold mark? at h
  split at h <;> cases h <;> exact ⟨by decide, by decide, by decide⟩

/-! ## Reading within a line -/

theorem lines_append {blanks : List Char} (hblanks : ∀ c ∈ blanks, isBlank c = true)
    (hc : isBlank c = false) (pos : Nat) (rest : List Char) :
    lines pos (blanks ++ c :: rest) =
      if c = '\n' then lines (pos + blanks.length + 1) rest
      else if c = '#' then
        lines (pos + blanks.length + 1 + Source.byteCount (rest.takeWhile inLine))
          (rest.dropWhile inLine)
      else
        .line (indentation blanks) (String.ofList blanks) ⟨pos, pos + blanks.length⟩ ::
          tokens 0 (pos + blanks.length) (c :: rest) := by
  have htake : (blanks ++ c :: rest).takeWhile isBlank = blanks := by
    rw [List.takeWhile_append_of_pos hblanks, List.takeWhile_cons_of_neg (by simp [hc]),
      List.append_nil]
  have hdrop : (blanks ++ c :: rest).dropWhile isBlank = c :: rest := by
    rw [List.dropWhile_append_of_pos hblanks, List.dropWhile_cons_of_neg (by simp [hc])]
  rw [lines, htake]
  split
  case h_1 hnone =>
    rw [hdrop] at hnone
    cases hnone
  case h_2 hsome =>
    rw [hdrop] at hsome
    cases hsome
    rfl

def depthBehind (depth : Nat) (lexemes : List Lexeme) : Nat :=
  lexemes.foldl (fun depth lexeme => depthAfter depth lexeme.kind) depth

theorem depthBehind_append (depth : Nat) (ls ls' : List Lexeme) :
    depthBehind depth (ls ++ ls') = depthBehind (depthBehind depth ls) ls' :=
  List.foldl_append ..

/-- Characters that are read as some tokens, whatever follows them, unless it continues a
word. -/
def Reads (cs : List Char) (lexemes : List Lexeme) : Prop :=
  ∀ depth pos rest, Break rest → ∃ (found : List Token) (next : Nat),
    tokens depth pos (cs ++ rest) =
      found.map Item.token ++ tokens (depthBehind depth lexemes) next rest ∧
    found.map Token.lexeme = lexemes

theorem tokens_of_solid (hc : Solid c) (depth pos : Nat) (rest : List Char) :
    tokens depth pos (c :: rest) = tokenItems pos c rest fun kind more =>
      tokens (depthAfter depth kind) (pos + Source.byteCount (c :: more))
        (rest.drop more.length) := by
  rw [tokens, if_neg hc.lineFeed, if_neg (by simp [hc.blank]), if_neg hc.hash]

theorem exists_tokens_lexeme (hc : Solid c) (h : lexeme c (more ++ rest) = .ok (kind, more))
    (depth pos : Nat) :
    ∃ span next, tokens depth pos (c :: (more ++ rest)) =
      .token ⟨kind, String.ofList (c :: more), span⟩ ::
        tokens (depthAfter depth kind) next rest := by
  rw [tokens_of_solid hc, tokenItems, h]
  simp only [List.drop_left]
  exact ⟨_, _, rfl⟩

namespace Reads

theorem nil : Reads [] [] := by
  intro depth pos rest _
  exact ⟨[], pos, rfl, rfl⟩

theorem append {cs cs' : List Char} {ls ls' : List Lexeme} (h : Reads cs ls) (h' : Reads cs' ls')
    (hbreak : Break cs') : Reads (cs ++ cs') (ls ++ ls') := by
  intro depth pos rest hrest
  obtain ⟨found, next, htokens, hfound⟩ := h depth pos (cs' ++ rest) (hbreak.append hrest)
  obtain ⟨found', next', htokens', hfound'⟩ := h' (depthBehind depth ls) next rest hrest
  refine ⟨found ++ found', next', ?_, ?_⟩
  · rw [List.append_assoc, htokens, htokens', depthBehind_append, List.map_append,
      List.append_assoc]
  · rw [List.map_append, hfound, hfound']

theorem blank {cs : List Char} {ls : List Lexeme} (h : Reads cs ls) : Reads (' ' :: cs) ls := by
  intro depth pos rest hrest
  obtain ⟨found, next, htokens, hfound⟩ := h depth (pos + 1) rest hrest
  refine ⟨found, next, ?_, hfound⟩
  rw [List.cons_append, tokens, if_neg (by decide), if_pos (by decide), htokens]

theorem mark {c : Char} {kind : TokenKind} {cs : List Char} {ls : List Lexeme}
    (hc : mark? c = some kind) (h : Reads cs ls) : Reads (c :: cs) (⟨kind, ""⟩ :: ls) := by
  intro depth pos rest hrest
  obtain ⟨span, next, htoken⟩ := exists_tokens_lexeme (Solid.of_mark hc)
    (lexeme_mark hc ([] ++ (cs ++ rest))) depth pos
  obtain ⟨found, next', htokens, hfound⟩ := h (depthAfter depth kind) next rest hrest
  refine ⟨⟨kind, String.ofList [c], span⟩ :: found, next', ?_, ?_⟩
  · rw [List.cons_append, ← List.nil_append (cs ++ rest), htoken, htokens]
    rfl
  · have htext : kind.hasText = false := by
      unfold mark? at hc
      split at hc <;> cases hc <;> rfl
    rw [List.map_cons, hfound, Token.lexeme, htext]
    rfl

theorem single {c : Char} {more : List Char} {kind : TokenKind} (hc : Solid c)
    (h : ∀ rest, Break rest → lexeme c (more ++ rest) = .ok (kind, more)) :
    Reads (c :: more) [⟨kind, if kind.hasText then String.ofList (c :: more) else ""⟩] := by
  intro depth pos rest hrest
  obtain ⟨span, next, htoken⟩ := exists_tokens_lexeme hc (h rest hrest) depth pos
  exact ⟨[⟨kind, String.ofList (c :: more), span⟩], next, htoken, rfl⟩

end Reads

theorem Break.lineFeed (rest : List Char) : Break ('\n' :: rest) := by
  intro c hc
  cases hc
  decide

theorem Break.blank (rest : List Char) : Break (' ' :: rest) := by
  intro c hc
  cases hc
  decide

theorem Break.mark {c : Char} {kind : TokenKind} (hc : mark? c = some kind) (rest : List Char) :
    Break (c :: rest) := by
  intro d hd
  cases hd
  unfold mark? at hc
  split at hc <;> cases hc <;> decide

/-! ## Phrases -/

/-- A text within a line that is read as some tokens.  It begins with one of them, and every
parenthesis in it is closed. -/
structure Phrase (text : String) (lexemes : List Lexeme) : Prop where
  solid : ∃ c ∈ text.toList.head?, Solid c
  reads : Reads text.toList lexemes
  closed : ∀ depth, depthBehind depth lexemes = depth

theorem phrase_word {text : String} {lexeme : Lexeme}
    (hstart : text.toList.head?.any isWordStart = true)
    (hparts : text.toList.all isWordPart = true)
    (hlexeme : lexeme = ⟨wordKind text, if (wordKind text).hasText then text else ""⟩) :
    Phrase text [lexeme] := by
  cases htext : text.toList with
  | nil =>
    rw [htext] at hstart
    cases hstart
  | cons c more =>
    have hword : text = String.ofList (c :: more) := by
      rw [← htext, String.ofList_toList]
    rw [htext] at hstart hparts
    rw [List.all_eq_true] at hparts
    have hsolid : Solid c := Solid.of_isWordPart (hparts c List.mem_cons_self)
    refine ⟨⟨c, by rw [htext]; rfl, hsolid⟩, ?_, ?_⟩
    · rw [htext, hlexeme, hword]
      apply Reads.single hsolid
      intro rest hrest
      exact lexeme_word hstart (fun d hd => hparts d (List.mem_cons_of_mem c hd)) hrest
    · intro depth
      rw [hlexeme]
      unfold wordKind
      split
      · rfl
      · split <;> rfl

theorem phrase_keyword (keyword : Keyword) : Phrase keyword.text [⟨.keyword keyword, ""⟩] := by
  apply phrase_word <;> cases keyword <;> decide

theorem phrase_boolean (value : Bool) :
    Phrase (if value then "true" else "false")
      [⟨.boolean, if value then "true" else "false"⟩] := by
  apply phrase_word <;> cases value <;> decide

theorem phrase_type (ty : Ty) : Phrase ty.display [⟨.type, ty.display⟩] := by
  have hdisplay : ty.display.toList = '@' :: ty.name.toList := by
    simp [Ty.display]
  have hname : ty.name.toList.head?.any Char.isAlpha = true ∧
      ty.name.toList.all Char.isAlphanum = true := by
    rcases ty with ⟨⟨⟩, ⟨⟩⟩ | ⟨⟨⟩⟩ | ⟨⟩ <;> decide
  have hparts := List.all_eq_true.1 hname.2
  have hsolid : Solid '@' := ⟨by decide, by decide, by decide⟩
  refine ⟨⟨'@', by rw [hdisplay]; rfl, hsolid⟩, ?_, fun _ => rfl⟩
  have h := Reads.single hsolid fun rest hrest => lexeme_type hname.1 hparts hrest
  rw [← hdisplay, String.ofList_toList] at h
  exact h

theorem phrase_integer (n : Nat) : Phrase (toString n) [⟨.integer, toString n⟩] := by
  have hdigits : ∀ c ∈ (toString n).toList, c.isDigit = true := by
    rw [Nat.toString_eq_repr, Nat.toList_repr]
    intro c hc
    exact Nat.isDigit_of_mem_toDigits (by decide) (by decide) hc
  cases htext : (toString n).toList with
  | nil =>
    rw [Nat.toString_eq_repr, Nat.toList_repr] at htext
    exact absurd htext Nat.toDigits_ne_nil
  | cons c more =>
    rw [htext, List.forall_mem_cons] at hdigits
    have hsolid : Solid c := Solid.of_isWordPart (isWordPart_of_isDigit c hdigits.1)
    refine ⟨⟨c, by rw [htext]; rfl, hsolid⟩, ?_, fun _ => rfl⟩
    have h := Reads.single hsolid fun rest hrest => lexeme_integer hdigits.1 hdigits.2 hrest
    rw [← htext, String.ofList_toList] at h
    exact h

namespace Phrase

variable {s t : String} {ls ls' : List Lexeme}

theorem solid_append (h : ∃ c ∈ s.toList.head?, Solid c) (t : String) :
    ∃ c ∈ (s ++ t).toList.head?, Solid c := by
  obtain ⟨c, hhead, hc⟩ := h
  obtain ⟨cs, hcs⟩ := List.head?_eq_some_iff.1 hhead
  exact ⟨c, by rw [String.toList_append, hcs]; rfl, hc⟩

theorem closed_append (h : ∀ depth, depthBehind depth ls = depth)
    (h' : ∀ depth, depthBehind depth ls' = depth) (depth : Nat) :
    depthBehind depth (ls ++ ls') = depth := by
  rw [depthBehind_append, h, h']

theorem spaced (h : Phrase s ls) (h' : Phrase t ls') : Phrase (s ++ " " ++ t) (ls ++ ls') where
  solid := solid_append (solid_append h.solid _) _
  reads := by
    rw [String.append_assoc, String.toList_append, String.toList_append]
    exact h.reads.append h'.reads.blank (.blank _)
  closed := closed_append h.closed h'.closed

theorem append (h : Phrase s ls) (h' : Phrase t ls') (hbreak : Break t.toList) :
    Phrase (s ++ t) (ls ++ ls') where
  solid := solid_append h.solid _
  reads := by
    rw [String.toList_append]
    exact h.reads.append h'.reads hbreak
  closed := closed_append h.closed h'.closed

theorem mark {c : Char} {kind : TokenKind} (hc : mark? c = some kind)
    (hkind : ∀ depth, depthAfter depth kind = depth) :
    Phrase (String.singleton c) [⟨kind, ""⟩] where
  solid := ⟨c, by simp, .of_mark hc⟩
  reads := by
    rw [String.toList_singleton]
    exact .mark hc .nil
  closed := hkind

theorem minus (h : Phrase s ls) : Phrase ("-" ++ s) (⟨.minus, ""⟩ :: ls) where
  solid := ⟨'-', by simp, .of_mark rfl⟩
  reads := by
    rw [String.toList_append]
    exact .mark rfl h.reads
  closed := h.closed

theorem colon (h : Phrase s ls) : Phrase (s ++ ":") (ls ++ [⟨.colon, ""⟩]) :=
  h.append (mark (c := ':') rfl fun _ => rfl) (.mark rfl _)

theorem comma (h : Phrase s ls) (h' : Phrase t ls') :
    Phrase (s ++ ", " ++ t) (ls ++ ⟨.comma, ""⟩ :: ls') where
  solid := solid_append (solid_append h.solid _) _
  reads := by
    rw [String.append_assoc, String.toList_append, String.toList_append]
    exact h.reads.append (.mark rfl h'.reads.blank) (.mark rfl _)
  closed := closed_append h.closed h'.closed

theorem enclosed (hreads : Reads s.toList ls) (hclosed : ∀ depth, depthBehind depth ls = depth) :
    Phrase ("(" ++ s ++ ")") (⟨.openParen, ""⟩ :: ls ++ [⟨.closeParen, ""⟩]) where
  solid := ⟨'(', by simp, .of_mark rfl⟩
  reads := by
    rw [String.append_assoc, String.toList_append, String.toList_append]
    exact .mark rfl (hreads.append (.mark rfl .nil) (.mark rfl _))
  closed := by
    intro depth
    rw [List.cons_append]
    show depthBehind (depth + 1) (ls ++ _) = depth
    rw [depthBehind_append, hclosed]
    rfl

theorem paren (h : Phrase s ls) :
    Phrase ("(" ++ s ++ ")") (⟨.openParen, ""⟩ :: ls ++ [⟨.closeParen, ""⟩]) :=
  enclosed h.reads h.closed

end Phrase

theorem phrase_list {texts : List String} {lexemes : List (List Lexeme)}
    (h : List.Forall₂ Phrase texts lexemes) :
    Phrase ("(" ++ ", ".intercalate texts ++ ")")
      (⟨.openParen, ""⟩ :: [⟨.comma, ""⟩].intercalate lexemes ++ [⟨.closeParen, ""⟩]) := by
  cases h with
  | nil => exact .enclosed .nil fun _ => rfl
  | @cons text ls texts lexemes hfirst hrest =>
    apply Phrase.paren
    induction hrest generalizing text ls with
    | nil =>
      rw [String.intercalate_singleton, List.intercalate_singleton]
      exact hfirst
    | @cons text' ls' texts lexemes hnext _ ih =>
      rw [String.intercalate_cons_cons, List.intercalate_cons_cons, List.append_assoc]
      exact hfirst.comma (ih hnext)

end Scan

end Cinder
