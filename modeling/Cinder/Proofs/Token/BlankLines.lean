import Cinder.Proofs.Except
import Cinder.Proofs.Token.Scanning

/-!
# Blank lines

A line of blanks, with or without a comment, may be put in at the beginning of any line of a text,
inside of parentheses and outside.  Scanning passes over it by other steps in either place, but
finds the same items behind it, so that layout writes the same tokens.
-/

namespace Cinder

namespace Scan

variable {c : Char} {cs cs' rest l : List Char} {pos : Nat}

/-! ## Lines -/

theorem exists_of_append_eq {front behind : List Char} (h : front ++ rest = cs ++ '\n' :: behind)
    (hfront : ∀ c ∈ front, c ≠ '\n') :
    ∃ cs', cs = front ++ cs' ∧ rest = cs' ++ '\n' :: behind := by
  obtain ⟨cs', rfl, hrest⟩ | ⟨d, rfl, hd⟩ := List.append_eq_append_iff.1 h
  · exact ⟨cs', rfl, hrest⟩
  · cases d with
    | nil => exact ⟨[], by simp, by simpa using hd.symm⟩
    | cons c d =>
      cases hd
      exact absurd rfl (hfront _ (by simp))

/-- No token goes on behind a line feed. -/
theorem lexeme_append_lineFeed (cs rest : List Char) :
    lexeme c (cs ++ '\n' :: rest) = lexeme c cs := by
  refine (lexeme_of_isPrefix (List.prefix_append _ _) fun kind more h => ?_).symm
  obtain ⟨behind, hmore⟩ := isPrefix_lexeme h
  have hline := (List.forall_mem_cons.1 (spelt_lexeme h).line).2
  obtain ⟨cs', rfl, -⟩ := exists_of_append_eq hmore fun c hc => (hline c hc).1
  exact List.prefix_append _ _

/-! ## Steps -/

def Place.scan (pos : Nat) (cs : List Char) : Place → List Item
  | .start => lines pos cs
  | .within depth => tokens depth pos cs

theorem tokens_append {blanks : List Char} (hblanks : ∀ c ∈ blanks, isBlank c = true)
    (depth pos : Nat) (cs : List Char) :
    tokens depth pos (blanks ++ cs) = tokens depth (pos + blanks.length) cs := by
  induction blanks generalizing pos with
  | nil => rfl
  | cons c blanks ih =>
    obtain ⟨hc, hblanks⟩ := List.forall_mem_cons.1 hblanks
    rw [List.cons_append, tokens, if_neg (Inner.of_isBlank hc).lineFeed, if_pos hc, ih hblanks,
      List.length_cons, Nat.add_right_comm, Nat.add_assoc]

/-- A line feed that ends no logical line. -/
theorem exists_scan_feed {blanks : List Char} (hblanks : ∀ c ∈ blanks, isBlank c = true)
    {place : Place} (hplace : place ≠ .within 0) (pos : Nat) (cs : List Char) :
    ∃ pos', place.scan pos (blanks ++ '\n' :: cs) = place.scan pos' cs := by
  cases place with
  | start => exact ⟨_, (lines_append hblanks rfl pos cs).trans (if_pos rfl)⟩
  | within depth =>
    rw [Place.scan, tokens_append hblanks, tokens, if_pos rfl, if_neg fun h => hplace (by rw [h])]
    exact ⟨_, rfl⟩

theorem exists_scan_remark {blanks remark : List Char} (hblanks : ∀ c ∈ blanks, isBlank c = true)
    (hremark : ∀ c ∈ remark, inLine c = true) (hrest : LineEnd rest) (place : Place) (pos : Nat) :
    ∃ pos', place.scan pos (blanks ++ '#' :: (remark ++ rest)) = place.scan pos' rest := by
  have hdrop : (remark ++ rest).dropWhile inLine = rest := by
    rw [List.dropWhile_append_of_pos hremark]
    cases rest with
    | nil => rfl
    | cons c rest => rw [hrest c rfl, List.dropWhile_cons_of_neg (by decide)]
  cases place with
  | start =>
    rw [Place.scan, lines_append hblanks rfl, if_neg (by decide), if_pos rfl, hdrop]
    exact ⟨_, rfl⟩
  | within depth =>
    rw [Place.scan, tokens_append hblanks, tokens, if_neg (by decide), if_neg (by decide),
      if_pos rfl]
    dsimp only
    rw [hdrop]
    exact ⟨_, rfl⟩

/-- Blanks, a comment if there is one, and a line feed. -/
def IsBlankLine (line : List Char) : Prop :=
  ∃ blanks remark, line = blanks ++ (remark ++ ['\n']) ∧
    (∀ c ∈ blanks, c = ' ' ∨ c = '\t' ∨ c = '\r') ∧ (∀ c ∈ remark.head?, c = '#') ∧ '\n' ∉ remark

/-- Where a line begins, a blank line is passed over. -/
theorem IsBlankLine.exists_scan (hl : IsBlankLine l) {place : Place} (hplace : place ≠ .within 0)
    (pos : Nat) (cs : List Char) : ∃ pos', place.scan pos (l ++ cs) = place.scan pos' cs := by
  obtain ⟨blanks, remark, rfl, hblanks, hhash, hremark⟩ := hl
  have hblanks : ∀ c ∈ blanks, isBlank c = true := fun c hc => by
    rcases hblanks c hc with rfl | rfl | rfl <;> rfl
  rw [List.append_assoc, List.append_assoc, List.singleton_append]
  cases remark with
  | nil => exact exists_scan_feed hblanks hplace pos cs
  | cons c remark =>
    obtain rfl : c = '#' := hhash c rfl
    have hinner : ∀ c ∈ remark, inLine c = true := by
      rintro c hc
      have hfeed : c ≠ '\n' := fun h => hremark (List.mem_cons_of_mem _ (h ▸ hc))
      simpa [inLine] using hfeed
    have hend : LineEnd ('\n' :: cs) := by simp [LineEnd]
    obtain ⟨pos', hscan⟩ := exists_scan_remark hblanks hinner hend place pos
    rw [List.cons_append, hscan]
    exact exists_scan_feed (List.forall_mem_nil _) hplace pos' cs

/-- A text, or the text with a line put in behind one of its line feeds. -/
inductive Padded (l cs : List Char) : List Char → Prop where
  | same : Padded l cs cs
  | behind {before after : List Char} (h : cs = before ++ '\n' :: after) :
      Padded l cs (before ++ '\n' :: (l ++ after))

namespace Padded

theorem front {s : List Char} (h : Padded l (s ++ rest) cs') (hs : ∀ c ∈ s, c ≠ '\n') :
    ∃ rest', cs' = s ++ rest' ∧ Padded l rest rest' := by
  cases h with
  | same => exact ⟨rest, rfl, .same⟩
  | behind h =>
    obtain ⟨before, rfl, hrest⟩ := exists_of_append_eq h hs
    exact ⟨_, List.append_assoc .., .behind hrest⟩

theorem feed (h : Padded l ('\n' :: rest) cs') :
    ∃ rest', cs' = '\n' :: rest' ∧ (Padded l rest rest' ∨ rest' = l ++ rest) := by
  cases h with
  | same => exact ⟨rest, rfl, .inl .same⟩
  | @behind before after h =>
    cases before with
    | nil =>
      cases h
      exact ⟨_, rfl, .inr rfl⟩
    | cons c before =>
      cases h
      exact ⟨_, rfl, .inl (.behind rfl)⟩

theorem lineEnd (h : Padded l cs cs') (hcs : LineEnd cs) : LineEnd cs' := by
  cases h with
  | same => exact hcs
  | @behind before after h =>
    subst h
    cases before with
    | nil => simp [LineEnd]
    | cons c before => exact hcs

theorem lexeme_eq (h : Padded l rest cs') (more : List Char) :
    lexeme c (more ++ cs') = lexeme c (more ++ rest) := by
  cases h with
  | same => rfl
  | behind h =>
    rw [h, ← List.append_assoc, ← List.append_assoc, lexeme_append_lineFeed,
      lexeme_append_lineFeed]

end Padded

/-- Items that say the same at places that need not be the same. -/
inductive Item.Same : Item → Item → Prop where
  | line {width blanks span span'} : Same (.line width blanks span) (.line width blanks span')
  | token {kind text span span'} : Same (.token ⟨kind, text, span⟩) (.token ⟨kind, text, span'⟩)
  | stop {complaint span span'} : Same (.stop ⟨complaint, span⟩) (.stop ⟨complaint, span'⟩)

/-- Scanning finds the same items, wherever the text begins, if a blank line is put in. -/
theorem Finds.same_scan (hl : IsBlankLine l) {place : Place} {items : List Item}
    (h : Finds place pos cs items) (hcs : Padded l cs cs') (pos' : Nat) :
    List.Forall₂ Item.Same items (place.scan pos' cs') := by
  -- behind a line feed the blank line may come next
  have hnext : ∀ {place : Place} {rest rest' : List Char} {items : List Item}, place ≠ .within 0 →
      (∀ {cs'}, Padded l rest cs' → ∀ pos', List.Forall₂ Item.Same items (place.scan pos' cs')) →
      Padded l rest rest' ∨ rest' = l ++ rest →
      ∀ pos', List.Forall₂ Item.Same items (place.scan pos' rest') := by
    rintro place rest rest' items hplace ih (hrest | rfl) pos'
    · exact ih hrest pos'
    · obtain ⟨pos'', heq⟩ := hl.exists_scan hplace pos' rest
      rw [heq]
      exact ih .same pos''
  have hstart : Place.start ≠ .within 0 := by rintro ⟨⟩
  have hcomment : ∀ {remark : List Char}, (∀ c ∈ remark, inLine c = true) →
      ∀ c ∈ '#' :: remark, c ≠ '\n' :=
    fun h => List.forall_mem_cons.2 ⟨by decide, fun c hc => by simpa [inLine] using h c hc⟩
  have hblank : ∀ {blanks : List Char}, (∀ c ∈ blanks, isBlank c = true) → ∀ c ∈ blanks, c ≠ '\n' :=
    fun h c hc => (Inner.of_isBlank (h c hc)).lineFeed
  induction h generalizing cs' pos' with
  | @finish pos blanks hblanks =>
    cases hcs with
    | same =>
      rw [Place.scan, lines]
      split
      · exact .nil
      · rename_i hsome
        rw [List.dropWhile_eq_nil_iff.2 hblanks] at hsome
        cases hsome
    | behind h => exact absurd rfl (hblank hblanks _ (h ▸ by simp))
  | empty hblanks _ ih =>
    obtain ⟨_, rfl, hbehind⟩ := hcs.front (hblank hblanks)
    obtain ⟨rest', rfl, hrest⟩ := hbehind.feed
    obtain ⟨next, hscan⟩ := exists_scan_feed hblanks hstart pos' rest'
    rw [hscan]
    exact hnext hstart ih hrest next
  | @remark _ blanks remark _ _ hblanks hremark hend _ ih =>
    obtain ⟨_, rfl, hbehind⟩ := hcs.front (hblank hblanks)
    obtain ⟨rest', rfl, hrest⟩ := Padded.front (s := '#' :: remark) hbehind (hcomment hremark)
    obtain ⟨next, hscan⟩ := exists_scan_remark hblanks hremark (hrest.lineEnd hend) .start pos'
    rw [List.cons_append, hscan]
    exact ih hrest next
  | @line _ blanks c _ _ hblanks hc _ ih =>
    obtain ⟨_, rfl, hbehind⟩ := hcs.front (hblank hblanks)
    obtain ⟨rest', rfl, -⟩ := Padded.front (s := [c]) hbehind (by simpa using hc.lineFeed)
    rw [Place.scan, List.singleton_append, lines_append hblanks hc.blank, if_neg hc.lineFeed,
      if_neg hc.hash]
    exact .cons .line (ih hbehind _)
  | stop =>
    cases hcs with
    | same =>
      rw [Place.scan, tokens]
      exact .nil
    | behind h => simp at h
  | feed _ ih =>
    obtain ⟨rest', rfl, hrest⟩ := hcs.feed
    rw [Place.scan, tokens, if_pos rfl, if_pos rfl]
    exact .cons .token (hnext hstart ih hrest _)
  | wrap hdepth _ ih =>
    have hplace : Place.within _ ≠ .within 0 := fun h => hdepth (Place.within.inj h)
    obtain ⟨rest', rfl, hrest⟩ := hcs.feed
    obtain ⟨next, hscan⟩ := exists_scan_feed (List.forall_mem_nil _) hplace pos' rest'
    rw [← List.nil_append ('\n' :: rest'), hscan]
    exact hnext hplace ih hrest _
  | @blank _ _ c rest _ hc _ ih =>
    have hfeed := (Inner.of_isBlank hc).lineFeed
    obtain ⟨rest', rfl, hrest⟩ := Padded.front (s := [c]) hcs (by simpa using hfeed)
    rw [Place.scan, List.singleton_append, tokens, if_neg hfeed, if_pos hc]
    exact ih hrest _
  | @comment _ _ remark rest _ hremark hend _ ih =>
    obtain ⟨rest', rfl, hrest⟩ := Padded.front (s := '#' :: remark) hcs (hcomment hremark)
    obtain ⟨next, hscan⟩ := exists_scan_remark (List.forall_mem_nil _) hremark (hrest.lineEnd hend)
      (.within _) pos'
    rw [List.cons_append, ← List.nil_append ('#' :: _), hscan]
    exact ih hrest next
  | @token _ _ c more rest kind _ hc hlexeme _ ih =>
    obtain ⟨rest', rfl, hrest⟩ := Padded.front (s := c :: more) hcs
      fun d hd => ((spelt_lexeme hlexeme).line d hd).1
    rw [Place.scan, List.cons_append, tokens_of_solid hc, tokenItems, hrest.lexeme_eq, hlexeme]
    dsimp only
    rw [List.drop_left]
    exact .cons .token (ih hrest _)
  | @complaint _ _ c rest complaint hc hlexeme =>
    obtain ⟨rest', rfl, hrest⟩ := Padded.front (s := [c]) hcs (by simpa using hc.lineFeed)
    rw [Place.scan, List.singleton_append, tokens_of_solid hc, tokenItems,
      show lexeme c rest' = lexeme c rest from hrest.lexeme_eq [], hlexeme]
    exact .cons .stop .nil

end Scan

/-! ## Layout -/

namespace Layout

def words (result : Except Diagnostic (List Token)) : Option (List (TokenKind × String)) :=
  result.toOption.map (List.map fun token => (token.kind, token.text))

theorem words_bind {x y : Except Diagnostic (List Token)} (h : words x = words y)
    {s t : List Token} (hst : s.map (fun token => (token.kind, token.text)) =
      t.map fun token => (token.kind, token.text)) :
    words (x >>= fun tokens => .ok (s ++ tokens)) =
      words (y >>= fun tokens => .ok (t ++ tokens)) := by
  cases x <;> cases y <;>
    simp_all [words, bind, Except.bind, Except.toOption]

theorem words_arrange {items items' : List Scan.Item} (h : List.Forall₂ Scan.Item.Same items items')
    (stop stop' : Nat) (levels : List Nat) (last : Option TokenKind) :
    words (arrange stop levels last items) = words (arrange stop' levels last items') := by
  induction h generalizing levels last with
  | nil =>
    simp only [words, arrange, Except.toOption]
    split <;> simp
  | cons hitem _ ih =>
    cases hitem with
    | stop => rfl
    | token => exact words_bind (ih _ _) (s := [_]) (t := [_]) rfl
    | line =>
      rw [arrange, arrange]
      split
      · exact words_bind (ih _ _) (s := [_]) (t := [_]) rfl
      · split
        · rfl
        · exact ih _ _
        · exact words_bind (ih _ _) (by simp)

end Layout

/-- A blank line put in where a line of a text begins changes neither whether the text can be split
into tokens nor their kinds and texts. -/
theorem words_tokenize_insert {a l : String} (ha : a = "" ∨ a.toList.getLast? = some '\n')
    (hl : Scan.IsBlankLine l.toList) (b : String) :
    Layout.words (tokenize (a ++ l ++ b)) = Layout.words (tokenize (a ++ b)) := by
  refine (Layout.words_arrange ?_ _ _ _ _).symm
  have hfinds := Scan.finds_lines 0 (a ++ b).toList
  rcases ha with rfl | ha
  · have hstart : Scan.Place.start ≠ .within 0 := by rintro ⟨⟩
    obtain ⟨pos, hscan⟩ := hl.exists_scan hstart 0 b.toList
    rw [String.empty_append] at hfinds ⊢
    rw [String.empty_append, String.toList_append]
    have hsame := hfinds.same_scan hl .same pos
    rw [← hscan] at hsame
    exact hsame
  · obtain ⟨before, hbefore⟩ := List.getLast?_eq_some_iff.1 ha
    refine hfinds.same_scan hl ?_ 0
    simp only [String.toList_append, hbefore, List.append_assoc, List.singleton_append]
    exact .behind rfl

theorem words_tokenize_insert_inside :
    Scan.IsBlankLine " \t# (\n".toList ∧
    Layout.words (tokenize ("f(\n" ++ " \t# (\n" ++ "x)\n")) =
      some [(.identifier, "f"), (.openParen, "("), (.identifier, "x"), (.closeParen, ")"),
        (.newline, "\n"), (.endOfFile, "")] := by
  have hl : Scan.IsBlankLine " \t# (\n".toList :=
    ⟨[' ', '\t'], ['#', ' ', '('], by decide, by simp, by simp, by decide⟩
  exact ⟨hl, (words_tokenize_insert (.inr rfl) hl _).trans (by decide +kernel)⟩

end Cinder
