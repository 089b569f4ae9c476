import Cinder.Proofs.Token.Indentation

/-!
# Coverage

A text is split into tokens without loss.  Tokens stand one behind another, what is between them
is white space and comments, and the text of a token alone is read as the same token.
-/

namespace Cinder

/-- Tokens that are written in the text, and line ends. -/
def TokenKind.isWritten : TokenKind → Bool
  | .indent | .dedent | .endOfFile => false
  | _ => true

namespace Scan

open Source (byteCount)

/-- A byte of white space, or of a comment that no token reaches into.  The text starts at an
offset. -/
inductive Gap (pos : Nat) (cs : List Char) (found : List Token) (offset : Nat) : Prop where
  | space {before c after} (hcs : cs = before ++ c :: after) (hc : c ∈ [' ', '\t', '\r', '\n'])
      (hoffset : offset = pos + byteCount before)
  | comment {before remark after} (hcs : cs = before ++ ('#' :: remark ++ after))
      (hremark : '\n' ∉ remark) (hafter : LineEnd after)
      (hle : pos + byteCount before ≤ offset)
      (hlt : offset < pos + byteCount before + byteCount ('#' :: remark))
      (hclear : ∀ token ∈ found, token.span.stop ≤ pos + byteCount before ∨
        pos + byteCount before + byteCount ('#' :: remark) ≤ token.span.start)

/-- The text of a token stands where the span says. -/
def Stands (pos : Nat) (cs : List Char) (token : Token) : Prop :=
  ∃ before after, cs = before ++ (token.text.toList ++ after) ∧
    token.span.start = pos + byteCount before ∧
    token.span.stop = pos + byteCount before + byteCount token.text.toList

/-- A text by itself is one token of some kind. -/
def Alone (kind : TokenKind) (text : String) : Prop :=
  ∃ read, tokenize text = .ok read ∧ read.map Token.kind = [kind, .newline, .endOfFile]

/-- A text that starts at an offset is split into tokens without loss. -/
structure Covers (pos : Nat) (cs : List Char) (found : List Token) : Prop where
  placed : ∀ token ∈ found, Stands pos cs token
  ordered : found.Pairwise fun a b => a.span.stop ≤ b.span.start
  gaps : ∀ offset, pos ≤ offset → offset < pos + byteCount cs →
    (∃ token ∈ found, token.span.start ≤ offset ∧ offset < token.span.stop) ∨
      Gap pos cs found offset
  alone : ∀ token ∈ found, token.kind.isSolid = true → Alone token.kind token.text

variable {pos offset : Nat} {c : Char} {cs rest front more : List Char} {kind : TokenKind}
  {found found' : List Token}

theorem Gap.append (h : Gap (pos + byteCount front) rest found offset)
    (hfound : ∀ token ∈ found', token ∈ found ∨ token.span.stop ≤ pos + byteCount front) :
    Gap pos (front ++ rest) found' offset := by
  cases h with
  | @space before c after hcs hc hoffset =>
    have hcs' : front ++ rest = front ++ before ++ c :: after := by rw [hcs, List.append_assoc]
    refine .space hcs' hc ?_
    rw [hoffset, Source.byteCount_append, Nat.add_assoc]
  | @comment before remark after hcs hremark hafter hle hlt hclear =>
    have hbefore : pos + byteCount (front ++ before) =
        pos + byteCount front + byteCount before := by
      rw [Source.byteCount_append, Nat.add_assoc]
    have hcs' : front ++ rest = front ++ before ++ ('#' :: remark ++ after) := by
      rw [hcs, List.append_assoc]
    refine .comment hcs' hremark hafter (hbefore ▸ hle) (hbefore ▸ hlt) fun token htoken => ?_
    rw [hbefore]
    rcases hfound token htoken with htoken | hstop
    · exact hclear token htoken
    · exact .inl (by omega)

namespace Covers

theorem le_start (h : Covers pos cs found) : ∀ token ∈ found, pos ≤ token.span.start := by
  intro token htoken
  obtain ⟨before, after, -, hstart, -⟩ := h.placed token htoken
  omega

theorem placed_append (h : Covers (pos + byteCount front) rest found) :
    ∀ token ∈ found, Stands pos (front ++ rest) token := by
  intro token htoken
  obtain ⟨before, after, rfl, hstart, hstop⟩ := h.placed token htoken
  refine ⟨front ++ before, after, (List.append_assoc ..).symm, ?_, ?_⟩ <;>
    rw [Source.byteCount_append, ← Nat.add_assoc] <;> assumption

theorem skip (h : Covers (pos + byteCount front) rest found)
    (hfront : ∀ offset, pos ≤ offset → offset < pos + byteCount front →
      Gap pos (front ++ rest) found offset) : Covers pos (front ++ rest) found where
  placed := h.placed_append
  ordered := h.ordered
  gaps offset hle hlt := by
    rw [Source.byteCount_append, ← Nat.add_assoc] at hlt
    rcases Nat.lt_or_ge offset (pos + byteCount front) with hoffset | hoffset
    · exact .inr (hfront offset hle hoffset)
    · exact (h.gaps offset hoffset hlt).imp_right (·.append fun _ => .inl)
  alone := h.alone

theorem space (hc : isBlank c = true ∨ c = '\n') (h : Covers (pos + 1) rest found) :
    Covers pos (c :: rest) found := by
  have hmem : c ∈ [' ', '\t', '\r', '\n'] := by
    simpa [isBlank, or_assoc] using hc
  have hsize : byteCount [c] = 1 := by
    rcases hc with hc | rfl
    · exact utf8Size_of_isBlank hc
    · rfl
  rw [← hsize] at h
  refine h.skip fun offset hle hlt => .space (List.nil_append _).symm hmem ?_
  rw [hsize] at hlt
  exact Nat.le_antisymm (Nat.lt_succ_iff.1 hlt) hle

theorem blanks {blanks : List Char} (hblanks : ∀ c ∈ blanks, isBlank c = true)
    (h : Covers (pos + byteCount blanks) rest found) : Covers pos (blanks ++ rest) found := by
  induction blanks generalizing pos with
  | nil => exact h
  | cons c blanks ih =>
    obtain ⟨hc, hblanks⟩ := List.forall_mem_cons.1 hblanks
    rw [Source.byteCount_cons, utf8Size_of_isBlank hc, ← Nat.add_assoc] at h
    exact (ih hblanks h).space (.inl hc)

theorem comment {remark : List Char} (hremark : ∀ c ∈ remark, inLine c = true)
    (hrest : LineEnd rest) (h : Covers (pos + 1 + byteCount remark) rest found) :
    Covers pos ('#' :: (remark ++ rest)) found := by
  have hfeed : '\n' ∉ remark := fun hmem => by simpa [inLine] using hremark _ hmem
  rw [Nat.add_assoc] at h
  rw [← List.cons_append]
  exact h.skip fun offset hle hlt => .comment (List.nil_append _).symm hfeed hrest hle hlt
    fun token htoken => .inr (h.le_start token htoken)

theorem token {w : List Char} (h : Covers (pos + byteCount w) rest found)
    (halone : kind.isSolid = true → Alone kind (String.ofList w)) :
    Covers pos (w ++ rest)
      (⟨kind, String.ofList w, ⟨pos, pos + byteCount w⟩⟩ :: found) where
  placed := List.forall_mem_cons.2 ⟨⟨[], rest, by simp, rfl, by simp⟩, h.placed_append⟩
  ordered := .cons h.le_start h.ordered
  gaps offset hle hlt := by
    rw [Source.byteCount_append, ← Nat.add_assoc] at hlt
    rcases Nat.lt_or_ge offset (pos + byteCount w) with hoffset | hoffset
    · exact .inl ⟨_, List.mem_cons_self, hle, hoffset⟩
    · refine (h.gaps offset hoffset hlt).imp ?_ (·.append ?_)
      · rintro ⟨token, htoken, hspan⟩
        exact ⟨token, List.mem_cons_of_mem _ htoken, hspan⟩
      · exact List.forall_mem_cons.2 ⟨.inr (Nat.le_refl _), fun _ => .inl⟩
  alone := List.forall_mem_cons.2 ⟨halone, h.alone⟩

end Covers

/-- The characters of a token are read as this token where nothing is behind them. -/
theorem alone_of_lexeme (hc : Solid c) (h : lexeme c (more ++ rest) = .ok (kind, more)) :
    Alone kind (String.ofList (c :: more)) := by
  have hsolid := (spelt_lexeme h).solid
  have halone : lexeme c (more ++ []) = .ok (kind, more) := by
    rw [List.append_nil, ← h]
    refine lexeme_of_isPrefix (List.prefix_append _ _) fun kind' more' h' => ?_
    cases h.symm.trans h'
    exact List.prefix_refl _
  obtain ⟨span, next, htokens⟩ := exists_tokens_lexeme hc halone 0 0
  have hlines := lines_append (List.forall_mem_nil _) hc.blank 0 more
  rw [if_neg hc.lineFeed, if_neg hc.hash] at hlines
  rw [List.append_nil] at htokens
  rw [Alone, tokenize, String.toList_ofList, ← List.nil_append (c :: more), hlines]
  dsimp only [List.length_nil]
  rw [htokens, tokens]
  have hkind : kind ≠ .newline := by rintro rfl; cases hsolid
  refine ⟨_, rfl, ?_⟩
  simp [hkind]

def Item.token? : Item → Option Token
  | .token found => some found
  | _ => none

/-- Scanning loses nothing, given what is added at the end of the text. -/
theorem Finds.covers {place : Place} {items : List Item} {stop : Nat}
    (h : Finds place pos cs items) (hitems : ∀ item ∈ items, ∀ diagnostic, item ≠ .stop diagnostic)
    (hpos : pos + byteCount cs = stop) (hend : Covers stop [] found) :
    Covers pos cs (items.filterMap Item.token? ++ found) := by
  have hfeed := utf8Size_lineFeed
  have hhash := utf8Size_hash
  induction h with
  | @finish pos blanks hblanks =>
    rw [← hpos] at hend
    simpa using hend.blanks hblanks
  | empty hblanks _ ih =>
    refine .blanks hblanks (.space (.inr rfl) (ih hitems ?_))
    simpa [hfeed, Nat.add_assoc] using hpos
  | remark hblanks hremark hrest _ ih =>
    refine .blanks hblanks (.comment hremark hrest (ih hitems ?_))
    simpa [hhash, Nat.add_assoc] using hpos
  | line hblanks _ _ ih =>
    refine .blanks hblanks (ih (List.forall_mem_cons.1 hitems).2 ?_)
    simpa [Nat.add_assoc] using hpos
  | stop =>
    subst hpos
    exact hend
  | feed _ ih =>
    refine .token (w := ['\n']) (ih (List.forall_mem_cons.1 hitems).2 ?_) (by rintro ⟨⟩)
    simpa [hfeed, Nat.add_assoc] using hpos
  | wrap _ _ ih =>
    refine .space (.inr rfl) (ih hitems ?_)
    simpa [hfeed, Nat.add_assoc] using hpos
  | blank hc _ ih =>
    refine .space (.inl hc) (ih hitems ?_)
    simpa [utf8Size_of_isBlank hc, Nat.add_assoc] using hpos
  | comment hremark hrest _ ih =>
    refine .comment hremark hrest (ih hitems ?_)
    simpa [hhash, Nat.add_assoc] using hpos
  | @token _ _ c more _ _ _ hc hlexeme _ ih =>
    refine .token (w := c :: more) (ih (List.forall_mem_cons.1 hitems).2 ?_)
      fun _ => alone_of_lexeme hc hlexeme
    simpa [Nat.add_assoc] using hpos
  | complaint => exact absurd rfl (hitems _ (List.mem_singleton_self _) _)

end Scan

namespace Layout

open Scan (Item)

variable {levels levels' : List Nat} {last last' : Option TokenKind} {items : List Item}
  {written : List Token}

theorem Runs.filter_written (h : Runs levels last items written levels' last')
    (hitems : ∀ item ∈ items, item.Proper) :
    written.filter (·.kind.isWritten) = items.filterMap Item.token? := by
  induction h with
  | nil => rfl
  | @token _ _ found _ _ _ _ _ ih =>
    obtain ⟨hitem, hitems⟩ := List.forall_mem_cons.1 hitems
    have hfound : found.kind.isWritten = true := by
      rcases hitem.2 with hsolid | hnewline
      · cases hkind : found.kind <;> simp_all [TokenKind.isSolid, TokenKind.isWritten]
      · rw [hnewline]
        rfl
    rw [List.filter_cons, if_pos hfound, ih hitems]
    rfl
  | line hshift _ ih =>
    rw [List.filter_append, ih (List.forall_mem_cons.1 hitems).2, List.filter_eq_nil_iff.2]
    · rfl
    · refine List.forall_mem_map.2 fun kind hkind => ?_
      rcases Runs.kind_of_mem hshift hkind with rfl | rfl <;> simp [TokenKind.isWritten]

theorem covers_ending (stop : Nat) (levels : List Nat) (last : Option TokenKind) :
    Scan.Covers stop [] ((ending stop levels last).filter (·.kind.isWritten)) := by
  have hnone : Scan.Covers stop [] [] := ⟨by simp, .nil, by simp; omega, by simp⟩
  have hdedents : (levels.map fun _ => (⟨.dedent, "", ⟨stop, stop⟩⟩ : Token)).filter
      (·.kind.isWritten) = [] := by
    simp [TokenKind.isWritten]
  rw [ending, List.filter_append, List.filter_append, hdedents]
  split
  · exact hnone.token (w := []) (by rintro ⟨⟩)
  · exact hnone

end Layout

/-- Splitting a text into tokens loses nothing and invents nothing: its tokens stand in the text one
behind another, only white space and comments are between them, and each of them is read again from
its own text. -/
theorem covers_tokenize {text : String} {tokens : List Token} (h : tokenize text = .ok tokens) :
    Scan.Covers 0 text.toList (tokens.filter (·.kind.isWritten)) := by
  obtain ⟨written, levels, last, hruns, rfl⟩ := Layout.exists_runs h
  have hfinds := Scan.finds_lines 0 text.toList
  rw [List.filter_append, hruns.filter_written hfinds.proper]
  apply hfinds.covers hruns.ne_stop _ (Layout.covers_ending _ levels last)
  rw [Source.byteCount_toList, Nat.zero_add]

theorem covers_tokenize_comments :
    let text := "a(2.5e-3, # é\n\t\r7.)\n  b"
    ∃ tokens, tokenize text = .ok tokens ∧ tokens.length = 12 ∧
      Scan.Covers 0 text.toList (tokens.filter (·.kind.isWritten)) := by
  intro text
  have hlength : (tokenize text).toOption.map List.length = some 12 := by
    rw [tokenize_ofList]
    decide +kernel
  obtain ⟨tokens, hsome, hlength⟩ := Option.map_eq_some_iff.1 hlength
  have htokens := toOption_eq_some.1 hsome
  exact ⟨tokens, htokens, hlength, covers_tokenize htokens⟩

end Cinder
