import Cinder.Proofs.Text.Spans
import Cinder.Proofs.Token.Phrases

/-!
# Steps of scanning

Scanning as a relation between a text and what is found in it, with one case for every step:
blanks, comments and line feeds are passed over, and a character that starts a token gives the
token or a complaint.  What holds of all items is shown by induction on these steps.
-/

namespace Cinder

/-- Words, types, literals, delimiters and operators, but not the tokens of the layout. -/
def TokenKind.isSolid : TokenKind → Bool
  | .newline | .indent | .dedent | .endOfFile => false
  | _ => true

namespace Scan

/-! ## Characters of tokens -/

/-- A character that neither ends a line nor starts a comment nor is a parenthesis. -/
structure Inner (c : Char) : Prop where
  lineFeed : c ≠ '\n'
  hash : c ≠ '#'
  opening : c ≠ '('
  closing : c ≠ ')'

instance (c : Char) : Decidable (Inner c) :=
  decidable_of_iff (c ≠ '\n' ∧ c ≠ '#' ∧ c ≠ '(' ∧ c ≠ ')')
    ⟨fun h => ⟨h.1, h.2.1, h.2.2.1, h.2.2.2⟩, fun h => ⟨h.1, h.2, h.3, h.4⟩⟩

variable {c : Char} {cs : List Char} {kind : TokenKind}

theorem Inner.of_isWordPart (h : isWordPart c = true) : Inner c := by
  constructor <;> rintro rfl <;> revert h <;> decide

theorem Inner.of_isBlank (h : isBlank c = true) : Inner c := by
  simp only [isBlank, Bool.or_eq_true, decide_eq_true_eq] at h
  rcases h with (rfl | rfl) | rfl <;> decide

theorem inner_of_mem_takeWhile {p : Char → Bool} (hp : ∀ c, p c = true → isWordPart c = true)
    (hc : c ∈ cs.takeWhile p) : Inner c :=
  .of_isWordPart (hp c (List.mem_takeWhile_imp hc))

theorem inner_of_mem_fraction (hc : c ∈ fraction cs) : Inner c := by
  unfold fraction at hc
  split at hc
  · rcases List.mem_cons.1 hc with rfl | hc
    · decide
    · exact inner_of_mem_takeWhile isWordPart_of_isDigit hc
  · cases hc

theorem inner_of_mem_exponent (hc : c ∈ exponent cs) : Inner c := by
  have hdigits : ∀ {ds : List Char}, c ∈ ds.takeWhile Char.isDigit → Inner c :=
    inner_of_mem_takeWhile isWordPart_of_isDigit
  unfold exponent at hc
  split at hc
  · rename_i e rest
    split at hc
    · rename_i he
      have hletter : Inner e := by
        simp only [Bool.or_eq_true, decide_eq_true_eq] at he
        rcases he with rfl | rfl <;> decide
      split at hc
      · rename_i s d rest'
        split at hc
        · rename_i hsign
          simp only [Bool.or_eq_true, Bool.and_eq_true, decide_eq_true_eq] at hsign
          rcases List.mem_cons.1 hc with rfl | hc
          · exact hletter
          rcases List.mem_cons.1 hc with rfl | hc
          · rcases hsign.1 with rfl | rfl <;> decide
          · exact hdigits hc
        · split at hc
          · rcases List.mem_cons.1 hc with rfl | hc
            · exact hletter
            · exact hdigits hc
          · cases hc
      · rename_i d
        split at hc
        · rename_i hd
          rcases List.mem_cons.1 hc with rfl | hc
          · exact hletter
          · rw [List.mem_singleton.1 hc]
            exact .of_isWordPart (isWordPart_of_isDigit d hd)
        · cases hc
      · cases hc
    · cases hc
  · cases hc

theorem inner_of_mem_number (hc : c ∈ (number cs).2) : Inner c := by
  unfold number at hc
  simp only [List.mem_append] at hc
  rcases hc with (hc | hc) | hc
  · exact inner_of_mem_takeWhile isWordPart_of_isDigit hc
  · exact inner_of_mem_fraction hc
  · exact inner_of_mem_exponent hc

/-- Parentheses that are open behind a character. -/
def nesting (depth : Nat) (c : Char) : Nat :=
  if c = '(' then depth + 1 else if c = ')' then depth - 1 else depth

theorem Inner.nesting_eq (h : Inner c) (depth : Nat) : nesting depth c = depth := by
  rw [nesting, if_neg h.opening, if_neg h.closing]

theorem foldl_nesting_of_inner (h : ∀ c ∈ cs, Inner c) (depth : Nat) :
    cs.foldl nesting depth = depth := by
  induction cs with
  | nil => rfl
  | cons c cs ih =>
    obtain ⟨hc, hcs⟩ := List.forall_mem_cons.1 h
    rw [List.foldl_cons, hc.nesting_eq, ih hcs]

/-- A kind of tokens that are neither layout nor parentheses. -/
def Ordinary (kind : TokenKind) : Prop :=
  kind.isSolid = true ∧ ∀ depth, depthAfter depth kind = depth

theorem ordinary_number (cs : List Char) : Ordinary (number cs).1 := by
  unfold number
  dsimp only
  split <;> exact ⟨rfl, fun _ => rfl⟩

theorem ordinary_wordKind (text : String) : Ordinary (wordKind text) := by
  unfold wordKind
  split
  · exact ⟨rfl, fun _ => rfl⟩
  · split <;> exact ⟨rfl, fun _ => rfl⟩

theorem isWordPart_of_isWordStart (h : isWordStart c = true) : isWordPart c = true := by
  simp only [isWordStart, Bool.or_eq_true] at h
  simp only [isWordPart, Char.isAlphanum, Bool.or_eq_true]
  exact h.imp_left .inl

/-- What the characters of a token say about it: it is no layout, it stands within a line, and
parentheses are the characters `(` and `)`. -/
structure Spelt (kind : TokenKind) (cs : List Char) : Prop where
  solid : kind.isSolid = true
  line : ∀ c ∈ cs, c ≠ '\n' ∧ c ≠ '#'
  nesting : ∀ depth, cs.foldl Scan.nesting depth = depthAfter depth kind

theorem Ordinary.spelt (h : Ordinary kind) (hcs : ∀ c ∈ cs, Inner c) : Spelt kind cs where
  solid := h.1
  line c hc := ⟨(hcs c hc).lineFeed, (hcs c hc).hash⟩
  nesting depth := by rw [foldl_nesting_of_inner hcs, h.2]

theorem spelt_mark (h : mark? c = some kind) : Spelt kind [c] := by
  unfold mark? at h
  split at h <;> cases h <;>
    exact ⟨rfl, List.forall_mem_singleton.2 (by decide), fun _ => rfl⟩

theorem spelt_lexeme {more : List Char} (h : lexeme c cs = .ok (kind, more)) :
    Spelt kind (c :: more) := by
  unfold lexeme at h
  split at h
  · rename_i hnumber
    have hc : Inner c := by
      simp only [Bool.or_eq_true, Bool.and_eq_true, decide_eq_true_eq] at hnumber
      rcases hnumber with hdigit | ⟨rfl, -⟩
      · exact .of_isWordPart (isWordPart_of_isDigit c hdigit)
      · decide
    cases h
    refine (ordinary_number (c :: cs)).spelt (List.forall_mem_cons.2 ⟨hc, fun d hd => ?_⟩)
    exact inner_of_mem_number (List.mem_of_mem_tail hd)
  split at h
  · rename_i hword
    cases h
    refine (ordinary_wordKind _).spelt (List.forall_mem_cons.2 ⟨?_, fun d hd => ?_⟩)
    · exact .of_isWordPart (isWordPart_of_isWordStart hword)
    · exact .of_isWordPart (List.mem_takeWhile_imp hd)
  split at h
  · rename_i hat
    split at h
    · cases h
      have htype : Ordinary .type := ⟨rfl, fun _ => rfl⟩
      refine htype.spelt (List.forall_mem_cons.2 ⟨?_, fun d hd => ?_⟩)
      · rw [hat]
        decide
      · exact inner_of_mem_takeWhile isWordPart_of_isAlphanum hd
    · cases h
  · split at h
    · rename_i hmark
      cases h
      exact spelt_mark hmark
    · cases h

/-! ## Lexemes -/

theorem isPrefix_exponent (cs : List Char) : exponent cs <+: cs := by
  unfold exponent
  split
  · rename_i e rest
    split
    · split
      · rename_i s d rest'
        split
        · exact List.prefix_cons_inj e |>.2 ((List.prefix_cons_inj s).2 (List.takeWhile_prefix _))
        · split
          · exact List.prefix_cons_inj e |>.2 (List.takeWhile_prefix _)
          · exact List.nil_prefix
      · split
        · exact List.prefix_refl _
        · exact List.nil_prefix
      · exact List.nil_prefix
    · exact List.nil_prefix
  · exact List.nil_prefix

theorem isPrefix_fraction (cs : List Char) : fraction cs <+: cs := by
  unfold fraction
  split
  · exact (List.prefix_cons_inj _).2 (List.takeWhile_prefix _)
  · exact List.nil_prefix

theorem isPrefix_append {α : Type} {as bs cs : List α} (ha : as <+: cs)
    (hb : bs <+: cs.drop as.length) : as ++ bs <+: cs := by
  obtain ⟨rest, rfl⟩ := ha
  rw [List.drop_left] at hb
  exact (List.prefix_append_right_inj as).2 hb

theorem isPrefix_number (cs : List Char) : (number cs).2 <+: cs := by
  unfold number
  dsimp only
  apply isPrefix_append
  · exact isPrefix_append (List.takeWhile_prefix _) (isPrefix_fraction _)
  · rw [List.length_append, ← List.drop_drop]
    exact isPrefix_exponent _

theorem isPrefix_tail {α : Type} {a : α} {as bs : List α} (h : bs <+: a :: as) :
    bs.tail <+: as := by
  cases bs with
  | nil => exact List.nil_prefix
  | cons b bs => exact (List.cons_prefix_cons.1 h).2

theorem isPrefix_lexeme {more : List Char} (h : lexeme c cs = .ok (kind, more)) : more <+: cs := by
  unfold lexeme at h
  split at h
  · cases h
    exact isPrefix_tail (isPrefix_number (c :: cs))
  · split at h
    · cases h
      exact List.takeWhile_prefix _
    · split at h
      · split at h
        · cases h
          exact List.takeWhile_prefix _
        · cases h
      · split at h
        · cases h
          exact List.nil_prefix
        · cases h

variable {cs' : List Char}

theorem takeWhile_of_isPrefix {p : Char → Bool} (hcs : cs' <+: cs) (h : cs.takeWhile p <+: cs') :
    cs'.takeWhile p = cs.takeWhile p := by
  obtain ⟨rest, rfl⟩ := hcs
  rw [List.takeWhile_append] at h ⊢
  split at h
  · rename_i hall
    have hnone : rest.takeWhile p = [] := List.eq_nil_of_length_eq_zero (by
      have := h.length_le
      rw [List.length_append] at this
      omega)
    rw [if_pos hall, hnone, List.append_nil, (List.takeWhile_prefix p).eq_of_length hall]
  · rename_i hall
    rw [if_neg hall]

theorem fraction_cons (c : Char) (cs : List Char) :
    fraction (c :: cs) = if c = '.' then '.' :: cs.takeWhile Char.isDigit else [] := by
  unfold fraction
  split <;> simp_all

section

variable (hcs : cs' <+: cs)

include hcs

theorem fraction_of_isPrefix (h : fraction cs <+: cs') : fraction cs' = fraction cs := by
  obtain ⟨rest, rfl⟩ := hcs
  cases cs' with
  | nil =>
    rw [List.prefix_nil.1 h]
    rfl
  | cons c cs' => grind [fraction_cons, takeWhile_of_isPrefix]

theorem exponent_of_isPrefix (h : exponent cs <+: cs') : exponent cs' = exponent cs := by
  obtain ⟨rest, rfl⟩ := hcs
  have hlength := h.length_le
  match cs' with
  | [] =>
    rw [List.prefix_nil.1 h]
    rfl
  | [e] => rcases rest with _ | ⟨s, _ | ⟨d, rest⟩⟩ <;> grind [exponent, List.takeWhile_cons]
  | [e, s] => rcases rest with _ | ⟨d, rest⟩ <;> grind [exponent, List.takeWhile_cons]
  | e :: s :: d :: cs' => grind [exponent, takeWhile_of_isPrefix]

theorem number_of_isPrefix (h : (number cs).2 <+: cs') : number cs' = number cs := by
  unfold number at h ⊢
  dsimp only at h ⊢
  generalize hwhole : cs.takeWhile Char.isDigit = whole at h ⊢
  generalize hpart : fraction (cs.drop whole.length) = part at h ⊢
  generalize hpower : exponent ((cs.drop whole.length).drop part.length) = power at h ⊢
  obtain ⟨rest, rfl⟩ := h
  obtain ⟨behind, rfl⟩ := hcs
  simp only [List.append_assoc, List.drop_left] at hwhole hpart hpower ⊢
  have hwhole' : (whole ++ (part ++ (power ++ rest))).takeWhile Char.isDigit = whole :=
    (takeWhile_of_isPrefix (by simp) (by simp [hwhole])).trans hwhole
  have hpart' : fraction (part ++ (power ++ rest)) = part :=
    (fraction_of_isPrefix (by simp) (by simp [hpart])).trans hpart
  have hpower' : exponent (power ++ rest) = power :=
    (exponent_of_isPrefix (by simp) (by simp [hpower])).trans hpower
  rw [hwhole', List.drop_left, hpart', List.drop_left, hpower']

theorem any_head?_of_isPrefix {p : Char → Bool}
    (h : cs.head?.any p = true → cs' ≠ []) : cs'.head?.any p = cs.head?.any p := by
  cases cs' with
  | nil =>
    rw [Bool.eq_false_iff.2 fun hany => h hany rfl]
    rfl
  | cons d cs' =>
    obtain ⟨rest, rfl⟩ := hcs
    rfl

theorem number_cons_of_isPrefix (h : (number (c :: cs)).2.tail <+: cs') :
    number (c :: cs') = number (c :: cs) := by
  refine number_of_isPrefix ((List.prefix_cons_inj c).2 hcs) ?_
  have hnumber := isPrefix_number (c :: cs)
  cases hread : (number (c :: cs)).2 with
  | nil => exact List.nil_prefix
  | cons d ds =>
    rw [hread] at h hnumber
    exact List.cons_prefix_cons.2 ⟨(List.cons_prefix_cons.1 hnumber).1, h⟩

/-- The token that a text starts with is the same if the text is cut somewhere behind it. -/
theorem lexeme_of_isPrefix (h : ∀ kind more, lexeme c cs = .ok (kind, more) → more <+: cs') :
    lexeme c cs' = lexeme c cs := by
  unfold lexeme at h ⊢
  have hdot : c = '.' → cs'.head?.any Char.isDigit = cs.head?.any Char.isDigit := by
    rintro rfl
    refine any_head?_of_isPrefix hcs fun hany hnil => ?_
    rw [if_pos (by simp [hany]), hnil] at h
    cases cs with
    | nil => cases hany
    | cons d cs =>
      have hd : d.isDigit = true := hany
      simpa [number, fraction_cons, hd] using h _ _ rfl
  have hat : c = '@' → cs'.head?.any Char.isAlpha = cs.head?.any Char.isAlpha := by
    rintro rfl
    refine any_head?_of_isPrefix hcs fun hany hnil => ?_
    rw [if_neg (by simp), if_neg (by decide), if_pos rfl, if_pos hany, hnil] at h
    cases cs with
    | nil => cases hany
    | cons d cs =>
      have hd : d.isAlpha = true := hany
      simpa [Char.isAlphanum, hd] using h _ _ rfl
  grind [number_cons_of_isPrefix, takeWhile_of_isPrefix]

end

theorem utf8Size_of_isBlank (h : isBlank c = true) : c.utf8Size = 1 := by
  simp only [isBlank, Bool.or_eq_true, decide_eq_true_eq] at h
  rcases h with (rfl | rfl) | rfl <;> rfl

theorem utf8Size_lineFeed : '\n'.utf8Size = 1 :=
  rfl

theorem utf8Size_hash : '#'.utf8Size = 1 :=
  rfl

/-! ## Steps -/

/-- Where in a text scanning is: at the beginning of a line outside of parentheses, or within a
line behind some open parentheses. -/
inductive Place where
  | start
  | within (depth : Nat)

/-- The end of a text or of a line. -/
def LineEnd (cs : List Char) : Prop :=
  ∀ c ∈ cs.head?, c = '\n'

/-- What scanning finds from a place on, given the offset of the place and the text behind it. -/
inductive Finds : Place → Nat → List Char → List Item → Prop where
  | finish {pos blanks} (hblanks : ∀ c ∈ blanks, isBlank c = true) : Finds .start pos blanks []
  | empty {pos blanks rest items} (hblanks : ∀ c ∈ blanks, isBlank c = true)
      (h : Finds .start (pos + Source.byteCount blanks + 1) rest items) :
      Finds .start pos (blanks ++ '\n' :: rest) items
  /-- A line that holds nothing but a comment. -/
  | remark {pos blanks remark rest items} (hblanks : ∀ c ∈ blanks, isBlank c = true)
      (hremark : ∀ c ∈ remark, inLine c = true) (hrest : LineEnd rest)
      (h : Finds .start (pos + Source.byteCount blanks + 1 + Source.byteCount remark) rest items) :
      Finds .start pos (blanks ++ '#' :: (remark ++ rest)) items
  /-- A line that holds a token. -/
  | line {pos blanks c rest items} (hblanks : ∀ c ∈ blanks, isBlank c = true) (hc : Solid c)
      (h : Finds (.within 0) (pos + Source.byteCount blanks) (c :: rest) items) :
      Finds .start pos (blanks ++ c :: rest) (.line (indentation blanks) (String.ofList blanks)
        ⟨pos, pos + Source.byteCount blanks⟩ :: items)
  | stop {depth pos} : Finds (.within depth) pos [] []
  | feed {pos rest items} (h : Finds .start (pos + 1) rest items) :
      Finds (.within 0) pos ('\n' :: rest) (.token ⟨.newline, "\n", ⟨pos, pos + 1⟩⟩ :: items)
  /-- A line feed inside of parentheses. -/
  | wrap {depth pos rest items} (hdepth : depth ≠ 0)
      (h : Finds (.within depth) (pos + 1) rest items) :
      Finds (.within depth) pos ('\n' :: rest) items
  | blank {depth pos c rest items} (hc : isBlank c = true)
      (h : Finds (.within depth) (pos + 1) rest items) : Finds (.within depth) pos (c :: rest) items
  | comment {depth pos remark rest items} (hremark : ∀ c ∈ remark, inLine c = true)
      (hrest : LineEnd rest)
      (h : Finds (.within depth) (pos + 1 + Source.byteCount remark) rest items) :
      Finds (.within depth) pos ('#' :: (remark ++ rest)) items
  | token {depth pos c more rest kind items} (hc : Solid c)
      (hlexeme : lexeme c (more ++ rest) = .ok (kind, more))
      (h : Finds (.within (depthAfter depth kind)) (pos + Source.byteCount (c :: more))
        rest items) :
      Finds (.within depth) pos (c :: (more ++ rest))
        (.token ⟨kind, String.ofList (c :: more), ⟨pos, pos + Source.byteCount (c :: more)⟩⟩ ::
          items)
  | complaint {depth pos c rest complaint} (hc : Solid c)
      (hlexeme : lexeme c rest = .error complaint) :
      Finds (.within depth) pos (c :: rest) [.stop ⟨complaint, ⟨pos, pos + c.utf8Size⟩⟩]

theorem lineEnd_dropWhile (cs : List Char) : LineEnd (cs.dropWhile inLine) := by
  intro c hc
  have h := List.head?_dropWhile_not inLine cs
  rw [Option.mem_def.1 hc] at h
  simpa [inLine] using h

mutual

theorem finds_lines (pos : Nat) (cs : List Char) : Finds .start pos cs (lines pos cs) := by
  have hblanks : ∀ c ∈ cs.takeWhile isBlank, isBlank c = true := fun c hc =>
    List.mem_takeWhile_imp hc
  have hlength : (cs.takeWhile isBlank).length = Source.byteCount (cs.takeWhile isBlank) :=
    (Source.byteCount_eq_length fun c hc => utf8Size_of_isBlank (hblanks c hc)).symm
  have hcs : cs.takeWhile isBlank ++ cs.dropWhile isBlank = cs := List.takeWhile_append_dropWhile
  have hhead := List.head?_dropWhile_not isBlank cs
  rw [lines, hlength]
  dsimp only
  split
  case h_1 hrest =>
    rw [hrest, List.append_nil] at hcs
    rw [hcs] at hblanks
    exact .finish hblanks
  case h_2 c rest hrest =>
    rw [hrest] at hcs hhead
    have hshorter : rest.length < cs.length := by
      rw [← hcs, List.length_append, List.length_cons]
      omega
    nth_rewrite 1 [← hcs]
    split
    case isTrue hfeed =>
      rw [hfeed]
      exact .empty hblanks (finds_lines _ _)
    case isFalse hfeed =>
      split
      case isTrue hhash =>
        have hshorter' := (List.dropWhile_sublist (l := rest) inLine).length_le
        have hrest : rest.takeWhile inLine ++ rest.dropWhile inLine = rest :=
          List.takeWhile_append_dropWhile
        nth_rewrite 1 [hhash, ← hrest]
        exact .remark hblanks (fun d hd => List.mem_takeWhile_imp hd) (lineEnd_dropWhile rest)
          (finds_lines _ _)
      case isFalse hhash =>
        have hc : Solid c := ⟨hfeed, by simpa using hhead, hhash⟩
        exact .line hblanks hc (finds_tokens 0 _ _)
termination_by 2 * cs.length + 1

theorem finds_tokens (depth pos : Nat) (cs : List Char) :
    Finds (.within depth) pos cs (tokens depth pos cs) := by
  cases hcs : cs with
  | nil =>
    rw [tokens]
    exact .stop
  | cons c rest =>
    have hshorter : rest.length < cs.length := by
      rw [hcs]
      exact Nat.lt_succ_self _
    rw [tokens]
    split
    case isTrue hfeed =>
      rw [hfeed]
      split
      case isTrue hdepth =>
        rw [hdepth]
        exact .feed (finds_lines _ _)
      case isFalse hdepth => exact .wrap hdepth (finds_tokens _ _ _)
    case isFalse hfeed =>
      split
      case isTrue hblank => exact .blank hblank (finds_tokens _ _ _)
      case isFalse hblank =>
        split
        case isTrue hhash =>
          have hshorter' := (List.dropWhile_sublist (l := rest) inLine).length_le
          have hrest : rest.takeWhile inLine ++ rest.dropWhile inLine = rest :=
            List.takeWhile_append_dropWhile
          nth_rewrite 1 [hhash, ← hrest]
          exact .comment (fun d hd => List.mem_takeWhile_imp hd) (lineEnd_dropWhile rest)
            (finds_tokens _ _ _)
        case isFalse hhash =>
          have hc : Solid c := ⟨hfeed, by simpa using hblank, hhash⟩
          unfold tokenItems
          split
          · rename_i kind more hlexeme
            obtain ⟨rest', rfl⟩ := isPrefix_lexeme hlexeme
            dsimp only
            rw [List.drop_left]
            have hshorter' : rest'.length ≤ (more ++ rest').length := by simp
            exact .token hc hlexeme (finds_tokens _ _ _)
          · rename_i complaint hlexeme
            exact .complaint hc hlexeme
termination_by 2 * cs.length

end

/-! ## Items -/

def Item.span : Item → Span
  | .line _ _ span => span
  | .token found => found.span
  | .stop diagnostic => diagnostic.span

/-- Tokens are not empty, and none of them opens or closes a level. -/
def Item.Proper : Item → Prop
  | .token found =>
    found.span.start < found.span.stop ∧ (found.kind.isSolid = true ∨ found.kind = .newline)
  | _ => True

namespace Finds

variable {place : Place} {pos : Nat} {cs : List Char} {items : List Item}

theorem le_start (h : Finds place pos cs items) : ∀ item ∈ items, pos ≤ item.span.start := by
  induction h with
  | finish | stop => simp
  | empty _ _ ih | remark _ _ _ _ ih | wrap _ _ ih | blank _ _ ih | comment _ _ _ ih =>
    intro item hitem
    have := ih item hitem
    omega
  | line _ _ _ ih | feed _ ih | token _ _ _ ih =>
    refine List.forall_mem_cons.2 ⟨Nat.le_refl _, fun item hitem => ?_⟩
    have := ih item hitem
    omega
  | complaint => exact List.forall_mem_singleton.2 (Nat.le_refl _)

theorem pairwise (h : Finds place pos cs items) :
    items.Pairwise fun a b => a.span.stop ≤ b.span.start := by
  induction h with
  | finish | stop => exact .nil
  | empty _ _ ih | remark _ _ _ _ ih | wrap _ _ ih | blank _ _ ih | comment _ _ _ ih => exact ih
  | line _ _ h ih | feed h ih | token _ _ h ih => exact .cons h.le_start ih
  | complaint => exact List.pairwise_singleton _ _

theorem proper (h : Finds place pos cs items) : ∀ item ∈ items, item.Proper := by
  induction h with
  | finish | stop => simp
  | empty _ _ ih | remark _ _ _ _ ih | wrap _ _ ih | blank _ _ ih | comment _ _ _ ih => exact ih
  | line _ _ _ ih => exact List.forall_mem_cons.2 ⟨trivial, ih⟩
  | feed _ ih => exact List.forall_mem_cons.2 ⟨⟨Nat.lt_succ_self _, .inr rfl⟩, ih⟩
  | token _ hlexeme _ ih =>
    refine List.forall_mem_cons.2 ⟨⟨?_, .inl (spelt_lexeme hlexeme).solid⟩, ih⟩
    exact Nat.lt_add_of_pos_right (Nat.add_pos_left (Char.utf8Size_pos _) _)
  | complaint => exact List.forall_mem_singleton.2 trivial

theorem of_solid {depth : Nat} {c : Char} {rest : List Char}
    (h : Finds (.within depth) pos (c :: rest) items) (hc : Solid c) :
    (∃ found behind, items = .token found :: behind ∧ found.kind.isSolid = true ∧
      found.span.start = pos) ∨ ∃ diagnostic, items = [.stop diagnostic] := by
  cases h with
  | feed | wrap => exact absurd rfl hc.lineFeed
  | blank hblank => rw [hc.blank] at hblank; cases hblank
  | comment => exact absurd rfl hc.hash
  | token _ hlexeme => exact .inl ⟨_, _, rfl, (spelt_lexeme hlexeme).solid, rfl⟩
  | complaint => exact .inr ⟨_, rfl⟩

theorem behind_line (h : Finds place pos cs items) {front behind : List Item} {width : Nat}
    {blanks : String} {span : Span} (hitems : items = front ++ .line width blanks span :: behind) :
    (∃ found rest, behind = .token found :: rest ∧ found.kind.isSolid = true ∧
      found.span.start = span.stop) ∨ ∃ diagnostic, behind = [.stop diagnostic] := by
  induction h generalizing front with
  | finish | stop => simp at hitems
  | empty _ _ ih | remark _ _ _ _ ih | wrap _ _ ih | blank _ _ ih | comment _ _ _ ih =>
    exact ih hitems
  | line _ hc h ih =>
    obtain ⟨-, heq⟩ | ⟨front', -, hitems⟩ := List.cons_eq_append_iff.1 hitems
    · cases heq
      exact h.of_solid hc
    · exact ih hitems
  | feed _ ih | token _ _ _ ih =>
    obtain ⟨-, heq⟩ | ⟨front', -, hitems⟩ := List.cons_eq_append_iff.1 hitems
    · cases heq
    · exact ih hitems
  | complaint =>
    obtain ⟨-, heq⟩ | ⟨front', -, hitems⟩ := List.cons_eq_append_iff.1 hitems
    · cases heq
    · simp at hitems

end Finds

end Scan

end Cinder
