import Cinder.Proofs.Except
import Cinder.Proofs.Token.LogicalLines

/-!
# Layout and indentation

What layout adds to the tokens of a text: levels that are opened and closed like parentheses,
each of them where a line is wider or narrower than the level around it.  The stack of open
levels is read off the tokens written so far, so that the depth of a line can be compared with
the depth of a later one.
-/

namespace Cinder

namespace Layout

open Scan (Item)

/-! ## One line -/

/-- What a line of some width does to the open levels, and the tokens that say so. -/
inductive Shift (width : Nat) : List Nat → List TokenKind → List Nat → Prop where
  | deeper {levels} (h : top levels < width) : Shift width levels [.indent] (width :: levels)
  | back {shut levels} (hshut : ∀ level ∈ shut, width < level) (h : top levels = width) :
      Shift width (shut ++ levels) (List.replicate shut.length .dedent) levels

theorem exists_of_close {width n : Nat} {levels levels' : List Nat}
    (h : close width levels = some (n, levels')) :
    ∃ shut, levels = shut ++ levels' ∧ shut.length = n ∧ (∀ level ∈ shut, width < level) ∧
      top levels' = width := by
  induction levels generalizing n with
  | nil =>
    rw [close] at h
    split at h
    · cases h
      rename_i hwidth
      exact ⟨[], rfl, rfl, by simp, hwidth.symm⟩
    · cases h
  | cons level outer ih =>
    rw [close] at h
    split at h
    · rename_i hlevel
      obtain ⟨⟨n', levels''⟩, hclose, heq⟩ := Option.map_eq_some_iff.1 h
      cases heq
      obtain ⟨shut, rfl, rfl, hshut, htop⟩ := ih hclose
      exact ⟨level :: shut, rfl, rfl, List.forall_mem_cons.2 ⟨hlevel, hshut⟩, htop⟩
    · split at h
      · cases h
        rename_i hlevel
        exact ⟨[], rfl, rfl, by simp, hlevel⟩
      · cases h

theorem exists_of_arrange_line {stop width : Nat} {levels : List Nat} {last : Option TokenKind}
    {blanks : String} {span : Span} {items : List Item} {tokens : List Token}
    (h : arrange stop levels last (.line width blanks span :: items) = .ok tokens) :
    ∃ kinds levels' rest, Shift width levels kinds levels' ∧
      arrange stop levels' (kinds.getLast?.or last) items = .ok rest ∧
      tokens = kinds.map (⟨·, blanks, span⟩) ++ rest := by
  rw [arrange] at h
  split at h
  · rename_i hwider
    obtain ⟨rest, hrest, heq⟩ := bind_eq_ok.1 h
    cases heq
    exact ⟨_, _, rest, .deeper hwider, hrest, rfl⟩
  · split at h
    · cases h
    · rename_i levels' hclose
      obtain ⟨shut, rfl, hlength, hshut, htop⟩ := exists_of_close hclose
      refine ⟨_, _, tokens, .back hshut htop, ?_, ?_⟩
      · rw [hlength]
        exact h
      · rw [hlength]
        rfl
    · rename_i n levels' hclose
      obtain ⟨shut, rfl, hlength, hshut, htop⟩ := exists_of_close hclose
      obtain ⟨rest, hrest, heq⟩ := bind_eq_ok.1 h
      cases heq
      refine ⟨_, _, rest, .back hshut htop, ?_, ?_⟩
      · rw [hlength, List.getLast?_replicate]
        exact hrest
      · rw [hlength, List.map_replicate]

/-! ## Runs -/

/-- Arranging some items: the tokens written, with the open levels and the last token before and
behind them. -/
inductive Runs : List Nat → Option TokenKind → List Item → List Token → List Nat →
    Option TokenKind → Prop where
  | nil {levels last} : Runs levels last [] [] levels last
  | token {levels last found items written levels' last'}
      (h : Runs levels (some found.kind) items written levels' last') :
      Runs levels last (.token found :: items) (found :: written) levels' last'
  | line {levels last width blanks span items kinds next written levels' last'}
      (hshift : Shift width levels kinds next)
      (h : Runs next (kinds.getLast?.or last) items written levels' last') :
      Runs levels last (.line width blanks span :: items)
        (kinds.map (⟨·, blanks, span⟩) ++ written) levels' last'

def ending (stop : Nat) (levels : List Nat) (last : Option TokenKind) : List Token :=
  (if last.any (· ≠ .newline) then [⟨.newline, "", ⟨stop, stop⟩⟩] else []) ++
    levels.map (fun _ => ⟨.dedent, "", ⟨stop, stop⟩⟩) ++ [⟨.endOfFile, "", ⟨stop, stop⟩⟩]

variable {levels levels' base : List Nat} {last last' : Option TokenKind} {items : List Item}
  {n m width pos : Nat} {front behind : List TokenKind} {kind : TokenKind} {cs : List Char}
  {written : List Token} {blanks : String} {span : Span} {line : LogicalLine}

theorem exists_runs {stop : Nat} {tokens : List Token}
    (h : arrange stop levels last items = .ok tokens) :
    ∃ written levels' last', Runs levels last items written levels' last' ∧
      tokens = written ++ ending stop levels' last' := by
  induction items generalizing levels last tokens with
  | nil =>
    cases h
    exact ⟨[], levels, last, .nil, rfl⟩
  | cons item items ih =>
    cases item with
    | stop => cases h
    | token found =>
      obtain ⟨rest, hrest, heq⟩ := bind_eq_ok.1 h
      cases heq
      obtain ⟨written, levels', last', hruns, rfl⟩ := ih hrest
      exact ⟨_, _, _, .token hruns, rfl⟩
    | line =>
      obtain ⟨kinds, next, rest, hshift, hrest, rfl⟩ := exists_of_arrange_line h
      obtain ⟨written, levels', last', hruns, rfl⟩ := ih hrest
      exact ⟨_, _, _, .line hshift hruns, (List.append_assoc ..).symm⟩

/-! ## Depth -/

def depth (kinds : List TokenKind) : Int :=
  kinds.count .indent - kinds.count .dedent

theorem depth_append (front behind : List TokenKind) :
    depth (front ++ behind) = depth front + depth behind := by
  simp only [depth, List.count_append]
  omega

theorem depth_replicate (n : Nat) : depth (List.replicate n .dedent) = -n := by
  simp [depth, List.count_replicate]

/-- Tokens that lead from one depth to another, and nowhere close more levels than are open. -/
structure Leads (n : Nat) (kinds : List TokenKind) (m : Nat) : Prop where
  depth : (m : Int) = n + depth kinds
  nested : ∀ i, 0 ≤ n + Layout.depth (kinds.take i)

theorem Leads.append {k : Nat} (hfront : Leads n front m) (hbehind : Leads m behind k) :
    Leads n (front ++ behind) k := by
  have hm := hfront.depth
  refine ⟨by rw [hbehind.depth, depth_append]; omega, fun i => ?_⟩
  rw [List.take_append, depth_append]
  rcases Nat.le_total i front.length with hi | hi
  · have := hfront.nested i
    rw [Nat.sub_eq_zero_of_le hi]
    simpa [Layout.depth] using this
  · have := hbehind.nested (i - front.length)
    rw [List.take_of_length_le hi]
    omega

theorem leads_nil (n : Nat) : Leads n [] n :=
  ⟨by simp [depth], by simp [depth]⟩

theorem leads_singleton (h : (m : Int) = n + depth [kind]) :
    Leads n [kind] m := by
  refine ⟨h, fun i => ?_⟩
  cases i with
  | zero => simp [depth]
  | succ i =>
    rw [List.take_succ_cons, List.take_nil, ← h]
    omega

theorem leads_dedents (n m : Nat) : Leads (n + m) (List.replicate n .dedent) m := by
  refine ⟨by rw [depth_replicate]; omega, fun i => ?_⟩
  rw [List.take_replicate, depth_replicate]
  omega

theorem depth_of_not_layout (h : kind.isSolid = true ∨ kind = .newline) :
    depth [kind] = 0 := by
  rcases h with h | rfl
  · cases kind <;> first | rfl | cases h
  · rfl

namespace Shift

variable {kinds : List TokenKind}

theorem top_eq (h : Shift width levels kinds levels') : top levels' = width := by
  cases h with
  | deeper => rfl
  | back _ h => exact h

theorem leads (h : Shift width levels kinds levels') :
    Leads levels.length kinds levels'.length := by
  cases h with
  | deeper => exact leads_singleton rfl
  | back =>
    rw [List.length_append]
    exact leads_dedents ..

theorem isSuffix (h : Shift width levels kinds levels') {base : List Nat} (hbase : base <:+ levels)
    (hwidth : top base ≤ width) : base <:+ levels' := by
  cases h with
  | deeper => exact hbase.trans (List.suffix_cons _ _)
  | back hshut =>
    obtain ⟨front, heq⟩ := hbase
    obtain ⟨inner, rfl, rfl⟩ | ⟨outer, -, rfl⟩ := List.append_eq_append_iff.1 heq
    · cases inner with
      | nil => exact List.suffix_refl _
      | cons level inner => exact absurd (hshut level (by simp)) (Nat.not_lt.2 hwidth)
    · exact List.suffix_append outer base

end Shift

/-- Levels that lie within each other, the innermost first. -/
def Stacked (levels : List Nat) : Prop :=
  (levels ++ [0]).Pairwise (· > ·)

theorem Stacked.of_isSuffix (h : Stacked levels) (hsuffix : levels' <:+ levels) :
    Stacked levels' := by
  obtain ⟨front, rfl⟩ := hsuffix
  rw [Stacked, List.append_assoc] at h
  exact (List.pairwise_append.1 h).2.1

theorem Stacked.cons (h : Stacked levels) (hwidth : top levels < width) :
    Stacked (width :: levels) := by
  refine List.Pairwise.cons (fun level hlevel => ?_) h
  cases levels with
  | nil =>
    rw [List.mem_singleton.1 hlevel]
    exact hwidth
  | cons first levels =>
    rcases List.mem_cons.1 hlevel with rfl | hlevel
    · exact hwidth
    · exact Nat.lt_trans ((List.pairwise_cons.1 h).1 level hlevel) hwidth

/-- The deeper of two stacks of levels is wider, if it begins with the other. -/
theorem Stacked.top_lt (h : Stacked levels) (hbase : base <:+ levels)
    (hlength : base.length < levels.length) : top base < top levels := by
  obtain ⟨front, rfl⟩ := hbase
  cases front with
  | nil => exact absurd hlength (Nat.lt_irrefl _)
  | cons level front =>
    apply (List.pairwise_cons.1 h).1
    cases base <;> simp [top]

namespace Runs

theorem split {front behind : List Item}
    (h : Runs levels last (front ++ behind) written levels' last') :
    ∃ first next last'' rest, Runs levels last front first next last'' ∧
      Runs next last'' behind rest levels' last' ∧ written = first ++ rest := by
  induction front generalizing levels last written with
  | nil => exact ⟨[], _, _, written, .nil, h, rfl⟩
  | cons item front ih =>
    cases h with
    | token h =>
      obtain ⟨first, next, last'', rest, hfirst, hrest, rfl⟩ := ih h
      exact ⟨_, _, _, _, .token hfirst, hrest, rfl⟩
    | line hshift h =>
      obtain ⟨first, next, last'', rest, hfirst, hrest, rfl⟩ := ih h
      exact ⟨_, _, _, _, .line hshift hfirst, hrest, (List.append_assoc ..).symm⟩

theorem join {next : List Nat} {last'' : Option TokenKind} {behind : List Item} {rest : List Token}
    (h : Runs levels last items written next last'')
    (hrest : Runs next last'' behind rest levels' last') :
    Runs levels last (items ++ behind) (written ++ rest) levels' last' := by
  induction h with
  | nil => exact hrest
  | token _ ih => exact .token (ih hrest)
  | line hshift _ ih =>
    rw [List.append_assoc]
    exact .line hshift (ih hrest)

theorem map_kind (kinds : List TokenKind) (blanks : String) (span : Span) :
    (kinds.map fun kind => (⟨kind, blanks, span⟩ : Token)).map Token.kind = kinds := by
  rw [List.map_map]
  exact List.map_id kinds

theorem leads (h : Runs levels last items written levels' last')
    (hitems : ∀ item ∈ items, item.Proper) :
    Leads levels.length (written.map Token.kind) levels'.length := by
  induction h with
  | nil => exact leads_nil _
  | token _ ih =>
    rw [List.forall_mem_cons] at hitems
    have hfound := depth_of_not_layout hitems.1.2
    exact (leads_singleton (by rw [hfound, Int.add_zero])).append (ih hitems.2)
  | line hshift _ ih =>
    rw [List.map_append, map_kind]
    exact hshift.leads.append (ih (List.forall_mem_cons.1 hitems).2)

theorem stacked (h : Runs levels last items written levels' last') (hlevels : Stacked levels) :
    Stacked levels' := by
  induction h with
  | nil => exact hlevels
  | token _ ih => exact ih hlevels
  | line hshift _ ih =>
    apply ih
    cases hshift with
    | deeper hwider => exact hlevels.cons hwider
    | back => exact hlevels.of_isSuffix (List.suffix_append _ _)

theorem isSuffix (h : Runs levels last items written levels' last') {base : List Nat}
    (hbase : base <:+ levels)
    (hwidth : ∀ line ∈ items.filterMap Item.logicalLine?, top base ≤ line.width) :
    base <:+ levels' := by
  induction h with
  | nil => exact hbase
  | token _ ih => exact ih hbase hwidth
  | line hshift _ ih =>
    have hwidth := List.forall_mem_cons.1 hwidth
    exact ih (hshift.isSuffix hbase hwidth.1) hwidth.2

theorem kind_of_mem {width : Nat} {kinds : List TokenKind} (h : Shift width levels kinds levels')
    {kind : TokenKind} (hkind : kind ∈ kinds) : kind = .indent ∨ kind = .dedent := by
  cases h with
  | deeper => exact .inl (List.mem_singleton.1 hkind)
  | back => exact .inr (List.eq_of_mem_replicate hkind)

theorem mem_written (h : Runs levels last items written levels' last') {found : Token}
    (hfound : found ∈ written) :
    Item.token found ∈ items ∨ found.kind = .indent ∨ found.kind = .dedent := by
  induction h with
  | nil => cases hfound
  | token _ ih =>
    rcases List.mem_cons.1 hfound with rfl | hfound
    · exact .inl (List.mem_cons_self ..)
    · exact (ih hfound).imp_left (List.mem_cons_of_mem _)
  | line hshift _ ih =>
    rcases List.mem_append.1 hfound with hfound | hfound
    · obtain ⟨kind, hkind, rfl⟩ := List.mem_map.1 hfound
      exact .inr (kind_of_mem hshift hkind)
    · exact (ih hfound).imp_left (List.mem_cons_of_mem _)

end Runs

/-! ## Neighbours -/

/-- What a token of the layout may stand behind. -/
structure Follows (last : Option TokenKind) (kind : TokenKind) : Prop where
  behindIndent : last = some .indent → kind.isSolid = true
  newline : kind = .newline → ∃ previous ∈ last, previous.isSolid = true
  indent : kind = .indent → ∀ previous ∈ last, previous = .newline
  dedent : kind = .dedent → ∃ previous ∈ last, previous = .newline ∨ previous = .dedent

theorem Follows.of_isSolid (h : kind.isSolid = true) (last : Option TokenKind) :
    Follows last kind := by
  refine ⟨fun _ => h, ?_, ?_, ?_⟩ <;> rintro rfl <;> cases h

/-- Tokens each of which may follow the one before it. -/
def Chained : Option TokenKind → List TokenKind → Prop
  | last, [] => last ≠ some .indent
  | last, kind :: kinds => Follows last kind ∧ Chained (some kind) kinds

theorem Chained.split (h : Chained last (front ++ kind :: behind)) :
    Follows (front.getLast?.or last) kind ∧ Chained (some kind) behind := by
  induction front generalizing last with
  | nil => exact h
  | cons first front ih =>
    have := ih h.2
    rwa [List.getLast?_cons, Option.some_or, ← Option.or_some]

theorem Chained.dedents (hlast : 0 < n → last = some .newline ∨ last = some .dedent)
    (h : Chained ((List.replicate n .dedent).getLast?.or last) behind) :
    Chained last (List.replicate n TokenKind.dedent ++ behind) := by
  induction n generalizing last with
  | zero => exact h
  | succ n ih =>
    have hlast : last = some .newline ∨ last = some .dedent := hlast (Nat.succ_pos n)
    refine ⟨⟨?_, by rintro ⟨⟩, by rintro ⟨⟩, fun _ => ?_⟩, ih (fun _ => .inr rfl) ?_⟩
    · rintro rfl
      simp at hlast
    · rcases hlast with rfl | rfl
      · exact ⟨_, rfl, .inl rfl⟩
      · exact ⟨_, rfl, .inr rfl⟩
    · rw [List.getLast?_replicate] at h ⊢
      split
      · exact h
      · exact h

theorem chained_endOfFile (h : last ≠ some .indent) :
    Chained last [.endOfFile] :=
  ⟨⟨fun heq => absurd heq h, by rintro ⟨⟩, by rintro ⟨⟩, by rintro ⟨⟩⟩, by rintro ⟨⟩⟩

/-- The last token where scanning is at some place, and the levels that are open there. -/
def Ready (cs : List Char) (last : Option TokenKind) (levels : List Nat) : Scan.Place → Prop
  | .start => (last = none ∧ levels = []) ∨ last = some .newline
  | .within _ => (∃ previous, last = some previous ∧ previous.isSolid = true) ∨
      ∃ c ∈ cs.head?, Scan.Solid c

theorem kinds_ending (stop : Nat) (levels : List Nat) (last : Option TokenKind) :
    (ending stop levels last).map Token.kind =
      (if last.any (· ≠ .newline) then [TokenKind.newline] else []) ++
        (List.replicate levels.length TokenKind.dedent ++ [TokenKind.endOfFile]) := by
  simp only [ending, List.map_append, List.map_map, List.append_assoc]
  congr 1
  · split <;> rfl
  · rw [← List.map_const]
    rfl

theorem chained_close (levels : List Nat) :
    Chained (some .newline)
      (List.replicate levels.length TokenKind.dedent ++ [TokenKind.endOfFile]) := by
  apply Chained.dedents fun _ => .inl rfl
  apply chained_endOfFile
  rw [List.getLast?_replicate]
  split <;> rintro ⟨⟩

theorem chained_ending_of_start (stop : Nat)
    (h : (last = none ∧ levels = []) ∨ last = some .newline) :
    Chained last ((ending stop levels last).map Token.kind) := by
  rw [kinds_ending]
  rcases h with ⟨rfl, rfl⟩ | rfl
  · exact chained_endOfFile (by rintro ⟨⟩)
  · exact chained_close levels

theorem Follows.newline_of_isSolid (h : kind.isSolid = true) :
    Follows (some kind) .newline where
  behindIndent heq := by
    cases heq
    cases h
  newline _ := ⟨kind, rfl, h⟩
  indent heq := by cases heq
  dedent heq := by cases heq

theorem chained_ending_of_isSolid (stop : Nat) (levels : List Nat) (h : kind.isSolid = true) :
    Chained (some kind) ((ending stop levels (some kind)).map Token.kind) := by
  have hkind : (some kind).any (· ≠ .newline) = true := by
    cases kind <;> first | rfl | cases h
  rw [kinds_ending, if_pos hkind]
  exact ⟨.newline_of_isSolid h, chained_close levels⟩

theorem Shift.chained {kinds : List TokenKind} (h : Shift width levels kinds levels')
    (hlast : (last = none ∧ levels = []) ∨ last = some .newline)
    (hbehind : Chained (kinds.getLast?.or last) behind) : Chained last (kinds ++ behind) := by
  cases h with
  | deeper =>
    refine ⟨⟨?_, by rintro ⟨⟩, fun _ previous hprevious => ?_, by rintro ⟨⟩⟩, hbehind⟩
    · rintro rfl
      simp at hlast
    · rcases hlast with ⟨rfl, -⟩ | rfl
      · cases hprevious
      · exact (Option.some.inj hprevious).symm
  | @back shut levels =>
    refine .dedents (fun hn => ?_) hbehind
    rcases hlast with ⟨-, hlevels⟩ | hlast
    · rw [(List.append_eq_nil_iff.1 hlevels).1] at hn
      cases hn
    · exact .inl hlast

/-- Tokens are written in an order that keeps to the rules of the layout. -/
theorem chained_of_finds {place : Scan.Place} (h : Scan.Finds place pos cs items) (stop : Nat)
    (hruns : Runs levels last items written levels' last') (hready : Ready cs last levels place) :
    Chained last ((written ++ ending stop levels' last').map Token.kind) := by
  induction h generalizing levels last written with
  | finish =>
    cases hruns
    exact chained_ending_of_start stop hready
  | empty _ _ ih | remark _ _ _ _ ih => exact ih hruns hready
  | line _ hc h ih =>
    cases hruns with
    | line hshift hruns =>
      have hrest := ih hruns (.inr ⟨_, rfl, hc⟩)
      rw [List.append_assoc, List.map_append, Runs.map_kind]
      exact hshift.chained hready hrest
  | stop =>
    cases hruns
    obtain ⟨kind, rfl, hkind⟩ | ⟨c, hc, -⟩ := hready
    · exact chained_ending_of_isSolid stop _ hkind
    · cases hc
  | feed _ ih =>
    cases hruns with
    | token hruns =>
      obtain ⟨kind, rfl, hkind⟩ | ⟨c, hc, hsolid⟩ := hready
      · exact ⟨.newline_of_isSolid hkind, ih hruns (.inr rfl)⟩
      · cases hc
        exact absurd rfl hsolid.lineFeed
  | wrap _ _ ih =>
    obtain hlast | ⟨c, hc, hsolid⟩ := hready
    · exact ih hruns (.inl hlast)
    · cases hc
      exact absurd rfl hsolid.lineFeed
  | blank hblank _ ih =>
    obtain hlast | ⟨c, hc, hsolid⟩ := hready
    · exact ih hruns (.inl hlast)
    · cases hc
      exact absurd hblank (by simp [hsolid.blank])
  | comment _ _ _ ih =>
    obtain hlast | ⟨c, hc, hsolid⟩ := hready
    · exact ih hruns (.inl hlast)
    · cases hc
      exact absurd rfl hsolid.hash
  | token _ hlexeme _ ih =>
    cases hruns with
    | token hruns =>
      have hsolid := (Scan.spelt_lexeme hlexeme).solid
      exact ⟨.of_isSolid hsolid last, ih hruns (.inl ⟨_, rfl, hsolid⟩)⟩
  | complaint => cases hruns

/-! ## Texts -/

structure Balanced (kinds : List TokenKind) : Prop where
  endOfFile : ∃ front, kinds = front ++ [TokenKind.endOfFile] ∧ TokenKind.endOfFile ∉ front
  closed : kinds.count .indent = kinds.count .dedent
  nested : ∀ n, (kinds.take n).count .dedent ≤ (kinds.take n).count .indent
  newline : ∀ front behind : List TokenKind, kinds = front ++ .newline :: behind →
    ∃ previous ∈ front.getLast?, previous.isSolid = true
  indent : ∀ front behind : List TokenKind, kinds = front ++ .indent :: behind →
    (∀ previous ∈ front.getLast?, previous = .newline) ∧
      ∃ next ∈ behind.head?, next.isSolid = true
  dedent : ∀ front behind : List TokenKind, kinds = front ++ .dedent :: behind →
    ∃ previous ∈ front.getLast?, previous = .newline ∨ previous = .dedent

def depthAt (tokens : List Token) (offset : Nat) : Int :=
  let before := tokens.takeWhile fun token => !(token.kind.isSolid && token.span.start == offset)
  depth (before.map Token.kind)

/-- As long as no line is narrower than some line, the lines behind it are as deep as it if they
are as wide, and deeper if they are wider. -/
def FollowsWidth (tokens : List Token) (lines : List LogicalLine) : Prop :=
  ∀ (before : List LogicalLine) (line : LogicalLine) (between : List LogicalLine)
    (later : LogicalLine) (after : List LogicalLine),
    lines = before ++ line :: (between ++ later :: after) →
    (∀ other ∈ between ++ [later], line.width ≤ other.width) →
    (depthAt tokens later.offset = depthAt tokens line.offset ↔ later.width = line.width) ∧
    (depthAt tokens line.offset < depthAt tokens later.offset ↔ line.width < later.width)

theorem leads_ending (stop : Nat) (levels : List Nat) (last : Option TokenKind) :
    Leads levels.length ((ending stop levels last).map Token.kind) 0 := by
  have hend : Leads 0 [.endOfFile] 0 := leads_singleton rfl
  have hclose := (leads_dedents levels.length 0).append hend
  rw [kinds_ending]
  split
  · exact (leads_singleton (by simp [depth])).append hclose
  · exact hclose

theorem endOfFile_not_mem (hitems : ∀ item ∈ items, item.Proper)
    (h : Runs levels last items written levels' last') :
    TokenKind.endOfFile ∉ written.map Token.kind := by
  intro hmem
  obtain ⟨found, hfound, hkind⟩ := List.mem_map.1 hmem
  rcases h.mem_written hfound with hfound | hfound
  · have := (hitems _ hfound).2
    rw [hkind] at this
    simp [TokenKind.isSolid] at this
  · simp [hkind] at hfound

theorem balanced_of_runs (hfinds : Scan.Finds .start pos cs items)
    (h : Runs [] none items written levels last) (stop : Nat) :
    Balanced ((written ++ ending stop levels last).map Token.kind) := by
  have hchained := chained_of_finds hfinds stop h (.inl ⟨rfl, rfl⟩)
  have hleads := (h.leads hfinds.proper).append (leads_ending stop levels last)
  rw [← List.map_append] at hleads
  refine ⟨?_, ?_, ?_, fun front behind heq => ?_, fun front behind heq => ?_,
    fun front behind heq => ?_⟩
  · refine ⟨written.map Token.kind ++
      ((if last.any (· ≠ .newline) then [TokenKind.newline] else []) ++
        List.replicate levels.length TokenKind.dedent), ?_, ?_⟩
    · rw [List.map_append, kinds_ending, List.append_assoc, List.append_assoc]
    · have := endOfFile_not_mem hfinds.proper h
      rw [List.mem_append, List.mem_append]
      rintro (hmem | hmem | hmem)
      · exact this hmem
      · split at hmem <;> simp at hmem
      · cases List.eq_of_mem_replicate hmem
  · have := hleads.depth
    unfold depth at this
    simp only [List.length_nil] at this
    omega
  · intro n
    have := hleads.nested n
    unfold depth at this
    simp only [List.length_nil] at this
    omega
  · rw [heq] at hchained
    simpa using hchained.split.1.newline rfl
  · rw [heq] at hchained
    refine ⟨by simpa using hchained.split.1.indent rfl, ?_⟩
    cases behind with
    | nil => exact absurd rfl hchained.split.2
    | cons next behind => exact ⟨next, rfl, hchained.split.2.1.behindIndent rfl⟩
  · rw [heq] at hchained
    simpa using hchained.split.1.dedent rfl

theorem Runs.top_eq {front : List Item}
    (h : Runs levels last (front ++ [Item.line width blanks span]) written levels' last') :
    top levels' = width := by
  obtain ⟨_, _, _, _, -, h, -⟩ := h.split
  cases h with
  | line hshift h =>
    cases h
    exact hshift.top_eq

/-- A line begins with a token, which is as deep as there are levels open. -/
theorem depthAt_line {front behind : List Item} (hfinds : Scan.Finds .start pos cs items)
    (hitems : items = front ++ .line width blanks span :: behind) {rest : List Token}
    (hfront : Runs [] none (front ++ [Item.line width blanks span]) written levels last)
    (hbehind : Runs levels last behind rest levels' last') (tail : List Token) :
    (∃ token ∈ rest, token.kind.isSolid = true ∧ token.span.start = span.stop) ∧
      depthAt (written ++ (rest ++ tail)) span.stop = levels.length := by
  obtain ⟨found, more, rfl, hsolid, hstart⟩ | ⟨_, rfl⟩ := hfinds.behind_line hitems
  · cases hbehind with
    | @token _ _ _ _ rest _ _ _ =>
      refine ⟨⟨found, List.mem_cons_self .., hsolid, hstart⟩, ?_⟩
      have hpairwise := hfinds.pairwise
      have hproper := hfinds.proper
      rw [hitems] at hpairwise hproper
      -- The tokens before the line end before its first token begins.
      have hbefore : ∀ token ∈ written,
          (!(token.kind.isSolid && token.span.start == span.stop)) = true := by
        intro token htoken
        rcases hfront.mem_written htoken with hmem | hkind | hkind
        · have hmem : Item.token token ∈ front := by simpa using hmem
          have hlt := (hproper _ (List.mem_append_left _ hmem)).1
          have hle : token.span.stop ≤ found.span.start :=
            (List.pairwise_append.1 hpairwise).2.2 _ hmem (.token found) (by simp)
          have hne : token.span.start ≠ span.stop := by omega
          simp [hne]
        · rw [hkind]
          rfl
        · rw [hkind]
          rfl
      have htake : (written ++ (found :: rest ++ tail)).takeWhile
          (fun token => !(token.kind.isSolid && token.span.start == span.stop)) = written := by
        rw [List.takeWhile_append_of_pos hbefore, List.cons_append, List.takeWhile_cons]
        simp [hsolid, hstart]
      have hleads := hfront.leads fun item hitem => hproper item (by
        rcases List.mem_append.1 hitem with hitem | hitem
        · exact List.mem_append_left _ hitem
        · simp [List.mem_singleton.1 hitem])
      rw [depthAt, htake]
      simpa using hleads.depth.symm
  · cases hbehind

theorem exists_of_logicalLines {before after : List LogicalLine}
    (h : items.filterMap Item.logicalLine? = before ++ line :: after) :
    ∃ (front : List Item) (blanks : String) (span : Span) (behind : List Item),
      items = front ++ .line line.width blanks span :: behind ∧ span.stop = line.offset ∧
      front.filterMap Item.logicalLine? = before ∧ behind.filterMap Item.logicalLine? = after := by
  obtain ⟨front, rest, rfl, hfront, hrest⟩ := List.filterMap_eq_append_iff.1 h
  obtain ⟨idle, item, behind, rfl, hidle, hitem, hbehind⟩ := List.filterMap_eq_cons_iff.1 hrest
  cases item with
  | line width blanks span =>
    cases hitem
    refine ⟨front ++ idle, blanks, span, behind, (List.append_assoc ..).symm, rfl, ?_, hbehind⟩
    rw [List.filterMap_append, hfront, List.filterMap_eq_nil_iff.2 hidle, List.append_nil]
  | token => cases hitem
  | stop => cases hitem

theorem Runs.ne_stop (h : Runs levels last items written levels' last') :
    ∀ item ∈ items, ∀ diagnostic, item ≠ .stop diagnostic := by
  induction h with
  | nil => simp
  | token _ ih | line _ _ ih => exact List.forall_mem_cons.2 ⟨by rintro _ ⟨⟩, ih⟩

/-- Of two stacks of levels, one of which begins with the other, the wider one is the deeper. -/
theorem Stacked.compare (h : Stacked levels) (hbase : base <:+ levels) :
    (levels.length = base.length ↔ top levels = top base) ∧
      (base.length < levels.length ↔ top base < top levels) := by
  have hle := hbase.length_le
  rcases Nat.lt_or_eq_of_le hle with hlt | heq
  · have := h.top_lt hbase hlt
    omega
  · rw [hbase.eq_of_length heq]
    simp

/-- Where the logical lines begin, for a text that has been arranged. -/
theorem exists_token_of_logicalLine (hfinds : Scan.Finds .start pos cs items)
    (h : Runs [] none items written levels last)
    (hline : line ∈ items.filterMap Item.logicalLine?) :
    ∃ token ∈ written, token.kind.isSolid = true ∧ token.span.start = line.offset := by
  obtain ⟨before, after, hsplit⟩ := List.append_of_mem hline
  obtain ⟨front, blanks, span, behind, hitems, hoffset, -⟩ := exists_of_logicalLines hsplit
  rw [hitems, List.append_cons] at h
  obtain ⟨first, next, last', rest, hfront, hbehind, rfl⟩ := h.split
  obtain ⟨⟨token, htoken, hsolid, hstart⟩, -⟩ := depthAt_line hfinds hitems hfront hbehind []
  exact ⟨token, List.mem_append_right _ htoken, hsolid, hstart.trans hoffset⟩

theorem followsWidth_of_runs (hfinds : Scan.Finds .start pos cs items)
    (h : Runs [] none items written levels last) (tail : List Token) :
    FollowsWidth (written ++ tail) (items.filterMap Item.logicalLine?) := by
  intro before line between later after hsplit hwidth
  obtain ⟨front, blanks, span, behind, hitems, hoffset, -, hbehind⟩ := exists_of_logicalLines hsplit
  obtain ⟨middle, blanks', span', rest, rfl, hoffset', hmiddle, -⟩ := exists_of_logicalLines hbehind
  -- The run up to the line, from there up to the later line, and the rest of it.
  rw [hitems, List.append_cons] at h
  obtain ⟨first, base, last₁, tokens, hfirst, hrest, rfl⟩ := h.split
  have hline := (depthAt_line hfinds hitems hfirst hrest tail).2
  rw [List.append_cons] at hrest
  obtain ⟨second, open₂, last₂, third, hsecond, hthird, rfl⟩ := hrest.split
  have hboth := hfirst.join hsecond
  rw [← List.append_assoc] at hboth
  rw [List.append_cons, ← List.append_assoc] at hitems
  have hlater := (depthAt_line hfinds hitems hboth hthird tail).2
  have hbase : base <:+ open₂ := by
    have hone : [Item.line later.width blanks' span'].filterMap Item.logicalLine? = [later] := by
      simp [Item.logicalLine?, hoffset']
    apply hsecond.isSuffix (List.suffix_refl _)
    rw [hfirst.top_eq, List.filterMap_append, hmiddle, hone]
    exact hwidth
  have hcompare := (hboth.stacked (List.pairwise_singleton _ _)).compare hbase
  rw [hboth.top_eq, hfirst.top_eq] at hcompare
  simp only [List.append_assoc] at hline hlater ⊢
  rw [← hoffset, ← hoffset', hline, hlater, Int.ofNat_inj, Int.ofNat_lt]
  exact hcompare

end Layout

/-- The layout of every text that can be split into tokens is well formed, and it follows the
indentation of the logical lines, each of which begins with a token. -/
theorem balanced_tokenize {text : String} {tokens : List Token} (h : tokenize text = .ok tokens) :
    Layout.Balanced (tokens.map Token.kind) ∧
    (∀ line ∈ LogicalLine.ofText text,
      ∃ token ∈ tokens, token.kind.isSolid = true ∧ token.span.start = line.offset) ∧
    Layout.FollowsWidth tokens (LogicalLine.ofText text) := by
  obtain ⟨written, levels, last, hruns, rfl⟩ := Layout.exists_runs h
  have hfinds := Scan.finds_lines 0 text.toList
  have hlines : _ = LogicalLine.ofText text := hfinds.logicalLines hruns.ne_stop
  rw [← hlines]
  refine ⟨Layout.balanced_of_runs hfinds hruns _, fun line hline => ?_,
    Layout.followsWidth_of_runs hfinds hruns _⟩
  obtain ⟨token, htoken, hstart⟩ := Layout.exists_token_of_logicalLine hfinds hruns hline
  exact ⟨token, List.mem_append_left _ htoken, hstart⟩

theorem balanced_tokenize_nested :
    let text := "loop:\n\tif (a <\nb):\n\r        stop # inner\n\n    done\nend"
    let lines := [⟨0, 0⟩, ⟨7, 4⟩, ⟨28, 8⟩, ⟨46, 4⟩, ⟨51, 0⟩]
    LogicalLine.ofText text = lines ∧ ∃ tokens, tokenize text = .ok tokens ∧
      Layout.Balanced (tokens.map Token.kind) ∧ Layout.FollowsWidth tokens lines ∧
      Layout.depthAt tokens 7 < Layout.depthAt tokens 28 ∧
      Layout.depthAt tokens 46 = Layout.depthAt tokens 7 := by
  intro text lines
  have hlines : LogicalLine.ofText text = lines := by decide +kernel
  have hsome : (tokenize text).toOption.isSome = true := by
    rw [tokenize_ofList]
    decide +kernel
  obtain ⟨tokens, htokens⟩ := Option.isSome_iff_exists.1 hsome
  have htokens := toOption_eq_some.1 htokens
  obtain ⟨hbalanced, -, hfollows⟩ := balanced_tokenize htokens
  rw [hlines] at hfollows
  refine ⟨hlines, tokens, htokens, hbalanced, hfollows, ?_, ?_⟩
  · exact (hfollows [⟨0, 0⟩] ⟨7, 4⟩ [] ⟨28, 8⟩ [⟨46, 4⟩, ⟨51, 0⟩] rfl (by decide)).2.2 (by decide)
  · exact (hfollows [⟨0, 0⟩] ⟨7, 4⟩ [⟨28, 8⟩] ⟨46, 4⟩ [⟨51, 0⟩] rfl (by decide)).1.2 rfl

end Cinder
