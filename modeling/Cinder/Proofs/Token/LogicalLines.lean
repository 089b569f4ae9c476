import Cinder.Proofs.Token.Scanning

/-!
# Logical lines

The lines that count for the layout of a text: those that start outside of parentheses and hold
a token.  They are read off the lines of the text, and scanning begins a line at exactly these.
-/

namespace Cinder

variable {cs front row : List Char}

/-- A line that counts for the layout: where its first token begins, and how far it is indented. -/
structure LogicalLine where
  offset : Nat
  width : Nat
deriving DecidableEq

namespace LogicalLine

/-! ## Rows of a text -/

def code (row : List Char) : List Char :=
  row.takeWhile (· ≠ '#')

def holdsToken (row : List Char) : Bool :=
  (code row).any (!Scan.isBlank ·)

/-- Parentheses that are open behind a row; an unmatched closing one is ignored. -/
def depthBehind (depth : Nat) (row : List Char) : Nat :=
  (code row).foldl Scan.nesting depth

/-- Columns of some blanks: one for a space, four for a tab, none for a carriage return. -/
def columns (blanks : List Char) : Nat :=
  blanks.count ' ' + 4 * blanks.count '\t'

/-- The line that a row would be if it counted. -/
def ofRow (pos : Nat) (row : List Char) : LogicalLine :=
  let blanks := row.takeWhile Scan.isBlank
  ⟨pos + Source.byteCount blanks, columns blanks⟩

/-- The lines among some rows, given the open parentheses and the offset where the rows start. -/
def ofRows (depth pos : Nat) : List (List Char) → List LogicalLine
  | [] => []
  | row :: rows =>
    let behind := ofRows (depthBehind depth row) (pos + Source.byteCount row + 1) rows
    if depth = 0 ∧ holdsToken row then ofRow pos row :: behind else behind

def ofText (text : String) : List LogicalLine :=
  ofRows 0 0 (text.toList.splitOn '\n')

/-- The lines behind a row, given the rest of the row. -/
def behindRow (depth pos : Nat) : List (List Char) → List LogicalLine
  | [] => []
  | row :: rows => ofRows (depthBehind depth row) (pos + Source.byteCount row + 1) rows

theorem code_append (h : ∀ c ∈ row, c ≠ '#') (rest : List Char) :
    code (row ++ rest) = row ++ code rest :=
  List.takeWhile_append_of_pos fun c hc => decide_eq_true (h c hc)

theorem mem_of_mem_code {c : Char} (h : c ∈ code row) : c ∈ row :=
  (List.takeWhile_sublist _).subset h

theorem code_remark (remark : List Char) : code ('#' :: remark) = [] :=
  rfl

theorem depthBehind_of_blanks (h : ∀ c ∈ code row, Scan.isBlank c = true) (depth : Nat) :
    depthBehind depth row = depth :=
  Scan.foldl_nesting_of_inner (fun c hc => .of_isBlank (h c hc)) depth

theorem ofRows_of_blanks (h : ∀ c ∈ code row, Scan.isBlank c = true) (depth pos : Nat)
    (rows : List (List Char)) :
    ofRows depth pos (row :: rows) = ofRows depth (pos + Source.byteCount row + 1) rows := by
  have hholds : holdsToken row = false := by
    simpa [holdsToken] using h
  rw [ofRows, hholds, depthBehind_of_blanks h]
  simp

theorem ofRows_of_ne_zero {depth : Nat} (h : depth ≠ 0) (pos : Nat) (rows : List (List Char)) :
    ofRows depth pos rows = behindRow depth pos rows := by
  cases rows with
  | nil => rfl
  | cons row rows => simp [ofRows, behindRow, h]

/-! ## Rows and steps -/

theorem exists_splitOn (cs : List Char) : ∃ row rows, cs.splitOn '\n' = row :: rows :=
  List.exists_cons_of_ne_nil (List.splitOn_ne_nil '\n' cs)

theorem splitOn_lineFeed (cs : List Char) : ('\n' :: cs).splitOn '\n' = [] :: cs.splitOn '\n' := by
  simp [List.splitOn, List.splitOnP_cons_eq_if_modifyHead]

theorem splitOn_append {rows : List (List Char)} (hcs : cs.splitOn '\n' = row :: rows)
    (hfront : ∀ c ∈ front, c ≠ '\n') :
    (front ++ cs).splitOn '\n' = (front ++ row) :: rows := by
  induction front with
  | nil => exact hcs
  | cons c front ih =>
    rw [List.forall_mem_cons] at hfront
    have hc : (c == '\n') = false := beq_false_of_ne hfront.1
    have ih := ih hfront.2
    simp only [List.splitOn] at ih ⊢
    rw [List.cons_append, List.splitOnP_cons_eq_if_modifyHead, hc, ih]
    rfl

theorem exists_splitOn_of_lineEnd (h : Scan.LineEnd cs) :
    ∃ rows, cs.splitOn '\n' = [] :: rows := by
  cases cs with
  | nil => exact ⟨[], rfl⟩
  | cons c cs =>
    rw [h c rfl]
    exact ⟨_, splitOn_lineFeed cs⟩

/-- What stands in a row before some text only moves the place and opens or closes parentheses. -/
theorem behindRow_append (hfront : ∀ c ∈ front, c ≠ '\n' ∧ c ≠ '#') (depth pos : Nat)
    (cs : List Char) :
    behindRow depth pos ((front ++ cs).splitOn '\n') =
      behindRow (front.foldl Scan.nesting depth) (pos + Source.byteCount front)
        (cs.splitOn '\n') := by
  obtain ⟨row, rows, hcs⟩ := exists_splitOn cs
  rw [splitOn_append hcs fun c hc => (hfront c hc).1, hcs, behindRow, behindRow, depthBehind,
    code_append (fun c hc => (hfront c hc).2), List.foldl_append, Source.byteCount_append,
    ← Nat.add_assoc]
  rfl

end LogicalLine

namespace Scan

open LogicalLine

theorem indentation_eq_columns (blanks : List Char) : indentation blanks = columns blanks := by
  induction blanks with
  | nil => rfl
  | cons c blanks ih =>
    have hcons : indentation (c :: blanks) = blankWidth c + indentation blanks := rfl
    rw [hcons, ih]
    unfold blankWidth columns
    rw [List.count_cons, List.count_cons]
    grind

def Item.logicalLine? : Item → Option LogicalLine
  | .line width _ span => some ⟨span.stop, width⟩
  | _ => none

def Place.logicalLines (pos : Nat) (cs : List Char) : Place → List LogicalLine
  | .start => ofRows 0 pos (cs.splitOn '\n')
  | .within depth => behindRow depth pos (cs.splitOn '\n')

theorem splitOn_remark {remark rest : List Char} (hfront : ∀ c ∈ front, c ≠ '\n')
    (hremark : ∀ c ∈ remark, inLine c = true) {rows : List (List Char)}
    (hrest : rest.splitOn '\n' = [] :: rows) :
    (front ++ '#' :: (remark ++ rest)).splitOn '\n' = (front ++ '#' :: remark) :: rows := by
  have hrow : ∀ c ∈ front ++ '#' :: remark, c ≠ '\n' := by
    intro c hc
    rcases List.mem_append.1 hc with hc | hc
    · exact hfront c hc
    · rcases List.mem_cons.1 hc with rfl | hc
      · decide
      · simpa [inLine] using hremark c hc
  have := splitOn_append hrest hrow
  rwa [List.append_nil, List.append_assoc] at this

theorem ne_of_blanks {blanks : List Char} (h : ∀ c ∈ blanks, isBlank c = true) :
    ∀ c ∈ blanks, c ≠ '\n' ∧ c ≠ '#' :=
  fun c hc => ⟨(Inner.of_isBlank (h c hc)).lineFeed, (Inner.of_isBlank (h c hc)).hash⟩

theorem ofRows_of_solid {blanks : List Char} (hblanks : ∀ c ∈ blanks, isBlank c = true) {c : Char}
    (hc : Solid c) (pos : Nat) (rest : List Char) :
    ofRows 0 pos ((blanks ++ c :: rest).splitOn '\n') =
      ⟨pos + Source.byteCount blanks, indentation blanks⟩ ::
        behindRow 0 (pos + Source.byteCount blanks) ((c :: rest).splitOn '\n') := by
  obtain ⟨row, rows, hrest⟩ := exists_splitOn rest
  have hrow := ne_of_blanks hblanks
  have hline : (c :: rest).splitOn '\n' = (c :: row) :: rows :=
    splitOn_append hrest (List.forall_mem_singleton.2 hc.lineFeed)
  have hsplit := splitOn_append hline fun d hd => (hrow d hd).1
  have hholds : holdsToken (blanks ++ c :: row) = true := by
    rw [holdsToken, code_append fun d hd => (hrow d hd).2, code, List.takeWhile_cons,
      if_pos (decide_eq_true hc.hash), List.any_append, List.any_cons, hc.blank]
    simp
  have hfirst : (blanks ++ c :: row).takeWhile isBlank = blanks := by
    rw [List.takeWhile_append_of_pos hblanks, List.takeWhile_cons, hc.blank]
    simp
  have hbehind := behindRow_append hrow 0 pos (c :: rest)
  rw [hsplit, foldl_nesting_of_inner fun d hd => .of_isBlank (hblanks d hd)] at hbehind
  rw [hsplit, ofRows, if_pos ⟨rfl, hholds⟩, ofRow, hfirst, indentation_eq_columns, ← hbehind]
  rfl

/-- Scanning begins a line at the logical lines of the text, in their order. -/
theorem Finds.logicalLines {place : Place} {pos : Nat} {items : List Item}
    (h : Finds place pos cs items) (hstop : ∀ item ∈ items, ∀ diagnostic, item ≠ .stop diagnostic) :
    items.filterMap Item.logicalLine? = place.logicalLines pos cs := by
  induction h with
  | @finish pos blanks hblanks =>
    have hsplit := splitOn_append (List.splitOn_nil '\n') fun c hc => (ne_of_blanks hblanks c hc).1
    rw [List.append_nil] at hsplit
    rw [Place.logicalLines, hsplit, ofRows_of_blanks fun c hc => hblanks c (mem_of_mem_code hc)]
    rfl
  | @empty pos blanks rest items hblanks _ ih =>
    have hsplit := splitOn_append (splitOn_lineFeed rest) fun c hc => (ne_of_blanks hblanks c hc).1
    rw [List.append_nil] at hsplit
    rw [ih hstop, Place.logicalLines, Place.logicalLines, hsplit,
      ofRows_of_blanks fun c hc => hblanks c (mem_of_mem_code hc)]
  | @remark pos blanks remark rest items hblanks hremark hrest _ ih =>
    obtain ⟨rows, hrows⟩ := exists_splitOn_of_lineEnd hrest
    have hrow := ne_of_blanks hblanks
    have hcode : code (blanks ++ '#' :: remark) = blanks := by
      rw [code_append fun c hc => (hrow c hc).2, code_remark, List.append_nil]
    have hnone : ∀ c ∈ code [], isBlank c = true := by simp [code]
    rw [ih hstop, Place.logicalLines, Place.logicalLines,
      splitOn_remark (fun c hc => (hrow c hc).1) hremark hrows, hrows, ofRows_of_blanks hnone,
      ofRows_of_blanks (hcode.symm ▸ hblanks)]
    simp [utf8Size_hash, Nat.add_assoc]
  | line hblanks hc _ ih =>
    rw [Place.logicalLines, ofRows_of_solid hblanks hc, List.filterMap_cons,
      ih (List.forall_mem_cons.1 hstop).2]
    rfl
  | stop => rfl
  | feed _ ih =>
    rw [Place.logicalLines, splitOn_lineFeed, List.filterMap_cons,
      ih (List.forall_mem_cons.1 hstop).2]
    rfl
  | wrap hdepth _ ih =>
    rw [ih hstop, Place.logicalLines, Place.logicalLines, splitOn_lineFeed,
      ← ofRows_of_ne_zero hdepth]
    rfl
  | @blank depth pos c rest items hc _ ih =>
    have hrow : ∀ d ∈ [c], isBlank d = true := List.forall_mem_singleton.2 hc
    have hbehind := behindRow_append (ne_of_blanks hrow) depth pos rest
    rw [foldl_nesting_of_inner fun d hd => .of_isBlank (hrow d hd)] at hbehind
    rw [ih hstop]
    simpa [Place.logicalLines, utf8Size_of_isBlank hc] using hbehind.symm
  | @comment depth pos remark rest items hremark hrest _ ih =>
    obtain ⟨rows, hrows⟩ := exists_splitOn_of_lineEnd hrest
    have hsplit : ('#' :: (remark ++ rest)).splitOn '\n' = ('#' :: remark) :: rows :=
      splitOn_remark (List.forall_mem_nil _) hremark hrows
    rw [ih hstop, Place.logicalLines, Place.logicalLines, hsplit, hrows, behindRow, behindRow,
      depthBehind_of_blanks (by simp [code]), depthBehind_of_blanks (by simp [code])]
    simp [utf8Size_hash, Nat.add_assoc]
  | @token depth pos c more rest kind items hc hlexeme _ ih =>
    have hspelt := spelt_lexeme hlexeme
    have hbehind := behindRow_append hspelt.line depth pos rest
    rw [hspelt.nesting] at hbehind
    rw [List.filterMap_cons, ih (List.forall_mem_cons.1 hstop).2]
    exact hbehind.symm
  | complaint => exact absurd rfl (hstop _ (List.mem_singleton_self _) _)

end Scan

end Cinder
