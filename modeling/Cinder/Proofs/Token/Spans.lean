import Cinder.Proofs.Except
import Cinder.Proofs.Token.Scanning

/-!
# Spans of tokens

Every token stands where its span says, and a text that cannot be split into tokens is
complained about at one of its own spans.
-/

namespace Cinder

namespace Scan

theorem Finds.within {place : Place} {pos : Nat} {text cs : List Char} {items : List Item}
    (h : Finds place pos cs items) (before : List Char) (htext : text = before ++ cs)
    (hpos : pos = Source.byteCount before) : ∀ item ∈ items, item.span.Within text := by
  induction h generalizing before with
  | finish | stop => simp
  | @empty _ blanks _ _ _ _ ih =>
    apply ih (before ++ blanks ++ ['\n'])
    · simpa using htext
    · simp [hpos, utf8Size_lineFeed, Nat.add_assoc]
  | @remark _ blanks remark _ _ _ _ _ _ ih =>
    apply ih (before ++ blanks ++ '#' :: remark)
    · simpa using htext
    · simp [hpos, utf8Size_hash, Nat.add_assoc]
  | @line _ blanks _ _ _ _ _ _ ih =>
    rw [hpos]
    refine List.forall_mem_cons.2 ⟨Span.Within.of_append htext, ih (before ++ blanks) ?_ ?_⟩
    · simpa using htext
    · simp [hpos]
  | feed _ ih =>
    have hnext : Source.byteCount before + 1 = Source.byteCount (before ++ ['\n']) := by
      simp [utf8Size_lineFeed]
    rw [List.append_cons, List.append_assoc] at htext
    rw [hpos]
    refine List.forall_mem_cons.2 ⟨Span.Within.of_append htext, ?_⟩
    apply ih (before ++ ['\n'])
    · simpa using htext
    · rw [hpos, hnext]
  | wrap _ _ ih =>
    apply ih (before ++ ['\n'])
    · simpa using htext
    · simp [hpos, utf8Size_lineFeed]
  | @blank _ _ c _ _ hc _ ih =>
    apply ih (before ++ [c])
    · simpa using htext
    · simp [hpos, utf8Size_of_isBlank hc]
  | @comment _ _ remark _ _ _ _ _ ih =>
    apply ih (before ++ '#' :: remark)
    · simpa using htext
    · simp [hpos, utf8Size_hash, Nat.add_assoc]
  | @token _ _ c more _ _ _ _ _ _ ih =>
    rw [hpos]
    refine List.forall_mem_cons.2 ⟨Span.Within.of_append htext, ih (before ++ c :: more) ?_ ?_⟩
    · simpa using htext
    · rw [hpos, Source.byteCount_append]
  | @complaint _ _ c =>
    rw [List.append_cons, List.append_assoc] at htext
    rw [hpos]
    exact List.forall_mem_singleton.2 (Span.Within.of_append htext)

end Scan

/-! ## Layout -/

namespace Layout

/-- Layout places the tokens that it adds where a line begins or at the end of the text. -/
theorem delivers_arrange {P : Span → Prop} {stop : Nat} (hstop : P ⟨stop, stop⟩)
    {items : List Scan.Item} (hitems : ∀ item ∈ items, P item.span) (levels : List Nat)
    (last : Option TokenKind) :
    Delivers (fun tokens => ∀ token ∈ tokens, P token.span) (fun diagnostic => P diagnostic.span)
      (arrange stop levels last items) := by
  induction items generalizing levels last with
  | nil =>
    intro token htoken
    simp only [List.mem_append, List.mem_map, List.mem_singleton] at htoken
    rcases htoken with (hnewline | ⟨level, _, rfl⟩) | rfl
    · split at hnewline
      · rw [List.mem_singleton.1 hnewline]
        exact hstop
      · cases hnewline
    · exact hstop
    · exact hstop
  | cons item items ih =>
    rw [List.forall_mem_cons] at hitems
    obtain ⟨hitem, hitems⟩ := hitems
    cases item with
    | token found =>
      apply Delivers.bind (ih hitems _ _)
      intro tokens htokens
      exact List.forall_mem_cons.2 ⟨hitem, htokens⟩
    | stop diagnostic => exact hitem
    | line width blanks span =>
      rw [arrange]
      split
      · apply Delivers.bind (ih hitems _ _)
        intro tokens htokens
        exact List.forall_mem_cons.2 ⟨hitem, htokens⟩
      · split
        · exact hitem
        · exact ih hitems _ _
        · apply Delivers.bind (ih hitems _ _)
          intro tokens htokens
          apply List.forall_mem_append.2 ⟨?_, htokens⟩
          intro token htoken
          rw [List.eq_of_mem_replicate htoken]
          exact hitem

end Layout

theorem delivers_tokenize (text : String) :
    Delivers (fun tokens => ∀ token ∈ tokens, token.span.Within text.toList)
      (fun diagnostic => diagnostic.span.Within text.toList) (tokenize text) := by
  apply Layout.delivers_arrange (P := fun span => span.Within text.toList)
  · rw [← Source.byteCount_toList]
    exact .empty (.byteCount _)
  · exact (Scan.finds_lines 0 text.toList).within [] rfl rfl

end Cinder
