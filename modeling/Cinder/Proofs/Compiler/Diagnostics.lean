import Cinder.Compiler.Compile
import Cinder.Proofs.Typing.Checking

/-!
# Diagnostics

Binding names and checking types complain about spans of the tree that they are given, and a
parsed tree has its spans from its text.  So a text that is rejected is rejected at some of
its own characters, and the report shows the row and the column where they begin.
-/

namespace Cinder

theorem Program.delivers_requireMain {σ τ : Type} {P : Span → Prop} {program : Program σ τ}
    (hstart : P ⟨0, 0⟩)
    (h : ∀ function ∈ program.functions, P function.name.span) :
    Delivers (fun _ => True) (fun diagnostic => P diagnostic.span) program.requireMain := by
  unfold requireMain
  split
  · exact hstart
  · rename_i function hfunction
    split
    · exact trivial
    · exact h function (List.mem_of_find?_eq_some hfunction)

/-! ## Reading programs -/

theorem delivers_accept (text : String) :
    Delivers (fun _ => True) (Failure.Spanned fun span => span.Within text.toList)
      (accept text) := by
  apply Delivers.bind (Program.delivers_ofSource text)
  intro result hresult
  apply Delivers.bind (delivers_lift_diagnostic (Program.delivers_requireMain
    (P := fun span => span.Within text.toList) (.empty (.zero _))
    fun function hfunction => (hresult function hfunction).1))
  intro _ _
  exact trivial

/-- A program that is rejected is rejected at a span of its text that begins and ends between
characters.  Reporting it works, and the report shows the row and the column where the span
begins. -/
theorem exists_report_of_rejected {source : Source} {diagnostic : Diagnostic}
    (hsize : source.contents.utf8ByteSize ≤ Source.maxTextSize)
    (h : accept source.contents = .error (.rejected diagnostic)) :
    diagnostic.span.start ≤ diagnostic.span.stop ∧
      diagnostic.span.stop ≤ source.contents.utf8ByteSize ∧
      String.Pos.Raw.IsValid source.contents ⟨diagnostic.span.start⟩ ∧
      String.Pos.Raw.IsValid source.contents ⟨diagnostic.span.stop⟩ ∧
      ∃ shown row column rest, diagnostic.report source = some shown ∧
        shown.toPlain = source.heading diagnostic.complaint.message row column ++ rest ∧
        Source.Locates source.contents.toList diagnostic.span.start row column := by
  have hwithin : diagnostic.span.Within source.contents.toList :=
    (delivers_accept source.contents).of_error h
  refine ⟨hwithin.le, ?_, hwithin.start.isValid, hwithin.stop.isValid, ?_⟩
  · rw [← Source.byteCount_toList]
    exact hwithin.stop.le
  · exact Source.exists_report _ hwithin hsize

/-- A text with a letter that no token starts with, behind a comment that has one as well. -/
def strayLetter : Source :=
  ⟨"# π\nfun main() @s32:\n    return é\n", none⟩

theorem exists_report_of_rejected_strayLetter :
    accept strayLetter.contents = .error (.rejected ⟨.strayCharacter 'é', ⟨33, 35⟩⟩) ∧
      String.Pos.Raw.IsValid strayLetter.contents ⟨33⟩ ∧
      String.Pos.Raw.IsValid strayLetter.contents ⟨35⟩ ∧
      ∃ shown row column rest,
        Diagnostic.report ⟨.strayCharacter 'é', ⟨33, 35⟩⟩ strayLetter = some shown ∧
        shown.toPlain =
          strayLetter.heading (Complaint.strayCharacter 'é').message row column ++ rest ∧
        Source.Locates strayLetter.contents.toList 33 row column := by
  have htokens : tokenize strayLetter.contents = .error ⟨.strayCharacter 'é', ⟨33, 35⟩⟩ := by
    decide +kernel
  have h : accept strayLetter.contents = .error (.rejected ⟨.strayCharacter 'é', ⟨33, 35⟩⟩) := by
    rw [accept, Program.ofSource, Program.parse, htokens]
    rfl
  have hsize : strayLetter.contents.utf8ByteSize ≤ Source.maxTextSize := by decide
  obtain ⟨_, _, hstart, hstop, hreport⟩ := exists_report_of_rejected hsize h
  exact ⟨h, hstart, hstop, hreport⟩

end Cinder
