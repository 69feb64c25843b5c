import ScriptLint.Lint.Linter

/-!
# What linting returns

Unless a report without a place in the document is an error, linting returns the remapped reports of all calls, sorted
together with those on indentation.
-/
namespace ScriptLint
set_option autoImplicit false

/-- The diagnostic in terms of the document, if it has a place there. -/
def Remapper.diagnostic? (r : Remapper) (d : Diagnostic) : Option Diagnostic := (r.diagnostic d).toOption

namespace Linter

variable {linter : Linter} {analyzer : Analyzer}

def found (analyzer : Analyzer) (document : Document) (call : String × VirtualSource) : List Diagnostic :=
  (analyzer call.2.text call.1).filterMap (Remapper.mk document call.2).diagnostic?

theorem remapAll_eq_ok {strict : Bool} {r : Remapper} {reported : List Diagnostic}
    (h : strict = true → ∀ d ∈ reported, (r.diagnostic? d).isSome = true) :
    remapAll strict r reported = .ok (reported.filterMap r.diagnostic?) := by
  induction reported with
  | nil => rfl
  | cons d more ih =>
    have hMore := ih fun hStrict other hOther => h hStrict other (List.mem_cons_of_mem d hOther)
    cases hDiagnostic : r.diagnostic d with
    | ok remapped =>
      have hSome : r.diagnostic? d = some remapped := by rw [Remapper.diagnostic?, hDiagnostic]; rfl
      simp [remapAll, hDiagnostic, hMore, List.filterMap_cons_some hSome, Except.map]
    | error cause =>
      have hNone : r.diagnostic? d = none := by rw [Remapper.diagnostic?, hDiagnostic]; rfl
      have hLenient : ¬strict = true := by
        intro hStrict
        have hSome := h hStrict d List.mem_cons_self
        rw [hNone] at hSome
        cases hSome
      simp [remapAll, hDiagnostic, hMore, if_neg hLenient, List.filterMap_cons_none hNone]

theorem report_eq_ok {document : Document} {calls : List (String × VirtualSource)}
    (h : linter.strict = true → ∀ call ∈ calls, ∀ d ∈ analyzer call.2.text call.1,
      ((Remapper.mk document call.2).diagnostic? d).isSome = true) :
    linter.report analyzer document calls = .ok (calls.flatMap (found analyzer document)) := by
  induction calls with
  | nil => rfl
  | cons call more ih =>
    have hFirst := remapAll_eq_ok (r := ⟨document, call.2⟩) fun hStrict => h hStrict call List.mem_cons_self
    have hMore := ih fun hStrict other hOther => h hStrict other (List.mem_cons_of_mem call hOther)
    simp [report, hFirst, hMore, Except.map, found]

theorem lint_eq_ok {source : Bytes} {filename : String} {p : Prepared} {reported : List Diagnostic}
    (hPrepare : linter.prepare source filename = .ok p)
    (hReport : linter.report analyzer p.document (linter.sources p filename) = .ok reported) :
    linter.lint analyzer source filename =
      .ok (Diagnostic.sort (reported ++ if linter.settings.reportBadIndent then p.badIndent else [])) := by
  simp only [lint, hPrepare, hReport]

/-- Where reports without a place are dropped, linting a document that can be scanned never fails. -/
theorem lint_of_lenient {source : Bytes} {filename : String} {p : Prepared} (hLenient : linter.strict = false)
    (hPrepare : linter.prepare source filename = .ok p) :
    linter.lint analyzer source filename =
      .ok (Diagnostic.sort ((linter.sources p filename).flatMap (found analyzer p.document) ++
        if linter.settings.reportBadIndent then p.badIndent else [])) := by
  apply lint_eq_ok hPrepare
  apply report_eq_ok
  intro hStrict
  exact absurd (hLenient.symm.trans hStrict) Bool.false_ne_true

end Linter
end ScriptLint
