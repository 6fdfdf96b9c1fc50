import CommandTemplate.Proofs.Containment
import CommandTemplate.Proofs.CursorContract

namespace CommandTemplate

open Logged

/-- The tokens of a text, to be read by position. -/
def Tape.ofText (options : Options) (text : String) : Tape :=
  ⟨scan options.dialect text, text.toList.length, options.allowUnterminated⟩

theorem Tape.ofText_ordered (options : Options) (text : String) :
    (Tape.ofText options text).Ordered := by
  intro i j t u hij ht hu
  have htiles := scan_tiles options.dialect text
  have hfirst := htiles.bounds t (List.mem_of_getElem? ht)
  have hlast := htiles.bounds u (List.mem_of_getElem? hu)
  rcases Nat.eq_or_lt_of_le hij with rfl | hlt
  · obtain rfl : t = u := Option.some.inj (ht.symm.trans hu)
    omega
  · have horder : t.stop ≤ u.start := by
      obtain ⟨hi, rfl⟩ := List.getElem?_eq_some_iff.mp ht
      obtain ⟨hj, rfl⟩ := List.getElem?_eq_some_iff.mp hu
      exact List.pairwise_iff_getElem.mp htiles.ordered i j hi hj hlt
    omega

/-- On the tokens of a text no difference that reading by position takes is negative. -/
theorem Tape.readTokens_exact (options : Options) (text : String) {rounds : Nat}
    (hr : (scan options.dialect text).length + 3 ≤ rounds) :
    ∃ result c, (Tape.ofText options text).readTokens rounds = some (result, c) ∧
      c.exact = true ∧
      result = (parseTokens options.allowUnterminated (scan options.dialect text)
        text.toList.length).result.mapError .problem ∧
      c.log = (parseTokens options.allowUnterminated (scan options.dialect text)
        text.toList.length).log := by
  obtain ⟨c, hread, ⟨hlog, _, hexact⟩, _⟩ := (Tape.ofText options text).readTokens_agrees hr
  exact ⟨_, c, hread, hexact (Tape.ofText_ordered options text) rfl, rfl, hlog⟩

/-- A mistake that is located in a text of the given length. -/
def Diagnostic.LiesIn (length : Nat) (d : Diagnostic) : Prop :=
  d.severity = .error ∧ d.locatable = true ∧ d.code.isSome = true ∧
    ∃ span, d.span = some span ∧ span.start + span.length ≤ length

/-- Every report lies in the text, every difference taken on the way to it is exact, and a parse
that gives up says so at the last character. -/
theorem compile_locations (options : Options) (text : String) :
    (∀ d ∈ (compile options text).diagnostics, d.LiesIn text.toList.length) ∧
    (∀ rounds, (scan options.dialect text).length + 3 ≤ rounds →
      ∃ result c, (Tape.ofText options text).readTokens rounds = some (result, c) ∧
        c.exact = true ∧
        result = (parseTokens options.allowUnterminated (scan options.dialect text)
          text.toList.length).result.mapError .problem ∧
        c.log = (parseTokens options.allowUnterminated (scan options.dialect text)
          text.toList.length).log) ∧
    ((compile options text).tree = none →
      ∃ d, (compile options text).diagnostics.getLast? = some d ∧
        d.span = some ⟨text.toList.length - 1, 0⟩) := by
  refine ⟨?_, fun _ => Tape.readTokens_exact options text, ?_⟩
  · intro d hd
    obtain ⟨p, span, rfl, hfound⟩ := exists_found hd
    exact ⟨rfl, rfl, rfl, span, rfl, hfound.inside⟩
  · intro hnone
    cases hr : (parseTokens options.allowUnterminated (scan options.dialect text)
        text.toList.length).result with
    | ok tree =>
      rw [(compile_ok hr).1] at hnone
      cases hnone
    | error p =>
      refine ⟨giveUp text.toList.length p, ?_, rfl⟩
      rw [(compile_error hr).2, List.getLast?_concat]

end CommandTemplate
