import BuildWatch.Proofs.Json.Cut
import BuildWatch.Proofs.Record.Payload
import BuildWatch.Proofs.Sample

namespace BuildWatch

open Json

namespace Record

/-- The payload up to its closing bracket, wherever it is cut, and the payload with more after it
than blanks are no JSON. Blanks around it change nothing. -/
theorem parseAll_of_cut {payload : Bytes} {records : List Record}
    (h : parseAll payload = .ok records) :
    ∃ body blanks, payload = body ++ 0x5d :: blanks ∧ Blank blanks ∧
      (∀ cut, cut <+: body → ∃ fault, parseAll cut = .error (.json fault)) ∧
      (∀ more, ¬Blank more → ∃ fault, parseAll (payload ++ more) = .error (.json fault)) ∧
      ∀ before after, Blank before → Blank after →
        parseAll (before ++ payload ++ after) = .ok records := by
  obtain ⟨items, htext, hitems⟩ := parseAll_eq_ok_iff.mp h
  obtain ⟨before, inner, blanks, hbefore, hblanks, hspelled, rfl⟩ := htext.exists_bracket
  refine ⟨before ++ 0x5b :: inner, blanks, rfl, hblanks, ?_, ?_, ?_⟩
  · intro cut hcut
    exact parseAll_of_not_text fun ⟨v, hv⟩ => not_isText_of_cut hbefore hspelled hcut v hv
  · intro more hmore
    exact parseAll_of_not_text fun ⟨v, hv⟩ => hmore (blank_of_isText_append hbefore hspelled v hv)
  · intro before' after' hbefore' hafter'
    exact parseAll_eq_ok_iff.mpr ⟨items, htext.surround hbefore' hafter', hitems⟩

theorem parseAll_of_cut_sample :
    parseAll Sample.failing.stdout = .ok [⟨"A", 1, 0, "", []⟩] ∧
      ∃ fault, parseAll (Sample.failing.stdout ++ Utf8.encodeString "]") = .error (.json fault) := by
  have h : parseAll Sample.failing.stdout = .ok [⟨"A", 1, 0, "", []⟩] := rfl
  obtain ⟨_, _, _, _, _, hmore, _⟩ := parseAll_of_cut h
  exact ⟨h, hmore _ fun hblank => absurd (hblank 0x5d (by decide)) (by decide)⟩

end Record

end BuildWatch
