/-
# PlainRequest.Proofs.Json.Canonical — reformatting keeps the value and forgets the layout

A text that is reformatted is read, and the value is written. What is written spells the value that was
read, so it is read again as this value and no other; how the text was laid out, in which order its
members stood and how its strings were escaped is gone. So reformatting a second time, in any style, is
reformatting the first text in that style.
-/

import PlainRequest.Proofs.Json.Meaning

namespace PlainRequest.Json

/-- **Reformatting is canonical.** Whether it succeeds does not depend on the style. What comes out is
JSON with the value of the text, each of the two spelling one tree and no other; reformatted in another
style it is what the text is in that style; and reformatted in the same style it stays as it is. -/
theorem reformat?_canonical {text : Text} (style other : Style)
    (hkeys : ∀ tree, Spells text tree → numberKey ∉ keys tree) :
    ((reformat? style text).isSome ↔ (reformat? other text).isSome) ∧
      ∀ out, reformat? style text = some out →
        (∃ tree value, (∀ spelled, Spells text spelled ↔ spelled = tree) ∧
          (∀ spelled, Spells out spelled ↔ spelled = value) ∧ SameValue tree value) ∧
          reformat? other out = reformat? other text ∧ reformat? style out = some out := by
  constructor
  · rw [reformat?, reformat?, Option.isSome_map, Option.isSome_map]
  · intro out hout
    obtain ⟨value, hvalue, rfl⟩ := Option.map_eq_some_iff.mp hout
    obtain ⟨tree, htree, hreads⟩ := exists_spells_of_ofText? hvalue
    obtain ⟨hsame, hno⟩ := hreads (hkeys tree htree)
    have hreadable := readable_of_ofText? hvalue
    have hagain : ofText? (write style 0 value) = some value := ofText?_write style hreadable hno
    have hspells : Spells (write style 0 value) value :=
      spells_iff.mpr (tokens?_write style hreadable)
    refine ⟨⟨tree, value, htree.iff_eq, hspells.iff_eq, hsame⟩, ?_, ?_⟩
    · rw [reformat?, reformat?, hagain, hvalue]
    · rw [reformat?, hagain]
      rfl

/-- A key that is written twice, and an exponent that is written in another way. -/
theorem reformat?_canonical_object :
    (∀ tree, Spells "\x7b\"b\":1E5,\"a\":0,\"a\":[]\x7d".toList tree → numberKey ∉ keys tree) ∧
      reformat? ⟨1, false⟩ "\x7b\"b\":1E5,\"a\":0,\"a\":[]\x7d".toList =
        some "\x7b\n \"a\": [],\n \"b\": 1e+5\n\x7d".toList ∧
      (∃ tree value,
        (∀ spelled, Spells "\x7b\"b\":1E5,\"a\":0,\"a\":[]\x7d".toList spelled ↔ spelled = tree) ∧
        (∀ spelled, Spells "\x7b\n \"a\": [],\n \"b\": 1e+5\n\x7d".toList spelled ↔
          spelled = value) ∧ SameValue tree value) ∧
      reformat? ⟨0, true⟩ "\x7b\n \"a\": [],\n \"b\": 1e+5\n\x7d".toList =
        reformat? ⟨0, true⟩ "\x7b\"b\":1E5,\"a\":0,\"a\":[]\x7d".toList := by
  have htokens : tokens? "\x7b\"b\":1E5,\"a\":0,\"a\":[]\x7d".toList =
      some [.openObject, .string ['b'], .colon, .number "1e+5".toList, .comma, .string ['a'],
        .colon, .number ['0'], .comma, .string ['a'], .colon, .openArray, .closeArray,
        .closeObject] := by
    decide +kernel
  have hkeys : ∀ tree, Spells "\x7b\"b\":1E5,\"a\":0,\"a\":[]\x7d".toList tree →
      numberKey ∉ keys tree := by
    intro tree htree hmem
    have heq := htokens.symm.trans (spells_iff.mp htree)
    have hstring := string_mem_toTokens tree hmem
    rw [← Option.some.inj heq] at hstring
    exact absurd hstring (by decide)
  have hout : reformat? ⟨1, false⟩ "\x7b\"b\":1E5,\"a\":0,\"a\":[]\x7d".toList =
      some "\x7b\n \"a\": [],\n \"b\": 1e+5\n\x7d".toList := by
    rw [reformat?, ofText?, htokens]
    decide +kernel
  obtain ⟨hvalue, hother, -⟩ := (reformat?_canonical ⟨1, false⟩ ⟨0, true⟩ hkeys).2 _ hout
  exact ⟨hkeys, hout, hvalue, hother⟩

/-- The minus sign of a zero is part of the spelling. -/
example : reformat? ⟨2, true⟩ "-0".toList = some "-0".toList := by decide +kernel

example : reformat? ⟨2, true⟩ "[-0]".toList = some "[\n  -0\n]".toList := by decide +kernel

end PlainRequest.Json
