/-
# PlainRequest.Proofs.Http.Rendering — a rendered response shows all that came back

What is shown of a body depends on two things, the body and the media type that the headers announce:
the first header of that name, up to its parameters. A body that is announced as JSON, and is, is shown
in the layout of the settings. Every other body is shown to the last character, line feeds included, so
it can be put together again from the lines. Behind it stand the status and all headers, in order, and
they change nothing in front of them.
-/

import PlainRequest.Http.Rendered
import PlainRequest.Proofs.Http.MediaType
import PlainRequest.Proofs.Text.Cutting

namespace PlainRequest

open Text

/-! ## What is shown of a body -/

/-- **`AnnouncesJson type`** — the media type ends with `json` or `javascript`, in any letter case. -/
def AnnouncesJson (type : Text) : Prop :=
  ∃ front ending, type = front ++ ending ∧
    (agreeIgnoringCase ending "json".toList = true ∨
      agreeIgnoringCase ending "javascript".toList = true)

/-- **`Shows settings type body shown`** — what is shown of a body: the body itself, or the layout of the
settings, if it is announced as JSON and is. -/
inductive Shows (settings : JsonSettings) (type body : Text) : Text → Prop
  | laidOut {json : Text} (htype : AnnouncesJson type)
      (hjson : Json.reformat? ⟨settings.indentWidth, settings.escapeNonAscii⟩ body = some json) :
      Shows settings type body json
  | asItCame (h : ¬ AnnouncesJson type ∨
        Json.reformat? ⟨settings.indentWidth, settings.escapeNonAscii⟩ body = none) :
      Shows settings type body body

theorem Shows.eq_laidOut {settings : JsonSettings} {type body shown json : Text}
    (h : Shows settings type body shown) (htype : AnnouncesJson type)
    (hjson : Json.reformat? ⟨settings.indentWidth, settings.escapeNonAscii⟩ body = some json) :
    shown = json := by
  cases h with
  | laidOut _ hlaid => exact Option.some.inj (hlaid.symm.trans hjson)
  | asItCame hnot =>
      rcases hnot with hnot | hnone
      · exact absurd htype hnot
      · rw [hjson] at hnone
        cases hnone

namespace Rendered

/-- An ending in small letters, looked for in a text in small letters. -/
theorem endsWith_lower_iff {ending type : Text} (h : lower ending = ending) :
    endsWith ending (lower type) = true ↔
      ∃ front back, type = front ++ back ∧ agreeIgnoringCase back ending = true := by
  rw [endsWith, Option.isSome_iff_exists]
  constructor
  · rintro ⟨front, hfront⟩
    obtain ⟨before, back, rfl, -, hback⟩ :=
      List.map_eq_append_iff.mp (stripSuffix?_eq_some_iff.mp hfront)
    exact ⟨before, back, rfl, beq_iff_eq.mpr (Eq.trans hback h.symm)⟩
  · rintro ⟨front, back, rfl, hagree⟩
    refine ⟨lower front, stripSuffix?_eq_some_iff.mpr ?_⟩
    rw [lower, List.map_append]
    exact congrArg _ ((beq_iff_eq.mp hagree).trans h)

theorem isJsonType_iff {type : Text} : isJsonType type = true ↔ AnnouncesJson type := by
  rw [isJsonType, Bool.or_eq_true, endsWith_lower_iff (by decide), endsWith_lower_iff (by decide)]
  constructor
  · rintro (⟨front, ending, htype, hending⟩ | ⟨front, ending, htype, hending⟩)
    · exact ⟨front, ending, htype, .inl hending⟩
    · exact ⟨front, ending, htype, .inr hending⟩
  · rintro ⟨front, ending, htype, hending | hending⟩
    · exact .inl ⟨front, ending, htype, hending⟩
    · exact .inr ⟨front, ending, htype, hending⟩

theorem shows_bodyText (settings : JsonSettings) (type body : Text) :
    Shows settings type body (bodyText settings type body) := by
  unfold bodyText
  split
  · next htype =>
      cases hjson : Json.reformat? (jsonStyle settings) body with
      | none => exact .asItCame (.inr hjson)
      | some json => exact .laidOut (isJsonType_iff.mp htype) hjson
  · next htype => exact .asItCame (.inl fun h => htype (isJsonType_iff.mpr h))

/-- **The media type that is reported**: that of JSON for all that is announced as such. -/
def reportedType (type : Text) : Text := if isJsonType type then jsonType else type

theorem reportedType_eq_jsonType_iff {type : Text} :
    reportedType type = "application/json".toList ↔ AnnouncesJson type := by
  rw [← isJsonType_iff, reportedType]
  constructor
  · intro h
    split at h
    · next htype => exact htype
    · rw [h]
      decide
  · intro h
    rw [if_pos h]
    rfl

theorem reportedType_of_not {type : Text} (h : ¬ AnnouncesJson type) : reportedType type = type := by
  rw [reportedType, if_neg fun htype => h (isJsonType_iff.mp htype)]

/-- **Rendering loses nothing.** Every response has one announced media type. That and the body decide
the lines in front, which make up what is shown of the body and no more; the reported media type, which
is the one of JSON just if JSON is announced; and the language. The status and the headers, one line
for each and in order, stand behind an empty line. -/
theorem ofResponse_lossless (settings : JsonSettings) :
    (∀ headers, ∃ type, Announces headers type ∧ ∀ other, Announces headers other → other = type) ∧
    ∀ type body : Text, ∃ shown mediaType language,
      shown ≠ [] ∧ (∀ line ∈ shown, '\n' ∉ line) ∧
      Shows settings type body (joinWith ['\n'] shown) ∧
      (mediaType = "application/json".toList ↔ AnnouncesJson type) ∧
      (¬ AnnouncesJson type → mediaType = type) ∧
      ∀ response : Response, response.body = body → Announces response.headers type →
        ofResponse settings response =
          { lines := shown ++ [[], "// status code: ".toList ++ Nat.toDigits 10 response.status]
              ++ response.headers.map fun (name, value) => "// ".toList ++ name ++ ": ".toList ++ value
            contentType := mediaType
            language := language
            status := response.status } := by
  constructor
  · intro headers
    let response : Response := ⟨0, headers, []⟩
    refine ⟨response.contentType, response.announces_contentType, ?_⟩
    intro other hother
    exact (Response.contentType_of_announces (show Announces response.headers other from hother)).symm
  · intro type body
    refine ⟨splitAll '\n' (bodyText settings type body), reportedType type,
      languageOf settings (reportedType type), splitAll_ne_nil _ _,
      fun line hline => separator_notMem_of_mem_splitAll hline, ?_, reportedType_eq_jsonType_iff,
      reportedType_of_not, ?_⟩
    · rw [joinWith_splitAll]
      exact shows_bodyText settings type body
    · rintro response rfl htype
      rw [← Response.contentType_of_announces htype, ofResponse, commentLines, reportedType]
      simp only [List.append_assoc, List.cons_append, List.nil_append]

/-- A media type that ends with `json` or `javascript`, up to case, announces JSON; here the second, in
two responses that have nothing else in common but the body. -/
theorem ofResponse_lossless_javascript :
    let ok : Response := ⟨200, [("x".toList, "1".toList),
      ("content-TYPE".toList, " text/JavaScript\t; a=;".toList),
      ("Content-Type".toList, "text/html".toList)], "[1]\r\n".toList⟩
    let missing : Response := ⟨404, [("Content-Type".toList, "text/JavaScript".toList)],
      "[1]\r\n".toList⟩
    Announces ok.headers "text/JavaScript".toList ∧
    Announces missing.headers "text/JavaScript".toList ∧
    ∃ shown, joinWith ['\n'] shown = "[\n  1\n]".toList ∧
      (ofResponse {} ok).lines = shown ++ [[], "// status code: 200".toList, "// x: 1".toList,
        "// content-TYPE:  text/JavaScript\t; a=;".toList, "// Content-Type: text/html".toList] ∧
      (ofResponse {} missing).lines = shown ++ [[], "// status code: 404".toList,
        "// Content-Type: text/JavaScript".toList] ∧
      (ofResponse {} ok).contentType = "application/json".toList := by
  intro ok missing
  have hok : Announces ok.headers "text/JavaScript".toList :=
    .first [("x".toList, "1".toList)] [("Content-Type".toList, "text/html".toList)]
      "content-TYPE".toList " text/JavaScript\t".toList "; a=;".toList rfl (by decide) rfl
      (by decide) (fun _ hc => (Option.some.inj hc).symm)
      ⟨[' '], ['\t'], rfl, rfl, rfl, .inr (by decide +kernel)⟩
  have hmissing : Announces missing.headers "text/JavaScript".toList :=
    .first [] [] "Content-Type".toList "text/JavaScript".toList [] rfl (by simp) rfl (by decide)
      (by simp) ⟨[], [], rfl, rfl, rfl, .inr (by decide +kernel)⟩
  have hjson : AnnouncesJson "text/JavaScript".toList :=
    ⟨"text/".toList, "JavaScript".toList, rfl, .inr rfl⟩
  obtain ⟨-, hall⟩ := ofResponse_lossless {}
  obtain ⟨shown, mediaType, language, -, -, hshows, hmedia, -, heach⟩ :=
    hall "text/JavaScript".toList "[1]\r\n".toList
  refine ⟨hok, hmissing, shown, ?_, ?_, ?_, ?_⟩
  · exact hshows.eq_laidOut hjson (by decide +kernel)
  · rw [heach ok rfl hok]
    exact (List.append_assoc shown _ _).trans (congrArg (shown ++ ·) (by decide))
  · rw [heach missing rfl hmissing]
    exact (List.append_assoc shown _ _).trans (congrArg (shown ++ ·) (by decide))
  · rw [heach ok rfl hok]
    exact hmedia.mpr hjson

end Rendered

end PlainRequest
