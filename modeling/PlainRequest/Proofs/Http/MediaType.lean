/-
# PlainRequest.Proofs.Http.MediaType — the media type that headers announce

Of the headers for a media type the first one counts, up to its parameters. A relation says which type
that is, by where the header and the piece of its value stand; a response has just this type.
-/

import PlainRequest.Http.Response
import PlainRequest.Proofs.Text.Trimming

namespace PlainRequest

open Text

/-- Does the header announce a media type? Its name may be written in any letter case. -/
def announces (header : Text × Text) : Bool := agreeIgnoringCase header.1 "Content-Type".toList

/-- **`Announces headers type`** — the media type that headers announce: none, or the first value of a
header for it, up to a semicolon and without the white space around it. -/
inductive Announces (headers : List (Text × Text)) : Text → Prop
  | nothing (hnone : ∀ header ∈ headers, announces header = false) : Announces headers []
  | first {type : Text} (before after : List (Text × Text)) (name piece parameters : Text)
      (hheaders : headers = before ++ (name, piece ++ parameters) :: after)
      (hbefore : ∀ header ∈ before, announces header = false)
      (hname : announces (name, piece ++ parameters) = true)
      (hpiece : ';' ∉ piece) (hparameters : ∀ c ∈ parameters.head?, c = ';')
      (htrim : IsTrim piece type) : Announces headers type

/-- What stands in front of the parameters. -/
theorem takeWhile_eq_piece {piece parameters : Text} (hpiece : ';' ∉ piece)
    (hparameters : ∀ c ∈ parameters.head?, c = ';') :
    (piece ++ parameters).takeWhile (· ≠ ';') = piece := by
  have hkeep : ∀ c ∈ piece, decide (c ≠ ';') = true := by
    intro c hc
    simpa using ne_of_mem_of_not_mem hc hpiece
  rw [List.takeWhile_append_of_pos hkeep]
  cases parameters with
  | nil => simp
  | cons c rest => simp [hparameters c rfl]

namespace Response

theorem contentType_eq (response : Response) :
    response.contentType = ((response.headers.find? announces).map fun header =>
      trim (header.2.takeWhile (· ≠ ';'))).getD [] := by
  have hheader : response.header? "Content-Type".toList =
      (response.headers.find? announces).map Prod.snd := rfl
  rw [contentType, hheader]
  cases response.headers.find? announces <;> rfl

theorem announces_contentType (response : Response) :
    Announces response.headers response.contentType := by
  rw [contentType_eq]
  cases hfind : response.headers.find? announces with
  | none =>
      rw [List.find?_eq_none] at hfind
      exact .nothing fun header hmem => by simpa using hfind header hmem
  | some header =>
      obtain ⟨name, value⟩ := header
      obtain ⟨hname, before, after, hheaders, hbefore⟩ := List.find?_eq_some_iff_append.mp hfind
      have hvalue : value.takeWhile (· ≠ ';') ++ value.dropWhile (· ≠ ';') = value :=
        List.takeWhile_append_dropWhile
      refine .first before after name (value.takeWhile (· ≠ ';')) (value.dropWhile (· ≠ ';'))
        (by rw [hvalue, hheaders]) (fun header hmem => by simpa using hbefore header hmem)
        (by rw [hvalue, hname]) ?_ ?_ (isTrim_trim _)
      · intro hmem
        exact absurd (List.all_eq_true.mp List.all_takeWhile _ hmem) (by decide)
      · intro c hc
        have hnot := List.head?_dropWhile_not (· ≠ ';') value
        rw [hc] at hnot
        simpa using hnot

theorem contentType_of_announces {response : Response} {type : Text}
    (h : Announces response.headers type) : response.contentType = type := by
  rw [contentType_eq]
  cases h with
  | nothing hnone =>
      rw [List.find?_eq_none.mpr fun header hmem => by simp [hnone header hmem]]
      rfl
  | first before after name piece parameters hheaders hbefore hname hpiece hparameters htrim =>
      have hfind : response.headers.find? announces = some (name, piece ++ parameters) :=
        List.find?_eq_some_iff_append.mpr
          ⟨hname, before, after, hheaders, fun header hmem => by simp [hbefore header hmem]⟩
      rw [hfind]
      show trim ((piece ++ parameters).takeWhile (· ≠ ';')) = type
      rw [takeWhile_eq_piece hpiece hparameters]
      exact trim_eq_iff.mpr htrim

end Response

end PlainRequest
