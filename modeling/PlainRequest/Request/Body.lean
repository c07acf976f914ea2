/-
# PlainRequest.Request.Body — body lines as raw text or as a form

Body lines are a form when every one of them holds an `=`; then the text before the first `=` of
each line is a field name, and the last line of a name decides its value. Otherwise the lines are
raw text. One line `a=1&b=2` is therefore a form with the field `a`.

A field value of the shape `!file(…)` or `!content(…)` is a directive. It takes up the whole value,
ends at the last parenthesis, and stays within one line; a backslash before a parenthesis of its
argument is dropped.
-/

import PlainRequest.Request.Basic

namespace PlainRequest

open Text

namespace FieldValue

/-- The text without the backslashes that stand directly before a parenthesis. -/
def unescape : Text → Text
  | [] => []
  | [c] => [c]
  | c :: d :: rest =>
      if c = '\\' ∧ (d = '(' ∨ d = ')') then unescape (d :: rest) else c :: unescape (d :: rest)

/-- The text with a backslash before every parenthesis. -/
def escape (text : Text) : Text :=
  text.flatMap fun c => if c = '(' ∨ c = ')' then ['\\', c] else [c]

/-- What stands between `!name(` and the closing parenthesis at the end of a value. -/
def argument? (name value : Text) : Option Text := do
  let opened ← stripPrefix? (['!'] ++ name ++ ['(']) value
  let argument ← stripSuffix? [')'] opened
  if argument.contains '\n' then none else pure argument

/-- Read the text behind the `=` of a form line. -/
def ofText (value : Text) : FieldValue :=
  match argument? "file".toList value with
  | some argument => file (unescape argument)
  | none =>
      match argument? "content".toList value with
      | some argument => content (unescape argument)
      | none => literal value

/-- Write a field value the way `ofText` reads it. -/
def toText : FieldValue → Text
  | literal text => text
  | file path => "!file(".toList ++ escape path ++ [')']
  | content text => "!content(".toList ++ escape text ++ [')']

/-- A directive's argument is what stands between its parentheses, on one line. -/
theorem argument?_eq_some_iff {name value argument : Text} :
    argument? name value = some argument ↔
      value = ['!'] ++ name ++ ['('] ++ argument ++ [')'] ∧ '\n' ∉ argument := by
  simp only [argument?, Option.bind_eq_bind, Option.bind_eq_some_iff,
    stripPrefix?_eq_some_iff, stripSuffix?_eq_some_iff]
  constructor
  · rintro ⟨opened, rfl, inner, rfl, h⟩
    split at h
    · simp at h
    · next hnl =>
        simp only [Option.pure_def, Option.some.injEq] at h
        subst h
        exact ⟨by simp, by simpa using hnl⟩
  · rintro ⟨rfl, hnl⟩
    exact ⟨argument ++ [')'], by simp, argument, rfl, by simp [hnl]⟩

/-- A text without a backslash before a parenthesis at its start keeps its first character. -/
theorem unescape_cons {c : Char} {rest : Text} (h : c ≠ '\\') :
    unescape (c :: rest) = c :: unescape rest := by
  cases rest with
  | nil => rfl
  | cons d ds => simp [unescape, h]

end FieldValue

namespace Body

/-- The field names and values of form lines, in line order. -/
def formLines (lines : List Text) : List (Text × FieldValue) :=
  lines.filterMap fun line =>
    (splitFirst? '=' line).map fun (name, value) => (name, FieldValue.ofText value)

/-- Read body lines as a form if every line has an `=`, else as raw text. -/
def ofLines (lines : List Text) : Body :=
  if ! lines.isEmpty && lines.all (·.contains '=') then form (Keyed.putAll (formLines lines) [])
  else raw (joinWith ['\n'] lines)

end Body

end PlainRequest
