/-
# PlainRequest.Method — the seven request methods

Method names are read exactly as written: `get` and `TRACE` name no method.
-/

import PlainRequest.Text.Basic

namespace PlainRequest

/-- A request method. -/
inductive Method
  | get
  | post
  | delete
  | put
  | head
  | options
  | patch
  deriving DecidableEq, Repr

namespace Method

/-- The name on the request line. -/
def name : Method → Text
  | get => "GET".toList
  | post => "POST".toList
  | delete => "DELETE".toList
  | put => "PUT".toList
  | head => "HEAD".toList
  | options => "OPTIONS".toList
  | patch => "PATCH".toList

/-- Every method. -/
def all : List Method := [get, post, delete, put, head, options, patch]

/-- The method a text names. -/
def ofName? (text : Text) : Option Method := all.find? fun method => method.name = text

theorem mem_all (method : Method) : method ∈ all := by cases method <;> decide

@[simp] theorem ofName?_name (method : Method) : ofName? method.name = some method := by
  cases method <;> decide

/-- A text names a method exactly when it is that method's name. -/
theorem ofName?_eq_some_iff {text : Text} {method : Method} :
    ofName? text = some method ↔ text = method.name := by
  constructor
  · intro h
    have := List.find?_some h
    simpa [eq_comm] using this
  · rintro rfl
    exact ofName?_name method

end Method

end PlainRequest
