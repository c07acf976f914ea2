/-
# PlainRequest.Keyed — pairs in the order their keys first appeared

Variable tables, header lists and form fields share one rule: a key that is written again keeps its
place and takes the new value, a new key goes to the end. `Keyed.put` is that rule, and the lemmas
say what it does to the keys and to look-up.
-/

namespace PlainRequest.Keyed

variable {κ ν : Type} [DecidableEq κ]

/-- Write `value` at `key`: in place where the key is present, at the end where it is not. -/
def put (key : κ) (value : ν) : List (κ × ν) → List (κ × ν)
  | [] => [(key, value)]
  | (k, v) :: rest => if k = key then (k, value) :: rest else (k, v) :: put key value rest

/-- Write each pair in turn. -/
def putAll (entries : List (κ × ν)) (into : List (κ × ν)) : List (κ × ν) :=
  entries.foldl (fun kept entry => put entry.1 entry.2 kept) into

/-- The value at a key. -/
def get? (key : κ) : List (κ × ν) → Option ν
  | [] => none
  | (k, v) :: rest => if k = key then some v else get? key rest

/-! ## What a write does -/

theorem mem_keys_put {key k : κ} {value : ν} {entries : List (κ × ν)} :
    k ∈ (put key value entries).map Prod.fst ↔ k = key ∨ k ∈ entries.map Prod.fst := by
  induction entries with
  | nil => simp [put]
  | cons entry rest ih =>
      obtain ⟨k', v'⟩ := entry
      simp only [put]
      split
      · next h => simp [h]
      · simp only [List.map_cons, List.mem_cons, ih]
        grind

/-- A write keeps keys distinct. -/
theorem nodup_put {key : κ} {value : ν} {entries : List (κ × ν)}
    (h : (entries.map Prod.fst).Nodup) : ((put key value entries).map Prod.fst).Nodup := by
  induction entries with
  | nil => simp [put]
  | cons entry rest ih =>
      obtain ⟨k', v'⟩ := entry
      simp only [List.map_cons, List.nodup_cons] at h
      simp only [put]
      split
      · next hk => simpa using h
      · next hk =>
          simp only [List.map_cons, List.nodup_cons, mem_keys_put]
          exact ⟨by grind, ih h.2⟩

/-- The written key has the written value, and every other key the value it had. -/
theorem get?_put (key k : κ) (value : ν) (entries : List (κ × ν)) :
    get? k (put key value entries) = if k = key then some value else get? k entries := by
  induction entries with
  | nil => simp [put, get?, eq_comm]
  | cons entry rest ih =>
      obtain ⟨k', v'⟩ := entry
      simp only [put]
      split
      · next hk => subst hk; simp only [get?]; grind
      · next hk => simp only [get?, ih]; grind

/-- The keys after a write: unchanged if the key was there, else with the key at the end. -/
theorem keys_put (key : κ) (value : ν) (entries : List (κ × ν)) :
    (put key value entries).map Prod.fst =
      if key ∈ entries.map Prod.fst then entries.map Prod.fst
      else entries.map Prod.fst ++ [key] := by
  induction entries with
  | nil => simp [put]
  | cons entry rest ih =>
      obtain ⟨k', v'⟩ := entry
      simp only [put]
      split
      · next hk => simp [hk]
      · next hk =>
          simp only [List.map_cons, ih, List.mem_cons]
          grind

theorem nodup_putAll {entries into : List (κ × ν)} (h : (into.map Prod.fst).Nodup) :
    ((putAll entries into).map Prod.fst).Nodup := by
  induction entries generalizing into with
  | nil => exact h
  | cons entry rest ih => exact ih (nodup_put h)

end PlainRequest.Keyed
