/-
# PlainRequest.Proofs.Files.Path — absolute directories and those above them

An absolute directory is known by the names on the way to it from the root. Written as a path, it has these
names as its parts, a name inside it goes to the end of them, and the directories above it are those of the
shorter lists: what stands one level up comes next, and the root is the last.
-/

import PlainRequest.Files.Path
import PlainRequest.Proofs.Text.Cutting

namespace PlainRequest.Path

open Text

/-- **`IsName name`** — the text can be the name of a file or directory inside another directory. -/
structure IsName (name : Text) : Prop where
  nonempty : name ≠ []
  notDot : name ≠ ['.']
  noSlash : '/' ∉ name

instance (name : Text) : Decidable (IsName name) :=
  decidable_of_iff (name ≠ [] ∧ name ≠ ['.'] ∧ '/' ∉ name)
    ⟨fun ⟨hne, hdot, hslash⟩ => ⟨hne, hdot, hslash⟩, fun ⟨hne, hdot, hslash⟩ => ⟨hne, hdot, hslash⟩⟩

variable {names : List Text}

/-- **The parts of an absolute path** are its names. -/
theorem parts_absolute (h : ∀ name ∈ names, IsName name) : parts (absolute names) = names := by
  have hcut : splitAll '/' (absolute names) = [] :: splitAll '/' (joinWith ['/'] names) :=
    splitAll_cons_separator '/' _
  have hkept : names.filter (fun part => ! part.isEmpty && part ≠ ['.']) = names := by
    rw [List.filter_eq_self]
    intro name hname
    simp [(h name hname).nonempty, (h name hname).notDot]
  rw [parts, hcut]
  by_cases hroot : names = []
  · rw [hroot]
    rfl
  · rw [splitAll_joinWith hroot fun name hname => (h name hname).noSlash]
    exact hkept

/-- The parts of any path are names. -/
theorem isName_of_mem_parts {path name : Text} (h : name ∈ parts path) : IsName name := by
  obtain ⟨hpiece, hkept⟩ := List.mem_filter.mp h
  simp only [Bool.and_eq_true, Bool.not_eq_true', List.isEmpty_eq_false_iff, decide_eq_true_eq]
    at hkept
  exact ⟨hkept.1, hkept.2, separator_notMem_of_mem_splitAll hpiece⟩

/-- Below the root, a slash stands between a directory and what is in it. -/
theorem absolute_concat (hne : names ≠ []) (name : Text) :
    absolute (names ++ [name]) = absolute names ++ ['/'] ++ name := by
  rw [absolute, absolute, joinWith_append hne (List.cons_ne_nil name [])]
  simp [joinWith]

/-- A path that ends with a name does not end with a slash. -/
theorem endsWith_slash_append (front : Text) {name : Text} (h : IsName name) :
    endsWith ['/'] (front ++ name) = false := by
  rw [Bool.eq_false_iff]
  intro hends
  obtain ⟨before, hbefore⟩ := Option.isSome_iff_exists.mp hends
  rw [stripSuffix?_eq_some_iff] at hbefore
  -- the slash would be the last character of the name
  have hlast := congrArg List.getLast? hbefore
  rw [List.getLast?_append, List.getLast?_eq_some_getLast h.nonempty, Option.some_or,
    List.getLast?_concat] at hlast
  exact h.noSlash (Option.some.inj hlast ▸ List.getLast_mem h.nonempty)

theorem endsWith_slash_absolute (h : ∀ name ∈ names, IsName name) (hne : names ≠ []) :
    endsWith ['/'] (absolute names) = false := by
  obtain ⟨above, last, rfl⟩ : ∃ above last, names = above ++ [last] :=
    ⟨_, _, (List.dropLast_concat_getLast hne).symm⟩
  have hlast := h last (by simp)
  by_cases habove : above = []
  · rw [habove]
    exact endsWith_slash_append ['/'] hlast
  · rw [absolute_concat habove]
    exact endsWith_slash_append _ hlast

/-- **What is inside something inside a directory** is inside the directory. -/
theorem join_join (directory : Text) {name : Text} (h : IsName name) (other : Text) :
    join (join directory name) other = join directory (name ++ ['/'] ++ other) := by
  have hjoin : ∀ front, join (front ++ name) other = front ++ name ++ ['/'] ++ other := by
    intro front
    have hne : (front ++ name).isEmpty = false := by simp [h.nonempty]
    rw [join, hne, endsWith_slash_append front h]
    rfl
  unfold join at hjoin ⊢
  by_cases hends : (directory.isEmpty || endsWith ['/'] directory) = true
  · rw [if_pos hends, if_pos hends, hjoin]
    simp only [List.append_assoc]
  · rw [if_neg hends, if_neg hends, hjoin]
    simp only [List.append_assoc]

/-- **What is inside a directory** has one name more. -/
theorem join_absolute (h : ∀ name ∈ names, IsName name) (name : Text) :
    join (absolute names) name = absolute (names ++ [name]) := by
  by_cases hroot : names = []
  · rw [hroot]
    rfl
  · rw [join, endsWith_slash_absolute h hroot, absolute_concat hroot]
    rfl

/-- **The directories above a directory** are those above the one that it is in, and that one. -/
theorem ancestors_concat {name : Text} (h : ∀ n ∈ names ++ [name], IsName n) :
    ancestors (absolute (names ++ [name])) =
      absolute (names ++ [name]) :: ancestors (absolute names) := by
  have habove : ∀ n ∈ names, IsName n := fun n hn => h n (List.mem_append_left _ hn)
  rw [ancestors, parts_absolute h, ancestors, parts_absolute habove]
  rw [List.length_append, List.length_singleton, List.range_succ, List.reverse_append,
    List.reverse_singleton, List.singleton_append, List.map_cons, List.take_of_length_le (by simp)]
  congr 1
  refine List.map_congr_left fun count hcount => ?_
  rw [List.mem_reverse, List.mem_range] at hcount
  rw [List.take_append_of_le_length (by omega)]

/-- So a directory has those above it that it has when it is written plainly. -/
theorem ancestors_absolute_parts (directory : Text) :
    ancestors (absolute (parts directory)) = ancestors directory := by
  rw [ancestors, parts_absolute fun _ => isName_of_mem_parts, ancestors]

theorem ancestors_root : ancestors (absolute []) = [absolute []] := by
  decide

-- a directory three levels below the root
example : ancestors "/a/b/c".toList = ["/a/b/c".toList, "/a/b".toList, "/a".toList, "/".toList] := by
  decide

end PlainRequest.Path
