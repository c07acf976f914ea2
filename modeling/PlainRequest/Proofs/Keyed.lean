/-
# PlainRequest.Proofs.Keyed — writing keys that are there, and keys that are not

A key that is not there goes to the end, so writing distinct keys one after another writes them down
as they are. A key that is there keeps its place, so a write changes nothing exactly when it writes
the value that the key already has.

What is left when entries have been written one after another is fixed by three facts, `LastWins`: the
keys are those of the entries, in the order of their first appearance, and each has the value of its
last appearance. One write keeps them, and no other list has them. Entries that were written somewhere
else first, and are then written from there, leave the same.
-/

import PlainRequest.Keyed
import Mathlib.Data.List.Forall2
import Mathlib.Data.List.Sort

namespace PlainRequest.Keyed

variable {κ ν : Type} [DecidableEq κ]

theorem put_of_notMem {key : κ} {entries : List (κ × ν)} (h : key ∉ entries.map Prod.fst)
    (value : ν) : put key value entries = entries ++ [(key, value)] := by
  induction entries with
  | nil => rfl
  | cons entry rest ih =>
      obtain ⟨k, v⟩ := entry
      rw [List.map_cons, List.mem_cons, not_or] at h
      obtain ⟨hne, hrest⟩ := h
      rw [put, if_neg (Ne.symm hne), ih hrest]
      rfl

/-- **Distinct keys are written down as they are.** -/
theorem putAll_of_nodup {entries into : List (κ × ν)}
    (h : ((into ++ entries).map Prod.fst).Nodup) : putAll entries into = into ++ entries := by
  induction entries generalizing into with
  | nil => rw [List.append_nil]; rfl
  | cons entry rest ih =>
      obtain ⟨key, value⟩ := entry
      have hnew : key ∉ into.map Prod.fst := by
        rw [List.map_append, List.nodup_append] at h
        intro hmem
        exact h.2.2 key hmem key (by simp) rfl
      show putAll rest (put key value into) = _
      rw [put_of_notMem hnew, ih]
      · rw [List.append_assoc]
        rfl
      · rw [List.append_assoc]
        exact h

theorem putAll_append (entries others into : List (κ × ν)) :
    putAll (entries ++ others) into = putAll others (putAll entries into) :=
  List.foldl_append ..

/-- An entry behind a write is the written one or was there before. -/
theorem of_mem_put {key : κ} {value : ν} {entry : κ × ν} {entries : List (κ × ν)}
    (h : entry ∈ put key value entries) : entry = (key, value) ∨ entry ∈ entries := by
  induction entries with
  | nil => exact .inl (List.mem_singleton.mp h)
  | cons first rest ih =>
      obtain ⟨k, v⟩ := first
      rw [put] at h
      split at h
      · next heq =>
          subst heq
          rcases List.mem_cons.mp h with hnew | hrest
          · exact .inl hnew
          · exact .inr (List.mem_cons_of_mem _ hrest)
      · rcases List.mem_cons.mp h with hfirst | hput
        · exact .inr (hfirst ▸ List.mem_cons_self)
        · exact (ih hput).imp_right (List.mem_cons_of_mem _)

/-- Every entry was written or was there before. -/
theorem of_mem_putAll {entry : κ × ν} {entries into : List (κ × ν)}
    (h : entry ∈ putAll entries into) : entry ∈ entries ∨ entry ∈ into := by
  induction entries generalizing into with
  | nil => exact .inr h
  | cons first rest ih =>
      rcases ih h with hrest | hput
      · exact .inl (List.mem_cons_of_mem _ hrest)
      · rcases of_mem_put hput with rfl | hinto
        · exact .inl List.mem_cons_self
        · exact .inr hinto

theorem mem_keys_putAll {entries into : List (κ × ν)} {key : κ}
    (h : key ∈ (putAll entries into).map Prod.fst) :
    key ∈ entries.map Prod.fst ∨ key ∈ into.map Prod.fst := by
  obtain ⟨entry, hmem, rfl⟩ := List.mem_map.mp h
  exact (of_mem_putAll hmem).imp List.mem_map_of_mem List.mem_map_of_mem

/-- **A write changes nothing** exactly when the key has that value already. -/
theorem put_eq_self_iff {key : κ} {value : ν} {entries : List (κ × ν)} :
    put key value entries = entries ↔ get? key entries = some value := by
  induction entries with
  | nil => simp [put, get?]
  | cons entry rest ih =>
      obtain ⟨k, v⟩ := entry
      rw [put, get?]
      split
      · simp [eq_comm]
      · rw [List.cons.injEq, ih]
        simp

/-! ## The values do not matter for the keys -/

/-- The entries with `f` applied to every value. -/
def mapValues {μ : Type} (f : ν → μ) (entries : List (κ × ν)) : List (κ × μ) :=
  entries.map fun (key, value) => (key, f value)

omit [DecidableEq κ] in
theorem keys_mapValues {μ : Type} (f : ν → μ) (entries : List (κ × ν)) :
    (mapValues f entries).map Prod.fst = entries.map Prod.fst := by
  rw [mapValues, List.map_map]
  rfl

theorem put_mapValues {μ : Type} (f : ν → μ) (key : κ) (value : ν) (entries : List (κ × ν)) :
    put key (f value) (mapValues f entries) = mapValues f (put key value entries) := by
  induction entries with
  | nil => rfl
  | cons entry rest ih =>
      obtain ⟨k, v⟩ := entry
      show put key (f value) ((k, f v) :: mapValues f rest) = mapValues f (put key value _)
      rw [put, put]
      split
      · rfl
      · rw [ih]
        rfl

/-- **Changing the values first or last** makes no difference: where a value goes depends on the
keys alone. -/
theorem putAll_mapValues {μ : Type} (f : ν → μ) (entries into : List (κ × ν)) :
    putAll (mapValues f entries) (mapValues f into) = mapValues f (putAll entries into) := by
  induction entries generalizing into with
  | nil => rfl
  | cons entry rest ih =>
      obtain ⟨key, value⟩ := entry
      show putAll (mapValues f rest) (put key (f value) (mapValues f into)) = _
      rw [put_mapValues]
      exact ih (put key value into)

/-! ## What writing entries one after another leaves -/

/-- **`Before entries a b`** — the key `a` appears for the first time before `b` does. -/
def Before (entries : List (κ × ν)) (a b : κ) : Prop :=
  (entries.map Prod.fst).idxOf a < (entries.map Prod.fst).idxOf b

/-- **`LastWins entries result`** — `result` has the keys of `entries`, each once and in the order of
their first appearance there, and with each key the value of its last appearance. -/
structure LastWins (entries result : List (κ × ν)) : Prop where
  distinct : (result.map Prod.fst).Nodup
  order : (result.map Prod.fst).Pairwise (Before entries)
  keys : ∀ key, key ∈ result.map Prod.fst ↔ key ∈ entries.map Prod.fst
  last : ∀ key value, (key, value) ∈ result →
    ∃ before after, entries = before ++ (key, value) :: after ∧ key ∉ after.map Prod.fst

theorem lastWins_nil : LastWins ([] : List (κ × ν)) [] := by
  refine ⟨?_, ?_, ?_, ?_⟩ <;> simp

/-- Among distinct keys, a write sets one entry and keeps the others. -/
theorem mem_put_iff {key k : κ} {value v : ν} {entries : List (κ × ν)}
    (h : (entries.map Prod.fst).Nodup) :
    (k, v) ∈ put key value entries ↔ k = key ∧ v = value ∨ k ≠ key ∧ (k, v) ∈ entries := by
  induction entries with
  | nil => simp [put]
  | cons entry rest ih =>
      obtain ⟨first, old⟩ := entry
      rw [List.map_cons, List.nodup_cons] at h
      obtain ⟨hfirst, hrest⟩ := h
      rw [put]
      split
      · next heq =>
          -- the rest does not have the key, so nothing of it is lost
          subst heq
          have hother : (k, v) ∈ rest → k ≠ first := by
            rintro hmem rfl
            exact hfirst (List.mem_map.mpr ⟨_, hmem, rfl⟩)
          simp only [List.mem_cons, Prod.mk.injEq]
          constructor
          · rintro (hnew | hmem)
            · exact .inl hnew
            · exact .inr ⟨hother hmem, .inr hmem⟩
          · rintro (hnew | ⟨hne, hold | hmem⟩)
            · exact .inl hnew
            · exact absurd hold.1 hne
            · exact .inr hmem
      · next hne =>
          simp only [List.mem_cons, ih hrest, Prod.mk.injEq]
          constructor
          · rintro (⟨rfl, rfl⟩ | hnew | ⟨hk, hmem⟩)
            · exact .inr ⟨hne, .inl ⟨rfl, rfl⟩⟩
            · exact .inl hnew
            · exact .inr ⟨hk, .inr hmem⟩
          · rintro (hnew | ⟨hk, hold | hmem⟩)
            · exact .inr (.inl hnew)
            · exact .inl hold
            · exact .inr (.inr ⟨hk, hmem⟩)

/-- **One more entry**: a write keeps what is known of the entries so far. -/
theorem lastWins_put {entries result : List (κ × ν)} (h : LastWins entries result) (key : κ)
    (value : ν) : LastWins (entries ++ [(key, value)]) (put key value result) := by
  have hsame : ∀ k ∈ result.map Prod.fst,
      ((entries ++ [(key, value)]).map Prod.fst).idxOf k = (entries.map Prod.fst).idxOf k := by
    intro k hk
    rw [List.map_append]
    exact List.idxOf_append_of_mem ((h.keys k).mp hk)
  have horder : (result.map Prod.fst).Pairwise (Before (entries ++ [(key, value)])) := by
    refine h.order.imp_of_mem ?_
    intro a b ha hb hlt
    show List.idxOf a _ < List.idxOf b _
    rwa [hsame a ha, hsame b hb]
  refine ⟨nodup_put h.distinct, ?_, ?_, ?_⟩
  · rw [keys_put]
    split
    · exact horder
    · next hnew =>
        -- a new key comes behind all that were there
        rw [List.pairwise_append]
        refine ⟨horder, List.pairwise_singleton _ _, ?_⟩
        intro a ha b hb
        obtain rfl := List.mem_singleton.mp hb
        have hold : a ∈ entries.map Prod.fst := (h.keys a).mp ha
        have hnone : b ∉ entries.map Prod.fst := fun hmem => hnew ((h.keys b).mpr hmem)
        have hlt := List.idxOf_lt_length_of_mem hold
        show List.idxOf a _ < List.idxOf b _
        rw [hsame a ha, List.map_append, List.idxOf_append_of_notMem hnone]
        omega
  · intro k
    rw [mem_keys_put, h.keys k, List.map_append, List.mem_append, List.map_cons, List.map_nil,
      List.mem_singleton]
    exact or_comm
  · intro k v hmem
    rcases (mem_put_iff h.distinct).mp hmem with ⟨rfl, rfl⟩ | ⟨hne, hold⟩
    · exact ⟨entries, [], rfl, by simp⟩
    · obtain ⟨before, after, rfl, hlast⟩ := h.last k v hold
      refine ⟨before, after ++ [(key, value)], by simp, ?_⟩
      simp only [List.map_append, List.map_cons, List.map_nil, List.mem_append,
        List.mem_singleton, not_or]
      exact ⟨hlast, hne⟩

/-- What is known of the entries so far is known of all of them in the end. -/
theorem lastWins_append {before into : List (κ × ν)} (h : LastWins before into)
    (entries : List (κ × ν)) : LastWins (before ++ entries) (putAll entries into) := by
  induction entries generalizing before into with
  | nil =>
      rw [List.append_nil]
      exact h
  | cons entry rest ih =>
      obtain ⟨key, value⟩ := entry
      have hnext := ih (lastWins_put h key value)
      rwa [List.append_assoc, List.singleton_append] at hnext

/-- **Writing entries one after another** keeps first places and last values. -/
theorem lastWins_putAll (entries : List (κ × ν)) : LastWins entries (putAll entries []) :=
  lastWins_append lastWins_nil entries

/-- The value of the last entry with a key. -/
def last? (key : κ) (entries : List (κ × ν)) : Option ν :=
  ((entries.filter fun entry => entry.1 = key).getLast?).map Prod.snd

theorem last?_cons (key k : κ) (value : ν) (entries : List (κ × ν)) :
    last? key ((k, value) :: entries) =
      (last? key entries).or (if k = key then some value else none) := by
  unfold last?
  by_cases hk : k = key
  · cases hrest : (entries.filter fun entry => entry.1 = key).getLast? <;>
      simp [hk, List.getLast?_cons, hrest]
  · simp [hk]

theorem last?_eq_none_iff {key : κ} {entries : List (κ × ν)} :
    last? key entries = none ↔ key ∉ entries.map Prod.fst := by
  rw [last?, Option.map_eq_none_iff, List.getLast?_eq_none_iff, List.filter_eq_nil_iff]
  simp only [decide_eq_true_eq, List.mem_map, not_exists, not_and]

/-- **The last value of a key** stands in an entry behind which no entry has the key. -/
theorem last?_eq_some_iff {key : κ} {value : ν} {entries : List (κ × ν)} :
    last? key entries = some value ↔
      ∃ before after, entries = before ++ (key, value) :: after ∧ key ∉ after.map Prod.fst := by
  constructor
  · intro h
    induction entries with
    | nil => simp [last?] at h
    | cons entry rest ih =>
        obtain ⟨k, v⟩ := entry
        cases hrest : last? key rest with
        | some last =>
            rw [last?_cons, hrest, Option.some_or, ← hrest] at h
            obtain ⟨before, after, rfl, hafter⟩ := ih h
            exact ⟨(k, v) :: before, after, rfl, hafter⟩
        | none =>
            rw [last?_cons, hrest, Option.none_or] at h
            split at h
            · next hk =>
                obtain rfl := Option.some.inj h
                exact ⟨[], rest, by rw [hk, List.nil_append], last?_eq_none_iff.mp hrest⟩
            · cases h
  · rintro ⟨before, after, rfl, hafter⟩
    induction before with
    | nil => rw [List.nil_append, last?_cons, last?_eq_none_iff.mpr hafter, Option.none_or, if_pos rfl]
    | cons entry before ih =>
        obtain ⟨k, v⟩ := entry
        rw [List.cons_append, last?_cons, ih, Option.some_or]

/-- The value of the last appearance is one value. -/
theorem eq_of_last {entries before before' after after' : List (κ × ν)} {key : κ} {value value' : ν}
    (h : entries = before ++ (key, value) :: after) (hlast : key ∉ after.map Prod.fst)
    (h' : entries = before' ++ (key, value') :: after') (hlast' : key ∉ after'.map Prod.fst) :
    value = value' := by
  have hvalue : last? key entries = some value := last?_eq_some_iff.mpr ⟨before, after, h, hlast⟩
  have hvalue' : last? key entries = some value' := last?_eq_some_iff.mpr ⟨before', after', h', hlast'⟩
  exact Option.some.inj (hvalue.symm.trans hvalue')

/-- **No other list** has these places and values. -/
theorem LastWins.unique {entries result other : List (κ × ν)} (h : LastWins entries result)
    (hother : LastWins entries other) : result = other := by
  have hsub : ∀ {a b : List (κ × ν)}, LastWins entries a → LastWins entries b →
      ∀ entry ∈ a, entry ∈ b := by
    rintro a b ha hb ⟨key, value⟩ hmem
    have hkey : key ∈ b.map Prod.fst := by
      rw [hb.keys key, ← ha.keys key]
      exact List.mem_map_of_mem hmem
    obtain ⟨⟨k, v⟩, hv, rfl⟩ := List.mem_map.mp hkey
    obtain ⟨before, after, heq, hlast⟩ := ha.last k value hmem
    obtain ⟨before', after', heq', hlast'⟩ := hb.last k v hv
    rwa [eq_of_last heq hlast heq' hlast']
  have horder : result.Pairwise fun a b => Before entries a.1 b.1 := List.pairwise_map.mp h.order
  have horder' : other.Pairwise fun a b => Before entries a.1 b.1 :=
    List.pairwise_map.mp hother.order
  have : Std.Irrefl fun a b : κ × ν => Before entries a.1 b.1 := ⟨fun a => Nat.lt_irrefl _⟩
  have : Std.Antisymm fun a b : κ × ν => Before entries a.1 b.1 :=
    ⟨fun a b hab hba => absurd hab (Nat.lt_asymm hba)⟩
  apply horder.eq_of_mem_iff horder'
  intro entry
  exact ⟨hsub h hother entry, hsub hother h entry⟩

theorem last?_mapValues {μ : Type} (f : ν → μ) (key : κ) (entries : List (κ × ν)) :
    last? key (mapValues f entries) = (last? key entries).map f := by
  induction entries with
  | nil => rfl
  | cons entry rest ih =>
      obtain ⟨k, value⟩ := entry
      show last? key ((k, f value) :: mapValues f rest) = _
      rw [last?_cons, last?_cons, ih]
      by_cases hk : k = key
      · cases last? key rest <;> simp [hk]
      · simp [hk]

/-- **Looking a key up** after all entries were written: its last value, and what was there before
if no entry has the key. -/
theorem get?_putAll (key : κ) (entries into : List (κ × ν)) :
    get? key (putAll entries into) = (last? key entries).or (get? key into) := by
  induction entries generalizing into with
  | nil => rfl
  | cons entry rest ih =>
      obtain ⟨k, value⟩ := entry
      show get? key (putAll rest (put k value into)) = _
      rw [ih, get?_put, last?_cons]
      by_cases hk : k = key
      · cases last? key rest <;> simp [hk]
      · simp [hk, Ne.symm hk]

/-- Where no key appears twice, the last value of a key is its only one. -/
theorem get?_eq_last? {entries : List (κ × ν)} (h : (entries.map Prod.fst).Nodup) (key : κ) :
    get? key entries = last? key entries := by
  have hall := get?_putAll key entries []
  rw [putAll_of_nodup (by simpa using h), List.nil_append] at hall
  rw [hall]
  cases last? key entries <;> rfl

/-- Where no key appears twice, looking a key up finds the entry that is there. -/
theorem get?_eq_some_iff {entries : List (κ × ν)} (h : (entries.map Prod.fst).Nodup) {key : κ}
    {value : ν} : get? key entries = some value ↔ (key, value) ∈ entries := by
  induction entries with
  | nil => simp [get?]
  | cons entry rest ih =>
      obtain ⟨k, v⟩ := entry
      rw [List.map_cons, List.nodup_cons] at h
      obtain ⟨hfirst, hrest⟩ := h
      rw [get?, List.mem_cons, Prod.mk.injEq]
      split
      · next heq =>
          -- the rest does not have the key
          subst heq
          have hnone : (k, value) ∉ rest := by
            intro hmem
            exact hfirst (List.mem_map.mpr ⟨_, hmem, rfl⟩)
          simp [hnone, eq_comm]
      · next hne =>
          rw [ih hrest]
          simp [Ne.symm hne]

/-- Where no key appears twice, the order of the entries does not matter. -/
theorem last?_of_perm {entries others : List (κ × ν)} (h : (entries.map Prod.fst).Nodup)
    (hperm : entries.Perm others) (key : κ) : last? key entries = last? key others := by
  have hothers : (others.map Prod.fst).Nodup := (hperm.map Prod.fst).nodup_iff.mp h
  ext value
  rw [← get?_eq_last? h, ← get?_eq_last? hothers, get?_eq_some_iff h, get?_eq_some_iff hothers]
  exact hperm.mem_iff

/-! ## Writing what has been written elsewhere -/

/-- No key that is there changes its place. -/
theorem keys_prefix_putAll (entries into : List (κ × ν)) :
    into.map Prod.fst <+: (putAll entries into).map Prod.fst := by
  induction entries generalizing into with
  | nil => exact List.prefix_rfl
  | cons entry rest ih =>
      obtain ⟨key, value⟩ := entry
      have hput : into.map Prod.fst <+: (put key value into).map Prod.fst := by
        rw [keys_put]
        split
        · exact List.prefix_rfl
        · exact List.prefix_append _ _
      exact hput.trans (ih (put key value into))

/-- Of two writes to a key, the second one counts. -/
theorem put_put_self (key : κ) (old value : ν) (entries : List (κ × ν)) :
    put key value (put key old entries) = put key value entries := by
  induction entries with
  | nil => simp [put]
  | cons entry rest ih =>
      obtain ⟨k, v⟩ := entry
      by_cases hk : k = key
      · simp [put, hk]
      · simp [put, hk, ih]

/-- Writes to two keys may be exchanged if one of the keys is there already. -/
theorem put_put_comm {key k : κ} (hne : k ≠ key) {entries : List (κ × ν)}
    (hold : key ∈ entries.map Prod.fst) (value v : ν) :
    put key value (put k v entries) = put k v (put key value entries) := by
  induction entries with
  | nil => cases hold
  | cons entry rest ih =>
      obtain ⟨first, old⟩ := entry
      by_cases hfirst : first = key
      · subst hfirst
        simp [put, Ne.symm hne]
      · have hrest : key ∈ rest.map Prod.fst := by
          rw [List.map_cons, List.mem_cons] at hold
          exact hold.resolve_left (Ne.symm hfirst)
        by_cases hk : first = k
        · simp [put, hk, hne]
        · simp [put, hfirst, hk, ih hrest]

/-- A write to a key that is there may come before other writes, if they do not write that key. -/
theorem put_putAll_comm {key : κ} {entries into : List (κ × ν)} (hnot : key ∉ entries.map Prod.fst)
    (hold : key ∈ into.map Prod.fst) (value : ν) :
    put key value (putAll entries into) = putAll entries (put key value into) := by
  induction entries generalizing into with
  | nil => rfl
  | cons entry rest ih =>
      obtain ⟨k, v⟩ := entry
      rw [List.map_cons, List.mem_cons, not_or] at hnot
      obtain ⟨hne, hrest⟩ := hnot
      show put key value (putAll rest (put k v into)) = putAll rest (put k v (put key value into))
      rw [ih hrest (mem_keys_put.mpr (.inr hold)), put_put_comm (Ne.symm hne) hold]

/-- **One write, there or here**: to write a key into the entries that are written is to write it behind
them. -/
theorem putAll_put {entries : List (κ × ν)} (h : (entries.map Prod.fst).Nodup) (key : κ) (value : ν)
    (into : List (κ × ν)) :
    putAll (put key value entries) into = put key value (putAll entries into) := by
  induction entries generalizing into with
  | nil => rfl
  | cons entry rest ih =>
      obtain ⟨k, v⟩ := entry
      rw [List.map_cons, List.nodup_cons] at h
      obtain ⟨hfirst, hrest⟩ := h
      by_cases hk : k = key
      · -- the key is written in front, and by nothing behind it
        subst hk
        have hold : k ∈ (put k v into).map Prod.fst := mem_keys_put.mpr (.inl rfl)
        calc putAll (put k value ((k, v) :: rest)) into
            = putAll rest (put k value into) := by
              rw [put, if_pos rfl]
              rfl
          _ = putAll rest (put k value (put k v into)) := by rw [put_put_self]
          _ = put k value (putAll rest (put k v into)) := (put_putAll_comm hfirst hold value).symm
      · have hput : put key value ((k, v) :: rest) = (k, v) :: put key value rest := by
          rw [put, if_neg hk]
        rw [hput]
        exact ih hrest (put k v into)

/-- **All writes, there or here.** -/
theorem putAll_putAll {entries : List (κ × ν)} (h : (entries.map Prod.fst).Nodup)
    (others into : List (κ × ν)) :
    putAll (putAll others entries) into = putAll others (putAll entries into) := by
  induction others generalizing entries with
  | nil => rfl
  | cons entry rest ih =>
      obtain ⟨key, value⟩ := entry
      show putAll (putAll rest (put key value entries)) into =
        putAll rest (put key value (putAll entries into))
      rw [ih (nodup_put h), putAll_put h]

/-- So what was left of some entries, written behind others, is what is left of all. -/
theorem LastWins.append {before into entries upper : List (κ × ν)} (h : LastWins before into)
    (hupper : LastWins entries upper) : LastWins (before ++ entries) (putAll upper into) := by
  obtain rfl : upper = putAll entries [] := hupper.unique (lastWins_putAll entries)
  rw [putAll_putAll (by simp)]
  exact lastWins_append h entries

/-- And a key is looked up in what is left as in the entries. -/
theorem LastWins.get?_eq {entries result : List (κ × ν)} (h : LastWins entries result) (key : κ) :
    get? key result = last? key entries := by
  obtain rfl : result = putAll entries [] := h.unique (lastWins_putAll entries)
  rw [get?_putAll]
  exact Option.or_none

/-! ## Entries with related values -/

omit [DecidableEq κ] in
theorem keys_of_forall₂ {μ : Type} {R : ν → μ → Prop} {entries : List (κ × ν)}
    {others : List (κ × μ)} (h : List.Forall₂ (fun a b => a.1 = b.1 ∧ R a.2 b.2) entries others) :
    entries.map Prod.fst = others.map Prod.fst := by
  induction h with
  | nil => rfl
  | cons hfirst _ ih => rw [List.map_cons, List.map_cons, hfirst.1, ih]

/-- Entries with the same keys and related values: the last values of a key are related. -/
theorem last?_of_forall₂ {μ : Type} {R : ν → μ → Prop} {entries : List (κ × ν)}
    {others : List (κ × μ)} (h : List.Forall₂ (fun a b => a.1 = b.1 ∧ R a.2 b.2) entries others)
    {key : κ} {value : ν} {other : μ} (hvalue : last? key entries = some value)
    (hother : last? key others = some other) : R value other := by
  induction h generalizing value other with
  | nil => simp [last?] at hvalue
  | @cons a b entries others hfirst hrest ih =>
      obtain ⟨k, v⟩ := a
      obtain ⟨k', w⟩ := b
      obtain ⟨rfl, hR⟩ : k = k' ∧ R v w := hfirst
      have hkeys : entries.map Prod.fst = others.map Prod.fst := keys_of_forall₂ hrest
      rw [last?_cons] at hvalue hother
      cases hlast : last? key entries with
      | some last =>
          -- a later entry has the key, on both sides
          obtain ⟨last', hlast'⟩ : ∃ last', last? key others = some last' := by
            apply Option.ne_none_iff_exists'.mp
            rw [Ne, last?_eq_none_iff, ← hkeys, ← last?_eq_none_iff, hlast]
            simp
          rw [hlast, Option.some_or, Option.some.injEq] at hvalue
          rw [hlast', Option.some_or, Option.some.injEq] at hother
          exact ih (hvalue ▸ hlast) (hother ▸ hlast')
      | none =>
          have hnone : last? key others = none := by
            rwa [last?_eq_none_iff, ← hkeys, ← last?_eq_none_iff]
          rw [hlast, Option.none_or] at hvalue
          rw [hnone, Option.none_or] at hother
          by_cases hk : k = key
          · rw [if_pos hk, Option.some.injEq] at hvalue hother
            exact hvalue ▸ hother ▸ hR
          · simp [hk] at hvalue

end PlainRequest.Keyed
