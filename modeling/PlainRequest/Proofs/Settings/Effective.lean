/-
# PlainRequest.Proofs.Settings.Effective — which settings a command runs with

A file that is asked for by its path has to load. Without one, the search goes up from the working
directory and stops at the first directory with something of the right name in it, whatever that is:
`IsNearest` says where. If it does not load, no directory further up is looked at; the user's own file is,
and if that is not there or does not load either, there are still the defaults. So only a file that was asked
for can make settings fail. What the command line gives goes into its own field of what was found, and into
no other one.
-/

import PlainRequest.Proofs.Files.Path
import PlainRequest.Settings.Search
import Mathlib.Data.List.Induction

namespace PlainRequest.Settings

open Text PlainRequest.Path

variable {disk : Files Id} {names up : List Text} {path : Text}

/-! ## Loading a file -/

/-- **`Loads disk path settings`** — the file at the path can be read, and its text gives these settings. -/
def Loads (disk : Files Id) (path : Text) (settings : Settings) : Prop :=
  ∃ text, (disk.readText path).run = .ok text ∧ ofText text = .ok settings

/-- **`Refuses disk path cause`** — the file at the path cannot be read, or its text gives no settings. -/
inductive Refuses (disk : Files Id) (path : Text) : SettingsError → Prop
  | unreadable {error : ReadError} (h : (disk.readText path).run = .error error) :
      Refuses disk path (.unreadable path error)
  | malformed {text : Text} {cause : SettingsError} (h : (disk.readText path).run = .ok text)
      (hcause : ofText text = .error cause) : Refuses disk path cause

theorem load_of_unreadable {error : ReadError} (h : (disk.readText path).run = .error error) :
    (load disk path).run = .error (.unreadable path error) := by
  rw [load, Id.run_bind, h]
  rfl

theorem load_of_text {text : Text} (h : (disk.readText path).run = .ok text) :
    (load disk path).run = ofText text := by
  rw [load, Id.run_bind, h]
  rfl

theorem load_eq_ok_iff {settings : Settings} :
    (load disk path).run = .ok settings ↔ Loads disk path settings := by
  cases hread : (disk.readText path).run with
  | error error => simp [load_of_unreadable hread, Loads, hread]
  | ok text => simp [load_of_text hread, Loads, hread]

theorem load_eq_error_iff {cause : SettingsError} :
    (load disk path).run = .error cause ↔ Refuses disk path cause := by
  constructor
  · intro h
    cases hread : (disk.readText path).run with
    | error error =>
        rw [load_of_unreadable hread] at h
        exact Except.error.inj h ▸ .unreadable hread
    | ok text =>
        rw [load_of_text hread] at h
        exact .malformed hread h
  · rintro (hread | ⟨hread, hcause⟩)
    · exact load_of_unreadable hread
    · rw [load_of_text hread, hcause]

theorem loaded?_eq_some_iff {settings : Settings} :
    (loaded? disk path).run = some settings ↔ Loads disk path settings := by
  rw [← load_eq_ok_iff]
  show (load disk path).run.toOption = some settings ↔ _
  cases (load disk path).run with
  | error error => simp [Except.toOption]
  | ok other => simp [Except.toOption]

/-! ## The nearest file -/

/-- Where a directory has its configuration file. -/
def configFile (directory : List Text) : Text := absolute (directory ++ [fileName])

/-- **`HasConfig disk directory`** — something is there in the place of the directory's file. -/
def HasConfig (disk : Files Id) (directory : List Text) : Prop :=
  (disk.isPresent (configFile directory)).run = true

instance (directory : List Text) : Decidable (HasConfig disk directory) :=
  inferInstanceAs (Decidable (_ = true))

/-- **`IsNearest disk names up`** — of the directory of these names and those above it, `up` is the first
that has something in the place of its file. -/
structure IsNearest (disk : Files Id) (names up : List Text) : Prop where
  above : up <+: names
  present : HasConfig disk up
  first : ∀ nearer, up <+: nearer → nearer <+: names → HasConfig disk nearer → nearer = up

theorem isNearest_of_present (h : HasConfig disk names) : IsNearest disk names up ↔ up = names := by
  constructor
  · intro hup
    exact (hup.first names hup.above List.prefix_rfl h).symm
  · rintro rfl
    exact ⟨List.prefix_rfl, h, fun nearer hup hnames _ => hnames.eq_of_length_le hup.length_le⟩

theorem isNearest_root_of_not (h : ¬ HasConfig disk []) : ¬ IsNearest disk [] up := by
  rintro ⟨habove, hpresent, -⟩
  rw [List.prefix_nil.mp habove] at hpresent
  exact h hpresent

/-- **One level up**: a directory without a file has the nearest one of the directory that it is in. -/
theorem isNearest_concat_of_not {name : Text} (h : ¬ HasConfig disk (names ++ [name])) :
    IsNearest disk (names ++ [name]) up ↔ IsNearest disk names up := by
  constructor
  · rintro ⟨habove, hpresent, hfirst⟩
    rcases List.prefix_concat_iff.mp habove with rfl | habove
    · exact absurd hpresent h
    · exact ⟨habove, hpresent, fun nearer hup hnames =>
        hfirst nearer hup (hnames.trans (List.prefix_append names [name]))⟩
  · rintro ⟨habove, hpresent, hfirst⟩
    refine ⟨habove.trans (List.prefix_append names [name]), hpresent, ?_⟩
    intro nearer hup hnames hnearer
    rcases List.prefix_concat_iff.mp hnames with rfl | hnames
    · exact absurd hnearer h
    · exact hfirst nearer hup hnames hnearer

theorem nearest?_of_present (h : ∀ name ∈ names, IsName name) (hpresent : HasConfig disk names)
    (others : List Text) :
    (nearest? disk (absolute names :: others)).run = some (configFile names) := by
  have hfound : (disk.isPresent (configFile names)).run = true := hpresent
  rw [nearest?, join_absolute h, Id.run_bind, ← configFile, hfound]
  rfl

theorem nearest?_of_not (h : ∀ name ∈ names, IsName name) (hpresent : ¬ HasConfig disk names)
    (others : List Text) :
    (nearest? disk (absolute names :: others)).run = (nearest? disk others).run := by
  have hnothing : (disk.isPresent (configFile names)).run = false := Bool.eq_false_iff.mpr hpresent
  rw [nearest?, join_absolute h, Id.run_bind, ← configFile, hnothing]
  rfl

/-- **The search stops at the nearest file**, and finds none only if there is none. -/
theorem nearest?_eq_some_iff (h : ∀ name ∈ names, IsName name) :
    (nearest? disk (ancestors (absolute names))).run = some path ↔
      ∃ up, IsNearest disk names up ∧ path = configFile up := by
  induction names using List.reverseRecOn with
  | nil =>
      rw [ancestors_root]
      by_cases hpresent : HasConfig disk []
      · simp only [nearest?_of_present h hpresent, isNearest_of_present hpresent, exists_eq_left,
          Option.some.injEq, eq_comm]
      · rw [nearest?_of_not h hpresent]
        simp [isNearest_root_of_not hpresent, nearest?]
  | append_singleton names name ih =>
      rw [ancestors_concat h]
      by_cases hpresent : HasConfig disk (names ++ [name])
      · simp only [nearest?_of_present h hpresent, isNearest_of_present hpresent, exists_eq_left,
          Option.some.injEq, eq_comm]
      · rw [nearest?_of_not h hpresent, ih fun n hn => h n (List.mem_append_left _ hn)]
        simp only [isNearest_concat_of_not hpresent]

/-- **`OfDirectories disk names settings`** — there is a nearest file, and it loads. -/
def OfDirectories (disk : Files Id) (names : List Text) (settings : Settings) : Prop :=
  ∃ up, IsNearest disk names up ∧ Loads disk (configFile up) settings

theorem ofDirectories?_eq_some_iff {directory : Text} {settings : Settings} :
    (ofDirectories? disk directory).run = some settings ↔
      OfDirectories disk (parts directory) settings := by
  have hiff : ∀ path, (nearest? disk (ancestors directory)).run = some path ↔
      ∃ up, IsNearest disk (parts directory) up ∧ path = configFile up := by
    intro path
    rw [← ancestors_absolute_parts]
    exact nearest?_eq_some_iff fun _ => isName_of_mem_parts
  cases hfound : (nearest? disk (ancestors directory)).run with
  | none =>
      rw [ofDirectories?, Id.run_bind, hfound]
      show none = some settings ↔ _
      constructor
      · intro hnone
        cases hnone
      · rintro ⟨up, hup, -⟩
        cases hfound.symm.trans ((hiff _).mpr ⟨up, hup, rfl⟩)
  | some path =>
      rw [ofDirectories?, Id.run_bind, hfound]
      show (loaded? disk path).run = some settings ↔ _
      rw [loaded?_eq_some_iff]
      constructor
      · intro hloads
        obtain ⟨up, hup, rfl⟩ := (hiff _).mp hfound
        exact ⟨up, hup, hloads⟩
      · rintro ⟨up, hup, hloads⟩
        obtain rfl := Option.some.inj (hfound.symm.trans ((hiff _).mpr ⟨up, hup, rfl⟩))
        exact hloads

/-! ## The user's own file -/

/-- **`OfUser disk home settings`** — the home directory has a file of the user's own, and it loads. -/
def OfUser (disk : Files Id) (home : Option Text) (settings : Settings) : Prop :=
  ∃ directory, home = some directory ∧
    (disk.isPresent (join directory ".config/restblock/restblock.toml".toList)).run = true ∧
    Loads disk (join directory ".config/restblock/restblock.toml".toList) settings

theorem userFile_eq (directory : Text) :
    userFile directory = join directory ".config/restblock/restblock.toml".toList := by
  rw [userFile, join_join _ (by decide), join_join _ (by decide)]
  rfl

theorem ofUser?_eq_some_iff {home : Option Text} {settings : Settings} :
    (ofUser? disk home).run = some settings ↔ OfUser disk home settings := by
  cases home with
  | none =>
      show none = some settings ↔ _
      simp [OfUser]
  | some directory =>
      simp only [OfUser, Option.some.injEq, exists_eq_left', ← userFile_eq]
      rw [ofUser?, Id.run_bind]
      cases hpresent : (disk.isPresent (userFile directory)).run with
      | false =>
          show none = some settings ↔ _
          simp
      | true =>
          show (loaded? disk (userFile directory)).run = some settings ↔ _
          simp [loaded?_eq_some_iff]

/-! ## What settings start from -/

/-- **`StartsFrom disk names home asked settings`** — the settings before anything is put in. -/
inductive StartsFrom (disk : Files Id) (names : List Text) (home : Option Text) :
    Option Text → Settings → Prop
  /-- Those of the file that is asked for. -/
  | asked {path : Text} {settings : Settings} (h : Loads disk path settings) :
      StartsFrom disk names home (some path) settings
  /-- Those of the nearest file. -/
  | nearest {settings : Settings} (h : OfDirectories disk names settings) :
      StartsFrom disk names home none settings
  /-- Those of the user's own file. -/
  | user {settings : Settings} (hnone : ∀ found, ¬ OfDirectories disk names found)
      (h : OfUser disk home settings) : StartsFrom disk names home none settings
  /-- The defaults. -/
  | defaults (hnone : ∀ found, ¬ OfDirectories disk names found)
      (hnobody : ∀ found, ¬ OfUser disk home found) : StartsFrom disk names home none {}

/-- Without a file that is asked for, settings are always found. -/
theorem start_none (disk : Files Id) (directory : Text) (home : Option Text) :
    (start disk directory home none).run =
      .ok (((ofDirectories? disk directory).run.or (ofUser? disk home).run).getD {}) := by
  rw [start, Id.run_bind, find?, Id.run_bind]
  cases (ofDirectories? disk directory).run <;> rfl

theorem start_none_eq_ok_iff {directory : Text} {home : Option Text} {settings : Settings} :
    (start disk directory home none).run = .ok settings ↔
      StartsFrom disk (parts directory) home none settings := by
  have habove : ∀ found, (ofDirectories? disk directory).run = some found ↔
      OfDirectories disk (parts directory) found := fun _ => ofDirectories?_eq_some_iff
  have hown : ∀ found, (ofUser? disk home).run = some found ↔ OfUser disk home found :=
    fun _ => ofUser?_eq_some_iff
  have hnone : (ofDirectories? disk directory).run = none ↔
      ∀ found, ¬ OfDirectories disk (parts directory) found :=
    Option.eq_none_iff_forall_ne_some.trans (forall_congr' fun found => not_congr (habove found))
  have hnobody : (ofUser? disk home).run = none ↔ ∀ found, ¬ OfUser disk home found :=
    Option.eq_none_iff_forall_ne_some.trans (forall_congr' fun found => not_congr (hown found))
  rw [start_none, Except.ok.injEq]
  constructor
  · rintro rfl
    cases hdirectories : (ofDirectories? disk directory).run with
    | some found => exact .nearest ((habove found).mp hdirectories)
    | none =>
        cases huser : (ofUser? disk home).run with
        | some found => exact .user (hnone.mp hdirectories) ((hown found).mp huser)
        | none => exact .defaults (hnone.mp hdirectories) (hnobody.mp huser)
  · rintro (_ | hfound | ⟨hpassed, hfound⟩ | ⟨hpassed, hnothing⟩)
    · rw [(habove settings).mpr hfound]
      rfl
    · rw [hnone.mpr hpassed, (hown settings).mpr hfound]
      rfl
    · rw [hnone.mpr hpassed, hnobody.mpr hnothing]
      rfl

/-- **What settings start from**, said by where they are found. -/
theorem start_eq_ok_iff {directory : Text} {home asked : Option Text} {settings : Settings} :
    (start disk directory home asked).run = .ok settings ↔
      StartsFrom disk (parts directory) home asked settings := by
  cases asked with
  | none => exact start_none_eq_ok_iff
  | some path =>
      show (load disk path).run = .ok settings ↔ _
      rw [load_eq_ok_iff]
      constructor
      · exact .asked
      · rintro ⟨hloads⟩
        exact hloads

/-- Only a file that is asked for makes them fail. -/
theorem start_eq_error_iff {directory : Text} {home asked : Option Text} {cause : SettingsError} :
    (start disk directory home asked).run = .error cause ↔
      ∃ path, asked = some path ∧ Refuses disk path cause := by
  cases asked with
  | none =>
      rw [start_none]
      simp
  | some path =>
      show (load disk path).run = .error cause ↔ _
      rw [load_eq_error_iff]
      simp

/-! ## What is put in -/

/-- **`Overridden overrides start settings`** — every field is the one that is given for it, if one is, and
the one that was there before, if none is. -/
structure Overridden (overrides : Overrides) (start settings : Settings) : Prop where
  verifyCertificates : settings.http.verifyCertificates =
    if overrides.insecure then false else start.http.verifyCertificates
  timeoutSeconds : settings.http.timeoutSeconds =
    overrides.timeoutSeconds.getD start.http.timeoutSeconds
  indentWidth : settings.json.indentWidth = overrides.indentWidth.getD start.json.indentWidth
  escapeNonAscii : settings.json.escapeNonAscii =
    if overrides.keepUnicode then false else start.json.escapeNonAscii
  language : settings.json.language = start.json.language

theorem overridden_iff {overrides : Overrides} {start settings : Settings} :
    Overridden overrides start settings ↔ override overrides start = settings := by
  constructor
  · rintro ⟨hverify, htimeout, hindent, hescape, hlanguage⟩
    obtain ⟨⟨verify, timeout⟩, escape, indent, language⟩ := settings
    simp only at hverify htimeout hindent hescape hlanguage
    subst hverify htimeout hindent hescape hlanguage
    rw [override]
    congr 2
    · cases overrides.insecure <;> simp
    · cases overrides.keepUnicode <;> simp
  · rintro rfl
    refine ⟨?_, rfl, rfl, ?_, rfl⟩
    · cases hinsecure : overrides.insecure <;> simp [override, hinsecure]
    · cases hkeep : overrides.keepUnicode <;> simp [override, hkeep]

end PlainRequest.Settings
