/-
# PlainRequest.Proofs.CommandLine.Options — what the options of the program do

The options about settings stand before the subcommand or behind it. `Counts` says which value an option
has then, and `Asks` what is asked for: every option gives what is its own and nothing else. So a command
runs with the settings it starts from, but for the fields whose options are among its words.
-/

import PlainRequest.Files.Tree
import PlainRequest.Proofs.Arguments.Wording
import PlainRequest.Proofs.CommandLine.Piping
import PlainRequest.Proofs.Settings.Effective

namespace PlainRequest.CommandLine

open Arguments Settings Text

variable {outer inner : List (Key × Text)} {before behind : List Text} {count : Nat}

/-! ## How the options are called -/

/-- The names of the options about settings, and what each is for. -/
def settingNames : List (Text × Key) :=
  [("config".toList, .config), ("insecure".toList, .insecure), ("timeout".toList, .timeout),
    ("indent".toList, .indent), ("no-escape-unicode".toList, .keepUnicode)]

/-- **`CallsSettings grammar`** — each of the names calls one option of the grammar, the one that is for
this, and so does the letter that stands for one of them. -/
structure CallsSettings (grammar : Grammar Key) : Prop where
  names : ∀ name key, (name, key) ∈ settingNames → ∃ parameter, parameter.key = key ∧
    ∀ other, Calls grammar other ('-' :: '-' :: name) ↔ other = parameter
  letter : ∃ parameter, parameter.key = .insecure ∧
    ∀ other, Calls grammar other ['-', 'k'] ↔ other = parameter

theorem callsSettings_of_find? {grammar : Grammar Key}
    (hnames : ∀ entry ∈ settingNames,
      (grammar.options.find? (·.name = some entry.1)).map Parameter.key = some entry.2)
    (hletter : (grammar.options.find? (·.letter = some 'k')).map Parameter.key = some .insecure) :
    CallsSettings grammar where
  names := by
    intro name key hmem
    have hword : ∀ entry ∈ settingNames, entry.1 ≠ [] ∧ '=' ∉ entry.1 := by decide
    obtain ⟨hne, hplain⟩ := hword _ hmem
    obtain ⟨parameter, hfind, hkey⟩ := Option.map_eq_some_iff.mp (hnames _ hmem)
    refine ⟨parameter, hkey, fun other => ?_⟩
    simp only [calls_name_iff, hfind, Option.some.injEq]
    exact ⟨fun h => h.2.2.symm, fun h => ⟨hne, hplain, h.symm⟩⟩
  letter := by
    obtain ⟨parameter, hfind, hkey⟩ := Option.map_eq_some_iff.mp hletter
    refine ⟨parameter, hkey, fun other => ?_⟩
    rw [calls_letter_iff (by decide), hfind, Option.some.injEq, eq_comm]

theorem callsSettings_outer : CallsSettings outerGrammar :=
  callsSettings_of_find? (by decide) (by decide)

theorem callsSettings_inner {subcommand : Subcommand} (h : subcommand ≠ .help) :
    CallsSettings (innerGrammar subcommand) := by
  cases subcommand with
  | help => exact absurd rfl h
  | send => exact callsSettings_of_find? (by decide) (by decide)
  | toCurl => exact callsSettings_of_find? (by decide) (by decide)
  | fromCurl => exact callsSettings_of_find? (by decide) (by decide)

/-! ## What is asked for -/

/-- **`Counts outer inner key value`** — with these parameters before and behind a subcommand, the value
counts for the key: one that is given behind it does. -/
def Counts (outer inner : List (Key × Text)) (key : Key) (value : Text) : Prop :=
  (key, value) ∈ inner ∨ key ∉ inner.map Prod.fst ∧ (key, value) ∈ outer

/-- **`Asks outer inner invocation`** — the invocation has what the parameters give for its settings. -/
structure Asks (outer inner : List (Key × Text)) (invocation : Invocation) : Prop where
  config : ∀ path, invocation.config = some path ↔ Counts outer inner .config path
  insecure : invocation.overrides.insecure = true ↔ .insecure ∈ (outer ++ inner).map Prod.fst
  timeoutSeconds : ∀ n, invocation.overrides.timeoutSeconds = some n ↔
    ∃ word, Counts outer inner .timeout word ∧ readNumber word = .ok n
  indentWidth : ∀ n, invocation.overrides.indentWidth = some n ↔
    ∃ word, Counts outer inner .indent word ∧ readNumber word = .ok n
  keepUnicode : invocation.overrides.keepUnicode = true ↔ .keepUnicode ∈ (outer ++ inner).map Prod.fst

theorem or_valueOf?_eq_some_iff (houter : (outer.map Prod.fst).Nodup)
    (hinner : (inner.map Prod.fst).Nodup) {key : Key} {value : Text} :
    (valueOf? key inner).or (valueOf? key outer) = some value ↔ Counts outer inner key value := by
  unfold Counts
  rw [← valueOf?_eq_some_iff hinner, ← valueOf?_eq_some_iff houter]
  cases hvalue : valueOf? key inner with
  | none =>
      have hfree : key ∉ inner.map Prod.fst := by
        intro hmem
        obtain ⟨⟨_, other⟩, hentry, rfl⟩ := List.mem_map.mp hmem
        cases hvalue.symm.trans ((valueOf?_eq_some_iff hinner).mpr hentry)
      simp [hfree]
  | some other =>
      have hentry := (valueOf?_eq_some_iff hinner).mp hvalue
      have hmem : key ∈ inner.map Prod.fst := List.mem_map_of_mem hentry
      simp [hmem]

/-- So does the number of an option, since a word that is no number is not accepted for one. -/
theorem or_numberOf?_eq_some_iff (houter : (outer.map Prod.fst).Nodup)
    (hinner : (inner.map Prod.fst).Nodup) {key : Key} {n : Nat}
    (hreads : ∀ word, (key, word) ∈ inner → checkNumber word = none) :
    (numberOf? key inner).or (numberOf? key outer) = some n ↔
      ∃ word, Counts outer inner key word ∧ readNumber word = .ok n := by
  have hnumber : ∀ word, (readNumber word).toOption = some n ↔ readNumber word = .ok n := by
    intro word
    cases readNumber word <;> simp [Except.toOption]
  have hor : (numberOf? key inner).or (numberOf? key outer) =
      ((valueOf? key inner).or (valueOf? key outer)).bind fun word => (readNumber word).toOption := by
    unfold numberOf?
    cases hvalue : valueOf? key inner with
    | none => rfl
    | some word =>
        have haccepted := hreads word ((valueOf?_eq_some_iff hinner).mp hvalue)
        unfold checkNumber at haccepted
        cases hword : readNumber word with
        | error fault => simp [hword] at haccepted
        | ok number => simp [hword, Except.toOption]
  rw [hor, Option.bind_eq_some_iff]
  simp only [or_valueOf?_eq_some_iff houter hinner, hnumber]

/-! ## The words -/

/-- What may stand before a subcommand may stand there once. -/
theorem not_repeatable_outer : ∀ parameter ∈ outerGrammar.options ++ outerGrammar.operands,
    parameter.repeatable = false := by
  simp [outerGrammar, settingsOptions, helpOption]

/-- And so may what stands behind it. -/
theorem not_repeatable_inner (subcommand : Subcommand) :
    ∀ parameter ∈ (innerGrammar subcommand).options ++ (innerGrammar subcommand).operands,
      parameter.repeatable = false := by
  cases subcommand <;>
    simp [innerGrammar, settingsOptions, helpOption, lineOption, requiredFile]

/-- The options with a number take numbers only. -/
theorem check_inner (subcommand : Subcommand) :
    ∀ parameter ∈ (innerGrammar subcommand).options ++ (innerGrammar subcommand).operands,
      parameter.key = .timeout ∨ parameter.key = .indent → parameter.check = checkNumber := by
  cases subcommand <;>
    simp [innerGrammar, settingsOptions, helpOption, lineOption, requiredFile]

theorem checkNumber_of_givesAll {subcommand : Subcommand}
    (h : GivesAll (innerGrammar subcommand) behind inner count) {key : Key}
    (hkey : key = .timeout ∨ key = .indent) :
    ∀ word, (key, word) ∈ inner → checkNumber word = none := by
  intro word hmem
  obtain ⟨parameter, hparameter, rfl, haccepted⟩ := h.accepted key word hmem
  rwa [check_inner subcommand parameter hparameter hkey] at haccepted

/-- **Each option gives what is its own.** -/
theorem asks_ofGiven {subcommand : Subcommand} (houter : GivesAll outerGrammar before outer 0)
    (hinner : GivesAll (innerGrammar subcommand) behind inner count) (action : Action) :
    Asks outer inner (Invocation.ofGiven outer inner action) := by
  have honce := houter.nodup not_repeatable_outer
  have hbehind := hinner.nodup (not_repeatable_inner subcommand)
  have hswitch : ∀ key, (isGiven key inner || isGiven key outer) = true ↔
      key ∈ (outer ++ inner).map Prod.fst := by
    intro key
    rw [List.map_append, List.mem_append, Bool.or_eq_true, or_comm]
    simp only [isGiven, List.contains_iff_mem]
  exact {
    config := fun _ => or_valueOf?_eq_some_iff honce hbehind
    insecure := hswitch .insecure
    timeoutSeconds := fun _ =>
      or_numberOf?_eq_some_iff honce hbehind (checkNumber_of_givesAll hinner (.inl rfl))
    indentWidth := fun _ =>
      or_numberOf?_eq_some_iff honce hbehind (checkNumber_of_givesAll hinner (.inr rfl))
    keepUnicode := hswitch .keepUnicode }

/-- Where there is an action, the file that it needs was given. -/
theorem required_of_actionOf {subcommand : Subcommand} {action : Action}
    (h : Invocation.actionOf inner subcommand = some action) :
    ∀ parameter ∈ (innerGrammar subcommand).operands, parameter.required = true →
      parameter.key ∈ inner.map Prod.fst := by
  have hfile : valueOf? .file inner ≠ none → .file ∈ inner.map Prod.fst :=
    fun hvalue => of_not_not fun hnot => hvalue (valueOf?_eq_none hnot)
  intro parameter hmem hrequired
  cases subcommand with
  | send =>
      obtain ⟨file, hvalue, -⟩ := Option.map_eq_some_iff.mp h
      obtain rfl := List.mem_singleton.mp hmem
      exact hfile (by simp [hvalue])
  | toCurl =>
      obtain ⟨file, hvalue, -⟩ := Option.map_eq_some_iff.mp h
      obtain rfl := List.mem_singleton.mp hmem
      exact hfile (by simp [hvalue])
  | fromCurl =>
      obtain rfl := List.mem_singleton.mp hmem
      cases hrequired
  | help => cases h

theorem readInner_of_givesAll {subcommand : Subcommand} {action : Action}
    (hinner : GivesAll (innerGrammar subcommand) behind inner count)
    (haction : Invocation.actionOf inner subcommand = some action) :
    Invocation.readInner subcommand behind = .ok inner := by
  have hrequired := required_of_actionOf haction
  cases subcommand with
  | help => cases haction
  | send => exact read_givesAll rfl hinner hrequired
  | toCurl => exact read_givesAll rfl hinner hrequired
  | fromCurl => exact read_givesAll rfl hinner hrequired

/-- **Words around a subcommand** ask for what is given before it and behind it. -/
theorem ofWords_of_givesAll {subcommand : Subcommand} {action : Action}
    (houter : GivesAll outerGrammar before outer 0)
    (hinner : GivesAll (innerGrammar subcommand) behind inner count)
    (haction : Invocation.actionOf inner subcommand = some action) :
    Invocation.ofWords (before ++ subcommand.word :: behind) =
      .ok (.ofGiven outer inner action) := by
  have hdash : ∀ word ∈ outerGrammar.subcommands, word.head? ≠ some '-' := by decide
  obtain ⟨next, hread, hsettles⟩ :=
    Reading.readWords_givesAll hdash houter (subcommand.word :: behind)
  have hreached : next.readWords outerGrammar (subcommand.word :: behind) =
      .ok (next, some (subcommand.word, behind)) := by
    obtain ⟨hopen, -, hidle⟩ := Reading.of_settles hsettles
    have hword : subcommand.word ∈ outerGrammar.subcommands := by cases subcommand <;> decide
    have hfound : next.isSubcommand outerGrammar subcommand.word = true := by
      simp [Reading.isSubcommand, hopen, hidle, hword]
    rw [Reading.readWords, if_pos hfound]
    rfl
  have hsubcommand : Subcommand.all.find? (·.word = subcommand.word) = some subcommand := by
    cases subcommand <;> decide
  have hfinish : next.finish outerGrammar = .ok outer :=
    Reading.finish_of_settles hsettles (by simp [outerGrammar])
  rw [Invocation.ofWords, hread, hreached]
  simp only [Except.mapError, bind, Except.bind, hsubcommand, readInner_of_givesAll hinner haction,
    hfinish, haction]
  rfl

/-! ## The settings -/

theorem settingsFor_run (host : Host Id) (invocation : Invocation) :
    (settingsFor host invocation).run =
      ((start host.files host.workingDirectory.run host.homeDirectory.run invocation.config).run.mapError
        fun cause => .request (.settings cause)).map (override invocation.overrides) := rfl

theorem settingsFor_eq_ok_iff {host : Host Id} {invocation : Invocation} {settings : Settings} :
    (settingsFor host invocation).run = .ok settings ↔
      ∃ start, StartsFrom host.files (Path.parts host.workingDirectory.run) host.homeDirectory.run
          invocation.config start ∧
        Overridden invocation.overrides start settings := by
  simp only [settingsFor_run, map_eq_ok_iff, mapError_eq_ok_iff, start_eq_ok_iff, overridden_iff]

theorem settingsFor_eq_error_iff {host : Host Id} {invocation : Invocation} {error : CommandError} :
    (settingsFor host invocation).run = .error error ↔
      ∃ path cause, invocation.config = some path ∧ Refuses host.files path cause ∧
        error = .request (.settings cause) := by
  rw [settingsFor_run]
  constructor
  · intro h
    cases hstart : (start host.files host.workingDirectory.run host.homeDirectory.run
        invocation.config).run with
    | error cause =>
        rw [hstart] at h
        obtain ⟨path, hpath, hrefuses⟩ := start_eq_error_iff.mp hstart
        exact ⟨path, cause, hpath, hrefuses, (Except.error.inj h).symm⟩
    | ok settings =>
        rw [hstart] at h
        cases h
  · rintro ⟨path, cause, hpath, hrefuses, rfl⟩
    rw [start_eq_error_iff.mpr ⟨path, hpath, hrefuses⟩]
    rfl

/-- **The settings of a command** are those of the file that is asked for, or of the nearest file, or of
the user's own, or the defaults, with what the command line gives in its own fields. They fail only for a
file that is asked for, if it cannot be read or its text gives none; then the command fails as well, and
otherwise it is run with them. What the command line gives is what the options among its words give, called
by their names, those behind the subcommand before those in front of it. -/
theorem settingsFor_exact (host : Host Id) :
    (∀ invocation settings, (settingsFor host invocation).run = .ok settings ↔
      ∃ start, StartsFrom host.files (Path.parts host.workingDirectory.run) host.homeDirectory.run
          invocation.config start ∧
        Overridden invocation.overrides start settings) ∧
    (∀ invocation error, (settingsFor host invocation).run = .error error ↔
      ∃ path cause, invocation.config = some path ∧ Refuses host.files path cause ∧
        error = .request (.settings cause)) ∧
    (∀ words invocation, Invocation.ofWords words = .ok invocation →
      (run host words).run = .ofResult ((settingsFor host invocation).run.bind fun settings =>
        (runAction host settings invocation.action).run)) ∧
    (CallsSettings outerGrammar ∧
      ∀ subcommand, subcommand ≠ .help → CallsSettings (innerGrammar subcommand)) ∧
    ∀ before behind outer inner count subcommand action,
      GivesAll outerGrammar before outer 0 → GivesAll (innerGrammar subcommand) behind inner count →
      Invocation.actionOf inner subcommand = some action →
      ∃ invocation, Invocation.ofWords (before ++ subcommand.word :: behind) = .ok invocation ∧
        invocation.action = action ∧ Asks outer inner invocation := by
  refine ⟨fun _ _ => settingsFor_eq_ok_iff, fun _ _ => settingsFor_eq_error_iff,
    fun _ _ => run_of_ofWords host, ⟨callsSettings_outer, fun _ => callsSettings_inner⟩, ?_⟩
  intro before behind outer inner count subcommand action houter hinner haction
  exact ⟨_, ofWords_of_givesAll houter hinner haction, rfl, asks_ofGiven houter hinner action⟩

/-- A tree with a directory in the place of the nearest configuration file, a file of that name further
up, and a file of the user's own. -/
def shadowedTree : FileTree where
  files :=
    [(["restblock.toml".toList], toUtf8 "[http]\ntimeout_secs = 5\n".toList),
      (["home".toList, ".config".toList, "restblock".toList, "restblock.toml".toList],
        toUtf8 "[json]\nindent_width = 3\n".toList)]
  directories := [["a".toList, "restblock.toml".toList], ["a".toList, "b".toList]]

/-- A machine with that tree. -/
def shadowedHost : Host Id where
  files := shadowedTree.toFiles ["a".toList, "b".toList]
  workingDirectory := "/a/b".toList
  homeDirectory := some "/home".toList
  input := .error .notFound
  network := fun _ => ⟨[], fun _ => .error []⟩

/-- The nearest file there is in `/a`, and is a directory. -/
theorem not_ofDirectories_shadowedHost (found : Settings) :
    ¬ OfDirectories shadowedHost.files ["a".toList, "b".toList] found := by
  rintro ⟨up, hnearest, text, htext, -⟩
  have hbelow : ¬ HasConfig shadowedHost.files (["a".toList] ++ ["b".toList]) := by decide +kernel
  have hup : up = ["a".toList] :=
    (isNearest_of_present (by decide +kernel)).mp ((isNearest_concat_of_not hbelow).mp hnearest)
  subst hup
  have hrefused : (shadowedHost.files.readText (configFile ["a".toList])).run =
      .error .isDirectory := by decide +kernel
  cases htext.symm.trans hrefused

theorem ofUser_shadowedHost :
    OfUser shadowedHost.files (some "/home".toList) { json := { indentWidth := 3 } } :=
  ⟨_, rfl, by decide +kernel, "[json]\nindent_width = 3\n".toList, by decide +kernel,
    by decide +kernel⟩

/-- The file further up is not consulted, and that of the user's own is; of two time-outs that are given the
one behind the subcommand counts. -/
theorem settingsFor_exact_shadowed :
    let words := ["-k".toList, "--timeout=7".toList, "send".toList, "f".toList, "--timeout".toList,
      "+9".toList]
    let invocation : Invocation :=
      ⟨.send "f".toList none, none, { insecure := true, timeoutSeconds := some 9 }⟩
    let settings : Settings :=
      { http := { verifyCertificates := false, timeoutSeconds := 9 }, json := { indentWidth := 3 } }
    Invocation.ofWords words = .ok invocation ∧
      Asks [(.insecure, []), (.timeout, "7".toList)] [(.file, "f".toList), (.timeout, "+9".toList)]
        invocation ∧
      (settingsFor shadowedHost invocation).run = .ok settings ∧
      (run shadowedHost words).run =
        .ofResult (runAction shadowedHost settings invocation.action).run := by
  intro words invocation settings
  obtain ⟨hsettings, -, hrun, -, hgiven⟩ := settingsFor_exact shadowedHost
  have hwords : Invocation.ofWords words = .ok invocation := by decide +kernel
  -- what the words give
  let insecure : Parameter Key := settingsOptions.get ⟨1, by decide⟩
  let timeout : Parameter Key := settingsOptions.get ⟨2, by decide⟩
  have hinsecure : Gives outerGrammar insecure [] ["-k".toList] :=
    .switch rfl (.letter (by decide) rfl)
  have hattached : Gives outerGrammar timeout "7".toList ["--timeout=7".toList] :=
    (.attached rfl (.name (by decide) (by decide) rfl) :
      Gives outerGrammar timeout "7".toList ['-' :: '-' :: ("timeout".toList ++ '=' :: "7".toList)])
  have hseparate : Gives (innerGrammar .send) timeout "+9".toList ["--timeout".toList, "+9".toList] :=
    .separate rfl (.name (by decide) (by decide) rfl) (.inl (by decide))
  have houter : GivesAll outerGrammar ["-k".toList, "--timeout=7".toList]
      [(.insecure, []), (.timeout, "7".toList)] 0 :=
    .option (.option .nil hinsecure ⟨rfl, .inr (by decide)⟩) hattached ⟨by decide, .inr (by decide)⟩
  have hplain : Reading.IsPlain "f".toList := .inl (by decide)
  have hadmits : Reading.Admits [] requiredFile "f".toList := ⟨by decide, .inr (by decide)⟩
  have hfile : GivesAll (innerGrammar .send) ["f".toList] [(.file, "f".toList)] 1 :=
    .operand .nil hplain (by decide) rfl rfl hadmits
  have hinner : GivesAll (innerGrammar .send) ["f".toList, "--timeout".toList, "+9".toList]
      [(.file, "f".toList), (.timeout, "+9".toList)] 1 :=
    .option hfile hseparate ⟨by decide, .inr (by decide)⟩
  obtain ⟨asked, hasked, -, hasks⟩ := hgiven _ _ _ _ _ .send _ houter hinner rfl
  obtain rfl : invocation = asked := Except.ok.inj (hwords.symm.trans hasked)
  have hfound : (settingsFor shadowedHost invocation).run = .ok settings :=
    (hsettings invocation settings).mpr ⟨_, .user not_ofDirectories_shadowedHost ofUser_shadowedHost, rfl, rfl, rfl, rfl, rfl⟩
  refine ⟨hwords, hasks, hfound, ?_⟩
  rw [hrun words invocation hwords, hfound]
  rfl

end PlainRequest.CommandLine
