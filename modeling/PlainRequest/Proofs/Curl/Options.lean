/-
# PlainRequest.Proofs.Curl.Options — curl options in any order

The words of a curl command are a sequence of items: an option with its value, `-v`, or a word that
does not begin with a dash. The order of the items is free. What counts is how often each kind is
there: one URL, at most one method, at most one text of data, and headers and `-v` as many as there
may be. A value is whatever word comes next, so an item is never mistaken for another one, even where
its value looks like an option.

The reading is followed item by item. As long as nothing was given too often, `Reads` says what has
been given; the first item that is one too many spoils the reading or is refused at once.
-/

import PlainRequest.Proofs.Curl.ReadBack

namespace PlainRequest.Curl

open Text Arguments Reading

/-! ## Items -/

/-- A part of a curl command. -/
inductive Item
  /-- `-H` and a header. -/
  | header (line : Text)
  /-- `-X` and a method. -/
  | method (name : Text)
  /-- `-d` and data. -/
  | data (text : Text)
  /-- `-v`. -/
  | verbose
  /-- A word that does not begin with a dash. -/
  | bare (word : Text) (undashed : word.head? ≠ some '-')

namespace Item

/-- The words of an item. -/
def words : Item → List Text
  | header line => ["-H".toList, line]
  | method name => ["-X".toList, name]
  | data text => ["-d".toList, text]
  | verbose => ["-v".toList]
  | bare word _ => [word]

/-- What an item gives. -/
def key : Item → Key
  | header _ => .header
  | method _ => .method
  | data _ => .data
  | verbose => .verbose
  | bare _ _ => .url

/-- The text that an item gives. -/
def value : Item → Text
  | header line => line
  | method name => name
  | data text => text
  | verbose => []
  | bare word _ => word

end Item

/-- **`valuesFor key items`** — what the items of one kind give, in order. -/
def valuesFor (key : Key) (items : List Item) : List Text :=
  (items.filter (·.key = key)).map Item.value

/-- What items give, in order. -/
def givenBy (items : List Item) : List (Key × Text) :=
  items.map fun item => (item.key, item.value)

theorem valuesOf_givenBy (key : Key) (items : List Item) :
    valuesOf key (givenBy items) = valuesFor key items := by
  induction items with
  | nil => rfl
  | cons item rest ih =>
      have hcons : valuesOf key (givenBy (item :: rest)) = _ :=
        valuesOf_cons key item.key item.value (givenBy rest)
      rw [hcons, ih, valuesFor, valuesFor, List.filter_cons]
      by_cases hkey : item.key = key
      · simp [hkey]
      · simp [hkey]

/-- How often a kind is given is how many values it has. -/
theorem count_givenBy (key : Key) (items : List Item) :
    ((givenBy items).map Prod.fst).count key = (valuesFor key items).length := by
  rw [givenBy, List.map_map, valuesFor, List.length_map, ← List.countP_eq_length_filter,
    List.count, List.countP_map]
  rfl

/-! ## Which items may be repeated -/

/-- May the parameter be given more than once? -/
def mayRepeat : Key → Bool
  | .header | .verbose => true
  | .data | .method | .url => false

/-- **`OnceOnly given`** — nothing is given too often. -/
def OnceOnly (given : List (Key × Text)) : Prop :=
  ∀ key, mayRepeat key = false → (given.map Prod.fst).count key ≤ 1

/-- **`Fresh given item`** — the item may be given after `given`. -/
def Fresh (given : List (Key × Text)) (item : Item) : Prop :=
  mayRepeat item.key = true ∨ item.key ∉ given.map Prod.fst

theorem onceOnly_nil : OnceOnly [] := fun key _ => by simp

theorem count_concat (given : List (Key × Text)) (last : Key) (value : Text) (key : Key) :
    ((given ++ [(last, value)]).map Prod.fst).count key =
      (given.map Prod.fst).count key + if last = key then 1 else 0 := by
  rw [List.map_append, List.count_append, List.map_singleton, List.count_singleton]
  simp only [beq_iff_eq]

/-- With a fresh item there is still nothing given too often. -/
theorem OnceOnly.concat {given : List (Key × Text)} (h : OnceOnly given) {item : Item}
    (hfresh : Fresh given item) : OnceOnly (given ++ [(item.key, item.value)]) := by
  intro key hkey
  have hcount := h key hkey
  rw [count_concat]
  split
  · next heq =>
      rcases hfresh with hrepeat | hnew
      · rw [heq, hkey] at hrepeat
        cases hrepeat
      · rw [heq] at hnew
        rw [List.count_eq_zero.mpr hnew]
  · exact hcount

/-- Where nothing is given too often, every item is fresh in its place. -/
theorem OnceOnly.fresh {given : List (Key × Text)} {item : Item} {rest : List Item}
    (h : OnceOnly (given ++ givenBy (item :: rest))) : Fresh given item := by
  cases hrepeat : mayRepeat item.key with
  | true => exact .inl hrepeat
  | false =>
      right
      intro hmem
      have hcount := h item.key hrepeat
      have hpositive := List.count_pos_iff.mpr hmem
      rw [List.map_append, List.count_append, givenBy, List.map_cons, List.map_cons,
        List.count_cons_self] at hcount
      omega

/-! ## Reading one item -/

/-- **`Reads reading given`** — what was read is `given`, and every URL in it is an operand. -/
def Reads (reading : Reading Key) (given : List (Key × Text)) : Prop :=
  Settles reading given ((given.map Prod.fst).count .url)

theorem reads_start : Reads {} [] := settles_start

variable {reading : Reading Key} {given : List (Key × Text)}

/-- What is no URL is no operand. -/
theorem reads_of_settles {next : Reading Key} {key : Key} {value : Text} (hurl : key ≠ .url)
    (h : Settles next (given ++ [(key, value)]) ((given.map Prod.fst).count .url)) :
    Reads next (given ++ [(key, value)]) := by
  rw [Reads, count_concat, if_neg hurl]
  exact h

/-- **A fresh item is given.** -/
theorem reads_item (h : Reads reading given) {item : Item} (hfresh : Fresh given item)
    (words : List Text) :
    ∃ next, reading.readWords grammar (item.words ++ words) = readWords grammar next words ∧
      Reads next (given ++ [(item.key, item.value)]) := by
  cases item with
  | header line =>
      obtain ⟨next, hread, hnext⟩ := readWords_header h line words
      exact ⟨next, hread, reads_of_settles nofun hnext⟩
  | method name =>
      have hnew : Key.method ∉ given.map Prod.fst := hfresh.resolve_left Bool.false_ne_true
      obtain ⟨next, hread, hnext⟩ := readWords_method h hnew name words
      exact ⟨next, hread, reads_of_settles nofun hnext⟩
  | data text =>
      have hnew : Key.data ∉ given.map Prod.fst := hfresh.resolve_left Bool.false_ne_true
      obtain ⟨next, hread, hnext⟩ := readWords_data h hnew text words
      exact ⟨next, hread, reads_of_settles nofun hnext⟩
  | verbose =>
      obtain ⟨next, hread, hnext⟩ := readWords_verbose h words
      exact ⟨next, hread, reads_of_settles nofun hnext⟩
  | bare word undashed =>
      have hnew : Key.url ∉ given.map Prod.fst := hfresh.resolve_left Bool.false_ne_true
      have hnone : (given.map Prod.fst).count Key.url = 0 := List.count_eq_zero.mpr hnew
      have hsettles : Settles reading given 0 := by
        rw [Reads, hnone] at h
        exact h
      obtain ⟨next, hread, hnext⟩ := readWords_url hsettles hnew (.inl undashed) words
      refine ⟨next, hread, ?_⟩
      rw [Reads, count_concat, hnone]
      exact hnext

/-- **Behind a spoiled parameter all items are refused.** -/
theorem refused_of_spoiled (h : Spoiled reading) (items : List Item) :
    ∃ stop, readFrom grammar reading (items.flatMap Item.words) = .error stop := by
  cases items with
  | nil => exact h.finish
  | cons item rest =>
      -- only the first word of what follows is looked at
      have hfirst : ∃ word words stop, (item :: rest).flatMap Item.words = word :: words ∧
          reading.readWord grammar word = .error stop := by
        rw [List.flatMap_cons]
        cases item with
        | header line =>
            obtain ⟨stop, hstop⟩ := h.readWord_letter 'H' (by decide)
            exact ⟨_, _, stop, rfl, hstop⟩
        | method name =>
            obtain ⟨stop, hstop⟩ := h.readWord_letter 'X' (by decide)
            exact ⟨_, _, stop, rfl, hstop⟩
        | data text =>
            obtain ⟨stop, hstop⟩ := h.readWord_letter 'd' (by decide)
            exact ⟨_, _, stop, rfl, hstop⟩
        | verbose =>
            obtain ⟨stop, hstop⟩ := h.readWord_letter 'v' (by decide)
            exact ⟨_, _, stop, rfl, hstop⟩
        | bare word undashed =>
            obtain ⟨stop, hstop⟩ := h.readWord_plain (.inl undashed)
            exact ⟨_, _, stop, rfl, hstop⟩
      obtain ⟨word, words, stop, hwords, hstop⟩ := hfirst
      rw [hwords]
      exact ⟨stop, readFrom_of_error rfl hstop words⟩

/-- An option that is given again leaves the reading spoiled. -/
theorem refused_option (h : Reads reading given) (letter : Char) {parameter : Parameter Key}
    (hletter : letter ≠ '-')
    (hfind : grammar.options.find? (·.letter = some letter) = some parameter)
    (hkind : parameter.kind = .value true) (honce : parameter.repeatable = false)
    (hgiven : parameter.key ∈ given.map Prod.fst) (value : Text) (rest : List Item) :
    ∃ stop, readFrom grammar reading (['-', letter] :: value :: rest.flatMap Item.words) =
      .error stop := by
  have hread := readFrom_of_readWords
    ((readWords_cons rfl (readWord_valueOption h hletter hfind hkind)
      (value :: rest.flatMap Item.words)).trans (readWords_cons rfl (readWord_value hkind value) _))
  rw [hread]
  exact refused_of_spoiled (spoiled_of_repeated hkind honce hgiven value) rest

/-- **An item that is one too many is refused**, whatever items follow it. -/
theorem refused_item (h : Reads reading given) {item : Item} (hstale : ¬ Fresh given item)
    (rest : List Item) :
    ∃ stop, readFrom grammar reading (item.words ++ rest.flatMap Item.words) = .error stop := by
  rw [Fresh, not_or, not_not] at hstale
  obtain ⟨hrepeat, hmem⟩ := hstale
  cases item with
  | header line => exact absurd rfl hrepeat
  | verbose => exact absurd rfl hrepeat
  | method name => exact refused_option h 'X' (by decide) rfl rfl rfl hmem name rest
  | data text => exact refused_option h 'd' (by decide) rfl rfl rfl hmem text rest
  | bare word undashed =>
      -- the only operand is taken
      have htaken : grammar.operands[(given.map Prod.fst).count Key.url]? = none := by
        have hpositive := List.count_pos_iff.mpr hmem
        exact List.getElem?_eq_none hpositive
      obtain ⟨stop, hstop⟩ := readWord_surplus h (.inl undashed) htaken
      exact ⟨stop, readFrom_of_error rfl hstop _⟩

/-! ## Reading all items -/

theorem concat_givenBy (given : List (Key × Text)) (item : Item) (rest : List Item) :
    (given ++ [(item.key, item.value)]) ++ givenBy rest = given ++ givenBy (item :: rest) := by
  rw [List.append_assoc]
  rfl

/-- Items that are not too many are all given. -/
theorem reads_items {items : List Item} (h : Reads reading given)
    (honce : OnceOnly (given ++ givenBy items)) :
    ∃ next, reading.readWords grammar (items.flatMap Item.words) = readWords grammar next [] ∧
      Reads next (given ++ givenBy items) := by
  induction items generalizing reading given with
  | nil => exact ⟨reading, rfl, by rwa [givenBy, List.map_nil, List.append_nil]⟩
  | cons item rest ih =>
      obtain ⟨middle, hfirst, hmiddle⟩ := reads_item h honce.fresh (rest.flatMap Item.words)
      rw [← concat_givenBy] at honce
      obtain ⟨next, hrest, hnext⟩ := ih hmiddle honce
      rw [concat_givenBy] at hnext
      refine ⟨next, ?_, hnext⟩
      rw [List.flatMap_cons, hfirst, hrest]

/-- Items of which one is too many are refused. -/
theorem refused_items {items : List Item} (h : Reads reading given) (hgiven : OnceOnly given)
    (honce : ¬ OnceOnly (given ++ givenBy items)) :
    ∃ stop, readFrom grammar reading (items.flatMap Item.words) = .error stop := by
  induction items generalizing reading given with
  | nil =>
      rw [givenBy, List.map_nil, List.append_nil] at honce
      exact absurd hgiven honce
  | cons item rest ih =>
      rw [List.flatMap_cons]
      by_cases hfresh : Fresh given item
      · -- the item that is too many comes later
        obtain ⟨middle, hfirst, hmiddle⟩ := reads_item h hfresh (rest.flatMap Item.words)
        rw [← concat_givenBy] at honce
        rw [readFrom_of_readWords hfirst]
        exact ih hmiddle (hgiven.concat hfresh) honce
      · exact refused_item h hfresh rest

theorem onceOnly_givenBy_iff (items : List Item) :
    OnceOnly (givenBy items) ↔
      (valuesFor .method items).length ≤ 1 ∧ (valuesFor .data items).length ≤ 1 ∧
        (valuesFor .url items).length ≤ 1 := by
  constructor
  · intro h
    simp only [← count_givenBy]
    exact ⟨h .method rfl, h .data rfl, h .url rfl⟩
  · rintro ⟨hmethod, hdata, hurl⟩ key hkey
    rw [count_givenBy]
    cases key with
    | header => cases hkey
    | verbose => cases hkey
    | method => exact hmethod
    | data => exact hdata
    | url => exact hurl

theorem url_mem_givenBy_iff (items : List Item) :
    Key.url ∈ (givenBy items).map Prod.fst ↔ 0 < (valuesFor .url items).length := by
  rw [← count_givenBy, List.count_pos_iff]

/-- **`Suits items`** — one bare word, at most one method and at most one text of data. -/
structure Suits (items : List Item) : Prop where
  url : (valuesFor .url items).length = 1
  method : (valuesFor .method items).length ≤ 1
  data : (valuesFor .data items).length ≤ 1

/-- **Items that suit** are read as what they give. -/
theorem read_of_suits {items : List Item} (h : Suits items) :
    Arguments.read grammar (items.flatMap Item.words) = .ok (givenBy items) := by
  have honce : OnceOnly ([] ++ givenBy items) :=
    (onceOnly_givenBy_iff items).mpr ⟨h.method, h.data, Nat.le_of_eq h.url⟩
  obtain ⟨next, hread, hnext⟩ := reads_items reads_start honce
  have hurl : Key.url ∈ (givenBy items).map Prod.fst := by
    rw [url_mem_givenBy_iff, h.url]
    exact Nat.one_pos
  show readFrom grammar {} _ = _
  rw [readFrom_of_readWords hread]
  exact finish_of_settles hnext (by simpa [grammar] using hurl)

/-- **Items that do not** are refused. -/
theorem read_of_not_suits {items : List Item} (h : ¬ Suits items) :
    ∃ stop, Arguments.read grammar (items.flatMap Item.words) = .error stop := by
  show ∃ stop, readFrom grammar {} _ = _
  by_cases honce : OnceOnly ([] ++ givenBy items)
  · -- nothing is too often there, so the URL is missing
    obtain ⟨next, hread, hnext⟩ := reads_items reads_start honce
    obtain ⟨hmethod, hdata, hurl⟩ := (onceOnly_givenBy_iff items).mp honce
    have hmissing : Key.url ∉ (givenBy items).map Prod.fst := by
      rw [url_mem_givenBy_iff]
      intro hpositive
      apply h
      exact ⟨by omega, hmethod, hdata⟩
    rw [readFrom_of_readWords hread]
    exact finish_of_lacks_url (lacks_of_settles hnext hmissing)
  · exact refused_items reads_start onceOnly_nil honce

/-! ## From items to lines -/

/-- What items ask for, if they suit. -/
theorem ofWords_of_suits {items : List Item} (h : Suits items) :
    Call.ofWords (items.flatMap Item.words) =
      .ok { method := (valuesFor .method items).getLast?
            headers := valuesFor .header items
            data := (valuesFor .data items).getLast?
            url := (valuesFor .url items).getLast?.getD [] } := by
  unfold Call.ofWords
  rw [read_of_suits h]
  simp only [bind, Except.bind, valueOf?_eq_getLast?, valuesOf_givenBy]
  rfl

theorem dropCommandName_curl (words : List Text) :
    dropCommandName ("curl".toList :: words) = words := by
  rw [dropCommandName, if_pos rfl]

theorem toLines_of_suits {command : Text} {items : List Item}
    (hwords : Shell.words? command = some ("curl".toList :: items.flatMap Item.words))
    (h : Suits items) :
    toLines command = .ok (Call.toLines
      { method := (valuesFor .method items).getLast?
        headers := valuesFor .header items
        data := (valuesFor .data items).getLast?
        url := (valuesFor .url items).getLast?.getD [] }) := by
  unfold toLines
  simp only [hwords, dropCommandName_curl, ofWords_of_suits h]
  rfl

theorem toLines_of_not_suits {command : Text} {items : List Item}
    (hwords : Shell.words? command = some ("curl".toList :: items.flatMap Item.words))
    (h : ¬ Suits items) :
    ∃ stop, toLines command = .error (.curl (.arguments stop)) := by
  obtain ⟨stop, hstop⟩ := read_of_not_suits h
  refine ⟨stop, ?_⟩
  have hcall : Call.ofWords (items.flatMap Item.words) = .error stop := by
    unfold Call.ofWords
    rw [hstop]
    rfl
  unfold toLines
  simp only [hwords, dropCommandName_curl, hcall]
  rfl

/-- **Options in any order, and how many of each.** A command whose words are the name of the program
and any sequence of items is read if and only if there is exactly one bare word among them, at most
one method and at most one text of data. The lines that it is read as depend on that word, the method,
the data and the headers in their order, and on nothing else: the request line, with `POST` for a
missing method if there are data, even empty ones, and `GET` if there are none; the headers as they are;
and the data, laid out if they are JSON, as one line if they are not, as no line if they are empty.
Every other sequence is refused as no curl command. -/
theorem toLines_ofItems {command : Text} {items : List Item}
    (hwords : Shell.words? command = some ("curl".toList :: items.flatMap Item.words)) :
    ((∃ lines, toLines command = .ok lines) ↔
      (valuesFor .url items).length = 1 ∧ (valuesFor .method items).length ≤ 1 ∧
        (valuesFor .data items).length ≤ 1) ∧
    (∀ (url : Text) (method data : Option Text), valuesFor .url items = [url] →
      valuesFor .method items = method.toList → valuesFor .data items = data.toList →
      toLines command = .ok
        ([method.getD (if data.isSome then "POST".toList else "GET".toList) ++ [' '] ++ url]
          ++ valuesFor .header items
          ++ (match data with
              | none => []
              | some text =>
                  if text.isEmpty then []
                  else match Json.reformat? ⟨4, true⟩ text with
                    | some json => Text.lines json
                    | none => [text]))) ∧
    ∀ failure, toLines command = .error failure → ∃ fault, failure = .curl fault := by
  refine ⟨?_, ?_, ?_⟩
  · constructor
    · rintro ⟨lines, hlines⟩
      by_contra hcounts
      have hnot : ¬ Suits items := fun h => hcounts ⟨h.url, h.method, h.data⟩
      obtain ⟨stop, hstop⟩ := toLines_of_not_suits hwords hnot
      rw [hstop] at hlines
      cases hlines
    · rintro ⟨hurl, hmethod, hdata⟩
      exact ⟨_, toLines_of_suits hwords ⟨hurl, hmethod, hdata⟩⟩
  · intro url method data hurl hmethod hdata
    have hoption : ∀ option : Option Text, option.toList.length ≤ 1 ∧
        option.toList.getLast? = option := by
      intro option
      cases option <;> simp
    have hsuits : Suits items := by
      refine ⟨?_, ?_, ?_⟩
      · rw [hurl]
        rfl
      · rw [hmethod]
        exact (hoption method).1
      · rw [hdata]
        exact (hoption data).1
    rw [toLines_of_suits hwords hsuits, hurl, hmethod, hdata, (hoption method).2, (hoption data).2]
    cases data <;> rfl
  · intro failure hfailure
    by_cases h : Suits items
    · rw [toLines_of_suits hwords h] at hfailure
      cases hfailure
    · obtain ⟨stop, hstop⟩ := toLines_of_not_suits hwords h
      rw [hstop] at hfailure
      cases hfailure
      exact ⟨_, rfl⟩

/-- Values that look like options, behind a URL that stands in the middle. -/
theorem toLines_ofItems_dashes :
    ∃ items : List Item,
      Shell.words? "curl -d -v -v u -H -- -X -H".toList =
        some ("curl".toList :: items.flatMap Item.words) ∧
      valuesFor .url items = [['u']] ∧ valuesFor .header items = ["--".toList] ∧
      valuesFor .data items = ["-v".toList] ∧ valuesFor .method items = ["-H".toList] ∧
      toLines "curl -d -v -v u -H -- -X -H".toList =
        .ok ["-H u".toList, "--".toList, "-v".toList] := by
  have hwords : Shell.words? "curl -d -v -v u -H -- -X -H".toList =
      some ("curl".toList :: [Item.data "-v".toList, .verbose, .bare ['u'] (by decide),
        .header "--".toList, .method "-H".toList].flatMap Item.words) := by
    decide +kernel
  refine ⟨_, hwords, rfl, rfl, rfl, rfl, ?_⟩
  rw [(toLines_ofItems hwords).2.1 ['u'] (some "-H".toList) (some "-v".toList) rfl rfl rfl]
  decide +kernel

end PlainRequest.Curl
