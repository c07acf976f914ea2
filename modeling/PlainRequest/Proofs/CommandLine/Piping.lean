/-
# PlainRequest.Proofs.CommandLine.Piping — a command through a pipe

A command that is written for a block begins with its name and ends with a spelling. So there is no
white space at its ends, no comment mark in front and no continuation mark behind, whatever the block
holds; and there is no line feed in it. A reader of lines therefore gets it as one line, and finds
nothing on that line to leave out. What one program writes is what the next one reads.
-/

import PlainRequest.CommandLine.Outcome
import PlainRequest.Proofs.Curl.CommandWords
import PlainRequest.Proofs.Document.Layout
import PlainRequest.Proofs.Request.Characters
import PlainRequest.Proofs.Shell.Characters

namespace PlainRequest

open Text Shell

/-! ## The ends of a command -/

namespace Curl

theorem endsWell_commandOf {head : Head} {quotedUrl : Text}
    (h : quote? head.url = some quotedUrl) : EndsWell (commandOf head quotedUrl) :=
  (endsWell_quote? h).append _

theorem trimmed_commandOf {head : Head} {quotedUrl : Text}
    (h : quote? head.url = some quotedUrl) : Trimmed (commandOf head quotedUrl) := by
  obtain ⟨last, hlast, hend⟩ := endsWell_commandOf h
  refine ⟨?_, ?_, ?_⟩
  · rintro hempty
    rw [hempty] at hlast
    cases hlast
  · rintro c hc
    obtain rfl : 'c' = c := Option.some.inj hc
    decide
  · rintro c hc
    obtain rfl := Option.some.inj (hlast.symm.trans hc)
    exact hend.not_isSpace

/-! ## One line -/

theorem newline_notMem_doubled {text : Text} (h : '\n' ∉ text) : '\n' ∉ doubled text := by
  unfold doubled
  simp only [List.mem_append, List.mem_singleton, not_or]
  refine ⟨⟨by decide, fun hmem => ?_⟩, by decide⟩
  rcases of_mem_escapeDouble hmem with htext | hquoting
  · exact h htext
  · exact not_isQuoting_newline hquoting

theorem newline_notMem_dataOf {lines : List Text} (h : ∀ line ∈ lines, '\n' ∉ line) :
    '\n' ∉ dataOf lines := by
  intro hmem
  rcases of_mem_joinWith hmem with hspace | ⟨piece, hpiece, hc⟩
  · exact absurd hspace (by decide)
  · obtain ⟨line, hline, rfl⟩ := List.mem_map.mp hpiece
    exact h line hline (of_mem_trim hc)

theorem newline_notMem_headerSpellings {headers : List (Text × Text)}
    (h : ∀ header ∈ headers, '\n' ∉ header.1 ∧ '\n' ∉ header.2) :
    ∀ spelling ∈ headerSpellings headers, '\n' ∉ spelling := by
  intro spelling hspelling
  obtain ⟨⟨name, value⟩, hheader, hmem⟩ := List.mem_flatMap.mp hspelling
  obtain ⟨hname, hvalue⟩ := h _ hheader
  simp only [List.mem_cons, List.not_mem_nil, or_false] at hmem
  rcases hmem with rfl | rfl
  · decide
  · apply newline_notMem_doubled
    unfold Line.ofHeader
    simp only [List.mem_append, not_or]
    exact ⟨⟨hname, by decide⟩, hvalue⟩

/-- **A command is one line** if nothing in its request goes over a line. -/
theorem newline_notMem_commandOf {head : Head} {quotedUrl : Text} (h : head.Avoids '\n')
    (hquote : quote? head.url = some quotedUrl) : '\n' ∉ commandOf head quotedUrl := by
  have hmethod : '\n' ∉ head.method.name := by cases head.method <;> decide
  have hdata : '\n' ∉ doubled (dataOf head.bodyLines) :=
    newline_notMem_doubled (newline_notMem_dataOf h.bodyLines)
  have hurl : '\n' ∉ quotedUrl := by
    intro hmem
    rcases of_mem_quote? hquote hmem with hword | hquoting
    · exact h.url hword
    · exact not_isQuoting_newline hquoting
  have hspellings : ∀ spelling ∈ commandSpellings head quotedUrl, '\n' ∉ spelling := by
    simp only [commandSpellings, List.forall_mem_append, List.forall_mem_cons]
    exact ⟨⟨⟨by decide, by decide, hmethod, by simp⟩, newline_notMem_headerSpellings h.headers⟩,
      by decide, by decide, hdata, hurl, by simp⟩
  rw [commandOf_eq_joinWith]
  intro hmem
  rcases of_mem_joinWith hmem with hspace | ⟨spelling, hspelling, hc⟩
  · exact absurd hspace (by decide)
  · exact hspellings spelling hspelling hc

end Curl

/-! ## What the next program reads -/

namespace Document

/-- **A single line is the command that it spells**, if nothing at its ends is left out. -/
theorem commandText_singleton {command : Text} (h : Trimmed command)
    (hmark : command.head? ≠ some '#') (hlast : command.getLast? ≠ some '\\') :
    commandText [command] = command := by
  have hcarries : Carries command command :=
    .plain [] [] (List.append_nil command).symm rfl rfl hlast
  obtain ⟨hcomment, hblank⟩ := counts_of_carries hcarries h hmark
  have hcounts : Line.significant [command] = [command] := by
    rw [Line.significant, List.filter_cons_of_pos (by simp [hcomment, hblank])]
    rfl
  rw [commandText, hcounts, List.map_singleton, dropContinuation_of_carries hcarries h]
  rfl

/-- The lines of a block are lines of the document. -/
theorem blockAt_subset (document : List Text) (index : Nat) : blockAt document index ⊆ document := by
  unfold blockAt
  intro line hline
  dsimp only at hline
  split at hline
  · cases hline
  · rcases List.mem_append.mp hline with hbefore | hbehind
    · have hreverse := (List.takeWhile_prefix _).subset (List.mem_reverse.mp hbefore)
      exact List.mem_of_mem_take (List.mem_reverse.mp hreverse)
    · exact List.mem_of_mem_drop ((List.takeWhile_prefix _).subset hbehind)

end Document

namespace Curl

/-- **A written command is the one that its line spells.** -/
theorem commandText_lines_commandOf {head : Head} {quotedUrl : Text} (h : head.Avoids '\n')
    (hquote : quote? head.url = some quotedUrl) :
    Document.commandText (lines (unlines [commandOf head quotedUrl])) =
      commandOf head quotedUrl := by
  obtain ⟨last, hlast, hend⟩ := endsWell_commandOf hquote
  have hlines : lines (unlines [commandOf head quotedUrl]) = [commandOf head quotedUrl] := by
    apply lines_unlines
    · intro line hline
      obtain rfl := List.mem_singleton.mp hline
      exact newline_notMem_commandOf h hquote
    · intro line hline hreturn
      obtain rfl := List.mem_singleton.mp hline
      obtain rfl := Option.some.inj (hlast.symm.trans hreturn)
      exact absurd hend.not_isSpace (by decide)
  have hbackslash : (commandOf head quotedUrl).getLast? ≠ some '\\' := by
    rw [hlast]
    exact fun h => hend.ne_backslash (Option.some.inj h)
  rw [hlines]
  exact Document.commandText_singleton (trimmed_commandOf hquote)
    (fun hhead => absurd (Option.some.inj hhead) (by decide)) hbackslash

/-- **The command for a block of lines is a line**, and that line spells the command again. -/
theorem isLine_of_curlCommand {document block : List Text} {command : Text}
    (hlines : ∀ line ∈ block, '\n' ∉ line) (h : curlCommand document block = .ok command) :
    '\n' ∉ command ∧ Document.commandText (lines (command ++ ['\n'])) = command := by
  obtain ⟨head, quotedUrl, hhead, hquote, rfl⟩ := exists_commandOf_of_ofBlock h
  have havoids : head.Avoids '\n' :=
    Head.avoids_of_ofBlock (Table.valuesAvoid_newline_resolve document block) hlines hhead
  refine ⟨newline_notMem_commandOf havoids hquote, ?_⟩
  rw [← unlines_singleton]
  exact commandText_lines_commandOf havoids hquote

end Curl

/-! ## One program after the other -/

namespace CommandLine

/-- **`AsksToWrite host words document block`** — the words ask for a block of a file as a command for a
shell, and on the host, where settings are found, the file has that block in that document. -/
def AsksToWrite (host : Host Id) (words document block : List Text) : Prop :=
  ∃ invocation path line settings,
    Invocation.ofWords words = .ok invocation ∧ invocation.action = .toCurl path line false ∧
    (settingsFor host invocation).run = .ok settings ∧
    (readBlock host.files path line).run = .ok (document, block)

/-- **`AsksToRead words invocation`** — the words ask for the command on the standard input. -/
def AsksToRead (words : List Text) (invocation : Invocation) : Prop :=
  Invocation.ofWords words = .ok invocation ∧
    ∃ line, invocation.action = .fromCurl none line none

/-- A program that understands its words does what they ask for, once the settings are loaded. -/
theorem run_of_ofWords (host : Host Id) {words : List Text} {invocation : Invocation}
    (h : Invocation.ofWords words = .ok invocation) :
    (run host words).run = .ofResult ((settingsFor host invocation).run.bind fun settings =>
      (runAction host settings invocation.action).run) := by
  rw [run, h]
  show Outcome.ofResult (runInvocation host invocation).run = _
  rw [runInvocation]
  cases hload : (settingsFor host invocation).run with
  | error error =>
      have hpure : settingsFor host invocation = pure (.error error) := hload
      rw [hpure, pure_bind]
      rfl
  | ok settings =>
      have hpure : settingsFor host invocation = pure (.ok settings) := hload
      rw [hpure, pure_bind]
      rfl

/-- A block of a file is read from the lines of its text. -/
theorem readBlock_eq_ok_iff {files : Files Id} {path : Text} {line : Option Nat}
    {document block : List Text} :
    (readBlock files path line).run = .ok (document, block) ↔
      ∃ text, (files.readText path).run = .ok text ∧ document = lines text ∧
        chosenBlock document line = .ok block := by
  have hread : (readBlock files path line).run =
      (((files.readText path).run.mapError (CommandError.unreadableFile path)).map lines).bind
        fun document => (chosenBlock document line).bind fun block => .ok (document, block) := rfl
  rw [hread, bind_eq_ok_iff]
  constructor
  · rintro ⟨read, hdocument, hblock⟩
    obtain ⟨text, htext, rfl⟩ := map_eq_ok_iff.mp hdocument
    obtain ⟨chosen, hchosen, hpair⟩ := bind_eq_ok_iff.mp hblock
    cases hpair
    exact ⟨text, mapError_eq_ok_iff.mp htext, rfl, hchosen⟩
  · rintro ⟨text, htext, rfl, hblock⟩
    exact ⟨_, map_eq_ok_iff.mpr ⟨text, mapError_eq_ok_iff.mpr htext, rfl⟩,
      bind_eq_ok_iff.mpr ⟨block, hblock, rfl⟩⟩

theorem subset_of_chosenBlock {document block : List Text} {line : Option Nat}
    (h : chosenBlock document line = .ok block) : block ⊆ document := by
  obtain ⟨index, -, rfl⟩ := map_eq_ok_iff.mp h
  exact Document.blockAt_subset document index

/-- So no line of it has a line feed. -/
theorem newline_notMem_of_readBlock {files : Files Id} {path : Text} {line : Option Nat}
    {document block : List Text} (h : (readBlock files path line).run = .ok (document, block)) :
    ∀ l ∈ block, '\n' ∉ l := by
  obtain ⟨text, -, rfl, hblock⟩ := readBlock_eq_ok_iff.mp h
  exact fun l hl => newline_notMem_of_mem_lines (subset_of_chosenBlock hblock hl)

/-- A program that writes the command for a block writes it on a line, and nothing else. -/
theorem run_of_asksToWrite {host : Host Id} {words document block : List Text} {command : Text}
    (h : AsksToWrite host words document block) (hcommand : curlCommand document block = .ok command) :
    (run host words).run = ⟨0, command ++ ['\n'], []⟩ := by
  obtain ⟨invocation, path, line, settings, hwords, haction, hsettings, hblock⟩ := h
  have hrun : (runToCurl host path line false).run = .ok [command] := by
    have hpure : readBlock host.files path line = pure (.ok (document, block)) := hblock
    rw [runToCurl, hpure, pure_bind]
    show ((curlCommand document block).mapError CommandError.request).map _ = _
    rw [hcommand]
    rfl
  rw [run_of_ofWords host hwords, hsettings, haction]
  show Outcome.ofResult (runToCurl host path line false).run = _
  rw [hrun]
  show (⟨0, unlines [command], []⟩ : Outcome) = _
  rw [unlines_singleton]

/-- A program that reads the command on its standard input reads the one that the lines there spell. -/
theorem run_of_asksToRead {host : Host Id} {words : List Text} {invocation : Invocation} {text : Text}
    (h : AsksToRead words invocation) (hinput : host.input.run = .ok (toUtf8 text)) :
    (run host words).run = .ofResult ((settingsFor host invocation).run.bind fun _ =>
      (Curl.toLines (Document.commandText (lines text))).mapError .request) := by
  obtain ⟨hwords, line, haction⟩ := h
  have hrun : (runFromCurl host none line none).run =
      (Curl.toLines (Document.commandText (lines text))).mapError .request := by
    show ((((host.input.run.bind textOfBytes).mapError CommandError.unreadableInput).map _).bind _) = _
    rw [hinput]
    show ((((textOfBytes (toUtf8 text)).mapError CommandError.unreadableInput).map _).bind _) = _
    rw [textOfBytes_toUtf8]
    rfl
  rw [run_of_ofWords host hwords, haction]
  show Outcome.ofResult ((settingsFor host invocation).run.bind fun settings =>
    (runFromCurl host none line none).run) = _
  rw [hrun]

/-- **A command goes through a pipe unchanged.** The command for a block of lines is a line as well, and
that line, read again, spells just the command. So a program that reads on its standard input what
another one has written for a block makes of it what it makes of the command itself. -/
theorem run_piped :
    (∀ (document block : List Text) (command : Text), (∀ line ∈ block, '\n' ∉ line) →
      curlCommand document block = .ok command →
      '\n' ∉ command ∧ Document.commandText (lines (command ++ ['\n'])) = command) ∧
    ∀ (source target : Host Id) (toWords fromWords document block : List Text) (command : Text)
      (invocation : Invocation),
      AsksToWrite source toWords document block → curlCommand document block = .ok command →
      AsksToRead fromWords invocation →
      target.input.run = .ok (toUtf8 (run source toWords).run.output) →
      (run source toWords).run = ⟨0, command ++ ['\n'], []⟩ ∧
      (run target fromWords).run = .ofResult ((settingsFor target invocation).run.bind fun _ =>
        (Curl.toLines command).mapError .request) := by
  refine ⟨fun _ _ _ => Curl.isLine_of_curlCommand, ?_⟩
  intro source target toWords fromWords document block command invocation hwrite hcommand hread hpipe
  have hwritten := run_of_asksToWrite hwrite hcommand
  refine ⟨hwritten, ?_⟩
  obtain ⟨_, _, _, _, -, -, -, hblock⟩ := hwrite
  have hinput : target.input.run = .ok (toUtf8 (command ++ ['\n'])) := by rw [hpipe, hwritten]
  rw [run_of_asksToRead hread hinput,
    (Curl.isLine_of_curlCommand (newline_notMem_of_readBlock hblock) hcommand).2]

/-- A machine with the file `f` and this on its standard input. -/
def machineWith (file input : Text) : Host Id where
  files :=
    { read := fun path => if path = ['f'] then .ok (toUtf8 file) else .error .notFound
      isPresent := fun _ => false }
  workingDirectory := ['/']
  homeDirectory := none
  input := .ok (toUtf8 input)
  network := fun _ => ⟨[], fun _ => .error []⟩

/-- A URL and a body that end with a backslash, and a header that is a comment mark. -/
theorem run_piped_backslash :
    let block := ["POST http://h/\\".toList, "A: #".toList, "x\\".toList]
    let command := "curl -X POST -H \"A: #\" -v -d \"x\\\\\" \"http://h/\\\\\"".toList
    let source := machineWith (unlines block) []
    let target := machineWith [] (command ++ ['\n'])
    AsksToWrite source ["to-curl".toList, ['f']] block block ∧
      curlCommand block block = .ok command ∧
      (run source ["to-curl".toList, ['f']]).run.output = command ++ ['\n'] ∧
      (run target ["from-curl".toList]).run = ⟨0, unlines block, []⟩ := by
  intro block command source target
  have hwrite : AsksToWrite source ["to-curl".toList, ['f']] block block := by
    refine ⟨⟨.toCurl ['f'] none false, none, {}⟩, ['f'], none, {}, by decide +kernel, rfl, rfl, ?_⟩
    have htext : (source.files.readText ['f']).run = .ok (unlines block) := by
      show textOfBytes (toUtf8 (unlines block)) = _
      rw [textOfBytes_toUtf8]
    exact readBlock_eq_ok_iff.mpr ⟨_, htext, by decide +kernel, by decide +kernel⟩
  have hcommand : curlCommand block block = .ok command := by decide +kernel
  have hread : AsksToRead ["from-curl".toList] ⟨.fromCurl none none none, none, {}⟩ :=
    ⟨by decide +kernel, none, rfl⟩
  have hwritten := run_of_asksToWrite hwrite hcommand
  obtain ⟨hout, hin⟩ := run_piped.2 source target _ _ block block command _ hwrite hcommand hread
    (by rw [hwritten]; rfl)
  refine ⟨hwrite, hcommand, by rw [hout], ?_⟩
  rw [hin]
  decide +kernel

end CommandLine

end PlainRequest
