/-
# PlainRequest.Proofs.Document.Blocks — the blocks of a document partition its lines

A block is a run of lines that are not blank and that cannot be made longer in either direction; it
is named by where it starts and where it stops. Around every line that is not blank there is exactly
one, and `blockAt` finds it. Two blocks have no line in common, and the blocks in order are all the
lines that are not blank. A command is about the block of the line that is asked for, or about the
first.
-/

import PlainRequest.CommandLine.Outcome

namespace PlainRequest.Document

open Text

variable {lines : List Text} {start stop start' stop' index : Nat}

/-! ## Blocks -/

/-- Is there a blank line at the index? -/
def BlankAt (lines : List Text) (index : Nat) : Prop := lines[index]?.any isBlank = true

instance (lines : List Text) (index : Nat) : Decidable (BlankAt lines index) :=
  inferInstanceAs (Decidable (_ = true))

/-- **`IsBlock lines start stop`** — the lines from `start` up to `stop` are a block: none is blank,
and at either end there is a blank line or the end of the document. -/
structure IsBlock (lines : List Text) (start stop : Nat) : Prop where
  nonempty : start < stop
  within : stop ≤ lines.length
  full : ∀ index, start ≤ index → index < stop → ¬ BlankAt lines index
  opens : start = 0 ∨ BlankAt lines (start - 1)
  closes : stop = lines.length ∨ BlankAt lines stop

theorem IsBlock.start_le (h : IsBlock lines start stop) (h' : IsBlock lines start' stop')
    (hindex : start ≤ index ∧ index < stop) (hindex' : start' ≤ index) : start' ≤ start := by
  apply Nat.le_of_not_lt
  intro hlater
  rcases h'.opens with hzero | hblank
  · omega
  · exact h.full (start' - 1) (by omega) (by omega) hblank

theorem IsBlock.stop_le (h : IsBlock lines start stop) (h' : IsBlock lines start' stop')
    (hindex : start ≤ index ∧ index < stop) (hindex' : index < stop') : stop ≤ stop' := by
  apply Nat.le_of_not_lt
  intro hearlier
  rcases h'.closes with hend | hblank
  · have hwithin := h.within
    omega
  · exact h.full stop' (by omega) (by omega) hblank

/-- **A line is in one block at most.** -/
theorem IsBlock.unique (h : IsBlock lines start stop) (h' : IsBlock lines start' stop')
    (hindex : start ≤ index ∧ index < stop) (hindex' : start' ≤ index ∧ index < stop') :
    start = start' ∧ stop = stop' :=
  ⟨Nat.le_antisymm (h'.start_le h hindex' hindex.1) (h.start_le h' hindex hindex'.1),
    Nat.le_antisymm (h.stop_le h' hindex hindex'.2) (h'.stop_le h hindex' hindex.2)⟩

/-- **Two blocks are the same, or one stands before the other.** -/
theorem IsBlock.same_or_apart (h : IsBlock lines start stop) (h' : IsBlock lines start' stop') :
    (start = start' ∧ stop = stop') ∨ stop ≤ start' ∨ stop' ≤ start := by
  by_cases hapart : stop ≤ start' ∨ stop' ≤ start
  · exact .inr hapart
  · -- the later of the two starts is in both
    have hnonempty := h.nonempty
    have hnonempty' := h'.nonempty
    have hlater : start ≤ max start start' ∧ max start start' < stop := by omega
    have hlater' : start' ≤ max start start' ∧ max start start' < stop' := by omega
    exact .inl (h.unique h' hlater hlater')

/-! ## Around a line -/

/-- Between blank lines, lines of which none is blank are a block. -/
theorem isBlock_of_append {before block after : List Text} (hne : block ≠ [])
    (hfull : ∀ line ∈ block, isBlank line = false)
    (hbefore : ∀ line ∈ before.getLast?, isBlank line = true)
    (hafter : ∀ line ∈ after.head?, isBlank line = true) :
    IsBlock (before ++ block ++ after) before.length (before.length + block.length) := by
  have hlength : 0 < block.length := List.length_pos_iff.mpr hne
  refine ⟨by omega, by simp, ?_, ?_, ?_⟩
  · rintro index hstart hstop hblank
    rw [BlankAt, List.append_assoc, List.getElem?_append_right hstart,
      List.getElem?_append_left (by omega), Option.any_eq_true] at hblank
    obtain ⟨line, hline, hblank⟩ := hblank
    rw [hfull line (List.mem_of_getElem? hline)] at hblank
    cases hblank
  · cases hlast : before.getLast? with
    | none => exact .inl (by rw [List.getLast?_eq_none_iff.mp hlast, List.length_nil])
    | some line =>
        right
        have hpos : before.length - 1 < before.length := by
          have := List.length_pos_iff.mpr (List.ne_nil_of_mem (List.mem_of_getLast? hlast))
          omega
        rw [BlankAt, List.append_assoc, List.getElem?_append_left hpos,
          ← List.getLast?_eq_getElem?, hlast]
        exact hbefore line hlast
  · cases hhead : after.head? with
    | none => exact .inl (by simp [List.head?_eq_none_iff.mp hhead])
    | some line =>
        right
        rw [BlankAt, List.getElem?_append_right (by simp), List.length_append, Nat.sub_self,
          ← List.head?_eq_getElem?, hhead]
        exact hafter line hhead

theorem extract_append (before block after : List Text) :
    (before ++ block ++ after).extract before.length (before.length + block.length) = block := by
  rw [List.extract_eq_take_drop, Nat.add_sub_cancel_left, List.append_assoc, List.drop_left,
    List.take_left]

/-- What a run of lines stops at is blank. -/
theorem isBlank_of_head?_dropWhile (lines : List Text) :
    ∀ line ∈ (lines.dropWhile (! isBlank ·)).head?, isBlank line = true := by
  intro line hline
  have hstops := List.head?_dropWhile_not (! isBlank ·) lines
  rw [Option.mem_def.mp hline] at hstops
  simpa using hstops

/-- A line that belongs to no block has an empty one. -/
theorem blockAt_eq_nil (h : lines.length ≤ index ∨ BlankAt lines index) :
    blockAt lines index = [] := by
  have hhere : (lines.drop index).takeWhile (! isBlank ·) = [] := by
    rcases h with hend | hblank
    · rw [List.drop_eq_nil_of_le hend, List.takeWhile_nil]
    · obtain ⟨line, hline, hblank⟩ := (Option.any_eq_true _ _).mp hblank
      obtain ⟨hwithin, hline⟩ := List.getElem?_eq_some_iff.mp hline
      rw [List.drop_eq_getElem_cons hwithin, hline, List.takeWhile_cons_of_neg (by simp [hblank])]
  rw [blockAt, hhere]
  rfl

/-- **Every line that is not blank has a block around it**, and that is what is found. -/
theorem exists_isBlock (hwithin : index < lines.length) (hfull : ¬ BlankAt lines index) :
    ∃ start stop, start ≤ index ∧ index < stop ∧ IsBlock lines start stop ∧
      blockAt lines index = lines.extract start stop := by
  -- the lines in front of it and those from it on, each run cut at its first blank line
  obtain ⟨here, after, hhere, hafter⟩ : ∃ here after,
      here = (lines.drop index).takeWhile (! isBlank ·) ∧
        after = (lines.drop index).dropWhile (! isBlank ·) := ⟨_, _, rfl, rfl⟩
  obtain ⟨back, front, hback, hfront⟩ : ∃ back front,
      back = (lines.take index).reverse.takeWhile (! isBlank ·) ∧
        front = (lines.take index).reverse.dropWhile (! isBlank ·) := ⟨_, _, rfl, rfl⟩
  have hdrop : here ++ after = lines.drop index := by
    rw [hhere, hafter, List.takeWhile_append_dropWhile]
  have htake : front.reverse ++ back.reverse = lines.take index := by
    rw [← List.reverse_append, hback, hfront, List.takeWhile_append_dropWhile, List.reverse_reverse]
  have hlines : lines = front.reverse ++ (back.reverse ++ here) ++ after := by
    rw [← List.append_assoc, htake, List.append_assoc, hdrop, List.take_append_drop]
  have hindex : front.length + back.length = index := by
    have hlength := congrArg List.length htake
    simp only [List.length_append, List.length_reverse, List.length_take] at hlength
    omega
  have hne : here ≠ [] := by
    rintro hnil
    apply hfull
    have hhead := isBlank_of_head?_dropWhile (lines.drop index)
    rw [← hafter, ← List.nil_append after, ← hnil, hdrop, List.head?_drop] at hhead
    rw [BlankAt, List.getElem?_eq_getElem hwithin] at *
    exact hhead _ rfl
  have hblock : blockAt lines index = back.reverse ++ here := by
    rw [blockAt, ← hhere, ← hback]
    exact if_neg (by simpa using hne)
  have hall : ∀ line ∈ back.reverse ++ here, isBlank line = false := by
    intro line hline
    have hrun : (! isBlank line) = true := by
      rcases List.mem_append.mp hline with hline | hline
      · exact List.all_eq_true.mp List.all_takeWhile line (hback ▸ List.mem_reverse.mp hline)
      · exact List.all_eq_true.mp List.all_takeWhile line (hhere ▸ hline)
    simpa using hrun
  have hbefore : ∀ line ∈ front.reverse.getLast?, isBlank line = true := by
    rw [List.getLast?_reverse, hfront]
    exact isBlank_of_head?_dropWhile _
  have hbehind : ∀ line ∈ after.head?, isBlank line = true := by
    rw [hafter]
    exact isBlank_of_head?_dropWhile _
  have hisBlock := isBlock_of_append (by simp [hne]) hall hbefore hbehind
  have hextract := extract_append front.reverse (back.reverse ++ here) after
  rw [← hlines] at hisBlock hextract
  have hpos := List.length_pos_iff.mpr hne
  refine ⟨_, _, ?_, ?_, hisBlock, hblock.trans hextract.symm⟩
  · rw [List.length_reverse]
    omega
  · simp only [List.length_append, List.length_reverse]
    omega

/-- **All lines of a block have that block.** -/
theorem IsBlock.blockAt_eq (h : IsBlock lines start stop) (hindex : start ≤ index ∧ index < stop) :
    blockAt lines index = lines.extract start stop := by
  have hwithin : index < lines.length := Nat.lt_of_lt_of_le hindex.2 h.within
  obtain ⟨start', stop', hstart, hstop, hblock, heq⟩ :=
    exists_isBlock hwithin (h.full index hindex.1 hindex.2)
  obtain ⟨rfl, rfl⟩ := h.unique hblock hindex ⟨hstart, hstop⟩
  exact heq

/-! ## All blocks in order -/

theorem drop_eq_cons_of_blankAt (h : BlankAt lines index) :
    ∃ line, isBlank line = true ∧ lines.drop index = line :: lines.drop (index + 1) := by
  obtain ⟨line, hline, hblank⟩ := (Option.any_eq_true _ _).mp h
  obtain ⟨hwithin, rfl⟩ := List.getElem?_eq_some_iff.mp hline
  exact ⟨_, hblank, List.drop_eq_getElem_cons hwithin⟩

/-- The lines of a block are not blank. -/
theorem IsBlock.not_blank (h : IsBlock lines start stop) :
    ∀ line ∈ lines.extract start stop, isBlank line = false := by
  intro line hline
  rw [List.extract_eq_take_drop] at hline
  obtain ⟨offset, hoffset⟩ := List.mem_iff_getElem?.mp hline
  have hwithin : offset < stop - start := by
    obtain ⟨hlength, -⟩ := List.getElem?_eq_some_iff.mp hoffset
    rw [List.length_take] at hlength
    omega
  rw [List.getElem?_take_of_lt hwithin, List.getElem?_drop] at hoffset
  have hfull := h.full (start + offset) (by omega) (by omega)
  rw [BlankAt, hoffset] at hfull
  simpa using hfull

/-- From the start of a block on, the lines that are not blank are those of the block and others. -/
theorem IsBlock.filter_drop (h : IsBlock lines start stop) :
    (lines.drop start).filter (! isBlank ·) =
      lines.extract start stop ++ (lines.drop stop).filter (! isBlank ·) := by
  have hnonempty := h.nonempty
  have hcut := List.take_append_drop (stop - start) (lines.drop start)
  rw [List.drop_drop, Nat.add_sub_of_le (Nat.le_of_lt hnonempty), ← List.extract_eq_take_drop] at hcut
  rw [← hcut, List.filter_append, List.filter_eq_self.mpr]
  intro line hline
  rw [h.not_blank line hline]
  rfl

/-- **`BlocksFrom lines place blocks`** — these are the blocks from a place on: each stops before
the next one starts, every block is among them, and together they are all lines that are not blank.
-/
structure BlocksFrom (lines : List Text) (place : Nat) (blocks : List (Nat × Nat)) : Prop where
  inOrder : blocks.Pairwise fun block later => block.2 ≤ later.1
  mem_iff : ∀ start stop, (start, stop) ∈ blocks ↔ IsBlock lines start stop ∧ place ≤ start
  lines_eq : blocks.flatMap (fun block => lines.extract block.1 block.2) =
    (lines.drop place).filter (! isBlank ·)

/-- Behind the last line there is no block. -/
theorem blocksFrom_end {place : Nat} (h : lines.length ≤ place) : BlocksFrom lines place [] where
  inOrder := .nil
  mem_iff := by
    intro start stop
    simp only [List.not_mem_nil, false_iff, not_and]
    intro hblock hplace
    have hnonempty := hblock.nonempty
    have hwithin := hblock.within
    omega
  lines_eq := by
    rw [List.drop_eq_nil_of_le h]
    rfl

/-- A blank line belongs to no block. -/
theorem BlocksFrom.blank {place : Nat} {blocks : List (Nat × Nat)}
    (h : BlocksFrom lines (place + 1) blocks) (hblank : BlankAt lines place) :
    BlocksFrom lines place blocks where
  inOrder := h.inOrder
  mem_iff := by
    intro start stop
    rw [h.mem_iff, and_congr_right_iff]
    intro hblock
    have hfirst : start ≠ place := by
      rintro rfl
      exact hblock.full start (Nat.le_refl start) hblock.nonempty hblank
    omega
  lines_eq := by
    obtain ⟨line, hline, hdrop⟩ := drop_eq_cons_of_blankAt hblank
    rw [h.lines_eq, hdrop, List.filter_cons_of_neg (by simp [hline])]

/-- A block that starts at the place is the first of all. -/
theorem BlocksFrom.block {place stop : Nat} {blocks : List (Nat × Nat)}
    (h : BlocksFrom lines stop blocks) (hblock : IsBlock lines place stop) :
    BlocksFrom lines place ((place, stop) :: blocks) where
  inOrder := by
    rw [List.pairwise_cons]
    exact ⟨fun later hlater => ((h.mem_iff later.1 later.2).mp hlater).2, h.inOrder⟩
  mem_iff := by
    intro start' stop'
    rw [List.mem_cons, Prod.mk.injEq, h.mem_iff]
    constructor
    · rintro (⟨rfl, rfl⟩ | ⟨hlater, hstart⟩)
      · exact ⟨hblock, Nat.le_refl _⟩
      · exact ⟨hlater, Nat.le_trans (Nat.le_of_lt hblock.nonempty) hstart⟩
    · rintro ⟨hlater, hstart⟩
      have hnonempty := hlater.nonempty
      have hapart := hblock.same_or_apart hlater
      by_cases hfirst : stop ≤ start'
      · exact .inr ⟨hlater, hfirst⟩
      · exact .inl (by omega)
  lines_eq := by
    rw [List.flatMap_cons, h.lines_eq, hblock.filter_drop]

/-- **From a place that is inside of no block**, the blocks can be listed. -/
theorem exists_blocksFrom (remaining : Nat) {place : Nat}
    (hremaining : lines.length ≤ place + remaining)
    (houtside : ∀ start stop, IsBlock lines start stop → place ≤ start ∨ stop ≤ place) :
    ∃ blocks, BlocksFrom lines place blocks := by
  induction remaining generalizing place with
  | zero => exact ⟨[], blocksFrom_end hremaining⟩
  | succ remaining ih =>
      by_cases hend : lines.length ≤ place
      · exact ⟨[], blocksFrom_end hend⟩
      by_cases hblank : BlankAt lines place
      · -- the place behind a blank line is outside as well
        have hbehind : ∀ start stop, IsBlock lines start stop →
            place + 1 ≤ start ∨ stop ≤ place + 1 := by
          intro start stop hblock
          by_cases hinside : start ≤ place ∧ place < stop
          · exact absurd hblank (hblock.full place hinside.1 hinside.2)
          · omega
        obtain ⟨blocks, hblocks⟩ := ih (by omega) hbehind
        exact ⟨blocks, hblocks.blank hblank⟩
      · -- the block around the line starts there, and where it stops is outside of the others
        obtain ⟨start, stop, hstart, hstop, hblock, -⟩ :=
          exists_isBlock (Nat.lt_of_not_le hend) hblank
        obtain rfl : start = place := by
          have hside := houtside start stop hblock
          omega
        have hbehind : ∀ start' stop', IsBlock lines start' stop' →
            stop ≤ start' ∨ stop' ≤ stop := by
          intro start' stop' hblock'
          have hnonempty := hblock'.nonempty
          have hapart := hblock.same_or_apart hblock'
          omega
        obtain ⟨blocks, hblocks⟩ := ih (by omega) hbehind
        exact ⟨_, hblocks.block hblock⟩

/-- **The blocks of a document**, in order. -/
theorem exists_blocks (lines : List Text) : ∃ blocks, BlocksFrom lines 0 blocks :=
  exists_blocksFrom lines.length (by omega) fun start _ _ => .inl (Nat.zero_le start)

/-! ## The line that a command is about -/

/-- **`IsFirst lines index`** — the first line that is not blank. -/
structure IsFirst (lines : List Text) (index : Nat) : Prop where
  within : index < lines.length
  full : ¬ BlankAt lines index
  blank : ∀ earlier, earlier < index → BlankAt lines earlier

theorem firstIndex?_eq_some_iff : firstIndex? lines = some index ↔ IsFirst lines index := by
  rw [firstIndex?, List.findIdx?_eq_some_iff_getElem]
  constructor
  · rintro ⟨hwithin, hfull, hblank⟩
    refine ⟨hwithin, ?_, ?_⟩
    · rw [BlankAt, List.getElem?_eq_getElem hwithin]
      simpa using hfull
    · intro earlier hearlier
      rw [BlankAt, List.getElem?_eq_getElem (by omega)]
      simpa using hblank earlier hearlier
  · rintro ⟨hwithin, hfull, hblank⟩
    refine ⟨hwithin, ?_, ?_⟩
    · rw [BlankAt, List.getElem?_eq_getElem hwithin] at hfull
      simpa using hfull
    · intro earlier hearlier
      have hearlier := hblank earlier hearlier
      rw [BlankAt, List.getElem?_eq_getElem (by omega)] at hearlier
      simpa using hearlier

theorem firstIndex?_eq_none_iff :
    firstIndex? lines = none ↔ ∀ line ∈ lines, isBlank line = true := by
  rw [firstIndex?, List.findIdx?_eq_none_iff]
  simp

/-- **The first line that is not blank is where the first block starts.** -/
theorem isFirst_iff {blocks : List (Nat × Nat)} (h : BlocksFrom lines 0 blocks) :
    IsFirst lines index ↔ ∃ stop later, blocks = (index, stop) :: later := by
  constructor
  · rintro ⟨hwithin, hfull, hblank⟩
    -- no block starts earlier, so the one around the line starts with it and is the first
    have hlate : ∀ block ∈ blocks, index ≤ block.1 := by
      intro block hmem
      have hblock := ((h.mem_iff block.1 block.2).mp hmem).1
      apply Nat.le_of_not_lt
      intro hearlier
      exact hblock.full block.1 (Nat.le_refl _) hblock.nonempty (hblank block.1 hearlier)
    obtain ⟨start, stop, hstart, hstop, hblock, -⟩ := exists_isBlock hwithin hfull
    have hmem := (h.mem_iff start stop).mpr ⟨hblock, Nat.zero_le start⟩
    obtain rfl : start = index := Nat.le_antisymm hstart (hlate _ hmem)
    cases blocks with
    | nil => simp at hmem
    | cons first later =>
        rcases List.mem_cons.mp hmem with rfl | hlater
        · exact ⟨stop, later, rfl⟩
        · have horder := (List.pairwise_cons.mp h.inOrder).1 _ hlater
          have hfirst := hlate first List.mem_cons_self
          have hnonempty := ((h.mem_iff first.1 first.2).mp List.mem_cons_self).1.nonempty
          dsimp only at horder
          omega
  · rintro ⟨stop, later, rfl⟩
    have hblock := ((h.mem_iff index stop).mp List.mem_cons_self).1
    have hnonempty := hblock.nonempty
    have hwithin := hblock.within
    refine ⟨by omega, hblock.full index (Nat.le_refl index) hnonempty, ?_⟩
    intro earlier hearlier
    -- the block around an earlier line would stand in front of the first
    apply Decidable.byContradiction
    intro hfull
    obtain ⟨start', stop', hstart, hstop, hblock', -⟩ :=
      exists_isBlock (Nat.lt_trans hearlier (by omega)) hfull
    rcases List.mem_cons.mp ((h.mem_iff start' stop').mpr ⟨hblock', Nat.zero_le _⟩) with heq | hmem
    · obtain ⟨rfl, rfl⟩ := Prod.mk.inj heq
      omega
    · have horder := (List.pairwise_cons.mp h.inOrder).1 _ hmem
      dsimp only at horder
      omega

/-- **`Chooses blocks count asked index`** — among so many lines the one that is asked for, counted
from one, or where the first block starts. -/
inductive Chooses (blocks : List (Nat × Nat)) (count : Nat) : Option Nat → Nat → Prop
  | line {index : Nat} (h : index < count) : Chooses blocks count (some (index + 1)) index
  | first {index stop : Nat} {later : List (Nat × Nat)} (h : blocks = (index, stop) :: later) :
      Chooses blocks count none index

/-- **`Refuses lines asked error`** — there is no such line. -/
inductive Refuses (lines : List Text) : Option Nat → CommandLine.CommandError → Prop
  | zero : Refuses lines (some 0) .lineZero
  | pastEnd {number : Nat} (h : lines.length < number) :
      Refuses lines (some number) (.pastEnd number lines.length)
  | empty (h : ∀ line ∈ lines, isBlank line = true) : Refuses lines none .emptyFile

theorem lineIndex_none (lines : List Text) :
    CommandLine.lineIndex lines none =
      match firstIndex? lines with
      | some index => .ok index
      | none => .error .emptyFile := rfl

theorem lineIndex_succ (lines : List Text) (index : Nat) :
    CommandLine.lineIndex lines (some (index + 1)) =
      if index < lines.length then .ok index else .error (.pastEnd (index + 1) lines.length) := by
  show (if lines.length < index + 1 then _ else _) = _
  by_cases h : index < lines.length
  · rw [if_pos h, if_neg (by omega)]
    rfl
  · rw [if_neg h, if_pos (by omega)]
    rfl

theorem lineIndex_eq_ok_iff {blocks : List (Nat × Nat)} (h : BlocksFrom lines 0 blocks)
    (asked : Option Nat) :
    CommandLine.lineIndex lines asked = .ok index ↔ Chooses blocks lines.length asked index := by
  match asked with
  | none =>
      have hfirst : firstIndex? lines = some index ↔ ∃ stop later, blocks = (index, stop) :: later :=
        firstIndex?_eq_some_iff.trans (isFirst_iff h)
      have hindex : CommandLine.lineIndex lines none = .ok index ↔
          firstIndex? lines = some index := by
        rw [lineIndex_none]
        cases firstIndex? lines <;> simp
      rw [hindex, hfirst]
      constructor
      · rintro ⟨stop, later, heq⟩
        exact .first heq
      · rintro (_ | heq)
        exact ⟨_, _, heq⟩
  | some 0 =>
      constructor
      · rintro ⟨⟩
      · rintro ⟨⟩
  | some (number + 1) =>
      rw [lineIndex_succ]
      constructor
      · split
        · rintro ⟨⟩
          exact .line ‹_›
        · rintro ⟨⟩
      · rintro (hwithin | _)
        exact if_pos hwithin

theorem lineIndex_eq_error_iff (asked : Option Nat) (error : CommandLine.CommandError) :
    CommandLine.lineIndex lines asked = .error error ↔ Refuses lines asked error := by
  match asked with
  | none =>
      rw [lineIndex_none]
      constructor
      · split
        · rintro ⟨⟩
        · next hnone =>
            rintro ⟨⟩
            exact .empty (firstIndex?_eq_none_iff.mp hnone)
      · rintro (_ | _ | hblank)
        rw [firstIndex?_eq_none_iff.mpr hblank]
  | some 0 =>
      constructor
      · rintro ⟨⟩
        exact .zero
      · rintro (_ | hpast)
        · rfl
        · exact absurd hpast (Nat.not_lt_zero _)
  | some (number + 1) =>
      rw [lineIndex_succ]
      constructor
      · split
        · rintro ⟨⟩
        · rintro ⟨⟩
          exact .pastEnd (by omega)
      · rintro (_ | hpast)
        exact if_neg (by omega)

/-- **The blocks of a document partition its lines.** A line that is blank or past the end has no
block; any other is in one, and all lines of a block have this block. Two blocks are the same or
have no line in common, and the blocks in order are all lines that are not blank. The line that a
command is about is the one that is asked for, or where the first block starts; it is a line of the
document, and there is none only if line zero is asked for, or one past the end, or none where all
lines are blank. -/
theorem blockAt_partition (lines : List Text) :
    (∀ index, lines.length ≤ index ∨ BlankAt lines index → blockAt lines index = []) ∧
      (∀ index, index < lines.length → ¬ BlankAt lines index →
        ∃ start stop, start ≤ index ∧ index < stop ∧ IsBlock lines start stop ∧
          ∀ other, start ≤ other → other < stop →
            blockAt lines other = lines.extract start stop) ∧
      (∀ start stop start' stop', IsBlock lines start stop → IsBlock lines start' stop' →
        (start = start' ∧ stop = stop') ∨ stop ≤ start' ∨ stop' ≤ start) ∧
      ∃ blocks, BlocksFrom lines 0 blocks ∧
        (∀ asked index, CommandLine.lineIndex lines asked = .ok index ↔
          Chooses blocks lines.length asked index) ∧
        (∀ asked index, CommandLine.lineIndex lines asked = .ok index → index < lines.length) ∧
        ∀ asked error, CommandLine.lineIndex lines asked = .error error ↔
          Refuses lines asked error := by
  refine ⟨fun index h => blockAt_eq_nil h, ?_, ?_, ?_⟩
  · intro index hwithin hfull
    obtain ⟨start, stop, hstart, hstop, hblock, -⟩ := exists_isBlock hwithin hfull
    exact ⟨start, stop, hstart, hstop, hblock, fun other hother hother' =>
      hblock.blockAt_eq ⟨hother, hother'⟩⟩
  · intro start stop start' stop' hblock hblock'
    exact hblock.same_or_apart hblock'
  · obtain ⟨blocks, hblocks⟩ := exists_blocks lines
    refine ⟨blocks, hblocks, fun asked index => lineIndex_eq_ok_iff hblocks asked, ?_,
      lineIndex_eq_error_iff⟩
    intro asked index hindex
    cases (lineIndex_eq_ok_iff hblocks asked).mp hindex with
    | line hwithin => exact hwithin
    | first heq => exact ((isFirst_iff hblocks).mpr ⟨_, _, heq⟩).within

/-- A block at the end of a document, behind blank lines of several kinds. -/
theorem blockAt_partition_lastBlock :
    IsBlock ["\t".toList, "# $h = a".toList, "\u3000".toList, [], "GET http://$h".toList,
        "A: b".toList] 4 6 ∧
      blockAt ["\t".toList, "# $h = a".toList, "\u3000".toList, [], "GET http://$h".toList,
        "A: b".toList] 4 = ["GET http://$h".toList, "A: b".toList] ∧
      blockAt ["\t".toList, "# $h = a".toList, "\u3000".toList, [], "GET http://$h".toList,
        "A: b".toList] 3 = [] := by
  generalize hdocument : ["\t".toList, "# $h = a".toList, "\u3000".toList, [],
    "GET http://$h".toList, "A: b".toList] = document
  obtain ⟨hnone, hsome, -⟩ := blockAt_partition document
  have hlast : IsBlock document 4 6 := by
    subst hdocument
    refine ⟨by decide, by decide, ?_, by decide +kernel, by decide⟩
    intro index hstart hstop
    obtain rfl | rfl : index = 4 ∨ index = 5 := by omega
    · decide +kernel
    · decide +kernel
  obtain ⟨start, stop, hstart, hstop, hblock, hall⟩ :=
    hsome 5 (Nat.lt_of_lt_of_le (by decide) hlast.within) (hlast.full 5 (by decide) (by decide))
  obtain ⟨rfl, rfl⟩ := hlast.unique hblock ⟨by decide, by decide⟩ ⟨hstart, hstop⟩
  refine ⟨hlast, ?_, hnone 3 (.inr ?_)⟩
  · rw [hall 4 (by decide) (by decide), ← hdocument]
    decide
  · rw [← hdocument]
    decide +kernel

end PlainRequest.Document
