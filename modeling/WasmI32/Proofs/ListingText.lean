import WasmI32.Listing
import WasmI32.Proofs.InstructionText

/-!
# The text of listings

A listing is text of which each line ends with a line feed and holds none otherwise. The line of an
instruction gives its offset in hexadecimal digits, then two blanks for each construct around it,
and then the instruction, so that all three can be told from the text.
-/

namespace WasmI32

/-! ## Hexadecimal numbers -/

theorem toDigits_eq_digits {n : Nat} (h : n ≠ 0) :
    Nat.toDigits 16 n = (Nat.digits 16 n).reverse.map Nat.digitChar := by
  induction n using Nat.strongRecOn with
  | _ n ih =>
    rw [Nat.toDigits_eq_if (by decide), Nat.digits_def' (by decide) (Nat.pos_of_ne_zero h)]
    split
    · rename_i hlt
      rw [Nat.mod_eq_of_lt hlt, Nat.div_eq_of_lt hlt]
      rfl
    · have hdiv : n / 16 ≠ 0 := by omega
      rw [ih (n / 16) (by omega) hdiv, List.reverse_cons, List.map_append]
      rfl

theorem toList_padded {width : Nat} (hw : 0 < width) (n : Nat) :
    (Hex.padded width n).toList =
      ((Nat.digits 16 n).reverse.leftpad width 0).map Nat.digitChar := by
  by_cases h : n = 0
  · subst h
    obtain ⟨k, rfl⟩ : ∃ k, width = k + 1 := ⟨width - 1, by omega⟩
    have hzero : Nat.toDigits 16 0 = ['0'] := rfl
    have hpad : List.replicate (k + 1) '0' = List.replicate k '0' ++ ['0'] :=
      List.replicate_succ'
    simp [Hex.padded, hzero, List.leftpad, hpad, Nat.digitChar]
  · simp [Hex.padded, toDigits_eq_digits h, List.leftpad, Nat.digitChar]

/-- The number that a hexadecimal digit stands for. -/
def Hex.digit (c : Char) : Nat :=
  if c.isDigit then c.toNat - '0'.toNat else c.toNat - 'a'.toNat + 10

/-- The number that hexadecimal digits stand for. -/
def Hex.value (text : List Char) : Nat := Nat.ofDigits 16 (text.map digit).reverse

theorem Hex.value_digits (width n : Nat) :
    value (((Nat.digits 16 n).reverse.leftpad width 0).map Nat.digitChar) = n := by
  have hdigit : ∀ d < 16, digit (Nat.digitChar d) = d := by decide
  have hlt : ∀ d ∈ (Nat.digits 16 n).reverse.leftpad width 0, d < 16 := by
    intro d hd
    rcases List.mem_append.mp hd with hd | hd
    · rw [List.eq_of_mem_replicate hd]
      decide
    · exact Nat.digits_lt_base (by decide) (List.mem_reverse.mp hd)
  have hread (ds : List Nat) (hds : ∀ d ∈ ds, d < 16) :
      (ds.map Nat.digitChar).map digit = ds := by
    rw [List.map_map]
    exact (List.map_congr_left fun d hd => hdigit d (hds d hd)).trans (List.map_id ds)
  rw [value, hread _ hlt, List.leftpad, List.reverse_append, List.reverse_reverse,
    List.reverse_replicate, Nat.ofDigits_append, Nat.ofDigits_digits, Nat.ofDigits_replicate_zero]
  rfl

/-! ## Lines of text -/

namespace Listing

/-- The lines of a text, each of which ends with a line feed. -/
def textLines (text : String) : List (List Char) := (text.toList.splitOn '\n').dropLast

/-- A text that is made of lines. -/
structure MadeOf (text : String) (lines : List (List Char)) : Prop where
  toList_eq : text.toList = (lines.map (· ++ ['\n'])).flatten
  notMem : ∀ line ∈ lines, '\n' ∉ line

theorem MadeOf.textLines_eq {text : String} {lines : List (List Char)} (h : MadeOf text lines) :
    textLines text = lines := by
  obtain ⟨htext, hlines⟩ := h
  rw [textLines, htext]
  clear htext
  induction lines with
  | nil => rfl
  | cons line lines ih =>
    obtain ⟨hline, hlines⟩ := List.forall_mem_cons.mp hlines
    rw [List.map_cons, List.flatten_cons, List.append_assoc, List.singleton_append,
      List.splitOn_append_cons_self_of_not_mem hline,
      List.dropLast_cons_of_ne_nil (List.splitOn_ne_nil _ _), ih hlines]

theorem madeOf_empty : MadeOf "" [] := ⟨rfl, nofun⟩

theorem madeOf_line {line : String} (h : '\n' ∉ line.toList) :
    MadeOf (line ++ "\n") [line.toList] := by
  refine ⟨?_, ?_⟩
  · simp [String.toList_append]
  · simpa using h

theorem MadeOf.append {text text' : String} {lines lines' : List (List Char)}
    (h : MadeOf text lines) (h' : MadeOf text' lines') :
    MadeOf (text ++ text') (lines ++ lines') := by
  refine ⟨?_, ?_⟩
  · rw [String.toList_append, h.toList_eq, h'.toList_eq, List.map_append, List.flatten_append]
  · intro line hline
    rcases List.mem_append.mp hline with hline | hline
    · exact h.notMem line hline
    · exact h'.notMem line hline

theorem madeOf_join {texts : List String} {blocks : List (List (List Char))}
    (h : List.Forall₂ MadeOf texts blocks) : MadeOf (String.join texts) blocks.flatten := by
  induction h with
  | nil => exact madeOf_empty
  | cons h _ ih =>
    rw [String.join_cons, List.flatten_cons]
    exact h.append ih

/-! ## The lines of instructions -/

/-- The text of a line: two blanks, the offset in six hexadecimal digits or more, a colon and a
blank, two blanks for each construct around the instruction, and the instruction. -/
def Line.text (line : Line) : List Char :=
  [' ', ' '] ++ ((Nat.digits 16 line.offset).reverse.leftpad 6 0).map Nat.digitChar ++ [':', ' ']
    ++ List.replicate (2 * line.depth) ' ' ++ line.instruction.render.toList

theorem toString_string (s : String) : toString s = s := rfl

theorem toList_indent (depth : Nat) :
    (String.join (List.replicate depth "  ")).toList = List.replicate (2 * depth) ' ' := by
  induction depth with
  | zero => rfl
  | succ depth ih =>
    rw [List.replicate_succ, String.join_cons, String.toList_append, ih, Nat.mul_succ,
      Nat.add_comm, List.replicate_add]
    rfl

theorem Line.toList_render (line : Line) : line.render.toList = line.text ++ ['\n'] := by
  simp only [Line.render, String.toList_append, toString_string, toList_padded (Nat.succ_pos 5),
    toList_indent, Line.text]
  rfl

theorem notMem_digits {c : Char} (hc : ∀ d, Nat.digitChar d ≠ c) (ds : List Nat) :
    c ∉ ds.map Nat.digitChar := by
  intro h
  obtain ⟨d, -, hd⟩ := List.mem_map.mp h
  exact hc d hd

theorem notMem_render (i : Instruction) : '\n' ∉ i.render.toList := by
  rw [Instruction.render, String.toList_append]
  intro h
  rcases List.mem_append.mp h with h | h
  · exact ((Instruction.mnemonic_word i).2 _ h).2 rfl
  · exact (Instruction.isTail_renderImmediates i).notMem h

theorem Line.notMem_text (line : Line) : '\n' ∉ line.text := by
  have hdigits := notMem_digits (fun d => Nat.digitChar_ne '\n' rfl)
    ((Nat.digits 16 line.offset).reverse.leftpad 6 0)
  have hrender := notMem_render line.instruction
  simp only [Line.text, List.mem_append, not_or]
  refine ⟨⟨⟨⟨by decide, hdigits⟩, by decide⟩, ?_⟩, hrender⟩
  exact fun h => absurd (List.eq_of_mem_replicate h) (by decide)

/-- The text of a line tells its offset, its depth and what is shown of its instruction. -/
theorem Line.eq_of_text {line line' : Line} (h : line.text = line'.text) :
    line.offset = line'.offset ∧ line.depth = line'.depth ∧
      line.instruction.shown = line'.instruction.shown := by
  have hcolon (n : Nat) : ∀ c ∈ ((Nat.digits 16 n).reverse.leftpad 6 0).map Nat.digitChar,
      (c != ':') = true := by
    intro c hc
    obtain ⟨d, -, rfl⟩ := List.mem_map.mp hc
    exact bne_iff_ne.mpr (Nat.digitChar_ne ':' rfl)
  have hblank (n : Nat) : ∀ c ∈ List.replicate n ' ', (c == ' ') = true := by
    intro c hc
    rw [List.eq_of_mem_replicate hc]
    rfl
  have hword (i : Instruction) : ∀ c ∈ i.render.toList.head?, (c == ' ') = false := by
    obtain ⟨hne, hchars⟩ := Instruction.mnemonic_word i
    obtain ⟨c, cs, hcs⟩ := List.exists_cons_of_ne_nil hne
    rw [hcs] at hchars
    rw [Instruction.render, String.toList_append, hcs]
    rintro d hd
    obtain rfl : c = d := Option.some.inj hd
    simpa using (hchars c (List.mem_cons_self ..)).1
  simp only [Line.text, List.append_assoc] at h
  obtain ⟨hdigits, hrest⟩ := append_inj_of_stop (hcolon line.offset) (hcolon line'.offset)
    (by simp) (by simp) (List.append_cancel_left h)
  obtain ⟨hblanks, hrender⟩ := append_inj_of_stop (hblank _) (hblank _) (hword line.instruction)
    (hword line'.instruction) (List.append_cancel_left hrest)
  refine ⟨?_, ?_, Instruction.shown_eq_of_render (String.toList_inj.mp hrender)⟩
  · rw [← Hex.value_digits 6 line.offset, hdigits, Hex.value_digits]
  · have hlength := congrArg List.length hblanks
    simp only [List.length_replicate] at hlength
    omega

/-- The line that tells why no instruction can be read. -/
def errorLines : Option InstructionError → List (List Char)
  | some e => [("  error: " ++ e.message).toList]
  | none => []

theorem notMem_ofByte (b : UInt8) : '\n' ∉ (Hex.ofByte b).toList := by
  rw [Hex.ofByte, toList_padded (Nat.succ_pos 1)]
  exact notMem_digits (fun d => Nat.digitChar_ne '\n' rfl) _

theorem notMem_append {s t : String} (hs : '\n' ∉ s.toList) (ht : '\n' ∉ t.toList) :
    '\n' ∉ (s ++ t).toList := by
  rw [String.toList_append]
  exact fun h => (List.mem_append.mp h).elim hs ht

theorem notMem_message (e : InstructionError) : '\n' ∉ e.message.toList := by
  have hrepr (n : Nat) := (notMem_repr n).1
  cases e with
  | invalidOpcode opcode offset =>
    have hopcode := notMem_append (s := "invalid opcode 0x") (by decide) (notMem_ofByte opcode)
    exact notMem_append (notMem_append hopcode (by decide)) (hrepr offset)
  | unexpectedEnd offset => exact notMem_append (by decide) (hrepr offset)
  | malformedImmediate offset => exact notMem_append (by decide) (hrepr offset)
  | unsupportedBlockType byte offset =>
    have hbyte := notMem_append (s := "unsupported block type 0x") (by decide) (notMem_ofByte byte)
    exact notMem_append (notMem_append hbyte (by decide)) (hrepr offset)

theorem madeOf_renderError (error : Option InstructionError) :
    MadeOf (renderError error) (errorLines error) := by
  cases error with
  | none => exact madeOf_empty
  | some e =>
    have hline : '\n' ∉ ("  error: " ++ e.message).toList :=
      notMem_append (by decide) (notMem_message e)
    exact madeOf_line hline

theorem notMem_values (n : Nat) :
    '\n' ∉ (" ".intercalate (List.replicate n "i32")).toList := by
  induction n with
  | zero => decide
  | succ n ih =>
    cases n with
    | zero => decide
    | succ n =>
      rw [List.replicate_succ, List.replicate_succ, String.intercalate_cons_cons]
      exact notMem_append (by decide) ih

theorem notMem_renderType (t : FunctionType) : '\n' ∉ t.render.toList := by
  have hparameters := notMem_append (s := "[") (by decide) (notMem_values t.parameters)
  have harrow := notMem_append hparameters (t := "] -> [") (by decide)
  exact notMem_append (notMem_append harrow (notMem_values t.results)) (by decide)

theorem madeOf_renderHeading (m : Module) (index : Nat) (f : Function) :
    ∃ heading, MadeOf (renderHeading m index f) [heading] ∧
      s!"func {index}: ".toList <+: heading := by
  let type := m.types.getD f.typeIndex ⟨f.parameterCount, f.resultCount⟩
  let mark := if m.start = some index then " (start)" else ""
  have hfront : '\n' ∉ s!"func {index}: ".toList :=
    notMem_append (notMem_append (by decide) (notMem_repr index).1) (by decide)
  have hlocals : '\n' ∉ s!", {f.localCount} local(s)".toList :=
    notMem_append (notMem_append (by decide) (notMem_repr f.localCount).1) (by decide)
  have hmark : '\n' ∉ mark.toList := by
    unfold mark
    split
    · decide
    · decide
  have hrest := notMem_append (notMem_append (notMem_renderType type) hlocals) hmark
  have hline : renderHeading m index f =
      s!"func {index}: " ++ (type.render ++ s!", {f.localCount} local(s)" ++ mark) ++ "\n" := by
    simp only [renderHeading, toString_string, String.append_assoc, type, mark]
  refine ⟨_, hline ▸ madeOf_line (notMem_append hfront hrest), ?_⟩
  rw [String.toList_append (s := s!"func {index}: ")]
  exact List.prefix_append ..

theorem madeOf_render (line : Line) : MadeOf line.render [line.text] := by
  refine ⟨?_, ?_⟩
  · rw [Line.toList_render]
    simp
  · simpa using line.notMem_text

theorem madeOf_lines (lines : List Line) :
    MadeOf (String.join (lines.map Line.render)) (lines.map Line.text) := by
  induction lines with
  | nil => exact madeOf_empty
  | cons line lines ih =>
    rw [List.map_cons, List.map_cons, String.join_cons]
    exact (madeOf_render line).append ih

/-- The text of a function: a heading, its lines, and one that tells why they end before the code
does. -/
theorem exists_madeOf_renderFunction (m : Module) (index : Nat) (f : Function) :
    ∃ heading, s!"func {index}: ".toList <+: heading ∧
      MadeOf (renderFunction m index f) (heading :: ((ofFunction f).toList.map Line.text ++
        errorLines (Instruction.scan f.body).error)) := by
  obtain ⟨heading, hheading, hstart⟩ := madeOf_renderHeading m index f
  have hlines := madeOf_lines (ofFunction f).toList
  have herror := madeOf_renderError (Instruction.scan f.body).error
  rw [← Array.toList_map] at hlines
  exact ⟨heading, hstart, (hheading.append hlines).append herror⟩

theorem madeOf_renderFunction (m : Module) (index : Nat) (f : Function) :
    MadeOf (renderFunction m index f) (textLines (renderFunction m index f)) := by
  obtain ⟨heading, -, hmade⟩ := exists_madeOf_renderFunction m index f
  rw [hmade.textLines_eq]
  exact hmade

/-- A listing has the lines of its functions, in their order. -/
theorem textLines_render (m : Module) :
    textLines (render m) =
      ((m.functions.mapIdx (renderFunction m)).toList.map textLines).flatten := by
  apply MadeOf.textLines_eq
  apply madeOf_join
  rw [List.forall₂_map_right_iff, List.forall₂_same]
  intro text htext
  obtain ⟨index, hindex, rfl⟩ := List.mem_iff_getElem.mp htext
  rw [Array.getElem_toList, Array.getElem_mapIdx]
  exact madeOf_renderFunction m index _

end Listing

end WasmI32
