import WasmI32.Proofs.ListingText
import WasmI32.Proofs.Lookahead
import WasmI32.Proofs.Module.Denotation
import WasmI32.Proofs.Nesting
import WasmI32.Proofs.Structured.Code

/-!
# What listings show

A listing reads a function body from its start to its end, the machine reads it along the paths of
an invocation. Both see the same instructions: each line of a listing shows what stands in the
binary at its offset, no byte is left out between two lines, and wherever a frame stands, the
listing has a line for the instruction there, as far indented as the frame holds constructs open.
Nothing is assumed of the code: it need not be well formed.
-/

namespace WasmI32

open Instruction (StandsAt decodeAt)
open Structured (standsAt_append)

/-! ## Code in the binary -/

namespace Format

variable {α : Type} {file : Array UInt8} {o : Nat} {bs : List UInt8}

/-- Each string of a row stands in the binary, at the place it was read for. -/
theorem Items.standsAt {G : Grammar α} {as : List α} (h : Items G o bs as)
    (hs : StandsAt file o bs) {a : α} (ha : a ∈ as) :
    ∃ p cs, StandsAt file p cs ∧ G p cs a := by
  induction h with
  | nil => cases ha
  | @cons o bs cs b as hb _ ih =>
    obtain ⟨hfirst, hrest⟩ := standsAt_append.mp hs
    cases ha with
    | head => exact ⟨o, bs, hfirst, hb⟩
    | tail _ ha => exact ih hrest ha

theorem Sections.standsAt {ss : List RawSection} (h : Sections o bs ss) (hs : StandsAt file o bs) :
    ∀ s ∈ ss, StandsAt file s.offset s.contents := by
  induction h with
  | nil => exact nofun
  | @cons o id size contents rest ss _ _ ih =>
    obtain ⟨-, hs⟩ := standsAt_append.mp (show StandsAt file o ([id] ++ _) from hs)
    obtain ⟨-, hs⟩ := standsAt_append.mp hs
    obtain ⟨hcontents, hrest⟩ := standsAt_append.mp hs
    exact List.forall_mem_cons.mpr ⟨hcontents, ih hrest⟩

theorem body_standsAt {b : Body} (h : body o bs b) (hs : StandsAt file o bs) :
    StandsAt file b.offset b.code.toList := by
  obtain ⟨cs, ls, code, groups, rfl, -, -, -, -, rfl⟩ := h
  obtain ⟨-, hs⟩ := standsAt_append.mp hs
  exact (standsAt_append.mp hs).2

end Format

open Format in
/-- The code of a function stands in the binary where the function says. -/
theorem Module.body_standsAt_of_decode {bytes : List UInt8} {m : Module}
    (h : Module.decode bytes = .ok m) {f : Function} (hf : f ∈ m.functions) :
    StandsAt bytes.toArray f.bodyOffset f.body.toList := by
  obtain ⟨rest, rfl⟩ := eq_append_of_decode h
  obtain ⟨ss, hss, hm⟩ := decode_append.mp h
  obtain ⟨indices, bodies, -, hbodies, hfs⟩ := hm.functions
  obtain ⟨index, b, hb, t, -, rfl⟩ := hfs.exists_joins (Array.mem_toList_iff.mpr hf)
  have hrest : StandsAt (header ++ rest).toArray 8 rest := ⟨[], (List.append_nil _).symm⟩
  unfold Says at hbodies
  split at hbodies
  case h_1 s hfind =>
    have hs := hss.standsAt hrest s (List.mem_of_find?_eq_some hfind)
    obtain ⟨⟨cs, ds, hcontents, -, hitems⟩, -⟩ := hbodies
    rw [hcontents] at hs
    obtain ⟨p, bs, hp, hbody⟩ := hitems.standsAt (standsAt_append.mp hs).2 hb
    exact body_standsAt hbody hp
  case h_2 =>
    rw [hbodies] at hb
    cases hb

/-- An instruction of a part of the binary is read at the same place of the whole. -/
theorem Instruction.decodeAt_of_standsAt {file code : Array UInt8} {o ip next : Nat}
    {i : Instruction} (hs : StandsAt file o code.toList) (h : decodeAt code ip = .ok (i, next)) :
    decodeAt file (o + ip) = .ok (i, o + next) := by
  obtain ⟨bs, hd, ⟨rest, hbs⟩, rfl⟩ := decodeAt_eq_ok_iff.mp h
  have hfront : (code.toList.take ip).length = ip := by
    have hlength := congrArg List.length hbs
    have hpos := hd.length_pos
    rw [List.length_drop, List.length_append] at hlength
    rw [List.length_take]
    omega
  rw [← List.take_append_drop ip code.toList, hbs, standsAt_append, hfront] at hs
  exact decodeAt_eq_ok_iff.mpr ⟨bs, hd, (standsAt_append.mp hs.2).1, by omega⟩

namespace Listing

/-! ## Lines in a row -/

/-- Lines that show what stands in the binary from an offset on, each where the one before it
ends. -/
inductive Contiguous (file : Array UInt8) : Nat → List Line → Nat → Prop
  | nil {o : Nat} : Contiguous file o [] o
  | cons {o next stop depth : Nat} {i : Instruction} {lines : List Line}
    (hd : decodeAt file o = .ok (i, next)) (h : Contiguous file next lines stop) :
    Contiguous file o (⟨o, depth, i⟩ :: lines) stop

/-- The lines of instructions whose first one stands at `depth`. -/
def linesFrom (origin : Nat) : Nat → List (Nat × Instruction) → List Line
  | _, [] => []
  | depth, (o, i) :: is =>
    ⟨origin + o, shownDepth depth i, i⟩ ::
      linesFrom origin (nextDepth (shownDepth depth i) i) is

/-- The depth behind instructions whose first one stands at `depth`. -/
def depthAfter (depth : Nat) (is : List (Nat × Instruction)) : Nat :=
  is.foldl (fun depth x => nextDepth (shownDepth depth x.2) x.2) depth

variable {origin depth : Nat}

theorem linesFrom_append (is js : List (Nat × Instruction)) :
    linesFrom origin depth (is ++ js) =
      linesFrom origin depth is ++ linesFrom origin (depthAfter depth is) js := by
  induction is generalizing depth with
  | nil => rfl
  | cons x is ih => exact congrArg (List.cons _) ih

theorem lines_foldl_add (s : State) (is : List (Nat × Instruction)) :
    (is.foldl (State.add origin) s).lines.toList =
      s.lines.toList ++ linesFrom origin s.depth is := by
  induction is generalizing s with
  | nil => exact (List.append_nil _).symm
  | cons x is ih =>
    rw [List.foldl_cons, ih]
    simp [State.add, linesFrom]

theorem toList_ofFunction (f : Function) :
    (ofFunction f).toList =
      linesFrom f.bodyOffset 1 (Instruction.scan f.body).instructions.toList := by
  rw [ofFunction, ← Array.foldl_toList, lines_foldl_add]
  rfl

theorem contiguous_linesFrom {file code : Array UInt8} (hs : StandsAt file origin code.toList)
    {ip stop : Nat} {is : List (Nat × Instruction)} (h : Instruction.Row code ip is stop) :
    Contiguous file (origin + ip) (linesFrom origin depth is) (origin + stop) := by
  induction h generalizing depth with
  | nil => exact .nil
  | cons hd _ ih => exact .cons (Instruction.decodeAt_of_standsAt hs hd) ih

/-! ## Depth -/

open Instruction (Nested before)

theorem before_of_nested {code : Array UInt8} {ip next : Nat} {cs : List Construct}
    {i : Instruction} (h : Nested code ip cs) (hd : decodeAt code ip = .ok (i, next)) :
    before code next = before code ip ++ [(ip, i)] := by
  obtain ⟨front, hfront, -⟩ := h.scansTo
  rw [(hfront.step hd).before_eq, hfront.before_eq]

/-- The depth that a listing has come to is the number of constructs open there, with the function
body. Behind an `end` that closes the body this fails, but no frame goes there. -/
theorem depthAfter_before {code : Array UInt8} {ip : Nat} {cs : List Construct}
    (h : Nested code ip cs) : depthAfter 1 (before code ip) = cs.length + 1 := by
  induction h with
  | start =>
    rw [(Instruction.ScansTo.start code).before_eq]
    rfl
  | @plain ip next i cs h hd ho he ih =>
    rw [before_of_nested h hd, depthAfter, List.foldl_concat, ← depthAfter, ih]
    cases i with
    | enter kind type => exact absurd rfl (ho kind type)
    | endMark => exact absurd rfl he
    | _ => rfl
  | enter h hd ih =>
    rw [before_of_nested h hd, depthAfter, List.foldl_concat, ← depthAfter, ih]
    rfl
  | close h hd ih =>
    rw [before_of_nested h hd, depthAfter, List.foldl_concat, ← depthAfter, ih]
    rfl

/-- Where a frame in its place stands, the listing has a line. -/
theorem mem_ofFunction_of_placed {f : Function} {frame : Frame} (hp : frame.Placed f) {next : Nat}
    {i : Instruction} (hd : decodeAt f.body frame.ip = .ok (i, next)) :
    ⟨f.bodyOffset + frame.ip, shownDepth frame.markers.length i, i⟩ ∈ ofFunction f := by
  obtain ⟨cs, hn, hm⟩ := hp
  have hlength : frame.markers.length = cs.length + 1 := by
    simpa using congrArg List.length hm
  obtain ⟨front, hscan, -⟩ := hn.scansTo
  obtain ⟨back, hall, hrow⟩ := hscan.row
  obtain ⟨rest, rfl, -⟩ := hrow.uncons hd
  rw [← Array.mem_toList_iff, toList_ofFunction, hall, linesFrom_append, ← hscan.before_eq,
    depthAfter_before hn, hlength]
  exact List.mem_append_right _ (List.mem_cons_self ..)

/-! ## Listings of binaries -/

/-- The lines of a function in a binary: they start where the code starts, and end where it ends
or above a line that tells why no instruction can be read there. The text of the function consists
of these lines, below a heading. -/
structure Covers (file : Array UInt8) (m : Module) (index : Nat) (f : Function) (stop : Nat)
    (error : Option InstructionError) : Prop where
  standsAt : StandsAt file f.bodyOffset f.body.toList
  contiguous : Contiguous file f.bodyOffset (ofFunction f).toList (f.bodyOffset + stop)
  ends : Instruction.EndsAt f.body stop error
  text : ∃ heading, s!"func {index}: ".toList <+: heading ∧
    textLines (renderFunction m index f) =
      heading :: ((ofFunction f).toList.map Line.text ++ errorLines error)

/-- The listing of a function has a line for the place of a frame, and its text shows it. -/
def ShowsPlace (m : Module) (f : Function) (frame : Frame) : Prop :=
  ∀ i next, decodeAt f.body frame.ip = .ok (i, next) →
    ∃ line ∈ ofFunction f, line.offset = f.bodyOffset + frame.ip ∧ line.instruction = i ∧
      (line.depth = if i = .elseMark ∨ i = .endMark then frame.markers.length - 1
        else frame.markers.length) ∧
      line.text ∈ textLines (renderFunction m frame.function f)

theorem shownDepth_eq (depth : Nat) (i : Instruction) :
    shownDepth depth i = if i = .elseMark ∨ i = .endMark then depth - 1 else depth := by
  cases i <;> rfl

theorem Covers.ofDecode {bytes : List UInt8} {m : Module} (h : Module.decode bytes = .ok m)
    {index : Nat} {f : Function} (hf : m.functions[index]? = some f) :
    Covers bytes.toArray m index f (Instruction.scan f.body).stop
      (Instruction.scan f.body).error where
  standsAt := Module.body_standsAt_of_decode h (Array.mem_of_getElem? hf)
  contiguous := by
    rw [toList_ofFunction]
    exact contiguous_linesFrom (Module.body_standsAt_of_decode h (Array.mem_of_getElem? hf))
      (Instruction.row_scan f.body)
  ends := Instruction.endsAt_scan f.body
  text := by
    obtain ⟨heading, hstart, hmade⟩ := exists_madeOf_renderFunction m index f
    exact ⟨heading, hstart, hmade.textLines_eq⟩

/-- The text of every line is a line of the text. -/
theorem text_mem_textLines (m : Module) (index : Nat) {f : Function} {line : Line}
    (h : line ∈ ofFunction f) : line.text ∈ textLines (renderFunction m index f) := by
  obtain ⟨heading, -, hmade⟩ := exists_madeOf_renderFunction m index f
  rw [hmade.textLines_eq]
  have hline := List.mem_map_of_mem (f := Line.text) (Array.mem_toList_iff.mpr h)
  exact List.mem_cons_of_mem _ (List.mem_append_left _ hline)

/-- The listing of a module shows what its binary holds and what a machine runs. Its text has the
lines of each function, which are the instructions in the binary from the start of its code, without
a gap, up to its end or to the first bytes that are none. Between any two steps of an invocation,
the text has a line for the instruction that each frame stands at, indented by the constructs it
holds open. From its text alone a line tells offset, depth and instruction, but for alignments that
are written alike. -/
theorem listing_shows_binary_and_run {bytes : List UInt8} {m : Module}
    (h : Module.decode bytes = .ok m) :
    textLines (render m) =
        ((m.functions.mapIdx (renderFunction m)).toList.map textLines).flatten ∧
    (∀ index f, m.functions[index]? = some f →
      ∃ stop error, Covers bytes.toArray m index f stop error) ∧
    (∀ (machine machine' : Machine) index args n,
      machine.invoke m.functions index args n = .running machine' →
      ∀ frame ∈ machine'.frames, ∃ f, m.functions[frame.function]? = some f ∧
        ShowsPlace m f frame) ∧
    ∀ line line' : Line, line.text = line'.text →
      line.offset = line'.offset ∧ line.depth = line'.depth ∧
        line.instruction.shown = line'.instruction.shown := by
  refine ⟨textLines_render m, fun index f hf => ⟨_, _, .ofDecode h hf⟩, ?_,
    fun _ _ => Line.eq_of_text⟩
  intro machine machine' index args n hrun frame hframe
  obtain ⟨f, hf, hp⟩ := Machine.placed_run hrun frame hframe
  refine ⟨f, hf, fun i next hd => ?_⟩
  have hline := mem_ofFunction_of_placed hp hd
  exact ⟨_, hline, rfl, rfl, shownDepth_eq _ _, text_mem_textLines m frame.function hline⟩

/-- A function with a conditional, and behind its last `end` a byte that is no instruction. -/
def conditional : Function :=
  ⟨0, 0, 0, 0, #[0x41, 0x01, 0x04, 0x40, 0x01, 0x05, 0x01, 0x0b, 0x0b, 0xff], 23⟩

def conditionalBinary : List UInt8 :=
  Module.header ++ [0x01, 0x04, 0x01, 0x60, 0x00, 0x00, 0x03, 0x02, 0x01, 0x00, 0x0a, 0x0d, 0x01,
    0x0b, 0x00] ++ conditional.body.toList

def conditionalModule : Module where
  types := #[⟨0, 0⟩]
  functions := #[conditional]

/-- The frame that has run the first arm, and stands at the `else` behind it. -/
def atElse : Frame :=
  ⟨0, 5, #[], 0, 0, [⟨.cond, .empty, 0, 4⟩, ⟨.block, .empty, 0, 0⟩], .normal⟩

theorem listing_conditional :
    Module.decode conditionalBinary = .ok conditionalModule ∧
      (Machine.create .empty).invoke conditionalModule.functions 0 #[] 3 =
        .running ⟨[atElse], 1, 0, {}, .empty, 3⟩ ∧
      (∃ stop error, Covers conditionalBinary.toArray conditionalModule 0 conditional stop error) ∧
      "  00001c:   else".toList ∈ textLines (renderFunction conditionalModule 0 conditional) := by
  have hdecode : Module.decode conditionalBinary = .ok conditionalModule := by decide +kernel
  have hrun : (Machine.create .empty).invoke conditionalModule.functions 0 #[] 3 =
      .running ⟨[atElse], 1, 0, {}, .empty, 3⟩ := by decide +kernel
  obtain ⟨-, hcovers, hshows, -⟩ := listing_shows_binary_and_run hdecode
  obtain ⟨f, hf, hplace⟩ := hshows _ _ _ _ _ hrun atElse (List.mem_cons_self ..)
  obtain rfl : conditional = f := Option.some.inj hf
  obtain ⟨⟨offset, depth, i⟩, -, rfl, rfl, rfl, htext⟩ := hplace .elseMark 6 (by decide +kernel)
  refine ⟨hdecode, hrun, hcovers 0 conditional rfl, ?_⟩
  have hline : Line.text ⟨28, 1, .elseMark⟩ = "  00001c:   else".toList := by decide +kernel
  rw [← hline]
  exact htext

end Listing

end WasmI32
