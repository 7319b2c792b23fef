import WasmI32.Proofs.Checked.Reading
import WasmI32.Proofs.Checked.Running
import WasmI32.Proofs.Module.Denotation

/-!
# Decoding without misuse

`Module.decode` in checked form. The parts of it that only read integers and single bytes are taken
as they are. The header, sections, function bodies and byte vectors are parts of the input, data
segments go to a part of the memory, and a function is joined with its signature by index. That the
signature exists is known from the function section, since no type section can follow it.
-/

namespace WasmI32

/-! ## Readers that take no part of the input -/

namespace Decode

open Read

theorem advances_number : Advances (liftM Window.unsigned : Read DecodeError Word) :=
  advances_adaptExcept advances_unsigned _

theorem advances_singleByte : Advances (liftM Window.byte : Read DecodeError UInt8) :=
  advances_adaptExcept advances_byte _

theorem advances_checkLimit (what : Counted) (count limit : Nat) :
    Advances (checkLimit what count limit) :=
  advances_ite (advances_throw _) (advances_pure _)

theorem advances_count (what : Counted) (limit : Nat) : Advances (count what limit) := by
  refine advances_bind advances_number fun n => ?_
  have hlimit := advances_checkLimit what n.toNat limit
  exact advances_bind hlimit fun _ => advances_pure _

theorem advances_valueType : Advances valueType := by
  refine advances_bind advances_here fun offset => ?_
  refine advances_bind advances_singleByte fun b => ?_
  cases ValueType.ofByte b with
  | i32 => exact advances_pure _
  | unsupported name => exact advances_throw _
  | invalid => exact advances_throw _

theorem advances_functionType : Advances functionType := by
  have hvalues (n : Nat) : Advances (valueType.times n) := advances_times advances_valueType n
  refine advances_bind advances_here fun offset => ?_
  refine advances_bind advances_singleByte fun tag => advances_unless ?_
  refine advances_bind (advances_count _ _) fun parameters => ?_
  refine advances_bind (hvalues parameters) fun _ => ?_
  refine advances_bind advances_number fun results => advances_unless ?_
  exact advances_bind (hvalues results.toNat) fun _ => advances_pure _

theorem advances_typeSection : Advances typeSection :=
  advances_bind (advances_count _ _) fun n => advances_times advances_functionType n

theorem advances_typeIndex (types : Nat) : Advances (typeIndex types) :=
  advances_bind advances_number fun _ => advances_unless (advances_pure _)

theorem advances_functionSection (types : Nat) : Advances (functionSection types) :=
  advances_bind (advances_count _ _) fun n => advances_times (advances_typeIndex types) n

theorem advances_memoryMaximum (flags : UInt8) (offset : Nat) :
    Advances (memoryMaximum flags offset) := by
  refine advances_ite (advances_pure _) (advances_ite ?_ (advances_throw _))
  exact advances_bind advances_number fun _ => advances_pure _

theorem advances_memorySection : Advances memorySection := by
  refine advances_bind advances_number fun n => advances_unless ?_
  refine advances_ite (advances_pure _) ?_
  refine advances_bind advances_here fun offset => ?_
  refine advances_bind advances_singleByte fun flags => ?_
  refine advances_bind advances_number fun initial => ?_
  refine advances_bind (advances_memoryMaximum flags offset) fun maximum => ?_
  cases Memory.create initial.toNat maximum with
  | ok memory => exact advances_pure _
  | error cause => exact advances_throw _

theorem advances_startSection : Advances startSection :=
  advances_bind advances_number fun _ => advances_pure _

theorem advances_locals (groups total : Nat) : Advances (locals groups total) := by
  induction groups generalizing total with
  | zero => exact advances_pure _
  | succ groups ih =>
    refine advances_bind advances_number fun n => ?_
    refine advances_bind advances_valueType fun _ => ?_
    exact advances_bind (advances_checkLimit _ _ _) fun _ => ih (total + n.toNat)

/-- The sections that are read without taking parts of the input. -/
def isPlain (id : UInt8) : Bool :=
  id = Section.type || id = Section.function || id = Section.memory || id = Section.start

theorem advances_contents {id : UInt8} (hid : isPlain id = true) (draft : Draft) :
    Advances (contents id draft) := by
  simp only [isPlain, Bool.or_eq_true, decide_eq_true_eq] at hid
  obtain ((rfl | rfl) | rfl) | rfl := hid
  · exact advances_bind advances_typeSection fun _ => advances_pure _
  · exact advances_bind (advances_functionSection _) fun _ => advances_pure _
  · refine advances_bind advances_memorySection fun memory? => ?_
    cases memory? with
    | some memory => exact advances_pure _
    | none => exact advances_pure _
  · exact advances_bind advances_startSection fun _ => advances_pure _

end Decode

namespace Checked

open Partial

instance : MonadLift (Checked ReadError Cursor) (Checked DecodeError Cursor) where
  monadLift := EStateM.adaptExcept (Failure.map DecodeError.ofRead)

/-! ## Contents of sections -/

/-- Reads a function body that takes up the whole cursor. -/
def bodyContents : Checked DecodeError Cursor Body := do
  let groups ← moved Window.unsigned
  let localCount ← moved (Decode.locals groups.toNat 0)
  let offset ← moved Window.here
  let code ← takeRest
  return ⟨localCount, code.toArray, offset⟩

theorem tracks_bodyContents : Tracks bodyContents Decode.bodyContents := by
  refine tracks_bind (tracks_moved Decode.advances_number) fun groups => ?_
  refine tracks_bind (tracks_moved (Decode.advances_locals groups.toNat 0)) fun localCount => ?_
  refine tracks_bind (tracks_moved Read.advances_here) fun offset => ?_
  have hcode := tracks_adaptExcept tracks_takeRest DecodeError.ofRead
  exact tracks_bind hcode fun code => tracks_pure _

/-- Runs `contents` on a cursor of its own. -/
def within {α : Type} (c : Cursor) (contents : Checked DecodeError Cursor α) :
    Checked DecodeError Cursor α :=
  match contents c with
  | .ok a _ => pure a
  | .error e _ => throw e

theorem tracks_within {α : Type} {y : Checked DecodeError Cursor α} {x : Read DecodeError α}
    {c : Cursor} (h : Tracks y x) (hc : c.Inside) :
    Tracks (within c y) (Decode.within c.window x) := by
  have hm := h c hc
  unfold within Decode.within
  generalize y c = r at hm
  generalize x c.window = r' at hm
  cases hm with
  | ok _ => exact tracks_pure _
  | error _ => exact tracks_throw _

/-- Reads a function body behind its size. -/
def body : Checked DecodeError Cursor Body := do
  let size ← moved (Decode.count .functionBodyByte Limits.bodyBytes)
  let c ← split size
  within c bodyContents

theorem tracks_body : Tracks body Decode.body := by
  refine tracks_bind (tracks_moved (Decode.advances_count _ _)) fun size => ?_
  refine tracks_split_bind _ fun bytes base => ?_
  exact tracks_within tracks_bodyContents (Cursor.inside_fresh bytes base)

def codeSection : Checked DecodeError Cursor (Array Body) := do
  let n ← moved (Decode.count .functionBody Limits.functions)
  times body n

theorem tracks_codeSection : Tracks codeSection Decode.codeSection :=
  tracks_bind (tracks_moved (Decode.advances_count _ _)) fun n => tracks_times tracks_body n

/-- Reads one data segment. -/
def dataSegment : Checked DecodeError Cursor (Word × List UInt8) := do
  let index ← moved Window.unsigned
  if index ≠ 0 then throw (.declared (.memoryIndex index.toNat))
  let offset ← moved Window.here
  let opening ← moved Window.byte
  if opening ≠ 0x41 then throw (.declared (.dataSegmentOffset offset))
  let address ← moved Window.signed
  let closing ← moved Window.byte
  if closing ≠ 0x0b then throw (.declared (.dataSegmentOffset offset))
  let bytes ← byteVector
  return (address, bytes)

theorem tracks_dataSegment : Tracks dataSegment Decode.dataSegment := by
  have hbyte := tracks_moved Decode.advances_singleByte
  have haddress := tracks_moved (Read.advances_adaptExcept Read.advances_signed DecodeError.ofRead)
  have hbytes := tracks_adaptExcept tracks_byteVector DecodeError.ofRead
  refine tracks_bind (tracks_moved Decode.advances_number) fun index => tracks_unless ?_
  refine tracks_bind (tracks_moved Read.advances_here) fun offset => ?_
  refine tracks_bind hbyte fun opening => tracks_unless ?_
  refine tracks_bind haddress fun address => ?_
  refine tracks_bind hbyte fun closing => tracks_unless ?_
  exact tracks_bind hbytes fun bytes => tracks_pure _

/-- Reads `n` data segments and writes each into the memory at once. -/
def dataSegments : Nat → Memory → Checked DecodeError Cursor Memory
  | 0, memory => pure memory
  | n + 1, memory => do
    let (address, bytes) ← dataSegment
    match writeTo address bytes memory with
    | .ok _ memory => dataSegments n memory
    | .error e _ => throw (e.map .dataSegmentBounds)

theorem tracks_dataSegments (n : Nat) (memory : Memory) :
    Tracks (dataSegments n memory) (Decode.dataSegments n memory) := by
  induction n generalizing memory with
  | zero => exact tracks_pure _
  | succ n ih =>
    refine tracks_bind tracks_dataSegment fun segment => ?_
    obtain ⟨address, bytes⟩ := segment
    simp only [writeTo_eq]
    cases hw : Memory.write address bytes memory with
    | ok u memory' =>
      simp only [total_of_ok hw]
      exact ih memory'
    | error cause memory' =>
      simp only [total_of_error hw]
      exact tracks_throw _

def dataSection (memory : Memory) : Checked DecodeError Cursor Memory := do
  let n ← moved (Decode.count .dataSegment Limits.dataSegments)
  dataSegments n memory

theorem tracks_dataSection (memory : Memory) :
    Tracks (dataSection memory) (Decode.dataSection memory) :=
  tracks_bind (tracks_moved (Decode.advances_count _ _)) fun n => tracks_dataSegments n memory

/-- Reads the contents of the section with number `id`. -/
def contents (id : UInt8) (draft : Draft) : Checked DecodeError Cursor Draft :=
  if Decode.isPlain id then moved (Decode.contents id draft)
  else if id = Section.code then do
    let bodies ← codeSection
    return { draft with bodies }
  else if id = Section.data then do
    let memory ← dataSection draft.memory
    return { draft with memory }
  else do
    let _ ← takeRest
    return draft

theorem tracks_contents (id : UInt8) (draft : Draft) :
    Tracks (contents id draft) (Decode.contents id draft) := by
  unfold contents
  split
  · rename_i hid
    exact tracks_moved (Decode.advances_contents hid draft)
  · rename_i hid
    simp only [Decode.isPlain, Bool.or_eq_true, decide_eq_true_eq, not_or] at hid
    obtain ⟨⟨⟨htype, hfunction⟩, hmemory⟩, hstart⟩ := hid
    unfold Decode.contents
    rw [if_neg htype, if_neg hfunction, if_neg hmemory, if_neg hstart]
    refine tracks_ite ?_ (tracks_ite ?_ ?_)
    · exact tracks_bind tracks_codeSection fun _ => tracks_pure _
    · exact tracks_bind (tracks_dataSection draft.memory) fun _ => tracks_pure _
    · have hrest := tracks_adaptExcept tracks_takeRest DecodeError.ofRead
      exact tracks_bind hrest fun _ => tracks_pure _

/-! ## Sections -/

/-- The name of a custom section, empty if it cannot be read. What follows is read over. -/
def customName : Checked DecodeError Cursor String := do
  let c ← get
  match byteVector c with
  | .ok bytes c =>
    set c
    let _ ← takeRest
    return Utf8.decodeLossy bytes
  | .error (.declared _) c =>
    set c
    let _ ← takeRest
    return ""
  | .error (.misuse cause) _ => throw (.misuse cause)

theorem customName_eq {c : Cursor} (hc : c.Inside) :
    ∃ c', customName c = .ok (Decode.customName c.window) c' := by
  have hover {c₁ : Cursor} (hc₁ : c₁.Inside) (name : String) :
      (do let _ ← takeRest; return name : Checked DecodeError Cursor String) c₁ =
        .ok name (c₁.move c₁.window.rest.length) := by
    have hrest : (liftM takeRest : Checked DecodeError Cursor (List UInt8)) c₁ =
        .ok (c₁.window.rest.take c₁.window.rest.length) (c₁.move c₁.window.rest.length) := by
      show EStateM.adaptExcept _ takeRest c₁ = _
      rw [EStateM.adaptExcept, takeRest, bind_of_ok (remaining_eq hc₁), bytesOf_of_le hc₁ le_rfl]
    rw [bind_of_ok hrest]
    rfl
  have hm := tracks_byteVector c hc
  rw [customName, get_bind]
  unfold Decode.customName
  generalize byteVector c = r at hm
  generalize Window.byteVector c.window = r' at hm
  cases hm with
  | ok hc₁ => exact ⟨_, hover hc₁ _⟩
  | error hc₁ => exact ⟨_, hover hc₁ ""⟩

/-- Adds a section with number `id` at `offset`, whose contents are those of the cursor. -/
def addSection (draft : Draft) (id : UInt8) (offset : Nat) (c : Cursor) :
    Except (Failure DecodeError) Draft :=
  if id = Section.custom then
    match customName c with
    | .ok name _ => .ok { draft with customNames := draft.customNames.push name }
    | .error e _ => .error e
  else if Section.largest < id then .error (.declared (.unknownSection id offset))
  else if id ≤ draft.previous then .error (.declared (.sectionOrder id draft.previous offset))
  else
    match contents id { draft with previous := id } c with
    | .error e _ => .error e
    | .ok draft left =>
      match remaining left with
      | .error e _ => .error e
      | .ok n left =>
        if n = 0 then .ok draft
        else .error (.declared (.sectionSize id offset c.bytes.length left.position))

theorem addSection_eq (draft : Draft) (id : UInt8) (offset : Nat) (bytes : List UInt8)
    (base : Nat) : addSection draft id offset (.fresh bytes base) =
      totalValue (Decode.addSection draft id offset ⟨base, base, bytes⟩) := by
  have hfresh := Cursor.inside_fresh bytes base
  unfold addSection Decode.addSection
  by_cases hcustom : id = Section.custom
  · obtain ⟨c', hname⟩ := customName_eq hfresh
    rw [if_pos hcustom, if_pos hcustom, hname]
    rfl
  rw [if_neg hcustom, if_neg hcustom]
  by_cases hlargest : Section.largest < id
  · rw [if_pos hlargest, if_pos hlargest]
    rfl
  rw [if_neg hlargest, if_neg hlargest]
  by_cases horder : id ≤ draft.previous
  · rw [if_pos horder, if_pos horder]
    rfl
  rw [if_neg horder, if_neg horder]
  have hm := tracks_contents id { draft with previous := id } _ hfresh
  rw [Cursor.window_fresh] at hm
  generalize contents id { draft with previous := id } (.fresh bytes base) = r at hm
  generalize Decode.contents id { draft with previous := id } ⟨base, base, bytes⟩ = r' at hm
  cases hm with
  | error hc₁ => rfl
  | @ok draft₁ c₁ hc₁ =>
    have hposition : c₁.window.position = c₁.position := Nat.add_sub_cancel_left _ _
    simp only [remaining_eq hc₁, Window.isEmpty, hposition]
    cases hrest : c₁.window.rest with
    | nil => rfl
    | cons b rest => rfl

/-- Reads one section. -/
def nextSection (draft : Draft) : Checked DecodeError Cursor Draft := do
  let offset ← moved Window.here
  let id ← moved Window.byte
  let size ← moved Window.unsigned
  let c ← split size.toNat
  match addSection draft id offset c with
  | .ok draft => return draft
  | .error e => throw e

theorem tracks_nextSection (draft : Draft) :
    Tracks (nextSection draft) (Decode.nextSection draft) := by
  refine tracks_bind (tracks_moved Read.advances_here) fun offset => ?_
  refine tracks_bind (tracks_moved Decode.advances_singleByte) fun id => ?_
  refine tracks_bind (tracks_moved Decode.advances_number) fun size => ?_
  refine tracks_split_bind _ fun bytes base => ?_
  rw [addSection_eq]
  cases Decode.addSection draft id offset ⟨base, base, bytes⟩ with
  | ok draft₁ => exact tracks_pure _
  | error e => exact tracks_throw _

/-- Reads sections to the end of the cursor, at most `fuel` of them. -/
def sections : Nat → Draft → Checked DecodeError Cursor Draft
  | 0, draft => pure draft
  | fuel + 1, draft => do
    let left ← remaining
    if left = 0 then return draft
    else
      let draft ← nextSection draft
      sections fuel draft

theorem tracks_sections (fuel : Nat) (draft : Draft) :
    Tracks (sections fuel draft) (Decode.sections fuel draft) := by
  induction fuel generalizing draft with
  | zero => exact tracks_pure _
  | succ fuel ih =>
    intro c hc
    rw [sections, bind_of_ok (remaining_eq hc)]
    by_cases hempty : c.window.rest.length = 0
    · have hnil : c.window.isEmpty = true := by
        rw [Window.isEmpty, List.length_eq_zero_iff.mp hempty]
        rfl
      rw [if_pos hempty, Decode.sections_of_isEmpty hnil]
      exact .ok hc
    · have hcons : ¬ c.window.isEmpty = true := by
        rw [Window.isEmpty, List.isEmpty_iff]
        exact mt List.length_eq_zero_iff.mpr hempty
      rw [if_neg hempty, Decode.sections_of_not_isEmpty hcons]
      exact tracks_bind (tracks_nextSection draft) ih c hc

/-! ## Modules -/

/-- The function with this signature and body. -/
def joined (type : FunctionType) (typeIndex : Nat) (body : Body) : Function where
  typeIndex := typeIndex
  parameterCount := type.parameters
  resultCount := type.results
  localCount := body.localCount
  body := body.code
  bodyOffset := body.offset

/-- Joins a signature with a body. -/
def function (types : Array FunctionType) (typeIndex : Nat) (body : Body) :
    Except Misuse Function := do
  let type ← element types typeIndex
  return joined type typeIndex body

/-- Joins signatures and bodies. -/
def functions (draft : Draft) : Except (Failure DecodeError) (Array Function) :=
  let indices := draft.functionTypes
  if indices.size ≠ draft.bodies.size then
    .error (.declared (.functionCount indices.size draft.bodies.size))
  else
    askValue ((indices.zip draft.bodies).mapM fun (index, body) => function draft.types index body)

/-- The module, once all sections are read. -/
def finish (draft : Draft) : Except (Failure DecodeError) Module := do
  let functions ← functions draft
  match draft.start with
  | some index =>
    if functions.size ≤ index then throw (.declared (.startFunction index functions.size))
  | none => pure ()
  return {
    types := draft.types
    functions
    memory := draft.memory
    memoryDeclared := draft.memoryDeclared
    start := draft.start
    customNames := draft.customNames }

/-- Every function has a signature. -/
def Signed (draft : Draft) : Prop := ∀ index ∈ draft.functionTypes, index < draft.types.size

theorem mapM_of_ok {ε α β : Type} {f : α → Except ε β} {g : α → β} {xs : Array α}
    (h : ∀ x ∈ xs, f x = .ok (g x)) : xs.mapM f = .ok (xs.map g) := by
  rw [array_mapM_eq_ok_iff, Array.toList_map, List.forall₂_map_right_iff, List.forall₂_same]
  exact fun x hx => h x (Array.mem_toList_iff.mp hx)

theorem functions_eq {draft : Draft} (h : Signed draft) :
    functions draft = totalValue draft.functions := by
  unfold functions Draft.functions
  simp only
  by_cases hsize : draft.functionTypes.size = draft.bodies.size
  · rw [if_neg (not_not.mpr hsize), if_neg (not_not.mpr hsize)]
    have htype {p : Nat × Body} (hp : p ∈ draft.functionTypes.zip draft.bodies) :
        draft.types[p.1]? = some (draft.types.getD p.1 ⟨0, 0⟩) := by
      have hindex := h p.1 (Array.of_mem_zip hp).1
      rw [Array.getElem?_eq_getElem hindex, Array.getD, dif_pos hindex]
      rfl
    let join (p : Nat × Body) : Function := joined (draft.types.getD p.1 ⟨0, 0⟩) p.1 p.2
    have hchecked : (draft.functionTypes.zip draft.bodies).mapM
        (fun (index, body) => function draft.types index body) =
          .ok ((draft.functionTypes.zip draft.bodies).map join) :=
      mapM_of_ok fun p hp => by
        show function draft.types p.1 p.2 = _
        rw [function, element_of_some (htype hp)]
        rfl
    have hplain : (draft.functionTypes.zip draft.bodies).mapM
        (fun (index, body) => Decode.function draft.types index body) =
          .ok ((draft.functionTypes.zip draft.bodies).map join) :=
      mapM_of_ok fun p hp => by
        show Decode.function draft.types p.1 p.2 = _
        rw [Decode.function, htype hp]
        rfl
    rw [hchecked, hplain]
    rfl
  · rw [if_pos hsize, if_pos hsize]
    rfl

theorem finish_eq {draft : Draft} (h : Signed draft) : finish draft = totalValue draft.finish := by
  rw [finish, functions_eq h, Draft.finish]
  cases draft.functions with
  | error e => rfl
  | ok functions =>
    cases draft.start with
    | none => rfl
    | some index =>
      by_cases hindex : functions.size ≤ index
      · simp only [totalValue, Except.mapError, bind, Except.bind, if_pos hindex]
        rfl
      · simp only [totalValue, Except.mapError, bind, Except.bind, if_neg hindex]
        rfl

theorem signed_of_sections {start offset : Nat} {rest : List UInt8} {w : Window} {draft : Draft}
    (h : Decode.sections rest.length {} ⟨start, offset, rest⟩ = .ok draft w) : Signed draft := by
  obtain ⟨ss, -, hadds⟩ :=
    (Decode.sections_eq_ok_iff (w := ⟨start, offset, rest⟩) (Nat.le_refl _)).mp ⟨w, h⟩
  exact fun _ hindex => Draft.lt_of_mem_functionTypes hadds hindex

/-- Reads over the header, and then sections to the end. -/
def allSections : Checked DecodeError Cursor Draft := do
  let _ ← bytesOf Module.header.length
  let left ← remaining
  sections left {}

/-- Decodes a module's binary. -/
def decode (bytes : List UInt8) : Except (Failure DecodeError) Module := do
  if bytes.length < Module.header.length then .error (.declared .badHeader)
  let magic ← askValue (part bytes 0 4)
  if magic ≠ Module.header.take 4 then .error (.declared .badHeader)
  let version ← askValue (part bytes 4 8)
  if version ≠ Module.header.drop 4 then .error (.declared .badHeader)
  match allSections (.fresh bytes 0) with
  | .ok draft _ => finish draft
  | .error e _ => .error e

theorem allSections_mirrors (rest : List UInt8) :
    Mirrors (allSections (.fresh (Module.header ++ rest) 0))
      (Decode.sections rest.length {} ⟨0, 8, rest⟩) := by
  let c := (Cursor.fresh (Module.header ++ rest) 0).move 8
  have hc : c.Inside := Nat.le_add_left 8 rest.length
  have hread : (liftM (bytesOf Module.header.length) : Checked DecodeError Cursor (List UInt8))
      (.fresh (Module.header ++ rest) 0) = .ok Module.header c := by
    show EStateM.adaptExcept _ (bytesOf 8) _ = _
    rw [EStateM.adaptExcept,
      bytesOf_of_le (Cursor.inside_fresh _ _) (Nat.le_add_left 8 rest.length)]
    rfl
  rw [allSections, bind_of_ok hread, bind_of_ok (remaining_eq hc)]
  exact tracks_sections rest.length {} c hc

theorem decode_of_header (rest : List UInt8) :
    decode (Module.header ++ rest) = totalValue (Module.decode (Module.header ++ rest)) := by
  have hm := allSections_mirrors rest
  have hwindow : (Window.ofBytes (Module.header ++ rest)).advance Module.header.length =
      ⟨0, 8, rest⟩ := rfl
  have hmagic : part (Module.header ++ rest) 0 4 = .ok (Module.header.take 4) :=
    part_of_le (Nat.zero_le 4) (Nat.le_add_left 4 (rest.length + 4))
  have hversion : part (Module.header ++ rest) 4 8 = .ok (Module.header.drop 4) :=
    part_of_le (by decide) (Nat.le_add_left 8 rest.length)
  rw [decode, if_neg (by simp), hmagic, hversion, Module.decode, if_neg (by simp)]
  simp only [askValue_ok, bind, Except.bind, ne_eq, not_true_eq_false, if_false, hwindow,
    Window.remaining]
  cases hs : Decode.sections rest.length {} ⟨0, 8, rest⟩ with
  | ok draft w =>
    have hsigned : Signed draft := signed_of_sections hs
    rw [hs] at hm
    generalize allSections (.fresh (Module.header ++ rest) 0) = r at hm ⊢
    cases hm with
    | ok _ => exact finish_eq hsigned
  | error e w =>
    rw [hs] at hm
    generalize allSections (.fresh (Module.header ++ rest) 0) = r at hm ⊢
    cases hm with
    | error _ => rfl

/-- Bytes that do not start with the header are found out before anything else is read. -/
theorem decode_of_not_header {bytes : List UInt8}
    (h : bytes.take Module.header.length ≠ Module.header) :
    decode bytes = .error (.declared .badHeader) := by
  unfold decode
  by_cases hshort : bytes.length < Module.header.length
  · rw [if_pos hshort]
    rfl
  have hlength : 8 ≤ bytes.length := Nat.not_lt.mp hshort
  rw [if_neg hshort, part_of_le (Nat.zero_le 4) (by omega), part_of_le (by decide) hlength]
  simp only [askValue_ok, bind, Except.bind, List.drop_zero]
  by_cases hmagic : bytes.take 4 = Module.header.take 4
  · rw [if_neg (not_not.mpr hmagic)]
    have hversion : (bytes.take 8).drop 4 ≠ Module.header.drop 4 := by
      intro hversion
      apply h
      calc bytes.take Module.header.length
          = (bytes.take 8).take 4 ++ (bytes.take 8).drop 4 := (List.take_append_drop 4 _).symm
        _ = Module.header.take 4 ++ Module.header.drop 4 := by
          rw [List.take_take, hversion]
          exact congrArg (· ++ _) hmagic
        _ = Module.header := List.take_append_drop 4 _
    rw [if_pos hversion]
  · rw [if_pos hmagic]

/-- Whatever the bytes are, decoding them gives the module or the error that the plain form
gives. -/
theorem decode_eq (bytes : List UInt8) : decode bytes = totalValue (Module.decode bytes) := by
  by_cases h : bytes.take Module.header.length = Module.header
  · have hsplit := List.take_append_drop Module.header.length bytes
    rw [h] at hsplit
    rw [← hsplit]
    exact decode_of_header (bytes.drop Module.header.length)
  · rw [decode_of_not_header h, Module.decode, if_pos h]
    rfl

end Checked

end WasmI32
