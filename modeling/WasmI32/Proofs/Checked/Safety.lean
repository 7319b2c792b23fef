import WasmI32.CommandLine.Job
import WasmI32.Proofs.Checked.Decoding

/-!
# The engine misuses nothing

The listing of a module and the dump of a memory in checked form, and the statement for the engine
as a whole: reading any bytes, listing what was read, and invoking functions of it in any order and
with any arguments, on fresh machines and on used ones, never applies a partial operation outside
its domain. What can fail fails with an error of the engine.
-/

namespace WasmI32.Checked

open Partial

/-! ## Listings -/

/-- The line above the instructions of a function. -/
def renderHeading (m : Module) (index : Nat) (f : Function) : Except Misuse String := do
  let type ← element m.types f.typeIndex
  let mark := if m.start = some index then " (start)" else ""
  return s!"func {index}: {type.render}, {f.localCount} local(s){mark}\n"

def renderFunction (m : Module) (index : Nat) (f : Function) : Except Misuse String := do
  let heading ← renderHeading m index f
  return heading
    ++ String.join ((Listing.ofFunction f).map Listing.Line.render).toList
    ++ Listing.renderError (Instruction.scan f.body).error

/-- The listing of a module. -/
def render (m : Module) : Except Misuse String := do
  let parts ← m.functions.zipIdx.mapM fun (f, index) => renderFunction m index f
  return String.join parts.toList

/-- The functions of a module that was decoded have their signatures among its types. -/
theorem exists_type_of_decode {input : List UInt8} {m : Module} (h : Module.decode input = .ok m)
    {f : Function} (hf : f ∈ m.functions) : ∃ type, m.types[f.typeIndex]? = some type := by
  obtain ⟨rest, rfl⟩ := Module.eq_append_of_decode h
  obtain ⟨ss, draft, -, -, hfinish⟩ := Module.decode_append_eq_finish.mp h
  obtain ⟨hfunctions, -, htypes, -⟩ := Draft.finish_eq_ok_iff.mp hfinish
  obtain ⟨-, hjoins⟩ := Draft.functions_eq_ok_iff.mp hfunctions
  rw [← Array.mem_toList_iff] at hf
  generalize m.functions.toList = fs at hf hjoins
  generalize List.zip _ _ = joins at hjoins
  induction hjoins with
  | nil => cases hf
  | cons hjoin _ ih =>
    rcases List.mem_cons.mp hf with rfl | hf
    · obtain ⟨type, htype, rfl⟩ := hjoin
      exact ⟨type, by rw [htypes, ← Array.getElem?_toList]; exact htype⟩
    · exact ih hf

theorem render_eq {m : Module}
    (h : ∀ f ∈ m.functions, ∃ type, m.types[f.typeIndex]? = some type) :
    render m = .ok (Listing.render m) := by
  have hparts : m.functions.zipIdx.mapM (fun (f, index) => renderFunction m index f) =
      .ok (m.functions.zipIdx.map fun p => Listing.renderFunction m p.2 p.1) := by
    refine mapM_of_ok fun p hp => ?_
    obtain ⟨type, htype⟩ := h p.1 (Array.fst_mem_of_mem_zipIdx hp)
    show renderFunction m p.2 p.1 = _
    rw [renderFunction, renderHeading, element_of_some htype, Listing.renderFunction,
      Listing.renderHeading, Array.getD_eq_getD_getElem?, htype]
    rfl
  rw [render, hparts, Listing.render, Array.mapIdx_eq_zipIdx_map]
  rfl

/-! ## Dumps -/

/-- The bytes of memory to show: the first ones, as many as are asked for and are there. -/
def dump (job : CommandLine.Job) (memory : Memory) : Except Misuse (Option (Array UInt8)) :=
  match job.options.dumpMemory with
  | none => .ok none
  | some n => do
    let shown ← bytes memory.data 0 (min n memory.data.size)
    return some shown.data

theorem dump_eq (job : CommandLine.Job) (memory : Memory) :
    dump job memory = .ok (job.dump memory) := by
  unfold dump CommandLine.Job.dump
  cases job.options.dumpMemory with
  | none => rfl
  | some n =>
    have hsame : memory.data.extract 0 (min n memory.data.size) = memory.data.extract 0 n := by
      apply ByteArray.ext
      simp only [ByteArray.data_extract]
      apply Array.ext_getElem?
      intro i
      have hsize : memory.data.size = memory.data.data.size := rfl
      simp only [Array.getElem?_extract, hsize, Nat.min_assoc, Nat.min_self]
    simp only [bytes_of_le (Nat.zero_le _) (Nat.min_le_right n memory.data.size), hsame]
    rfl

/-! ## The engine -/

/-- No input makes the engine use a partial operation outside its domain: its checked form, which
reports such a use, comes to what the plain form comes to. The machine is any, so that any number
of invocations may have gone before, on this machine or on another one. -/
theorem engine_misuses_nothing (input : List UInt8) :
    decode input = totalValue (Module.decode input) ∧
      ∀ m, Module.decode input = .ok m →
        render m = .ok (Listing.render m) ∧
          ∀ machine : Machine,
            (∀ index args fuel, invoke m.functions index args fuel machine =
              .ok (machine.invoke m.functions index args fuel)) ∧
            ∀ job : CommandLine.Job, dump job machine.memory = .ok (job.dump machine.memory) := by
  refine ⟨decode_eq input, fun m hm => ⟨?_, fun machine => ⟨?_, ?_⟩⟩⟩
  · exact render_eq fun f hf => exists_type_of_decode hm hf
  · exact fun index args fuel => invoke_eq m.functions index args fuel machine
  · exact fun job => dump_eq job machine.memory

/-- A module with a custom section and one function, which answers its argument. -/
def echoBinary : List UInt8 :=
  Module.header ++ [0x00, 0x03, 0x02, 0x68, 0x69, 0x01, 0x06, 0x01, 0x60, 0x01, 0x7f, 0x01, 0x7f,
    0x03, 0x02, 0x01, 0x00, 0x0a, 0x06, 0x01, 0x04, 0x00, 0x20, 0x00, 0x0b]

def echo : Module where
  types := #[⟨1, 1⟩]
  functions := #[⟨0, 1, 1, 0, #[0x20, 0x00, 0x0b], 30⟩]
  customNames := #["hi"]

theorem echo_misuses_nothing :
    Module.decode echoBinary = .ok echo ∧ decode echoBinary = .ok echo ∧
      render echo = .ok (Listing.render echo) ∧
      invoke echo.functions 0 #[5] 3 echo.machine =
        .ok (.finished #[5] ⟨[], 0, 0, {}, .empty, 2⟩) := by
  have hdecode : Module.decode echoBinary = .ok echo := by decide +kernel
  obtain ⟨hchecked, hrest⟩ := engine_misuses_nothing echoBinary
  obtain ⟨hrender, hrun⟩ := hrest echo hdecode
  refine ⟨hdecode, by rw [hchecked, hdecode]; rfl, hrender, ?_⟩
  rw [(hrun echo.machine).1 0 #[5] 3]
  rfl

end WasmI32.Checked
