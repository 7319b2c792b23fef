import WasmI32.Module.Decode
import WasmI32.Proofs.Reading

/-!
# The grammar of module binaries

The binary format as it is written down: which bytes stand for a signature, a function body, a
section and a module. Integers may be written with more bytes than they need. All limits are part
of the grammar. Nothing here says how a binary is read, in which order, or what is wrong with one
that is refused.
-/

namespace WasmI32.Format

variable {α : Type}

/-! ## Parts of sections -/

/-- Strings of `G`, one behind the other. -/
inductive Items (G : Grammar α) : Grammar (List α)
  | nil {o : Nat} : Items G o [] []
  | cons {o : Nat} {bs cs : List UInt8} {a : α} {as : List α} (h : G o bs a)
    (ht : Items G (o + bs.length) cs as) : Items G o (bs ++ cs) (a :: as)

/-- A number of 32 bits. -/
def number : Grammar Nat := fun _ bs n => ∃ v : Word, Leb128.Unsigned bs v ∧ n = v.toNat

/-- Strings of `G` behind their number. -/
def vector (G : Grammar α) : Grammar (List α) := fun o bs as =>
  ∃ cs ds, bs = cs ++ ds ∧ number o cs as.length ∧ Items G (o + cs.length) ds as

/-- Value types behind their number; `i32` is the only one. -/
def valueTypes : Grammar Nat := fun o bs n =>
  ∃ cs, bs = cs ++ List.replicate n 0x7f ∧ number o cs n

def signature : Grammar FunctionType := fun o bs t =>
  ∃ ps rs, bs = 0x60 :: (ps ++ rs) ∧ valueTypes (o + 1) ps t.parameters ∧
    valueTypes (o + 1 + ps.length) rs t.results ∧ t.parameters ≤ 1000 ∧ t.results ≤ 1

/-- So many locals of one type. -/
def localGroup : Grammar Nat := fun o bs n => ∃ cs, bs = cs ++ [0x7f] ∧ number o cs n

/-- A function body behind its size: groups of locals, and then the code as it is. -/
def body : Grammar Body := fun o bs b =>
  ∃ cs ls code groups, bs = cs ++ (ls ++ code) ∧ number o cs (ls ++ code).length ∧
    (ls ++ code).length ≤ 7654321 ∧ vector localGroup (o + cs.length) ls groups ∧
    groups.sum ≤ 50000 ∧ b = ⟨groups.sum, code.toArray, o + cs.length + ls.length⟩

/-- A data segment of memory zero: a constant address and bytes behind their number. -/
def segment : Grammar (Word × List UInt8) := fun o bs s =>
  ∃ is as ns, bs = is ++ 0x41 :: (as ++ 0x0b :: (ns ++ s.2)) ∧ number o is 0 ∧
    Leb128.Signed as s.1 ∧ number (o + is.length + as.length + 2) ns s.2.length

/-! ## The contents of sections -/

def types : Grammar (List FunctionType) := fun o bs ts =>
  vector signature o bs ts ∧ ts.length ≤ 100000

/-- The signatures of functions, as indices below `count`. -/
def typeIndices (count : Nat) : Grammar (List Nat) := fun o bs is =>
  vector number o bs is ∧ is.length ≤ 100000 ∧ ∀ i ∈ is, i < count

/-- The first and the largest number of pages of a memory, if there is one. -/
inductive memory : Grammar (Option (Nat × Nat))
  | absent {o : Nat} {cs : List UInt8} (hc : number o cs 0) : memory o cs none
  | unbounded {o initial : Nat} {cs bs : List UInt8} (hc : number o cs 1)
    (hi : number (o + cs.length + 1) bs initial) (h : initial ≤ 128) :
    memory o (cs ++ 0x00 :: bs) (some (initial, 128))
  | bounded {o initial maximum : Nat} {cs bs ds : List UInt8} (hc : number o cs 1)
    (hi : number (o + cs.length + 1) bs initial)
    (hm : number (o + cs.length + 1 + bs.length) ds maximum) (hpos : 1 ≤ maximum)
    (hmax : maximum ≤ 128) (h : initial ≤ maximum) :
    memory o (cs ++ 0x01 :: (bs ++ ds)) (some (initial, maximum))

def bodies : Grammar (List Body) := fun o bs as => vector body o bs as ∧ as.length ≤ 100000

def segments : Grammar (List (Word × List UInt8)) := fun o bs ss =>
  vector segment o bs ss ∧ ss.length ≤ 100000

/-! ## Sections -/

/-- A section: its number, its contents and where they start in the binary. -/
structure RawSection where
  id : UInt8
  offset : Nat
  contents : List UInt8
  deriving DecidableEq

/-- Sections in a row, each a number, a size and as many bytes. -/
inductive Sections : Grammar (List RawSection)
  | nil {o : Nat} : Sections o [] []
  | cons {o : Nat} {id : UInt8} {ss contents rest : List UInt8} {sections : List RawSection}
    (hsize : number (o + 1) ss contents.length)
    (h : Sections (o + 1 + ss.length + contents.length) rest sections) :
    Sections o (id :: (ss ++ (contents ++ rest)))
      (⟨id, o + 1 + ss.length, contents⟩ :: sections)

/-- The numbers of sections, custom ones apart, are above `previous` and ascend. -/
def Ascending (previous : UInt8) (sections : List RawSection) : Prop :=
  ((sections.map RawSection.id).filter (· ≠ 0)).Pairwise (· < ·) ∧
    ∀ s ∈ sections, s.id ≠ 0 → previous < s.id ∧ s.id ≤ 12

/-- The section with number `id` says `a`. Without one it is `absent`. -/
def Says (sections : List RawSection) (id : UInt8) (G : Grammar α) (absent a : α) : Prop :=
  match sections.find? (fun s => s.id = id) with
  | some s => G s.offset s.contents a
  | none => a = absent

/-- The name of a custom section, which is empty if it cannot be read. -/
def HasName (contents : List UInt8) (name : String) : Prop :=
  (∃ ns bs rest, contents = ns ++ (bs ++ rest) ∧ number 0 ns bs.length ∧
    name = Utf8.decodeLossy bs) ∨
  (¬ ∃ ns bs rest, contents = ns ++ (bs ++ rest) ∧ number 0 ns bs.length) ∧ name = ""

end WasmI32.Format
