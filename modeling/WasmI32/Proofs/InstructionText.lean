import WasmI32.Instruction.Text
import WasmI32.Proofs.InstructionBytes

/-!
# What the text of an instruction tells

The text of an instruction is its mnemonic, which is one word, and behind it the immediates, each
with a blank in front. It can be read back: only alignments of 63 and more, whose bytes are not
counted any further, are written alike.
-/

namespace WasmI32

/-! ## Characters -/

/-- A row of characters can be cut in one way only where the first character fails `p`. -/
theorem append_inj_of_stop {p : Char → Bool} {a a' b b' : List Char} (ha : ∀ c ∈ a, p c = true)
    (ha' : ∀ c ∈ a', p c = true) (hb : ∀ c ∈ b.head?, p c = false)
    (hb' : ∀ c ∈ b'.head?, p c = false) (h : a ++ b = a' ++ b') : a = a' ∧ b = b' := by
  have hnone {d : List Char} (hd : ∀ c ∈ d.head?, p c = false) : d.takeWhile p = [] := by
    cases d with
    | nil => rfl
    | cons c d => rw [List.takeWhile_cons_of_neg (by simp [hd c rfl])]
  have hfront := congrArg (List.takeWhile p) h
  rw [List.takeWhile_append_of_pos ha, List.takeWhile_append_of_pos ha', hnone hb, hnone hb',
    List.append_nil, List.append_nil] at hfront
  subst hfront
  exact ⟨rfl, List.append_cancel_left h⟩

/-- Only digits are written for a number. -/
theorem notMem_toDigits {c : Char} (hc : ∀ d, Nat.digitChar d ≠ c) {base : Nat} (hb : 1 < base)
    (n : Nat) : c ∉ Nat.toDigits base n := by
  induction n using Nat.strongRecOn with
  | _ n ih =>
    rw [Nat.toDigits_eq_if hb]
    split
    · exact fun h => hc _ (List.mem_singleton.mp h).symm
    · have hdiv := ih (n / base) (Nat.div_lt_self (by omega) hb)
      intro h
      rcases List.mem_append.mp h with h | h
      · exact hdiv h
      · exact hc _ (List.mem_singleton.mp h).symm

theorem notMem_repr (n : Nat) : '\n' ∉ n.repr.toList ∧ ' ' ∉ n.repr.toList := by
  rw [Nat.toList_repr]
  exact ⟨notMem_toDigits (fun d => Nat.digitChar_ne '\n' rfl) (by decide) n,
    notMem_toDigits (fun d => Nat.digitChar_ne ' ' rfl) (by decide) n⟩

/-! ## Immediates -/

/-- Text that is empty or starts with a blank, and holds no line feed. -/
structure IsTail (text : List Char) : Prop where
  head_eq : ∀ c ∈ text.head?, c = ' '
  notMem : '\n' ∉ text

theorem isTail_nil : IsTail [] := ⟨nofun, nofun⟩

theorem isTail_cons {text : List Char} (h : '\n' ∉ text) : IsTail (' ' :: text) := by
  refine ⟨?_, ?_⟩
  · rintro c hc
    exact (Option.some.inj hc).symm
  · simpa using h

theorem IsTail.append {text text' : List Char} (h : IsTail text) (h' : IsTail text') :
    IsTail (text ++ text') := by
  refine ⟨?_, ?_⟩
  · cases text with
    | nil => exact h'.head_eq
    | cons c text => exact h.head_eq
  · exact fun hmem => (List.mem_append.mp hmem).elim h.notMem h'.notMem

/-- What stands in front of such a text ends at the first blank. -/
theorem IsTail.append_inj {a a' b b' : List Char} (hb : IsTail b) (hb' : IsTail b')
    (ha : ' ' ∉ a) (ha' : ' ' ∉ a') (h : a ++ b = a' ++ b') : a = a' ∧ b = b' := by
  have hfront {d : List Char} (hd : ' ' ∉ d) : ∀ c ∈ d, (c != ' ') = true := by
    intro c hc
    exact bne_iff_ne.mpr fun hblank => hd (hblank ▸ hc)
  have hstop {d : List Char} (hd : IsTail d) : ∀ c ∈ d.head?, (c != ' ') = false := by
    intro c hc
    rw [hd.head_eq c hc]
    rfl
  exact append_inj_of_stop (hfront ha) (hfront ha') (hstop hb) (hstop hb') h

namespace MemArg

/-- What a text shows of an access: alignments from 63 on are counted alike. -/
def shown (arg : MemArg) : MemArg :=
  { arg with align := BitVec.ofNat 32 (min arg.align.toNat 63) }

def offsetText (arg : MemArg) : List Char :=
  if arg.offset = 0 then [] else " offset=".toList ++ arg.offset.toNat.repr.toList

def alignText (arg : MemArg) : List Char :=
  if arg.align = 0 then [] else " align=".toList ++ (2 ^ min arg.align.toNat 63).repr.toList

theorem toList_render (arg : MemArg) : arg.render.toList = arg.offsetText ++ arg.alignText := by
  have hoffset : (if arg.offset = 0 then "" else s!" offset={arg.offset.toNat}").toList =
      arg.offsetText := by
    unfold offsetText
    split
    · rfl
    · exact String.toList_append
  have halign : (if arg.align = 0 then "" else s!" align={1 <<< min arg.align.toNat 63}").toList =
      arg.alignText := by
    unfold alignText
    split
    · rfl
    · rw [← Nat.one_shiftLeft]
      exact String.toList_append
  rw [render, String.toList_append, hoffset, halign]

theorem isTail_offsetText (arg : MemArg) : IsTail arg.offsetText := by
  unfold offsetText
  split
  · exact isTail_nil
  · have hdigits := (notMem_repr arg.offset.toNat).1
    have htext : '\n' ∉ "offset=".toList ++ arg.offset.toNat.repr.toList := by simpa using hdigits
    exact isTail_cons htext

theorem isTail_alignText (arg : MemArg) : IsTail arg.alignText := by
  unfold alignText
  split
  · exact isTail_nil
  · have hdigits := (notMem_repr (2 ^ min arg.align.toNat 63)).1
    have htext : '\n' ∉ "align=".toList ++ (2 ^ min arg.align.toNat 63).repr.toList := by
      simpa using hdigits
    exact isTail_cons htext

variable {arg arg' : MemArg}

theorem alignText_ne (arg : MemArg) (rest : List Char) :
    arg.alignText ≠ " offset=".toList ++ rest := by
  unfold alignText
  split
  · simp
  · simp

theorem align_eq_of_text (h : arg.alignText = arg'.alignText) :
    min arg.align.toNat 63 = min arg'.align.toNat 63 := by
  unfold alignText at h
  split at h
  · rename_i hz
    split at h
    · rename_i hz'
      rw [hz, hz']
    · cases h
  · split at h
    · cases h
    · have hpow := Nat.repr_inj.mp (String.toList_inj.mp (List.append_cancel_left h))
      exact Nat.pow_right_injective (Nat.le_refl 2) hpow

theorem offset_eq_of_text
    (h : arg.offsetText ++ arg.alignText = arg'.offsetText ++ arg'.alignText) :
    arg.offset = arg'.offset ∧ arg.alignText = arg'.alignText := by
  unfold offsetText at h
  split at h
  · rename_i hz
    split at h
    · rename_i hz'
      exact ⟨hz.trans hz'.symm, h⟩
    · rw [List.append_assoc] at h
      exact absurd h (alignText_ne arg _)
  · split at h
    · rw [List.append_assoc] at h
      exact absurd h.symm (alignText_ne arg' _)
    · rw [List.append_assoc, List.append_assoc] at h
      obtain ⟨hdigits, halign⟩ := (isTail_alignText arg).append_inj (isTail_alignText arg')
        (notMem_repr _).2 (notMem_repr _).2 (List.append_cancel_left h)
      exact ⟨BitVec.eq_of_toNat_eq (Nat.repr_inj.mp (String.toList_inj.mp hdigits)), halign⟩

/-- The text of an access tells its offset and, up to 63, its alignment. -/
theorem shown_eq_of_render (h : arg.render = arg'.render) : arg.shown = arg'.shown := by
  have htext := congrArg String.toList h
  rw [toList_render, toList_render] at htext
  obtain ⟨hoffset, halign⟩ := offset_eq_of_text htext
  obtain ⟨align, offset⟩ := arg
  obtain ⟨align', offset'⟩ := arg'
  obtain rfl : offset = offset' := hoffset
  simp only [shown, align_eq_of_text halign]

end MemArg

/-! ## Instructions -/

namespace Instruction

variable {b : UInt8} {form : Form} {bs : List UInt8} {i j : Instruction}

/-- An instruction of a form, with immediates that are all zero. -/
def Form.sample : Form → Instruction
  | plain i => i
  | construct kind => enter kind .empty
  | indexed build => build 0
  | access build => build ⟨0, 0⟩
  | constant => const 0
  | reserved i => i

def mnemonicAt (b : UInt8) : Option String := (form? b).map fun form => form.sample.mnemonic

theorem mnemonicAt_of_form (hf : form? b = some form) (hd : form.Denotes bs i) :
    mnemonicAt b = some i.mnemonic := by
  unfold form? at hf
  split at hf <;> cases hf <;> cases hd <;> rfl

theorem exists_mnemonicAt (i : Instruction) : ∃ b form bs, form? b = some form ∧
    form.Denotes bs i ∧ mnemonicAt b = some i.mnemonic := by
  have h := denotes_encode i
  revert h
  generalize i.encode = bytes
  rintro ⟨hf, hd⟩
  exact ⟨_, _, _, hf, hd, mnemonicAt_of_form hf hd⟩

theorem nodup_mnemonics :
    ((List.range 256).filterMap fun n => mnemonicAt (UInt8.ofNat n)).Nodup := by
  decide +kernel

/-- A mnemonic is that of one opcode. -/
theorem mnemonicAt_inj {c : UInt8} {s : String} (hb : mnemonicAt b = some s)
    (hc : mnemonicAt c = some s) : b = c := by
  by_contra hne
  have hpairs := List.pairwise_filterMap.mp nodup_mnemonics
  have hdiffers {m n : UInt8} (hlt : m.toNat < n.toNat) (hm : mnemonicAt m = some s)
      (hn : mnemonicAt n = some s) : False := by
    have hpair := List.pairwise_iff_getElem.mp hpairs m.toNat n.toNat
      (by simpa using m.toNat_lt) (by simpa using n.toNat_lt) hlt
    simp only [List.getElem_range, UInt8.ofNat_toNat] at hpair
    exact hpair s hm s hn rfl
  rcases Nat.lt_or_gt_of_ne (mt UInt8.toNat_inj.mp hne) with hlt | hlt
  · exact hdiffers hlt hb hc
  · exact hdiffers hlt hc hb

/-- Text that is not empty and holds neither blanks nor line feeds. -/
def isWord (s : String) : Bool := !s.toList.isEmpty && s.toList.all fun c => c != ' ' && c != '\n'

theorem isWord_of_mnemonicAt {s : String} (h : mnemonicAt b = some s) : isWord s = true := by
  unfold mnemonicAt form? at h
  split at h <;> cases h <;> decide +kernel

theorem mnemonic_word (i : Instruction) :
    i.mnemonic.toList ≠ [] ∧ ∀ c ∈ i.mnemonic.toList, c ≠ ' ' ∧ c ≠ '\n' := by
  obtain ⟨b, -, -, -, -, hb⟩ := exists_mnemonicAt i
  simpa [isWord] using isWord_of_mnemonicAt hb

/-- What a text shows of an instruction. -/
def shown : Instruction → Instruction
  | load op arg => load op arg.shown
  | store width arg => store width arg.shown
  | i => i

/-- The text of the immediates of a form. -/
def Form.Prints : Form → Prop
  | indexed build => ∀ n, (build n).renderImmediates = " " ++ n.toNat.repr
  | access build => ∀ arg, (build arg).renderImmediates = arg.render ∧
      (build arg).shown = build arg.shown
  | plain i => i.renderImmediates = ""
  | reserved i => i.renderImmediates = ""
  | construct _ | constant => True

theorem prints_of_form? (hf : form? b = some form) : form.Prints := by
  unfold form? at hf
  split at hf <;> cases hf <;>
    first | trivial | rfl | exact fun _ => rfl | exact fun _ => ⟨rfl, rfl⟩

theorem isTail_number (n : Nat) : IsTail (" " ++ n.repr).toList := by
  rw [String.toList_append]
  exact isTail_cons (notMem_repr n).1

theorem notMem_repr_int (v : Int) : '\n' ∉ v.repr.toList := by
  rw [Int.repr_eq_if]
  split
  · exact (notMem_repr _).1
  · have hdigits := (notMem_repr (-v).toNat).1
    simpa using hdigits

theorem isTail_renderImmediates (i : Instruction) : IsTail i.renderImmediates.toList := by
  obtain ⟨b, form, bs, hf, hd, -⟩ := exists_mnemonicAt i
  have hprints := prints_of_form? hf
  cases hd with
  | plain i =>
    have hnone : i.renderImmediates = "" := hprints
    rw [hnone]
    exact isTail_nil
  | @construct kind b type h =>
    cases type
    · exact isTail_nil
    · have htext : " (result i32)".toList = ' ' :: "(result i32)".toList := by decide
      show IsTail " (result i32)".toList
      rw [htext]
      exact isTail_cons (by decide)
  | @indexed build bs n h =>
    have hnumber : (build n).renderImmediates = " " ++ n.toNat.repr := hprints n
    rw [hnumber]
    exact isTail_number n.toNat
  | @access build bs cs align offset ha ho =>
    have harg : (build ⟨align, offset⟩).renderImmediates = MemArg.render ⟨align, offset⟩ :=
      (hprints _).1
    rw [harg, MemArg.toList_render]
    exact (MemArg.isTail_offsetText _).append (MemArg.isTail_alignText _)
  | @constant bs v h =>
    have hconst : (const v).renderImmediates.toList = ' ' :: v.toInt.repr.toList :=
      String.toList_append
    rw [hconst]
    exact isTail_cons (notMem_repr_int v.toInt)
  | reserved i =>
    have hnone : i.renderImmediates = "" := hprints
    rw [hnone]
    exact isTail_nil

/-- Instructions of one form with the same text of immediates are shown alike. -/
theorem shown_eq_of_immediates {cs : List UInt8} (hf : form? b = some form)
    (hi : form.Denotes bs i) (hj : form.Denotes cs j)
    (h : i.renderImmediates = j.renderImmediates) : i.shown = j.shown := by
  have hprints := prints_of_form? hf
  cases hi with
  | plain i =>
    cases hj
    rfl
  | @construct kind b type hb =>
    cases hj with
    | @construct _ c type' hc =>
      have hne : " (result i32)" ≠ "" := by decide
      cases type <;> cases type'
      · rfl
      · exact absurd h.symm hne
      · exact absurd h hne
      · rfl
  | @indexed build bs n hn =>
    cases hj with
    | @indexed _ cs m hm =>
      have hn : (build n).renderImmediates = " " ++ n.toNat.repr := hprints n
      have hm : (build m).renderImmediates = " " ++ m.toNat.repr := hprints m
      rw [hn, hm] at h
      have hdigits := (String.append_right_inj " ").mp h
      rw [BitVec.eq_of_toNat_eq (Nat.repr_inj.mp hdigits)]
  | @access build bs cs align offset ha ho =>
    cases hj with
    | @access _ bs' cs' align' offset' ha' ho' =>
      obtain ⟨htext, hshown⟩ := hprints ⟨align, offset⟩
      obtain ⟨htext', hshown'⟩ := hprints ⟨align', offset'⟩
      rw [htext, htext'] at h
      rw [hshown, hshown', MemArg.shown_eq_of_render h]
  | @constant bs v hv =>
    cases hj with
    | @constant cs w hw =>
      have hdigits := (String.append_right_inj " ").mp h
      rw [BitVec.eq_of_toInt_eq (Int.repr_inj.mp hdigits)]
  | reserved i =>
    cases hj
    rfl

/-- The text of an instruction tells all that is shown of it. -/
theorem shown_eq_of_render (h : i.render = j.render) : i.shown = j.shown := by
  obtain ⟨b, form, bs, hf, hi, hb⟩ := exists_mnemonicAt i
  obtain ⟨c, form', cs, hf', hj, hc⟩ := exists_mnemonicAt j
  have htext := congrArg String.toList h
  rw [render, render, String.toList_append, String.toList_append] at htext
  have hword (i : Instruction) : ' ' ∉ i.mnemonic.toList :=
    fun hblank => ((mnemonic_word i).2 _ hblank).1 rfl
  obtain ⟨hmnemonic, himmediates⟩ := (isTail_renderImmediates i).append_inj
    (isTail_renderImmediates j) (hword i) (hword j) htext
  rw [String.toList_inj.mp hmnemonic] at hb
  obtain rfl := mnemonicAt_inj hb hc
  obtain rfl : form = form' := Option.some.inj (hf.symm.trans hf')
  exact shown_eq_of_immediates hf hi hj (String.toList_inj.mp himmediates)

end Instruction

end WasmI32
