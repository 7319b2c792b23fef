import WasmI32.Proofs.Skipping

/-!
# Code without loops

Only a branch to a loop goes back in the code. Where no body has one, each frame goes through its
body once at most, be it by running instructions or by skipping them. Functions may still call each
other, and themselves, without end: what stops them is the limit on live frames. So every
invocation is over after a number of steps that is told by the size of the code alone. Nothing is
said of code with loops, which may end or not.
-/

namespace WasmI32

namespace Instruction

def isLoop : Instruction → Bool
  | enter .loop _ => true
  | _ => false

/-- A scan finds no loop. -/
def WithoutLoop (code : Array UInt8) : Prop :=
  ∀ x ∈ (scan code).instructions.toList, x.2.isLoop = false

instance (code : Array UInt8) : Decidable (WithoutLoop code) :=
  inferInstanceAs (Decidable (∀ x ∈ (scan code).instructions.toList, x.2.isLoop = false))

end Instruction

/-- No function has a loop. -/
def LoopFree (functions : Array Function) : Prop :=
  ∀ f ∈ functions.toList, Instruction.WithoutLoop f.body

instance (functions : Array Function) : Decidable (LoopFree functions) :=
  inferInstanceAs (Decidable (∀ f ∈ functions.toList, Instruction.WithoutLoop f.body))

/-! ## Frames only go forward -/

namespace Instruction

variable {code : Array UInt8} {ip next : Nat} {i : Instruction} {cs : List Construct}

/-- What is read at a place that a scan comes to, the scan finds. -/
theorem Nested.mem_scan (h : Nested code ip cs) (hd : decodeAt code ip = .ok (i, next)) :
    (ip, i) ∈ (scan code).instructions.toList := by
  obtain ⟨front, ⟨-, back, hall, hrow⟩, -⟩ := h.scansTo
  obtain ⟨rest, rfl, -⟩ := hrow.uncons hd
  rw [hall]
  exact List.mem_append_right front (List.mem_cons_self ..)

theorem Nested.kind_ne_loop (hfree : WithoutLoop code) (h : Nested code ip cs) :
    ∀ c ∈ cs, c.kind ≠ .loop := by
  induction h with
  | start => simp
  | plain _ _ _ _ ih => exact ih
  | @enter ip next kind type cs h hd ih =>
    intro c hc
    rcases List.mem_cons.mp hc with rfl | hc
    · rintro (rfl : kind = .loop)
      cases hfree _ (h.mem_scan hd)
    · exact ih c hc
  | close _ _ ih => exact fun c hc => ih c (List.mem_cons_of_mem _ hc)

end Instruction

namespace Frame

variable {f : Function} {frame frame' : Frame}

theorem Placed.kind_ne_loop (hp : frame.Placed f) (hfree : Instruction.WithoutLoop f.body) :
    ∀ marker ∈ frame.markers, marker.kind ≠ .loop := by
  obtain ⟨cs, hn, hm⟩ := hp
  intro marker hmem
  have hc : marker.construct ∈ cs ++ [(bodyMarker f 0).construct] := by
    rw [← hm]
    exact List.mem_map_of_mem hmem
  rcases List.mem_append.mp hc with hc | hc
  · exact hn.kind_ne_loop hfree _ hc
  · have hkind : marker.kind = (bodyMarker f 0).kind :=
      congrArg Construct.kind (List.mem_singleton.mp hc)
    rw [hkind]
    show BlockKind.block ≠ .loop
    decide

theorem Placed.ip_le (hp : frame.Placed f) : frame.ip ≤ f.body.size := by
  obtain ⟨cs, hn, -⟩ := hp
  exact hn.le_size

/-- Without a loop around it, a frame goes on behind the instruction. -/
theorem Turns.ip_eq {i : Instruction} (ht : frame.Turns i frame')
    (hloop : ∀ marker ∈ frame.markers, marker.kind ≠ .loop) : frame'.ip = frame.ip := by
  cases ht with
  | stay _ _ hp => exact congrArg (fun place => place.2.1) hp
  | enter hp => exact congrArg (fun place => place.2.1) hp
  | close _ hp => exact congrArg (fun place => place.2.1) hp
  | back hm hk =>
    refine absurd hk (hloop _ ?_)
    rw [hm]
    simp

end Frame

namespace Machine

variable {functions : Array Function} {m m' : Machine}

theorem ip_lt_of_advance {f : Function} {frame : Frame} {stack : OperandStack} {memory : Memory}
    {flow : Flow} {a : Activation} (hp : frame.Placed f) (hfree : Instruction.WithoutLoop f.body)
    (h : advance f.body ⟨frame, stack, memory⟩ = .ok flow a) (hflow : flow ≠ .ret) :
    frame.ip < a.frame.ip ∧ a.frame.ip ≤ f.body.size := by
  obtain ⟨i, next, hd, hturns⟩ := turns_of_advance h hflow
  have hip : a.frame.ip = next := hturns.ip_eq (hp.kind_ne_loop hfree)
  rw [hip]
  exact ⟨Instruction.lt_of_decodeAt hd, Instruction.le_size_of_decodeAt hd⟩

/-! ## A bound on the steps -/

/-- The steps that frames, the running one first, have left, if no body is longer than `size`. What
a frame can still call counts with it: each byte that it has not passed stands for a call, and each
frame for as many bytes as the longest body has, one level further in. -/
def budget (size : Nat) : List Frame → Nat
  | [] => 0
  | frame :: callers =>
    (size + 1 - frame.ip) * (size + 2) ^ (Limits.callDepth - callers.length) + budget size callers

variable {size : Nat} {frame frame₁ : Frame} {callers : List Frame}

theorem budget_next (hlt : frame.ip < frame₁.ip) (hle : frame₁.ip ≤ size) :
    budget size (frame₁ :: callers) < budget size (frame :: callers) := by
  have hpow : 0 < (size + 2) ^ (Limits.callDepth - callers.length) := Nat.pow_pos (by omega)
  have hleft : size + 1 - frame₁.ip < size + 1 - frame.ip := by omega
  exact Nat.add_lt_add_right (Nat.mul_lt_mul_of_pos_right hleft hpow) _

/-- A call costs the caller a byte, which is worth more than a whole body one level further in. -/
theorem budget_call {callee : Frame} (hlt : frame.ip < frame₁.ip) (hle : frame₁.ip ≤ size)
    (hcallee : callee.ip = 0) (hdepth : callers.length < Limits.callDepth) :
    budget size (callee :: frame₁ :: callers) < budget size (frame :: callers) := by
  obtain ⟨levels, hlevels⟩ : ∃ levels, Limits.callDepth - callers.length = levels + 1 :=
    ⟨Limits.callDepth - callers.length - 1, by omega⟩
  have hlevels' : Limits.callDepth - (frame₁ :: callers).length = levels := by
    rw [List.length_cons]
    omega
  have hpow : 0 < (size + 2) ^ levels := Nat.pow_pos (by omega)
  have hleft : size + 1 - frame₁.ip + 1 ≤ size + 1 - frame.ip := by omega
  simp only [budget, hlevels, hlevels', hcallee, Nat.sub_zero, ← Nat.add_assoc]
  refine Nat.add_lt_add_right ?_ _
  calc (size + 1) * (size + 2) ^ levels + (size + 1 - frame₁.ip) * (size + 2) ^ (levels + 1)
      < (size + 2) ^ (levels + 1) + (size + 1 - frame₁.ip) * (size + 2) ^ (levels + 1) := by
        refine Nat.add_lt_add_right ?_ _
        rw [Nat.pow_succ, Nat.mul_comm _ (size + 2)]
        exact Nat.mul_lt_mul_of_pos_right (Nat.lt_succ_self _) hpow
    _ = (size + 1 - frame₁.ip + 1) * (size + 2) ^ (levels + 1) := by
        rw [Nat.add_mul, Nat.one_mul, Nat.add_comm]
    _ ≤ (size + 1 - frame.ip) * (size + 2) ^ (levels + 1) := Nat.mul_le_mul_right _ hleft

theorem budget_ret (hle : frame.ip ≤ size) :
    budget size callers < budget size (frame :: callers) := by
  have hpow : 0 < (size + 2) ^ (Limits.callDepth - callers.length) := Nat.pow_pos (by omega)
  have hleft : 0 < size + 1 - frame.ip := by omega
  exact Nat.lt_add_of_pos_left (Nat.mul_pos hleft hpow)

/-- Every step without a trap uses up a part of the budget. -/
theorem budget_lt_of_step (hfree : LoopFree functions)
    (hsize : ∀ f ∈ functions.toList, f.body.size ≤ size) (hp : m.Placed functions)
    (ha : m.Accounted functions) (hm : m.frames ≠ []) (h : step functions m = .ok () m') :
    budget size m'.frames < budget size m.frames := by
  obtain ⟨frame, callers, hframes⟩ := List.exists_cons_of_ne_nil hm
  obtain ⟨f, hf, hplaced⟩ := hp frame (by simp [hframes])
  have hmem : f ∈ functions.toList := by
    rw [← Array.getElem?_toList] at hf
    exact List.mem_of_getElem? hf
  have hle := hsize f hmem
  obtain ⟨g, flow, a, hg, hadvance, hfollow⟩ := step_eq_ok hframes h
  obtain rfl : f = g := Option.some.inj (hf.symm.trans hg)
  rw [hframes]
  have hon (hflow : flow ≠ .ret) := ip_lt_of_advance hplaced (hfree f hmem) hadvance hflow
  cases follows_of_follow rfl hfollow with
  | next =>
    obtain ⟨hlt, hip⟩ := hon (by simp)
    exact budget_next hlt (hip.trans hle)
  | call _ hroom =>
    obtain ⟨hlt, hip⟩ := hon (by simp)
    have hdepth : callers.length < Limits.callDepth := by
      have hcount := ha.depth_eq
      rw [hframes, List.length_cons] at hcount
      have hlimit : ¬ Limits.callDepth ≤ m.depth := fun hfull => hroom (.inl hfull)
      omega
    exact budget_call hlt (hip.trans hle) rfl hdepth
  | ret => exact budget_ret (hplaced.ip_le.trans hle)

/-- A run has no more steps than its budget. -/
theorem Steps.budget_le {n : Nat} (hfree : LoopFree functions)
    (hsize : ∀ f ∈ functions.toList, f.body.size ≤ size) (h : Steps functions n m m')
    (hp : m.Placed functions) (ha : m.Accounted functions) :
    budget size m'.frames + n ≤ budget size m.frames := by
  induction h with
  | refl m => exact Nat.le_refl _
  | head hm hs _ ih =>
    have hlt := budget_lt_of_step hfree hsize hp ha hm hs
    have hle := ih (hp.step hm hs) (ha.step hm hs)
    omega

/-- The number of bytes of code. -/
def codeSize (functions : Array Function) : Nat :=
  (functions.toList.map fun f => f.body.size).sum

theorem size_le_codeSize {f : Function} (hf : f ∈ functions.toList) :
    f.body.size ≤ codeSize functions :=
  List.le_sum_of_mem (List.mem_map_of_mem hf)

/-- Every invocation of a function of a module without loops ends, with results or with a trap,
whatever the functions call. -/
theorem invoke_ends_of_loopFree (hfree : LoopFree functions) (m : Machine) (index : Nat)
    (args : Array Word) :
    ∃ n ≤ (codeSize functions + 2) ^ (Limits.callDepth + 1),
      (∃ results m', m.invoke functions index args n = .finished results m') ∨
        ∃ report m', m.invoke functions index args n = .trapped report m' := by
  refine ⟨_, Nat.le_refl _, ?_⟩
  cases hrun : m.invoke functions index args
      ((codeSize functions + 2) ^ (Limits.callDepth + 1)) with
  | finished results m' => exact .inl ⟨results, m', rfl⟩
  | trapped report m' => exact .inr ⟨report, m', rfl⟩
  | running m' =>
    -- a run of that many steps would have used up more than it had at its start
    exfalso
    obtain ⟨m₁, hstart, hsteps⟩ := invoke_eq_running_iff.mp hrun
    have hp := placed_start hstart
    obtain ⟨f, hf, -, -, rfl⟩ := start_eq_running_iff.mp hstart
    have hle := hsteps.budget_le hfree (fun _ => size_le_codeSize) hp
      (accounted_started hf args m.memory)
    have hbudget : budget (codeSize functions) (started index f args m.memory).frames =
        (codeSize functions + 1) * (codeSize functions + 2) ^ Limits.callDepth := by
      simp only [started, budget, Frame.create, List.length_nil, Nat.sub_zero, Nat.add_zero]
    have hpow : 0 < (codeSize functions + 2) ^ Limits.callDepth := Nat.pow_pos (by omega)
    have hlt : (codeSize functions + 1) * (codeSize functions + 2) ^ Limits.callDepth <
        (codeSize functions + 2) ^ (Limits.callDepth + 1) := by
      rw [Nat.pow_succ, Nat.mul_comm _ (codeSize functions + 2)]
      exact Nat.mul_lt_mul_of_pos_right (Nat.lt_succ_self _) hpow
    omega

/-- A function that leaves a block early if its argument is not zero, and else calls itself without
end, with code behind the branch that is only skipped. -/
def endlessRecursion : Array Function :=
  #[⟨0, 1, 0, 0, #[0x02, 0x40, 0x20, 0x00, 0x0d, 0x00, 0x20, 0x00, 0x10, 0x00, 0x0b, 0x0b], 0⟩]

theorem endlessRecursion_ends :
    LoopFree endlessRecursion ∧
      ∃ n ≤ (codeSize endlessRecursion + 2) ^ (Limits.callDepth + 1),
        (∃ results m', (create .empty).invoke endlessRecursion 0 #[0] n = .finished results m') ∨
          ∃ report m', (create .empty).invoke endlessRecursion 0 #[0] n = .trapped report m' := by
  have hfree : LoopFree endlessRecursion := by decide +kernel
  exact ⟨hfree, invoke_ends_of_loopFree hfree (create .empty) 0 #[0]⟩

end Machine

end WasmI32
