import Mathlib.Tactic.IntervalCases
import Dlos.Mm.ForkImage

/-!
# What descriptors decode to

`init_descriptor` spreads a base and a limit over five fields. `seg2linear` and `ldt_seg_linear`
put the base together again, `do_fork` both of them with a macro.
-/

namespace Dlos

open Program

/-- `seg2linear`, with the descriptors of the GDT. -/
def seg2linear (gdt : Nat → Descriptor) (seg : BitVec 16) : BitVec 32 := (gdt (seg >>> 3).toNat).base

/-- The 16 bits from which `init_descriptor` takes the attributes, as they lie in `attr1` and
`limit_high_attr2`. -/
def Descriptor.attributes (d : Descriptor) : BitVec 16 :=
  d.limitHighAttr2.zeroExtend 16 <<< 8 ||| d.attr1.zeroExtend 16

/-- All decoders give back what was encoded; a process runs at the base of its descriptor. -/
structure Decodes (base limit : BitVec 32) (attr : BitVec 16) : Prop where
  ldt : ∀ (p : Proc) (idx : Fin 2), p.ldts idx = initDescriptor base limit attr →
    ldtSegLinear p idx = base
  gdt : ∀ (gdt : Nat → Descriptor) (seg : BitVec 16),
    gdt (seg >>> 3).toNat = initDescriptor base limit attr → seg2linear gdt seg = base
  reassembleBase : (initDescriptor base limit attr).reassembleBase = base
  reassembleLimit : (initDescriptor base limit attr).reassembleLimit = limit
  attributes : (initDescriptor base limit attr).attributes &&& 0xF0FF = attr &&& 0xF0FF
  va2la : ∀ (L : MmLayout) (s : MmState) (o : Option Halt), (mmMachine L).Reached ValidMm s o →
    ∀ pid va, (s.kernel.procTable pid).ldts indexLdtRw = initDescriptor base limit attr →
      va2la pid va s.kernel = .ok (base + va) s.kernel

section

variable {base limit : BitVec 32} {attr : BitVec 16}

/-- The macro of `do_fork` gets the low 16 bits of a limit. -/
theorem toNat_reassembleLimit :
    (initDescriptor base limit attr).reassembleLimit.toNat = limit.toNat % 2 ^ 16 := by
  have hlow : (initDescriptor base limit attr).limitLow.toNat = limit.toNat % 2 ^ 16 := by
    have hmod : limit.toNat &&& 0xFFFF = limit.toNat % 2 ^ 16 := Nat.and_two_pow_sub_one_eq_mod _ 16
    change (limit.toNat &&& 0xFFFF) % 2 ^ 16 = _
    rw [hmod, Nat.mod_mod]
  rw [Descriptor.reassembleLimit, masked_limit, ← hlow]
  have := (initDescriptor base limit attr).limitLow.isLt
  simp
  omega

/-- Bits 8 to 11 are the limit's, the others come from the attributes. -/
theorem attributes_initDescriptor :
    (initDescriptor base limit attr).attributes &&& 0xF0FF = attr &&& 0xF0FF := by
  ext i hi
  interval_cases i <;> simp [Descriptor.attributes, initDescriptor]

end

/-! ## The segments of the native processes -/

/-- The native processes run at 0. -/
def NativeFlat (k : Kernel) : Prop :=
  ∀ p : Pid, p.val < nrTasks + nrNativeProcs → ldtSegLinear (k.procTable p) indexLdtRw = 0

section

variable {s : MmState} {o : Option Halt} {L : MmLayout} {p pid : Pid} {child : Child} {k k' : Kernel}
  {f : Proc → Proc}

/-- `NativeFlat`, of MM's state. -/
def MmState.Flat (s : MmState) : Prop := NativeFlat s.kernel

theorem NativeFlat.of_marks (h : NativeFlat k)
    (hmarks : ∀ p, (k'.procTable p).mark = (k.procTable p).mark) : NativeFlat k' := fun p hp => by
  have hldts : (k'.procTable p).ldts = (k.procTable p).ldts := congrArg Mark.ldts (hmarks p)
  rw [ldtSegLinear, hldts]
  exact h p hp

theorem flat_onKernel {α : Type} {x : KM α} (h : Preserves NativeFlat x) :
    Preserves MmState.Flat (onKernel x) := fun s hs => wp_onKernel.mpr (h s.kernel hs)

/-- The entries of children are behind those of the native processes. -/
theorem flat_setChild : Preserves MmState.Flat (onKernel (setProc child.1 f)) := by
  refine flat_onKernel (.modify fun k hk p hp => ?_)
  have hne : p ≠ child.1 := fun h => absurd child.2 (by rw [← h]; omega)
  rw [Kernel.setProc_of_ne hne]
  exact hk p hp

theorem flat_setFields {la : Addr} {g : Message → Message} : Preserves MmState.Flat (setFields la g) :=
  flat_onKernel (.modify fun _ hk => hk)

theorem flat_mmSendrec {function i : Int} {m : Addr} :
    Preserves MmState.Flat (mmSendrec function i m) := by
  refine .bind (flat_onKernel fun k hk => ?_) fun _ => .pure _
  exact marks_sysSendrec.mono (fun _ _ h => hk.of_marks h) fun _ _ h => hk.of_marks h

theorem flat_goto {pc : MmPc} : Preserves MmState.Flat (goto pc) := .modify fun _ hs => hs

theorem flat_forkPc {src : Int} {pc : ForkPc} : Preserves MmState.Flat (pc.run L src) := by
  cases pc with
  | search =>
    refine .bind .get fun _ => ?_
    split
    · exact flat_goto
    · split
      · exact flat_goto
      · exact .throw _
  | copyEntry child =>
    exact .bind .get fun _ => .bind watched_procAt fun _ => .bind flat_setChild fun _ => flat_goto
  | nameEntry child pid =>
    refine .bind flat_setChild fun _ => .bind .get fun _ => ?_
    split
    · exact .throw _
    · exact .bind flat_setChild fun _ => flat_goto
  | allocMem child pid =>
    exact .bind .get fun _ => .bind watched_assert fun _ => .bind (.bind watched_assert fun _ =>
      .bind (.onlyIf (.throw _)) fun _ => .bind .get fun _ => .bind (.onlyIf (.throw _)) fun _ =>
      .pure _) fun _ => flat_goto
  | copyImage child pid base callerBase done size =>
    exact .ite flat_goto (.bind (.modify fun _ hs => hs) fun _ => flat_goto)
  | initCode child pid base => exact .bind flat_setChild fun _ => flat_goto
  | initData child pid base => exact .bind flat_setChild fun _ => flat_goto
  | sendFs child => exact .bind flat_setFields fun _ => .bind flat_mmSendrec fun _ => flat_goto
  | receiveFs child => exact .bind flat_mmSendrec fun _ => flat_goto
  | resume child =>
    exact .bind flat_setFields fun _ => .bind flat_setFields fun _ => .bind flat_mmSendrec fun _ =>
      flat_goto

theorem flat_mmPc {pc : MmPc} : Preserves MmState.Flat (pc.run L) := by
  cases pc with
  | receive => exact .bind flat_setFields fun _ => .bind flat_mmSendrec fun _ => flat_goto
  | dispatch => exact .bind .get fun _ => .bind watched_assert fun _ => flat_goto
  | fork src pc => exact flat_forkPc
  | reply src retval =>
    exact .bind flat_setFields fun _ => .bind flat_setFields fun _ => .bind flat_mmSendrec fun _ =>
      flat_goto

/-- No fork moves a native process. -/
theorem reached_nativeFlat (hr : (mmMachine L).Reached ValidMm s o) : NativeFlat s.kernel := by
  refine hr.invariant (I := fun s _ => s.Flat) (fun s hs => ?_) fun s e _ hs he => ?_
  · obtain ⟨kBase, kLimit, hk⟩ := hs.kernel
    intro p hp
    rw [hk.procTable]
    exact base_initProc hp _
  · refine exec_of_wp (P := fun (s : MmState) _ => s.Flat) ?_
    cases e with
    | kernel e =>
      refine flat_onKernel (fun k hk => ?_) s hs
      exact e.marks.mono (fun _ _ h => hk.of_marks h) fun _ _ h => hk.of_marks h
    | mm => exact Preserves.bind .get (fun _ => flat_mmPc) s hs

/-- In a run every address of a process is translated. -/
theorem reached_va2la (hr : (mmMachine L).Reached ValidMm s o) (va : Addr) :
    va2la pid va s.kernel = .ok (ldtSegLinear (s.kernel.procTable pid) indexLdtRw + va) s.kernel := by
  have hbase : ldtSegLinear (s.kernel.procTable pid) indexLdtRw = 0 ∨
      nrTasks + nrNativeProcs ≤ pid.val := by
    rcases Nat.lt_or_ge pid.val (nrTasks + nrNativeProcs) with h | h
    · exact .inl (reached_nativeFlat hr pid h)
    · exact .inr h
  have hwp : wp (va2la pid va)
      (fun la k => la = ldtSegLinear (s.kernel.procTable pid) indexLdtRw + va ∧ k = s.kernel)
      (fun _ _ => False) s.kernel := by
    rw [va2la, wp_bind, wp_get, wp_linear_of hbase]
    exact ⟨rfl, rfl⟩
  cases hx : va2la pid va s.kernel with
  | ok la k =>
    obtain ⟨rfl, rfl⟩ := (wp_of_ok hx).mp hwp
    rfl
  | error e k => exact ((wp_of_error hx).mp hwp).elim

end

/-- Everything but a limit of more than 16 bits is decoded: the macro's shift takes the upper bits. -/
theorem decodes_iff (base limit : BitVec 32) (attr : BitVec 16) (hlimit : limit.toNat < 2 ^ 20) :
    Decodes base limit attr ↔ limit.toNat < 2 ^ 16 := by
  constructor
  · intro h
    have hnat := congrArg BitVec.toNat h.reassembleLimit
    rw [toNat_reassembleLimit] at hnat
    omega
  · intro h
    refine ⟨fun p idx hd => ?_, fun gdt seg hd => ?_, ?_, ?_, attributes_initDescriptor,
      fun L s o hr pid va hd => ?_⟩
    · rw [ldtSegLinear, hd, base_initDescriptor]
    · rw [seg2linear, hd, base_initDescriptor]
    · rw [Descriptor.reassembleBase_eq, base_initDescriptor]
    · refine BitVec.eq_of_toNat_eq ?_
      rw [toNat_reassembleLimit, Nat.mod_eq_of_lt h]
    · rw [reached_va2la hr, ldtSegLinear, hd, base_initDescriptor]

theorem decodes_iff_child : Decodes 0xA00000 0xFF (userSegment daDrw) ↔ (0xFF : BitVec 32).toNat < 2 ^ 16 :=
  decodes_iff 0xA00000 0xFF (userSegment daDrw) (by decide)

/-- The limit of a flat segment comes out as its low half. -/
theorem not_decodes_flat : ¬Decodes 0 0xFFFFF (daCr ||| da32 ||| daLimit4k) := fun h =>
  absurd h.reassembleLimit (by decide)

end Dlos
