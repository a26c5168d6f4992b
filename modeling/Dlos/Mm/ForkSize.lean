import Dlos.Mm.ForkImage

/-!
# How much of the caller is copied

`do_fork` takes the image's size from the caller's code descriptor. `reassembly` shifts `0xF` where
the upper four bits of the limit are meant, so the size is that of the segment exactly when those
bits are zero.
-/

namespace Dlos

open Program

/-- The child's memory and the caller's segment have no byte in common. -/
def ImagesApart (child : Child) (callerBase : BitVec 32) (size : Nat) : Prop :=
  ∀ i < size, ∀ j < size, BitVec.ofNat 32 (childBase child.1) + BitVec.ofNat 32 i ≠
    callerBase + BitVec.ofNat 32 j

/-- The first `n` bytes of the segment are in the child's memory. -/
structure ImageCopied (s : MmState) (child : Child) (d : Descriptor) (n : Nat) (t : MmState) : Prop where
  moved : Copied t.moved child d n
  content : ImagesApart child d.base d.segmentSize → ∀ i < n,
    t.memory (BitVec.ofNat 32 (childBase child.1) + BitVec.ofNat 32 i).toNat =
      s.memory (d.base + BitVec.ofNat 32 i).toNat

/-- From the size in `do_fork` to the end of `phys_copy`, with whatever happens in between. -/
def copyMachine (L : MmLayout) (src : Int) (s : MmState) (child : Child) (pid : Pid) :
    Machine MmState MmEvent Halt where
  initial t := exec ((ForkPc.allocMem child pid).run L src) s = (t, none)
  step := (mmMachine L).step

/-- `phys_copy` has not returned. -/
def MmState.CopiesImage (src : Int) (child : Child) (pid : Pid) (s : MmState) : Prop :=
  ∃ base callerBase done size, s.pc = .fork src (.copyImage child pid base callerBase done size)

/-- The caller's whole segment is copied, or the fork refused. -/
structure ForksWhole (L : MmLayout) (src : Int) (s : MmState) (child : Child) (pid : Pid) : Prop where
  size : ((s.kernel.procTable pid).ldts indexLdtC).reassembleSize
    ((s.kernel.procTable pid).ldts indexLdtC).reassembleLimit =
      ((s.kernel.procTable pid).ldts indexLdtC).segmentSize
  copies : ∀ t o base, (copyMachine L src s child pid).Reached
    (fun t _ => t.CopiesImage src child pid) t o → t.pc = .fork src (.initCode child pid base) →
      ImageCopied s child ((s.kernel.procTable pid).ldts indexLdtC)
        ((s.kernel.procTable pid).ldts indexLdtC).segmentSize t
  refuses : procImageSizeDefault < ((s.kernel.procTable pid).ldts indexLdtC).segmentSize →
    (exec ((ForkPc.allocMem child pid).run L src) s).2 ≠ none

section

variable {L : MmLayout} {src : Int} {s t : MmState} {child : Child} {pid : Pid} {d : Descriptor}
  {n : Nat} {e : MmEvent} {o : Option Halt}

/-! ## The size -/

theorem Descriptor.granularity_pos : 0 < d.granularity := by
  rw [granularity]
  split <;> decide

theorem Descriptor.toNat_reassembleLimit : d.reassembleLimit.toNat = d.limitLow.toNat := by
  have := d.limitLow.isLt
  rw [reassembleLimit, masked_limit]
  simp
  omega

/-- The computed size is right for short segments only. -/
theorem Descriptor.reassembleSize_eq_iff :
    d.reassembleSize d.reassembleLimit = d.segmentSize ↔ d.Short := by
  refine ⟨fun h => ?_, Descriptor.reassembleSize_eq⟩
  rw [reassembleSize, toNat_reassembleLimit, segmentSize] at h
  have hlimit := Nat.eq_of_mul_eq_mul_right granularity_pos h
  have hhigh : (d.limitHighAttr2 &&& 0xF).toNat = 0 := by omega
  exact BitVec.eq_of_toNat_eq hhigh

/-- What is left behind by a size that `alloc_mem` accepts. -/
theorem wp_allocStep (E : Halt → MmState → Prop) (hE : ∀ e, E e s) :
    wp ((ForkPc.allocMem child pid).run L src) (fun _ t =>
      t = s.goto (.fork src (.copyImage child pid (BitVec.ofNat 32 (childBase child.1))
        ((s.kernel.procTable pid).ldts indexLdtC).base 0
        (((s.kernel.procTable pid).ldts indexLdtC).reassembleSize
          ((s.kernel.procTable pid).ldts indexLdtC).reassembleLimit))) ∧
      ((s.kernel.procTable pid).ldts indexLdtC).reassembleSize
        ((s.kernel.procTable pid).ldts indexLdtC).reassembleLimit ≤ procImageSizeDefault) E s := by
  simp only [ForkPc.run, wp_bind, wp_get, wp_assert]
  refine ⟨fun _ => wp_allocMem (fun _ => hE _) fun _ hsize _ => ?_, fun _ => hE _⟩
  rw [wp_goto, Descriptor.reassembleBase_eq]
  exact ⟨rfl, hsize⟩

/-! ## The loop of `phys_copy` -/

/-- What holds after `n` rounds; the caller's segment is as before if it is apart. -/
structure Rounds (s : MmState) (child : Child) (d : Descriptor) (n : Nat) (t : MmState) : Prop where
  copied : ImageCopied s child d n t
  source : ImagesApart child d.base d.segmentSize → ∀ i < d.segmentSize,
    t.memory (d.base + BitVec.ofNat 32 i).toNat = s.memory (d.base + BitVec.ofNat 32 i).toNat

theorem Rounds.zero (hmemory : t.memory = s.memory) : Rounds s child d 0 t where
  copied := ⟨fun i hi => absurd hi (Nat.not_lt_zero i), fun _ i hi => absurd hi (Nat.not_lt_zero i)⟩
  source _ i _ := by rw [hmemory]

theorem Rounds.congr {u : MmState} (h : Rounds s child d n t) (hmemory : u.memory = t.memory)
    (hmoved : u.moved = t.moved) : Rounds s child d n u where
  copied := by
    refine ⟨?_, ?_⟩
    · rw [hmoved]
      exact h.copied.moved
    · rw [hmemory]
      exact h.copied.content
  source := by
    rw [hmemory]
    exact h.source

/-- Different bytes of an image have different addresses. -/
theorem imageAddr_ne {base : BitVec 32} {i j : Nat} (hi : i < 2 ^ 32) (hj : j < 2 ^ 32) (hne : i ≠ j) :
    base + BitVec.ofNat 32 i ≠ base + BitVec.ofNat 32 j := by
  intro h
  have heq := congrArg BitVec.toNat (BitVec.add_right_inj base |>.mp h)
  rw [BitVec.toNat_ofNat, BitVec.toNat_ofNat, Nat.mod_eq_of_lt hi, Nat.mod_eq_of_lt hj] at heq
  exact hne heq

/-- One round copies one byte. -/
theorem Rounds.succ (h : Rounds s child d n t) (hn : n < d.segmentSize)
    (hsize : d.segmentSize < 2 ^ 32) {pc : MmPc} :
    Rounds s child d (n + 1) ((t.copyByte child (BitVec.ofNat 32 (childBase child.1) + BitVec.ofNat 32 n)
      (d.base + BitVec.ofNat 32 n)).goto pc) where
  copied := by
    refine ⟨h.copied.moved.succ rfl rfl, fun hapart i hi => ?_⟩
    change Function.update t.memory _ _ _ = _
    rcases Nat.lt_succ_iff_lt_or_eq.mp hi with hlt | rfl
    · rw [Function.update_of_ne, h.copied.content hapart i hlt]
      exact fun heq => imageAddr_ne (by omega) (by omega) hlt.ne (BitVec.eq_of_toNat_eq heq)
    · rw [Function.update_self, h.source hapart i hn]
  source hapart i hi := by
    change Function.update t.memory _ _ _ = _
    rw [Function.update_of_ne, h.source hapart i hi]
    exact fun heq => hapart n hn i hi (BitVec.eq_of_toNat_eq heq).symm

/-- A place in the loop, or just behind it. -/
def AtRound (src : Int) (s : MmState) (child : Child) (pid : Pid) (t : MmState) : Prop :=
  let d := (s.kernel.procTable pid).ldts indexLdtC
  ∃ n ≤ d.segmentSize, Rounds s child d n t ∧
    (t.pc = .fork src (.copyImage child pid (BitVec.ofNat 32 (childBase child.1)) d.base n d.segmentSize) ∨
      n = d.segmentSize ∧ t.pc = .fork src (.initCode child pid (BitVec.ofNat 32 (childBase child.1))))

/-- The kernel's steps do not move MM, and MM's own copies a byte or leaves the loop. -/
theorem AtRound.step (h : AtRound src s child pid t) (hcopies : t.CopiesImage src child pid)
    (hsize : ((s.kernel.procTable pid).ldts indexLdtC).segmentSize < 2 ^ 32) :
    AtRound src s child pid ((mmMachine L).step e t).1 := by
  obtain ⟨n, hn, hrounds, hpc⟩ := h
  refine exec_of_wp (P := fun t _ => AtRound src s child pid t) ?_
  cases e with
  | kernel e =>
    rw [MmEvent.run, wp_onKernel]
    exact wp_trivial.mono (fun _ k _ => ⟨n, hn, hrounds.congr rfl rfl, hpc⟩)
      fun _ k _ => ⟨n, hn, hrounds.congr rfl rfl, hpc⟩
  | mm =>
    obtain ⟨base, callerBase, done, size, hat⟩ := hcopies
    rcases hpc with hpc | ⟨-, hpc⟩
    · rw [MmEvent.run, wp_bind, wp_get, hpc, MmPc.run, ForkPc.run, wp_ite]
      refine ⟨fun hdone => ⟨n, hn, hrounds.congr rfl rfl, .inr ⟨hdone, rfl⟩⟩, fun hne => ⟨n + 1, by omega, hrounds.succ (by omega) hsize, .inl rfl⟩⟩
    · rw [hpc] at hat
      cases hat

/-- The loop starts with the size of a short segment, if that is accepted. -/
theorem copyMachine_initial (hshort : ((s.kernel.procTable pid).ldts indexLdtC).Short)
    (h : (copyMachine L src s child pid).initial t) :
    t = s.goto (.fork src (.copyImage child pid (BitVec.ofNat 32 (childBase child.1))
      ((s.kernel.procTable pid).ldts indexLdtC).base 0
      ((s.kernel.procTable pid).ldts indexLdtC).segmentSize)) ∧
    ((s.kernel.procTable pid).ldts indexLdtC).segmentSize ≤ procImageSizeDefault := by
  have hok := ok_of_exec (congrArg Prod.snd h)
  have hwp := (wp_of_ok hok).mp (wp_allocStep (fun _ _ => True) fun _ => trivial)
  rw [Descriptor.reassembleSize_eq hshort] at hwp
  rwa [show (exec ((ForkPc.allocMem child pid).run L src) s).1 = t from congrArg Prod.fst h] at hwp

theorem reached_atRound (hshort : ((s.kernel.procTable pid).ldts indexLdtC).Short)
    (hr : (copyMachine L src s child pid).Reached (fun t _ => t.CopiesImage src child pid) t o) :
    AtRound src s child pid t ∧ ((s.kernel.procTable pid).ldts indexLdtC).segmentSize < 2 ^ 32 := by
  refine hr.invariant (I := fun t _ => AtRound src s child pid t ∧
    ((s.kernel.procTable pid).ldts indexLdtC).segmentSize < 2 ^ 32) (fun t h => ?_) ?_
  · obtain ⟨rfl, hsize⟩ := copyMachine_initial hshort h
    exact ⟨⟨0, Nat.zero_le _, .zero rfl, .inl rfl⟩, hsize.trans_lt (by decide)⟩
  · rintro t e - ⟨h, hsize⟩ hcopies
    exact ⟨h.step hcopies hsize, hsize⟩

/-- `do_fork` copies the whole segment or refuses exactly for short segments. -/
theorem forksWhole_iff (L : MmLayout) (src : Int) (s : MmState) (child : Child) (pid : Pid) :
    ForksWhole L src s child pid ↔ ((s.kernel.procTable pid).ldts indexLdtC).Short := by
  refine ⟨fun h => Descriptor.reassembleSize_eq_iff.mp h.size, fun hshort => ?_⟩
  have hsize := Descriptor.reassembleSize_eq hshort
  refine ⟨hsize, fun t o base hr hpc => ?_, fun hlarge hnone => ?_⟩
  · obtain ⟨n, -, hrounds, hat | ⟨rfl, -⟩⟩ := (reached_atRound hshort hr).1
    · rw [hpc] at hat
      cases hat
    · exact hrounds.copied
  · have hinit : (copyMachine L src s child pid).initial _ := Prod.ext rfl hnone
    exact absurd hlarge (Nat.not_lt.mpr (copyMachine_initial hshort hinit).2)

/-- TestA has a flat segment. -/
theorem not_forksWhole_testA : ¬ ∀ (L : MmLayout) (src : Int) (s : MmState) (child : Child) (pid : Pid),
    ForksWhole L src s child pid := by
  intro h
  have hsize := (h .low 6 .begin ⟨9, by decide⟩ 6).size
  exact absurd hsize (by decide +kernel)

end

end Dlos
