import Dlos.Include.Fs
import Dlos.Mm.ForkSize

/-!
# The segments of children

`alloc_mem` asks whether the caller's image fits below the end of the memory, and `do_fork` then
gives the child a segment of the fixed size. In runs where there is room for that size the segments
of all children are memory of their own.
-/

namespace Dlos

open Program

/-- A byte of a segment. -/
def Descriptor.Contains (d : Descriptor) (a : Nat) : Prop :=
  d.base.toNat ≤ a ∧ a < d.base.toNat + d.segmentSize

/-- `phys_copy` has copied for the child, and its entry is not in the making. -/
def MmState.Forked (s : MmState) (child : Child) : Prop :=
  (∃ m ∈ s.moved, m.child = child) ∧ s.pc.making ≠ some child

/-- A byte of one of the child's segments. -/
def MmState.Owns (s : MmState) (child : Child) (a : Nat) : Prop :=
  ∃ idx, ((s.kernel.procTable child.1).ldts idx).Contains a

/-- The segments of children are memory, and nobody else's. -/
structure SegmentsPrivate (s : MmState) : Prop where
  whole : ∀ child, s.Forked child → ∀ idx,
    ((s.kernel.procTable child.1).ldts idx).segmentSize = procImageSizeDefault
  memory : ∀ child a, s.Forked child → s.Owns child a → (a : Int) < s.memorySize
  native : ∀ child a, s.Forked child → s.Owns child a → procsBase ≤ a
  buffer : ∀ child a, s.Forked child → s.Owns child a → a < fsbuf ∨ fsbuf + fsbufSize ≤ a
  unique : ∀ child other a, s.Forked child → s.Forked other → s.Owns child a → s.Owns other a →
    child = other

/-- There is memory for a whole segment, if there is for the caller's image. -/
def ForkPc.Roomy (s : MmState) : ForkPc → Prop
  | allocMem child pid =>
    (childBase child.1 + ((s.kernel.procTable pid).ldts indexLdtC).reassembleSize
      ((s.kernel.procTable pid).ldts indexLdtC).reassembleLimit : Nat) < s.memorySize →
    (childBase child.1 + procImageSizeDefault : Nat) ≤ s.memorySize
  | _ => True

def MmPc.Roomy (s : MmState) : MmPc → Prop
  | fork _ pc => pc.Roomy s
  | _ => True

def MmEvent.Roomy (s : MmState) : MmEvent → Prop
  | kernel _ => True
  | mm => s.pc.Roomy s

/-- A valid step, and if it is one of a fork, one with room. -/
def RoomyMm (s : MmState) (e : MmEvent) : Prop := ValidMm s e ∧ e.Roomy s

/-! ## The invariant -/

/-- What `init_descriptor` makes of the child's base. -/
def childSegment (child : Child) (idx : Fin 2) : Descriptor :=
  initDescriptor (BitVec.ofNat 32 (childBase child.1))
    (BitVec.ofNat 32 ((procImageSizeDefault - 1) >>> limit4kShift))
    (userSegment (if idx = indexLdtC then daC else daDrw))

/-- The child's segments are as `do_fork` makes them, and there is memory for them. -/
structure MmState.Installed (s : MmState) (child : Child) : Prop where
  segments : ∀ idx, (s.kernel.procTable child.1).ldts idx = childSegment child idx
  room : (childBase child.1 + procImageSizeDefault : Nat) ≤ s.memorySize

/-- What is known about the child in the making once its memory is chosen. -/
def ForkPc.Placed (s : MmState) : ForkPc → Prop
  | copyImage child _ base _ _ _ => base = BitVec.ofNat 32 (childBase child.1) ∧
    (childBase child.1 + procImageSizeDefault : Nat) ≤ s.memorySize
  | initCode child _ base => base = BitVec.ofNat 32 (childBase child.1) ∧
    (childBase child.1 + procImageSizeDefault : Nat) ≤ s.memorySize
  | initData child _ base => base = BitVec.ofNat 32 (childBase child.1) ∧
    (childBase child.1 + procImageSizeDefault : Nat) ≤ s.memorySize ∧
    (s.kernel.procTable child.1).ldts indexLdtC = childSegment child indexLdtC
  | _ => True

def MmPc.Placed (s : MmState) : MmPc → Prop
  | fork _ pc => pc.Placed s
  | _ => True

structure MmState.Segmented (s : MmState) : Prop where
  installed : ∀ child, s.Forked child → s.Installed child
  placed : s.pc.Placed s

section

variable {s t : MmState} {child c : Child} {pid : Pid} {idx : Fin 2} {L : MmLayout} {src : Int}
  {a : Nat} {k : Kernel} {o : Option Halt}

/-! ## Segments -/

theorem childBase_le (child : Child) :
    procsBase ≤ childBase child.1 ∧ childBase child.1 + procImageSizeDefault < 2 ^ 32 := by
  have hlt : child.1.val < 37 := child.1.isLt
  change 0xA00000 ≤ 0xA00000 + (child.1.val - 9) * 0x100000 ∧
    0xA00000 + (child.1.val - 9) * 0x100000 + 0x100000 < 2 ^ 32
  omega

theorem childSegment_base : (childSegment child idx).base.toNat = childBase child.1 := by
  have hlt := (childBase_le child).2
  rw [childSegment, base_initDescriptor, BitVec.toNat_ofNat, Nat.mod_eq_of_lt (by omega)]

theorem childSegment_limit : (childSegment child idx).limitLow = 0xFF := by
  rw [childSegment, limitLow_initDescriptor]
  decide +kernel

theorem childSegment_attr2 : (childSegment child idx).limitHighAttr2 = 0xC0 := by
  rw [childSegment, limitHighAttr2_initDescriptor]
  revert idx
  decide +kernel

theorem childSegment_size : (childSegment child idx).segmentSize = procImageSizeDefault := by
  rw [Descriptor.segmentSize, Descriptor.granularity, childSegment_limit, childSegment_attr2]
  decide +kernel

/-- The child's segments are its megabyte. -/
theorem owns_iff (h : ∀ idx, (s.kernel.procTable child.1).ldts idx = childSegment child idx) :
    s.Owns child a ↔ childBase child.1 ≤ a ∧ a < childBase child.1 + procImageSizeDefault := by
  simp only [MmState.Owns, Descriptor.Contains, h, childSegment_base, childSegment_size, exists_const]

/-- The megabytes of different children are different. -/
theorem childBase_unique (hc : childBase child.1 ≤ a ∧ a < childBase child.1 + procImageSizeDefault)
    (hd : childBase c.1 ≤ a ∧ a < childBase c.1 + procImageSizeDefault) : child = c := by
  have hchild : 9 ≤ child.1.val := child.2
  have hother : 9 ≤ c.1.val := c.2
  change 0xA00000 + (child.1.val - 9) * 0x100000 ≤ a ∧
    a < 0xA00000 + (child.1.val - 9) * 0x100000 + 0x100000 at hc
  change 0xA00000 + (c.1.val - 9) * 0x100000 ≤ a ∧
    a < 0xA00000 + (c.1.val - 9) * 0x100000 + 0x100000 at hd
  exact Subtype.ext (Fin.ext (by omega))

theorem MmState.Segmented.segmentsPrivate (h : s.Segmented) : SegmentsPrivate s where
  whole child hforked idx := by
    rw [(h.installed child hforked).segments, childSegment_size]
  memory child a hforked howns := by
    have hinstalled := h.installed child hforked
    have hlt := ((owns_iff hinstalled.segments).mp howns).2
    have hroom := hinstalled.room
    omega
  native child a hforked howns :=
    (childBase_le child).1.trans ((owns_iff (h.installed child hforked).segments).mp howns).1
  buffer child a hforked howns := by
    have hle := (childBase_le child).1.trans ((owns_iff (h.installed child hforked).segments).mp howns).1
    exact .inr (le_trans (by decide) hle)
  unique child other a hforked hother howns howns' :=
    childBase_unique ((owns_iff (h.installed child hforked).segments).mp howns)
      ((owns_iff (h.installed other hother).segments).mp howns')

/-! ## Steps -/

theorem Proc.printName_ldts {p entry : Proc} {text : String} (h : p.printName text = some entry) :
    entry.ldts = p.ldts := by
  rw [printName] at h
  split_ifs at h
  · rw [← Option.some.inj h]
  · simp only [] at h
    split_ifs at h
    rw [← Option.some.inj h]

theorem ldts_of_marks {k k' : Kernel} (h : ∀ p, (k'.procTable p).mark = (k.procTable p).mark) (p : Pid) :
    (k'.procTable p).ldts = (k.procTable p).ldts := congrArg Mark.ldts (h p)

theorem MmPc.Placed.congr {pc : MmPc} (h : pc.Placed s) (hmemory : t.memorySize = s.memorySize)
    (hldts : ∀ p, (t.kernel.procTable p).ldts = (s.kernel.procTable p).ldts) : pc.Placed t := by
  cases pc with
  | fork src pc =>
    cases pc with
    | copyImage child pid base callerBase done size =>
      change _ ∧ _ at h ⊢
      rwa [hmemory]
    | initCode child pid base =>
      change _ ∧ _ at h ⊢
      rwa [hmemory]
    | initData child pid base =>
      change _ ∧ _ ∧ _ at h ⊢
      rwa [hmemory, hldts]
    | _ => trivial
  | _ => trivial

/-- Steps that leave the segments alone, and finish no child. -/
theorem MmState.Segmented.next (h : s.Segmented) (hmemory : t.memorySize = s.memorySize)
    (hldts : ∀ p, (t.kernel.procTable p).ldts = (s.kernel.procTable p).ldts)
    (hforked : ∀ child, t.Forked child → s.Forked child) (hplaced : t.pc.Placed t) : t.Segmented where
  installed child hc := by
    obtain ⟨hsegments, hroom⟩ := h.installed child (hforked child hc)
    refine ⟨fun idx => ?_, ?_⟩
    · rw [hldts]
      exact hsegments idx
    · rwa [hmemory]
  placed := hplaced

theorem MmState.Segmented.withKernel (h : s.Segmented)
    (hmarks : ∀ p, (k.procTable p).mark = (s.kernel.procTable p).mark) :
    MmState.Segmented { s with kernel := k } :=
  h.next rfl (ldts_of_marks hmarks) (fun _ hc => hc) (h.placed.congr rfl (ldts_of_marks hmarks))

/-- A call of MM when no child is in the making. -/
theorem wp_mmSendrec_segmented {function i : Int} {la : Addr} {pc : MmPc} (h : s.Segmented)
    (hnone : s.pc.making = none) (hplaced : ∀ t, pc.Placed t) :
    wp (do
      mmSendrec function i la
      goto pc) (fun _ => MmState.Segmented) (fun _ => MmState.Segmented) s := by
  rw [wp_bind, mmSendrec, wp_bind, wp_onKernel]
  refine marks_sysSendrec.mono (fun _ k hk => ?_) fun _ k hk => h.withKernel hk
  refine h.next rfl (ldts_of_marks hk) (fun child hc => ⟨hc.1, ?_⟩) (hplaced _)
  simp [hnone]

/-- One of the child's descriptors is made. -/
theorem wp_initSegment_segmented (h : s.Segmented) {next : ForkPc} {base : BitVec 32}
    (hmaking : s.pc.making = some child) (hbase : base = BitVec.ofNat 32 (childBase child.1))
    (hnext : ∀ x, (MmPc.fork src next).making = some x → x = child)
    (hplaced : ∀ t : MmState, t.memorySize = s.memorySize → (t.kernel.procTable child.1).ldts =
      Function.update (s.kernel.procTable child.1).ldts idx (childSegment child idx) →
      next.Placed t ∧ ((MmPc.fork src next).making = none → t.Installed child)) :
    wp (do
      initSegment child idx base
      goto (.fork src next)) (fun _ => MmState.Segmented) (fun _ => MmState.Segmented) s := by
  rw [wp_bind, wp_initSegment, wp_goto, hbase]
  have hnew := hplaced (MmState.goto { s with kernel := s.kernel.setProc child.1 fun p => { p with
    ldts := Function.update p.ldts idx (childSegment child idx) } } (.fork src next)) rfl
    (by simp [MmState.goto])
  refine ⟨fun c hc => ?_, hnew.1⟩
  by_cases hcc : c = child
  · subst hcc
    cases hdone : (MmPc.fork src next).making with
    | none => exact hnew.2 hdone
    | some x =>
      obtain rfl := hnext x hdone
      exact absurd hdone hc.2
  · have hcc' : c.1 ≠ child.1 := fun h => hcc (Subtype.ext h)
    have hother := h.installed c ⟨hc.1, by rw [hmaking]; exact fun h => hcc (Option.some.inj h).symm⟩
    refine ⟨fun i => ?_, hother.room⟩
    simpa [MmState.goto, hcc'] using hother.segments i

theorem wp_forkPc_segmented (h : s.Segmented) {pc : ForkPc} (hpc : s.pc = .fork src pc)
    (hroom : pc.Roomy s) :
    wp (pc.run L src) (fun _ => MmState.Segmented) (fun _ => MmState.Segmented) s := by
  have hplaced : pc.Placed s := by
    have := h.placed
    rwa [hpc] at this
  cases pc with
  | search =>
    have hnone : s.pc.making = none := by rw [hpc]; rfl
    rw [ForkPc.run, wp_bind, wp_get]
    cases freeEntry s.kernel.procTable with
    | none => exact h.next rfl (fun _ => rfl) (fun c hc => ⟨hc.1, by simp [hnone]⟩) trivial
    | some c =>
      simp only []
      split
      · exact h.next rfl (fun _ => rfl) (fun c hc => ⟨hc.1, by simp [hnone]⟩) trivial
      · exact h
  | copyEntry child =>
    rw [ForkPc.run, wp_bind, wp_get, wp_bind, procAt]
    cases pidOf (s.kernel.msgs L.mmMsg).source with
    | none => exact h
    | some pid =>
      rw [wp_pure, wp_bind, wp_onKernel, wp_setProc, wp_goto]
      refine ⟨fun c hc => ?_, trivial⟩
      have hcc : c ≠ child := by
        rintro rfl
        exact hc.2 rfl
      have hcc' : c.1 ≠ child.1 := fun h => hcc (Subtype.ext h)
      have hother := h.installed c ⟨hc.1, by simp [hpc, MmPc.making]⟩
      refine ⟨fun i => ?_, hother.room⟩
      simpa [MmState.goto, hcc'] using hother.segments i
  | nameEntry child pid =>
    have hkeeps (t : MmState) (hmemory : t.memorySize = s.memorySize) (hmoved : t.moved = s.moved)
        (hldts : ∀ p, (t.kernel.procTable p).ldts = (s.kernel.procTable p).ldts)
        (hmaking : t.pc.making = some child) (hnext : t.pc.Placed t) : t.Segmented := by
      refine h.next hmemory hldts (fun c hc => ?_) hnext
      rw [MmState.Forked, hmoved, hmaking] at hc
      exact ⟨hc.1, by rw [hpc]; exact hc.2⟩
    have hparent (p : Pid) : ((s.kernel.setProc child.1 ({ · with pParent := pid.val })).procTable p).ldts =
        (s.kernel.procTable p).ldts := by
      by_cases hp : p = child.1
      · subst hp; simp
      · simp [hp]
    rw [ForkPc.run, wp_bind, wp_onKernel, wp_setProc, wp_bind, wp_get]
    simp only []
    split
    · exact hkeeps _ rfl rfl hparent (by rw [hpc]; rfl) (by rw [hpc]; trivial)
    · rename_i entry hentry
      obtain ⟨name, -, hprint⟩ := Option.bind_eq_some_iff.mp hentry
      rw [wp_bind, wp_onKernel, wp_setProc, wp_goto]
      refine hkeeps _ rfl rfl (fun p => ?_) rfl trivial
      rw [← hparent p]
      by_cases hp : p = child.1
      · subst hp
        simpa [MmState.goto] using Proc.printName_ldts hprint
      · simp [MmState.goto, hp]
  | allocMem child pid =>
    simp only [ForkPc.run, wp_bind, wp_get, wp_assert]
    refine ⟨fun _ => wp_allocMem (fun _ => h) fun _ _ hfits => ?_, fun _ => h⟩
    exact h.next rfl (fun _ => rfl) (fun c hc => ⟨hc.1, by rw [hpc]; exact hc.2⟩) ⟨rfl, hroom hfits⟩
  | copyImage child pid base callerBase done size =>
    rw [ForkPc.run, wp_ite]
    refine ⟨fun hdone => ?_, fun _ => ?_⟩
    · exact h.next rfl (fun _ => rfl) (fun c hc => ⟨hc.1, by rw [hpc]; exact hc.2⟩) hplaced
    · refine h.next rfl (fun _ => rfl) (fun c hc => ?_) hplaced
      have hcc : child ≠ c := fun heq => hc.2 (congrArg some heq)
      obtain ⟨⟨m, hm, hmc⟩, hmaking⟩ := hc
      rcases List.mem_cons.mp hm with rfl | hm
      · exact absurd hmc hcc
      · exact ⟨⟨m, hm, hmc⟩, by rw [hpc]; exact hmaking⟩
  | initCode child pid base =>
    obtain ⟨hbase, hroom⟩ := hplaced
    refine wp_initSegment_segmented h (by rw [hpc]; rfl) hbase (fun x hx => (Option.some.inj hx).symm)
      fun t hmemory hldts => ⟨⟨hbase, ?_, ?_⟩, fun hx => by cases hx⟩
    · rwa [hmemory]
    · rw [hldts, Function.update_self]
  | initData child pid base =>
    obtain ⟨hbase, hroom, hcode⟩ := hplaced
    refine wp_initSegment_segmented h (by rw [hpc]; rfl) hbase (fun _ hx => by cases hx)
      fun t hmemory hldts => ⟨trivial, fun _ => ⟨?_, ?_⟩⟩
    · intro idx
      by_cases hidx : idx = indexLdtRw
      · rw [hldts, hidx, Function.update_self]
      · have hidx' : idx = indexLdtC :=
          (by decide : ∀ i : Fin 2, i ≠ indexLdtRw → i = indexLdtC) idx hidx
        rw [hldts, Function.update_of_ne hidx, hidx', hcode]
    · rwa [hmemory]
  | sendFs child =>
    have hnone : s.pc.making = none := by rw [hpc]; rfl
    rw [ForkPc.run, wp_bind, wp_setFields]
    exact wp_mmSendrec_segmented (h.withKernel fun _ => rfl) hnone fun _ => trivial
  | receiveFs child => exact wp_mmSendrec_segmented h (by rw [hpc]; rfl) fun _ => trivial
  | resume child =>
    have hnone : s.pc.making = none := by rw [hpc]; rfl
    rw [ForkPc.run, wp_bind, wp_setFields, wp_bind, wp_setFields]
    exact wp_mmSendrec_segmented (h.withKernel fun _ => rfl) hnone fun _ => trivial

theorem wp_mmPc_segmented (h : s.Segmented) (hroom : s.pc.Roomy s) :
    wp (s.pc.run L) (fun _ => MmState.Segmented) (fun _ => MmState.Segmented) s := by
  cases hpc : s.pc with
  | receive =>
    have hnone : s.pc.making = none := by rw [hpc]; rfl
    rw [MmPc.run, wp_bind, wp_setFields]
    exact wp_mmSendrec_segmented (h.withKernel fun _ => rfl) hnone fun _ => trivial
  | dispatch =>
    rw [MmPc.run, wp_bind, wp_get, wp_bind, wp_assert]
    refine ⟨fun _ => h.next rfl (fun _ => rfl) (fun c hc => ⟨hc.1, ?_⟩) trivial, fun _ => h⟩
    simp [hpc, MmPc.making]
  | fork src pc =>
    rw [hpc] at hroom
    exact wp_forkPc_segmented h hpc hroom
  | reply src retval =>
    have hnone : s.pc.making = none := by rw [hpc]; rfl
    rw [MmPc.run, wp_bind, wp_setFields, wp_bind, wp_setFields]
    exact wp_mmSendrec_segmented (h.withKernel fun _ => rfl) hnone fun _ => trivial

/-! ## Runs -/

theorem MmState.Initial.segmented (h : s.Initial) : s.Segmented where
  installed child hc := by
    obtain ⟨⟨m, hm, -⟩, -⟩ := hc
    rw [h.moved] at hm
    exact absurd hm List.not_mem_nil
  placed := by
    rw [h.pc]
    trivial

@[simp] theorem MmState.goto_memorySize {pc : MmPc} : (s.goto pc).memorySize = s.memorySize := rfl

/-- `phys_copy` without anything in between. -/
def MmState.copyBytes (s : MmState) (child : Child) (dst src : BitVec 32) : Nat → MmState
  | 0 => s
  | n + 1 => { s with
    memory := ((s.copyBytes child dst src n).copyByte child (dst + BitVec.ofNat 32 n)
      (src + BitVec.ofNat 32 n)).memory
    moved := ((s.copyBytes child dst src n).copyByte child (dst + BitVec.ofNat 32 n)
      (src + BitVec.ofNat 32 n)).moved }

@[simp] theorem copyBytes_kernel {dst src : BitVec 32} {n : Nat} :
    (s.copyBytes child dst src n).kernel = s.kernel := by
  cases n <;> rfl

@[simp] theorem copyBytes_memorySize {dst src : BitVec 32} {n : Nat} :
    (s.copyBytes child dst src n).memorySize = s.memorySize := by
  cases n <;> rfl

theorem copyBytes_moved {dst src : BitVec 32} {n : Nat} (hn : 0 < n) :
    ∃ m ∈ (s.copyBytes child dst src n).moved, m.child = child := by
  cases n with
  | zero => exact absurd hn (Nat.lt_irrefl 0)
  | succ n => exact ⟨_, List.mem_cons_self, rfl⟩

/-- What MM does next, from what its program does. -/
theorem mm_step (h : wp (s.pc.run L) (fun _ u => u = t) (fun _ _ => False) s) :
    (mmMachine L).step .mm s = (t, none) := by
  refine exec_of_wp (P := fun u r => (u, r) = (t, none)) ?_
  rw [MmEvent.run, wp_bind, wp_get]
  exact h.mono (fun _ _ hu => by rw [hu]) fun _ _ hu => hu.elim

theorem reached_mm (hr : (mmMachine L).Reached ValidMm s none) (hready : s.kernel.pProcReady = taskMm)
    (h : wp (s.pc.run L) (fun _ u => u = t) (fun _ _ => False) s) :
    (mmMachine L).Reached ValidMm t none := by
  have hnext := hr.step (show ValidMm s .mm from hready)
  rwa [mm_step h] at hnext

/-- MM copies the whole image. -/
theorem reached_copied {base callerBase : BitVec 32} {size : Nat}
    (hr : (mmMachine L).Reached ValidMm s none) (hready : s.kernel.pProcReady = taskMm)
    (hpc : s.pc = .fork src (.copyImage child pid base callerBase 0 size)) :
    (mmMachine L).Reached ValidMm ((s.copyBytes child base callerBase size).goto
      (.fork src (.initCode child pid base))) none := by
  have hmm (n : Nat) : (s.copyBytes child base callerBase n).kernel.pProcReady = taskMm := by
    rw [copyBytes_kernel, hready]
  have hround (n : Nat) (hn : n ≤ size) : (mmMachine L).Reached ValidMm
      ((s.copyBytes child base callerBase n).goto
        (.fork src (.copyImage child pid base callerBase n size))) none := by
    induction n with
    | zero =>
      rw [← hpc]
      exact hr
    | succ n ih =>
      refine reached_mm (ih (by omega)) (hmm n) ?_
      change wp ((ForkPc.copyImage child pid base callerBase n size).run L src) _ _ _
      rw [ForkPc.run, if_neg (by omega), wp_bind, wp_modify, wp_goto]
      cases n <;> rfl
  refine reached_mm (hround size le_rfl) (hmm size) ?_
  change wp ((ForkPc.copyImage child pid base callerBase size size).run L src) _ _ _
  rw [ForkPc.run, if_pos rfl, wp_goto]
  rfl

/-- MM makes the child's segments. -/
theorem reached_installed (hr : (mmMachine L).Reached ValidMm s none)
    (hready : s.kernel.pProcReady = taskMm)
    (hpc : s.pc = .fork src (.initCode child pid (BitVec.ofNat 32 (childBase child.1)))) :
    ∃ t, (mmMachine L).Reached ValidMm t none ∧ t.pc = .fork src (.sendFs child) ∧
      t.moved = s.moved ∧ t.memorySize = s.memorySize ∧
      ∀ idx, (t.kernel.procTable child.1).ldts idx = childSegment child idx := by
  have hcode := reached_mm (L := L) hr hready (by
    rw [hpc]
    change wp ((ForkPc.initCode child pid _).run L src) _ _ _
    rw [ForkPc.run, wp_bind, wp_initSegment, wp_goto])
  have hdata := reached_mm (L := L) hcode hready (by
    change wp ((ForkPc.initData child pid _).run L src) _ _ _
    rw [ForkPc.run, wp_bind, wp_initSegment, wp_goto])
  refine ⟨_, hdata, rfl, rfl, rfl, fun idx => ?_⟩
  rcases (by decide : ∀ i : Fin 2, i = indexLdtC ∨ i = indexLdtRw) idx with rfl | rfl
  · simp [MmState.goto, childSegment]
  · simp [MmState.goto, childSegment]

/-- MM finishes the child, once `alloc_mem` has accepted its size. -/
theorem reached_forked {callerBase : BitVec 32} {size : Nat} (hpos : 0 < size)
    (hr : (mmMachine L).Reached ValidMm s none) (hready : s.kernel.pProcReady = taskMm)
    (hpc : s.pc = .fork src
      (.copyImage child pid (BitVec.ofNat 32 (childBase child.1)) callerBase 0 size)) :
    ∃ t, (mmMachine L).Reached ValidMm t none ∧ t.Forked child ∧ t.memorySize = s.memorySize ∧
      ∀ idx, (t.kernel.procTable child.1).ldts idx = childSegment child idx := by
  have hmm : (s.copyBytes child (BitVec.ofNat 32 (childBase child.1)) callerBase size).kernel.pProcReady =
      taskMm := by rw [copyBytes_kernel, hready]
  obtain ⟨t, ht, htpc, hmoved, htmemory, hsegments⟩ :=
    reached_installed (reached_copied hr hready hpc) hmm rfl
  refine ⟨t, ht, ⟨?_, by simp [htpc, MmPc.making]⟩, ?_, hsegments⟩
  · rw [hmoved]
    exact copyBytes_moved hpos
  · rw [htmemory, MmState.goto_memorySize, copyBytes_memorySize]

end

/-- 10.5 MB of memory. -/
def MmState.cramped : MmState := { MmState.begin with memorySize := 0xA80000 }

theorem MmState.cramped_initial : MmState.cramped.Initial :=
  ⟨MmState.begin_initial.kernel, rfl, rfl⟩

end Dlos
