import Dlos.Kernel.Watch
import Dlos.Mm.ForkExit

/-!
# A child runs in its own memory

From the copy of the parent's entry to the last `init_descriptor` the child must not run. It does
not if the copied entry waits for a message of MM, which then is the only one to wake it: so the
parent has to be in the RECEIVE of its `send_recv` when its entry is copied. Each place of
`do_fork` has its own facts about the child (`ForkPc.Stage`).
-/

namespace Dlos

open Program

/-- The bytes of a segment: its whole limit and one, times the unit. -/
def Descriptor.segmentSize (d : Descriptor) : Nat :=
  ((d.limitHighAttr2 &&& 0xF).toNat * 65536 + d.limitLow.toNat + 1) * d.granularity

/-- The first `n` bytes of a segment have been copied to the child's base. -/
def Copied (moved : List Moved) (child : Child) (d : Descriptor) (n : Nat) : Prop :=
  ∀ i < n, ⟨child, BitVec.ofNat 32 (childBase child.1) + BitVec.ofNat 32 i,
    d.base + BitVec.ofNat 32 i⟩ ∈ moved

/-- A child has its own segments, and the whole image of its parent. -/
structure ChildReady (s : MmState) (child : Child) : Prop where
  segments : ∀ idx, ((s.kernel.procTable child.1).ldts idx).base =
    BitVec.ofNat 32 (childBase child.1)
  image : ∃ pid : Pid, (s.kernel.procTable child.1).pParent = pid.val ∧
    Copied s.moved child ((s.kernel.procTable pid).ldts indexLdtC)
      ((s.kernel.procTable pid).ldts indexLdtC).segmentSize

/-- Every child that may run is ready. -/
def MmState.ChildrenReady (s : MmState) : Prop :=
  ∀ child : Child, (s.kernel.procTable child.1).pFlags ≠ freeSlot →
    (s.kernel.procTable child.1).pFlags = 0 → ChildReady s child

/-- The limit of a segment is in `limit_low` alone. -/
def Descriptor.Short (d : Descriptor) : Prop := d.limitHighAttr2 &&& 0xF = 0

/-- The parent is in the RECEIVE that follows its FORK, and its image is short; and the child's
name fits. -/
def ForkPc.Awaited (L : MmLayout) (k : Kernel) : ForkPc → Prop
  | copyEntry _ => ∀ pid, pidOf (k.msgs L.mmMsg).source = some pid →
      (k.procTable pid).AwaitsMm ∧ ((k.procTable pid).ldts indexLdtC).Short
  | nameEntry child pid => (childName (k.procTable pid).name child).length < nameSize
  | _ => True

def MmPc.Awaited (L : MmLayout) (k : Kernel) : MmPc → Prop
  | fork _ pc => pc.Awaited L k
  | _ => True

def MmEvent.Awaited (L : MmLayout) (s : MmState) : MmEvent → Prop
  | kernel _ => True
  | mm => s.pc.Awaited L s.kernel

/-- A valid step, and if it is one of a fork, one for a parent that waits. -/
def AwaitedEvent (L : MmLayout) (s : MmState) (e : MmEvent) : Prop :=
  ValidMm s e ∧ e.Awaited L s

/-! ## The invariant -/

/-- The child whose entry is being made. -/
def MmPc.making : MmPc → Option Child
  | fork _ (.nameEntry child _) => some child
  | fork _ (.allocMem child _) => some child
  | fork _ (.copyImage child _ _ _ _ _) => some child
  | fork _ (.initCode child _ _) => some child
  | fork _ (.initData child _ _) => some child
  | _ => none

/-- A process in use, and not a child in the making. -/
structure Grown (v : Pid → Mark) (making : Option Child) (pid : Pid) : Prop where
  used : (v pid).free = 0
  made : ∀ child, making = some child → pid ≠ child.1

/-- What `ChildReady` says, from the marks. -/
structure Settled (v : Pid → Mark) (making : Option Child) (moved : List Moved) (child : Child) :
    Prop where
  segments : ∀ idx, ((v child.1).ldts idx).base = BitVec.ofNat 32 (childBase child.1)
  image : ∃ pid : Pid, (v child.1).pParent = pid.val ∧ Grown v making pid ∧
    Copied moved child ((v pid).ldts indexLdtC) ((v pid).ldts indexLdtC).segmentSize

/-- The child in the making and its parent. -/
structure Related (v : Pid → Mark) (child : Child) (pid : Pid) : Prop where
  parent : (v child.1).pParent = pid.val
  grown : Grown v (some child) pid

/-- What the steps up to a place of `do_fork` have done. -/
def ForkPc.Stage (v : Pid → Mark) (moved : List Moved) : ForkPc → Prop
  | nameEntry child pid => Grown v (some child) pid ∧ ((v pid).ldts indexLdtC).Short
  | allocMem child pid => Related v child pid ∧ ((v pid).ldts indexLdtC).Short
  | copyImage child pid base callerBase done size =>
    Related v child pid ∧ base = BitVec.ofNat 32 (childBase child.1) ∧
      callerBase = ((v pid).ldts indexLdtC).base ∧
      size = ((v pid).ldts indexLdtC).segmentSize ∧
      Copied moved child ((v pid).ldts indexLdtC) done
  | initCode child pid base =>
    Related v child pid ∧ base = BitVec.ofNat 32 (childBase child.1) ∧
      Copied moved child ((v pid).ldts indexLdtC) ((v pid).ldts indexLdtC).segmentSize
  | initData child pid base =>
    Related v child pid ∧ base = BitVec.ofNat 32 (childBase child.1) ∧
      Copied moved child ((v pid).ldts indexLdtC) ((v pid).ldts indexLdtC).segmentSize ∧
      ((v child.1).ldts indexLdtC).base = base
  | _ => True

def MmPc.Stage (v : Pid → Mark) (moved : List Moved) : MmPc → Prop
  | fork _ pc => pc.Stage v moved
  | _ => True

structure MmState.Forks (s : MmState) (v : Pid → Mark) : Prop where
  watched : s.kernel.Watched (fun p => ∃ child, s.pc.making = some child ∧ p = child.1) v
  stage : s.pc.Stage v s.moved
  settled : ∀ child : Child, (v child.1).free = 0 → s.pc.making ≠ some child →
    Settled v s.pc.making s.moved child
  slot : ∀ child, s.pc.slot = some child → (v child.1).free ≠ 0

section

variable {s t : MmState} {k k' : Kernel} {v w : Pid → Mark} {child c d : Child} {pid : Pid}
  {moved moved' : List Moved} {making making' : Option Child} {L : MmLayout} {e : Descriptor}
  {n : Nat} {W : Pid → Prop} {f : Proc → Proc} {m : Mark}

theorem Settled.mono (h : Settled v making moved c) (hsub : moved ⊆ moved') :
    Settled v making moved' c := by
  obtain ⟨pid, hparent, hgrown, hcopied⟩ := h.image
  exact ⟨h.segments, pid, hparent, hgrown, fun i hi => hsub (hcopied i hi)⟩

/-- Changes of an entry that is not, and will not be, a parent's. -/
theorem Settled.update (h : Settled v making moved d) (hd : d ≠ c)
    (hparent : ∀ pid, Grown v making pid → pid ≠ c.1) (hmaking : ∀ x, making' = some x → x = c) :
    Settled (Function.update v c.1 m) making' moved d := by
  have hdc : d.1 ≠ c.1 := fun h => hd (Subtype.ext h)
  obtain ⟨pid, hp, hgrown, hcopied⟩ := h.image
  have hpc := hparent pid hgrown
  refine ⟨by simpa [hdc] using h.segments, pid, by simpa [hdc] using hp, ⟨?_, ?_⟩, ?_⟩
  · simpa [hpc] using hgrown.used
  · rintro x hx
    rw [hmaking x hx]
    exact hpc
  · simpa [hpc] using hcopied

/-- The entry of the child in the making changes. -/
theorem Related.update (h : Related v c pid) (hm : m.pParent = (v c.1).pParent) :
    Related (Function.update v c.1 m) c pid := by
  have hpc := h.grown.made c rfl
  refine ⟨by simpa [hm] using h.parent, by simpa [hpc] using h.grown.used, h.grown.made⟩

/-- A change that MM makes to the entry of a child. -/
theorem Kernel.Watched.setChild {W' : Pid → Prop} (hk : k.Watched W v) (hready : k.pProcReady = taskMm)
    (hW : ∀ p, W' p → p = c.1) (hawaits : W' c.1 → (f (k.procTable c.1)).AwaitsMm) :
    (k.setProc c.1 f).Watched W' (Function.update v c.1 (f (k.procTable c.1)).mark) where
  mark p := by
    by_cases hp : p = c.1
    · subst hp; simp
    · simpa [hp] using hk.mark p
  awaits p hp := by
    obtain rfl := hW p hp
    simpa using hawaits hp
  notReady p hp := by
    obtain rfl := hW p hp
    rw [Kernel.setProc_pProcReady, hready]
    exact fun heq => absurd c.2 (by rw [← heq]; decide)

theorem masked_limit : ∀ x : BitVec 8, x.zeroExtend 32 &&& 0xF <<< 16 = (0 : BitVec 32) := by
  decide +kernel

/-- What the limit macros of `do_fork` compute is the size of a short segment. -/
theorem Descriptor.reassembleSize_eq (h : e.Short) :
    e.reassembleSize e.reassembleLimit = e.segmentSize := by
  have hlimit : e.reassembleLimit.toNat = e.limitLow.toNat := by
    have := e.limitLow.isLt
    rw [reassembleLimit, masked_limit]
    simp
    omega
  rw [Short] at h
  rw [reassembleSize, segmentSize, hlimit, h]
  simp

theorem Descriptor.reassembleBase_eq : e.reassembleBase = e.base := by
  have h₁ := e.baseHigh.isLt
  have h₂ := e.baseMid.isLt
  have h₃ := e.baseLow.isLt
  refine BitVec.eq_of_toNat_eq ?_
  rw [toNat_base]
  simp [reassembleBase, Nat.shiftLeft_eq]
  omega

/-! ## Steps -/

/-- The places after the child is made, and those outside `do_fork`. -/
theorem MmState.Forks.goto (h : s.Forks v) (hnone : s.pc.making = none) {pc : MmPc}
    (hpc : pc.making = none) (hslot : pc.slot = none) (hstage : pc.Stage v s.moved) :
    (s.goto pc).Forks v where
  watched := by
    have := h.watched
    rw [hnone] at this
    simpa [MmState.goto, hpc] using this
  stage := hstage
  settled c hc _ := by
    have := h.settled c hc (by simp [hnone])
    rw [hnone] at this
    simpa [MmState.goto, hpc] using this
  slot c hc := by simp [MmState.goto, hslot] at hc

theorem MmState.Forks.withKernel (h : s.Forks v)
    (hk : k.Watched (fun p => ∃ child, s.pc.making = some child ∧ p = child.1) v) :
    MmState.Forks { s with kernel := k } v :=
  ⟨hk, h.stage, h.settled, h.slot⟩

theorem MmState.Forks.setMsg (h : s.Forks v) (la : Addr) (content : Message) :
    MmState.Forks { s with kernel := s.kernel.setMsg la content } v :=
  h.withKernel (h.watched.congr rfl rfl)

/-- A call of MM when no child is in the making. -/
theorem wp_mmSendrec_forks {function i : Int} {la : Addr} {pc : MmPc} (h : s.Forks v)
    (hnone : s.pc.making = none) (hpc : pc.making = none) (hslot : pc.slot = none)
    (hstage : pc.Stage v s.moved) :
    wp (do
      mmSendrec function i la
      goto pc) (fun _ t => ∃ w, t.Forks w) (fun _ t => ∃ w, t.Forks w) s := by
  have hW (p : Pid) : ¬ ∃ child, s.pc.making = some child ∧ p = child.1 := by simp [hnone]
  rw [wp_bind, mmSendrec, wp_bind, wp_onKernel]
  refine (watched_sysSendrec (hW taskMm) (fun q hq => absurd hq (hW q)) _ h.watched).mono
    (fun _ k hk => ?_) fun _ k hk => ⟨v, h.withKernel hk⟩
  exact ⟨v, (h.withKernel hk).goto hnone hpc hslot hstage⟩

/-- A step that changes the entry of the child in the making, or finishes it. -/
theorem MmState.Forks.setChild (h : s.Forks v) (hmaking : s.pc.making = some c)
    (hready : s.kernel.pProcReady = taskMm) {pc : MmPc}
    (hpc : ∀ x, pc.making = some x → x = c ∧ (f (s.kernel.procTable c.1)).AwaitsMm)
    (hslot : pc.slot = none)
    (hstage : pc.Stage (Function.update v c.1 (f (s.kernel.procTable c.1)).mark) s.moved)
    (hdone : pc.making = none → Settled (Function.update v c.1 (f (s.kernel.procTable c.1)).mark)
      none s.moved c) :
    (MmState.goto { s with kernel := s.kernel.setProc c.1 f } pc).Forks
      (Function.update v c.1 (f (s.kernel.procTable c.1)).mark) where
  watched := by
    refine h.watched.setChild hready ?_ ?_
    · rintro p ⟨x, hx, rfl⟩
      rw [(hpc x hx).1]
    · rintro ⟨x, hx, -⟩
      exact (hpc x hx).2
  stage := hstage
  settled d hd hne := by
    by_cases hdc : d = c
    · subst hdc
      cases hnext : pc.making with
      | none => exact hnext ▸ hdone hnext
      | some x =>
        obtain rfl := (hpc x hnext).1
        exact absurd hnext hne
    · have hdc' : d.1 ≠ c.1 := fun h => hdc (Subtype.ext h)
      have hsettled := h.settled d (by simpa [hdc'] using hd)
        (by rw [hmaking]; simpa [eq_comm] using hdc)
      rw [hmaking] at hsettled
      exact hsettled.update hdc (fun pid hg => hg.made c rfl) fun x hx => (hpc x hx).1
  slot d hd := by simp [MmState.goto, hslot] at hd

/-- A step that changes no entry. -/
theorem MmState.Forks.next (h : s.Forks v) {pc : MmPc} {m : Bytes.Store}
    (hpc : pc.making = s.pc.making) (hsub : s.moved ⊆ moved)
    (hslot : ∀ x, pc.slot = some x → (v x.1).free ≠ 0) (hstage : pc.Stage v moved) :
    (MmState.goto { s with memory := m, moved := moved } pc).Forks v where
  watched := by
    have := h.watched
    rw [← hpc] at this
    exact this
  stage := hstage
  settled d hd hne := by
    have hne' : s.pc.making ≠ some d := hpc ▸ hne
    exact hpc.symm ▸ (h.settled d hd hne').mono hsub
  slot := hslot

/-- The entry is copied from a parent that waits. -/
theorem MmState.Forks.copyEntry (h : s.Forks v) {src : Int} (hpc : s.pc = .fork src (.copyEntry c))
    (hready : s.kernel.pProcReady = taskMm) (hawaits : (s.kernel.procTable pid).AwaitsMm)
    (hshort : ((s.kernel.procTable pid).ldts indexLdtC).Short) :
    (MmState.goto { s with kernel := s.kernel.setProc c.1 fun _ => s.kernel.procTable pid }
      (.fork src (.nameEntry c pid))).Forks
        (Function.update v c.1 (s.kernel.procTable pid).mark) := by
  have hmark : (s.kernel.procTable pid).mark = v pid := h.watched.mark pid
  have hfree : (v c.1).free ≠ 0 := h.slot c (by rw [hpc]; rfl)
  have hused : (v pid).free = 0 := by
    rw [← hmark, Proc.mark, hawaits.1]
    exact (by decide : receiving &&& freeSlot = 0)
  have hother (q : Pid) (hq : (v q).free = 0) : q ≠ c.1 := by
    rintro rfl
    exact hfree hq
  have hgrown : Grown v (some c) pid := ⟨hused, fun x hx => Option.some.inj hx ▸ hother pid hused⟩
  refine ⟨?_, ⟨⟨?_, hgrown.made⟩, ?_⟩, fun d hd hne => ?_, fun _ hx => by cases hx⟩
  · refine h.watched.setChild (f := fun _ => s.kernel.procTable pid) hready ?_ fun _ => hawaits
    rintro p ⟨x, hx, rfl⟩
    rw [Option.some.inj hx]
  · simpa [hother pid hused] using hused
  · rw [Function.update_of_ne (hother pid hused), ← hmark]
    exact hshort
  · have hdc : d ≠ c := by
      rintro rfl
      exact hne rfl
    have hdc' : d.1 ≠ c.1 := fun h => hdc (Subtype.ext h)
    have hsettled := h.settled d (by simpa [MmState.goto, hdc'] using hd) (by simp [hpc, MmPc.making])
    rw [hpc] at hsettled
    refine hsettled.update hdc (fun q hq => hother q hq.used) fun x hx => ?_
    exact (Option.some.inj hx).symm

theorem Copied.succ {dst : BitVec 32} {src : BitVec 32} (h : Copied moved c e n)
    (hdst : dst = BitVec.ofNat 32 (childBase c.1) + BitVec.ofNat 32 n)
    (hsrc : src = e.base + BitVec.ofNat 32 n) : Copied (⟨c, dst, src⟩ :: moved) c e (n + 1) := by
  intro i hi
  rcases Nat.lt_succ_iff_lt_or_eq.mp hi with hlt | rfl
  · exact List.mem_cons_of_mem _ (h i hlt)
  · rw [hdst, hsrc]
    exact List.mem_cons_self

/-- The code segment is the child's own, and then the data segment. -/
theorem wp_initSegment_goto_forks {src : Int} {idx : Fin 2} {base : BitVec 32} {next : ForkPc}
    (h : s.Forks v) (hmaking : s.pc.making = some c)
    (hready : s.kernel.pProcReady = taskMm)
    (hnext : ∀ x, (MmPc.fork src next).making = some x → x = c)
    (hslot : (MmPc.fork src next).slot = none)
    (hstage : ∀ m : Mark, m.pParent = (v c.1).pParent →
      m.ldts = Function.update (v c.1).ldts idx (m.ldts idx) → (m.ldts idx).base = base →
      next.Stage (Function.update v c.1 m) s.moved ∧ ((MmPc.fork src next).making = none →
        Settled (Function.update v c.1 m) none s.moved c)) :
    wp (do
      initSegment c idx base
      goto (.fork src next)) (fun _ t => ∃ w, t.Forks w) (fun _ t => ∃ w, t.Forks w) s := by
  have hawaits : (s.kernel.procTable c.1).AwaitsMm :=
    h.watched.awaits c.1 ⟨c, hmaking, rfl⟩
  have hmark : (s.kernel.procTable c.1).mark = v c.1 := h.watched.mark c.1
  rw [wp_bind, wp_initSegment, wp_goto]
  have hm := hstage { (v c.1) with ldts := Function.update (v c.1).ldts idx (initDescriptor base
    (BitVec.ofNat 32 ((procImageSizeDefault - 1) >>> limit4kShift))
    (userSegment (if idx = indexLdtC then daC else daDrw))) } rfl (by simp) (by simp)
  rw [← hmark] at hm
  exact ⟨_, h.setChild (f := fun p => { p with
      ldts := Function.update p.ldts idx (initDescriptor base
        (BitVec.ofNat 32 ((procImageSizeDefault - 1) >>> limit4kShift))
        (userSegment (if idx = indexLdtC then daC else daDrw))) })
    hmaking hready (fun x hx => ⟨hnext x hx, hawaits⟩) hslot hm.1 hm.2⟩

theorem wp_forkPc_forks (h : s.Forks v) (hready : s.kernel.pProcReady = taskMm) {src : Int}
    {pc : ForkPc} (hpc : s.pc = .fork src pc) (ha : pc.Awaited L s.kernel) :
    wp (pc.run L src) (fun _ t => ∃ w, t.Forks w) (fun _ t => ∃ w, t.Forks w) s := by
  have hstage : pc.Stage v s.moved := by
    have := h.stage
    rwa [hpc] at this
  cases pc with
  | search =>
    rw [ForkPc.run, wp_bind, wp_get]
    cases hfree : freeEntry s.kernel.procTable with
    | none => exact ⟨v, h.goto (by rw [hpc]; rfl) rfl rfl trivial⟩
    | some c =>
      have hflags : (s.kernel.procTable c).pFlags = freeSlot := by
        simpa using List.find?_some hfree
      simp only []
      split
      · refine ⟨v, h.next (by rw [hpc]; rfl) (List.Subset.refl _) ?_ trivial⟩
        rintro x hx
        obtain rfl := Option.some.inj hx
        rw [← h.watched.mark c, Proc.mark, hflags]
        exact (by decide : freeSlot &&& freeSlot ≠ 0)
      · exact ⟨v, h⟩
  | copyEntry child =>
    rw [ForkPc.run, wp_bind, wp_get, wp_bind, procAt]
    cases hpid : pidOf (s.kernel.msgs L.mmMsg).source with
    | none => exact ⟨v, h⟩
    | some pid =>
      obtain ⟨hawaits, hshort⟩ := ha pid hpid
      rw [wp_pure, wp_bind, wp_onKernel, wp_setProc, wp_goto]
      exact ⟨_, h.copyEntry hpc hready hawaits hshort⟩
  | nameEntry child pid =>
    obtain ⟨hgrown, hshort⟩ := hstage
    have hawaits : (s.kernel.procTable child.1).AwaitsMm :=
      h.watched.awaits child.1 ⟨child, by rw [hpc]; rfl, rfl⟩
    have hne := hgrown.made child rfl
    refine wp_nameEntry ha ⟨_, h.setChild (f := fun p => { p with
      pParent := pid.val
      name := childName (s.kernel.procTable pid).name child }) (by rw [hpc]; rfl) hready
      (fun x hx => ⟨(Option.some.inj hx).symm, hawaits⟩) rfl ⟨⟨?_, ?_, hgrown.made⟩, ?_⟩
      fun hx => by cases hx⟩
    · simp [Proc.mark]
    · simpa [hne] using hgrown.used
    · simpa [hne] using hshort
  | allocMem child pid =>
    obtain ⟨hrelated, hshort⟩ := hstage
    have hldts : (s.kernel.procTable pid).ldts = (v pid).ldts := congrArg Mark.ldts (h.watched.mark pid)
    simp only [ForkPc.run, wp_bind, wp_get, wp_assert]
    refine ⟨fun _ => wp_allocMem (fun _ => ⟨v, h⟩) fun _ _ _ => ⟨v, ?_⟩, fun _ => ⟨v, h⟩⟩
    refine h.next (by rw [hpc]; rfl) (List.Subset.refl _) (fun _ hx => by cases hx)
      ⟨hrelated, rfl, ?_, ?_, ?_⟩
    · rw [Descriptor.reassembleBase_eq, hldts]
    · rw [hldts, Descriptor.reassembleSize_eq hshort]
    · exact fun i hi => absurd hi (Nat.not_lt_zero i)
  | copyImage child pid base callerBase done size =>
    obtain ⟨hrelated, rfl, rfl, rfl, hcopied⟩ := hstage
    rw [ForkPc.run, wp_ite]
    refine ⟨fun hdone => ⟨v, ?_⟩, fun _ => ⟨v, ?_⟩⟩
    · refine h.next (by rw [hpc]; rfl) (List.Subset.refl _) (fun _ hx => by cases hx) ⟨hrelated, rfl, ?_⟩
      rwa [hdone] at hcopied
    · exact h.next (by rw [hpc]; rfl) (List.subset_cons_self _ _) (fun _ hx => by cases hx)
        ⟨hrelated, rfl, rfl, rfl, hcopied.succ rfl rfl⟩
  | initCode child pid base =>
    obtain ⟨hrelated, hbase, hcopied⟩ := hstage
    have hne := hrelated.grown.made child rfl
    refine wp_initSegment_goto_forks h (c := child) (by rw [hpc]; rfl) hready
      (fun x hx => (Option.some.inj hx).symm) rfl fun m hparent hldts hown => ⟨?_, fun hx => by cases hx⟩
    exact ⟨hrelated.update hparent, hbase, by simpa [hne] using hcopied, by simpa using hown⟩
  | initData child pid base =>
    obtain ⟨hrelated, hbase, hcopied, hcode⟩ := hstage
    have hne := hrelated.grown.made child rfl
    refine wp_initSegment_goto_forks h (c := child) (by rw [hpc]; rfl) hready (fun _ hx => by cases hx) rfl
      fun m hparent hldts hown =>
        ⟨trivial, fun _ => ⟨fun idx => ?_, pid, ?_, ⟨?_, fun _ hx => by cases hx⟩, ?_⟩⟩
    · rw [Function.update_self, ← hbase]
      by_cases hidx : idx = indexLdtRw
      · rw [hidx, hown]
      · have hidx' : idx = indexLdtC :=
          (by decide : ∀ i : Fin 2, i ≠ indexLdtRw → i = indexLdtC) idx hidx
        rw [hldts, Function.update_of_ne hidx, hidx', hcode]
    · rw [Function.update_self, hparent]
      exact hrelated.parent
    · simpa [hne] using hrelated.grown.used
    · simpa [hne] using hcopied
  | sendFs child =>
    have hnone : s.pc.making = none := by rw [hpc]; rfl
    rw [ForkPc.run, wp_bind, wp_setFields]
    exact wp_mmSendrec_forks (h.setMsg _ _) hnone rfl rfl trivial
  | receiveFs child => exact wp_mmSendrec_forks h (by rw [hpc]; rfl) rfl rfl trivial
  | resume child =>
    have hnone : s.pc.making = none := by rw [hpc]; rfl
    rw [ForkPc.run, wp_bind, wp_setFields, wp_bind, wp_setFields]
    exact wp_mmSendrec_forks ((h.setMsg _ _).setMsg _ _) hnone rfl rfl trivial

theorem wp_mmPc_forks (h : s.Forks v) (hready : s.kernel.pProcReady = taskMm)
    (ha : s.pc.Awaited L s.kernel) :
    wp (s.pc.run L) (fun _ t => ∃ w, t.Forks w) (fun _ t => ∃ w, t.Forks w) s := by
  cases hpc : s.pc with
  | receive =>
    have hnone : s.pc.making = none := by rw [hpc]; rfl
    rw [MmPc.run, wp_bind, wp_setFields]
    exact wp_mmSendrec_forks (h.setMsg _ _) hnone rfl rfl trivial
  | dispatch =>
    rw [MmPc.run, wp_bind, wp_get, wp_bind, wp_assert]
    exact ⟨fun _ => ⟨v, h.goto (by rw [hpc]; rfl) rfl rfl trivial⟩, fun _ => ⟨v, h⟩⟩
  | fork src pc =>
    rw [hpc] at ha
    exact wp_forkPc_forks h hready hpc ha
  | reply src retval =>
    have hnone : s.pc.making = none := by rw [hpc]; rfl
    rw [MmPc.run, wp_bind, wp_setFields, wp_bind, wp_setFields]
    exact wp_mmSendrec_forks ((h.setMsg _ _).setMsg _ _) hnone rfl rfl trivial

/-! ## Runs -/

theorem MmState.Initial.forks (h : s.Initial) : s.Forks fun p => (s.kernel.procTable p).mark := by
  obtain ⟨⟨kBase, kLimit, hk⟩, hpc, -⟩ := h
  refine ⟨⟨fun _ => rfl, ?_, ?_⟩, by rw [hpc]; trivial, fun c hc _ => ?_, ?_⟩
  · rintro p ⟨c, hc, -⟩
    rw [hpc] at hc
    cases hc
  · rintro p ⟨c, hc, -⟩
    rw [hpc] at hc
    cases hc
  · rw [hk.procTable, initProc_of_free c.2] at hc
    exact absurd hc (by decide)
  · rintro c hc
    rw [hpc] at hc
    cases hc

theorem reached_forks {o : Option Halt} (hr : (mmMachine L).Reached (AwaitedEvent L) s o) :
    ∃ v, s.Forks v := by
  refine hr.invariant (I := fun s _ => ∃ v, s.Forks v) (fun s (h : s.Initial) => ⟨_, h.forks⟩) ?_
  rintro s e - ⟨v, h⟩ ⟨hv, ha⟩
  refine exec_of_wp (P := fun t _ => ∃ w, MmState.Forks t w) ?_
  cases e with
  | kernel e =>
    rw [MmEvent.run, wp_onKernel]
    exact (e.watched (fun hby _ _ => hv.2 hby) h.watched).mono (fun _ k hk => ⟨v, h.withKernel hk⟩)
      fun _ k hk => ⟨v, h.withKernel hk⟩
  | mm =>
    rw [MmEvent.run, wp_bind, wp_get]
    exact wp_mmPc_forks h hv ha

instance : Decidable e.Short := inferInstanceAs (Decidable (_ = _))

instance (p : Proc) : Decidable p.AwaitsMm := inferInstanceAs (Decidable (_ ∧ _))

instance : (pc : ForkPc) → Decidable (pc.Awaited L k)
  | .copyEntry _ => inferInstanceAs (Decidable (∀ _, _ → _ ∧ _))
  | .nameEntry _ _ => inferInstanceAs (Decidable (_ < _))
  | .search | .allocMem _ _ | .copyImage _ _ _ _ _ _ | .initCode _ _ _ | .initData _ _ _
  | .sendFs _ | .receiveFs _ | .resume _ => isTrue trivial

instance : (pc : MmPc) → Decidable (pc.Awaited L k)
  | .fork _ pc => inferInstanceAs (Decidable (pc.Awaited L k))
  | .receive | .dispatch | .reply _ _ => isTrue trivial

instance : (e : MmEvent) → Decidable (e.Awaited L s)
  | .kernel _ => isTrue trivial
  | .mm => inferInstanceAs (Decidable (s.pc.Awaited L s.kernel))

instance {e : MmEvent} : Decidable (AwaitedEvent L s e) := inferInstanceAs (Decidable (_ ∧ _))

end

/-- INIT waits for the answer while MM makes the child's entry. -/
def awaitedFork : List MmEvent :=
  forkRequest ++ [.kernel (.sendrec receive 4 0x9400), .mm, .mm, .mm, .mm, .mm]

def MmState.named : MmState × Option Halt :=
  ((mmMachine .low).run (AwaitedEvent .low) awaitedFork (MmState.begin, none)).get (by decide +kernel)

theorem MmState.named_reached :
    (mmMachine .low).Reached (AwaitedEvent .low) MmState.named.1 MmState.named.2 :=
  .of_get (.start MmState.begin_initial) _

/-- INIT loses the processor between its SEND and its RECEIVE, and MM copies its entry. -/
def earlyFork : List MmEvent := forkRequest ++ List.replicate 5 (.kernel .clock) ++ [.mm, .mm, .mm]

end Dlos
