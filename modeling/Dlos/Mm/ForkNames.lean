import Dlos.Mm.ForkSegments

/-!
# The names of children

A child's name is its parent's with a number behind it, and `sprintf` does not know the size of
`name`. As long as the names fit, the steps of `do_fork` change nothing in the child's entry but what
makes it a process of its own, and no other entry.
-/

namespace Dlos

open Program

/-- The new name fits into `name`, with its end. -/
def ForkPc.NameFits (k : Kernel) : ForkPc → Prop
  | nameEntry child pid => (childName (k.procTable pid).name child).length < nameSize
  | _ => True

def MmPc.NameFits (k : Kernel) : MmPc → Prop
  | fork _ pc => pc.NameFits k
  | _ => True

def MmEvent.NameFits (s : MmState) : MmEvent → Prop
  | kernel _ => True
  | mm => s.pc.NameFits s.kernel

/-- A valid step, and if it makes a name, one that fits. -/
def FittingMm (s : MmState) (e : MmEvent) : Prop := ValidMm s e ∧ e.NameFits s

/-- The entries are the same but for `p_parent`, `name` and `ldts`. -/
def SameEntry (p q : Proc) : Prop := p = { q with pParent := p.pParent, name := p.name, ldts := p.ldts }

/-- The child's entry has become `entry`, but for what makes it a process of its own; the others are
as before. -/
structure Bookkept (child : Child) (entry : Proc) (k k' : Kernel) : Prop where
  made : SameEntry (k'.procTable child.1) entry
  others : ∀ p, p ≠ child.1 → k'.procTable p = k.procTable p

/-- The child's entry is being made, or about to be. -/
def MmState.Bookkeeping (s : MmState) (child : Child) : Prop :=
  s.pc.making = some child ∨ ∃ src, s.pc = .fork src (.copyEntry child)

/-- MM's steps from a state on. -/
def mmFrom (L : MmLayout) (s : MmState) : Machine MmState MmEvent Halt where
  initial t := t = s
  step := (mmMachine L).step

/-- Names fit, and `do_fork` keeps what it copies: at each of its steps, and in the whole of its
bookkeeping if nothing comes in between. -/
structure EntriesKept (L : MmLayout) (G : MmState → MmEvent → Prop) (s : MmState) : Prop where
  fits : ∀ p, (s.kernel.procTable p).name.length < nameSize
  made : ∀ child, s.pc.making = some child → G s .mm →
    Bookkept child (s.kernel.procTable child.1) s.kernel ((mmMachine L).step .mm s).1.kernel
  copied : ∀ src child pid t, s.pc = .fork src (.copyEntry child) →
    pidOf (s.kernel.msgs L.mmMsg).source = some pid →
    (mmFrom L s).Reached (fun t e => e = .mm ∧ G t e ∧ t.Bookkeeping child) t none →
    t.pc = .fork src (.sendFs child) →
    Bookkept child (s.kernel.procTable pid) s.kernel t.kernel

section

variable {s t u : MmState} {child c : Child} {pid p : Pid} {L : MmLayout} {src : Int}
  {k k' k'' : Kernel} {entry : Proc} {o : Option Halt} {f : Proc → Proc}

theorem SameEntry.refl (p : Proc) : SameEntry p p := rfl

theorem SameEntry.trans {p q r : Proc} (h : SameEntry p q) (h' : SameEntry q r) : SameEntry p r := by
  rw [SameEntry] at h h' ⊢
  rw [h, h']

/-- What the scheduler and the other processes see of an entry. -/
theorem SameEntry.pFlags {p q : Proc} (h : SameEntry p q) : p.pFlags = q.pFlags ∧ p.pMsg = q.pMsg := by
  rw [h]
  exact ⟨rfl, rfl⟩

namespace Bookkept

theorem refl : Bookkept child (k.procTable child.1) k k := ⟨.refl _, fun _ _ => rfl⟩

theorem trans (h : Bookkept child entry k k')
    (h' : Bookkept child (k'.procTable child.1) k' k'') : Bookkept child entry k k'' where
  made := h'.made.trans h.made
  others p hp := (h'.others p hp).trans (h.others p hp)

theorem setProc (h : SameEntry (f (k.procTable child.1)) entry) :
    Bookkept child entry k (k.setProc child.1 f) where
  made := by
    rw [Kernel.setProc_self]
    exact h
  others p hp := Kernel.setProc_of_ne hp

theorem setProc_goto (h : SameEntry (f (s.kernel.procTable child.1)) entry) {pc : MmPc} :
    Bookkept child entry s.kernel
      (MmState.goto { s with kernel := s.kernel.setProc child.1 f } pc).kernel := setProc h

end Bookkept

/-! ## Steps -/

theorem wp_initSegment_bookkept {idx : Fin 2} {base : BitVec 32} {next : ForkPc} :
    wp (do
      initSegment child idx base
      goto (.fork src next)) (fun _ t =>
        Bookkept child (s.kernel.procTable child.1) s.kernel t.kernel ∧ t.pc = .fork src next)
      (fun _ t => Bookkept child (s.kernel.procTable child.1) s.kernel t.kernel) s := by
  rw [wp_bind, wp_initSegment, wp_goto]
  refine ⟨.setProc_goto ?_, rfl⟩
  rfl

/-- A step for the child in the making, up to the last. -/
theorem wp_making (hmaking : s.pc.making = some child) (hfits : s.pc.NameFits s.kernel) :
    wp (s.pc.run L) (fun _ t => Bookkept child (s.kernel.procTable child.1) s.kernel t.kernel ∧
        (t.pc.making = some child ∨ ∃ src, t.pc = .fork src (.sendFs child)))
      (fun _ t => Bookkept child (s.kernel.procTable child.1) s.kernel t.kernel) s := by
  cases hpc : s.pc with
  | fork src pc =>
    rw [hpc] at hmaking hfits
    cases pc with
    | nameEntry child' pid =>
      obtain rfl := Option.some.inj hmaking
      refine wp_nameEntry (L := L) hfits ⟨.setProc_goto ?_, .inl rfl⟩
      rfl
    | allocMem child' pid =>
      obtain rfl := Option.some.inj hmaking
      change wp ((ForkPc.allocMem child' pid).run L src) _ _ _
      simp only [ForkPc.run, wp_bind, wp_get, wp_assert]
      exact ⟨fun _ => wp_allocMem (fun _ => .refl) fun _ _ _ => ⟨.refl, .inl rfl⟩, fun _ => .refl⟩
    | copyImage child' pid base callerBase done size =>
      obtain rfl := Option.some.inj hmaking
      change wp ((ForkPc.copyImage child' pid base callerBase done size).run L src) _ _ _
      rw [ForkPc.run, wp_ite]
      exact ⟨fun _ => ⟨.refl, .inl rfl⟩, fun _ => ⟨.refl, .inl rfl⟩⟩
    | initCode child' pid base =>
      obtain rfl := Option.some.inj hmaking
      exact wp_initSegment_bookkept.mono (fun _ t h => ⟨h.1, .inl (by rw [h.2]; rfl)⟩) fun _ _ h => h
    | initData child' pid base =>
      obtain rfl := Option.some.inj hmaking
      exact wp_initSegment_bookkept.mono (fun _ t h => ⟨h.1, .inr ⟨src, h.2⟩⟩) fun _ _ h => h
    | _ => cases hmaking
  | _ =>
    rw [hpc] at hmaking
    cases hmaking

/-- The parent's entry is copied. -/
theorem wp_copyEntry (hpid : pidOf (s.kernel.msgs L.mmMsg).source = some pid) :
    wp ((ForkPc.copyEntry child).run L src) (fun _ t =>
        Bookkept child (s.kernel.procTable pid) s.kernel t.kernel ∧ t.pc = .fork src (.nameEntry child pid))
      (fun _ _ => False) s := by
  rw [ForkPc.run, wp_bind, wp_get, wp_bind, procAt, hpid, wp_pure, wp_bind, wp_onKernel, wp_setProc,
    wp_goto]
  refine ⟨.setProc_goto ?_, rfl⟩
  rfl

/-! ## What every entry satisfies -/

/-- The call that MM makes next. -/
def MmPc.call : MmPc → Option (Int × Int)
  | receive => some (Dlos.receive, anyTask)
  | fork _ (.sendFs _) => some (send, (taskFs : Pid).val)
  | fork _ (.receiveFs _) => some (Dlos.receive, (taskFs : Pid).val)
  | fork _ (.resume child) => some (send, child.1.val)
  | reply src _ => some (send, src)
  | _ => none

/-- A call of MM, for what its calls keep of every entry. -/
theorem wp_mmSendrec_entries {P : Proc → Prop} {R : Halt → Prop} {function i : Int} {la : Addr} {pc : MmPc}
    (h : ∀ p, P (s.kernel.procTable p))
    (hcall : ∀ k, (∀ p, P (k.procTable p)) → wp (sysSendrec function i la taskMm)
      (fun _ k' => ∀ p, P (k'.procTable p)) (fun e k' => R e → ∀ p, P (k'.procTable p)) k) :
    wp (do
      mmSendrec function i la
      goto pc) (fun _ t => ∀ p, P (t.kernel.procTable p))
      (fun e t => R e → ∀ p, P (t.kernel.procTable p)) s := by
  rw [wp_bind, mmSendrec, wp_bind, wp_onKernel]
  exact (hcall s.kernel h).mono (fun _ k hk => hk) fun _ k hk => hk

/-- MM's steps keep what holds of every entry, if its calls do and a new name and new segments do not
matter. -/
theorem wp_mmPc_entries {P : Proc → Prop} {R : Halt → Prop} (h : ∀ p, P (s.kernel.procTable p))
    (hfits : s.pc.NameFits s.kernel)
    (hmake : ∀ (e : Proc) (parent : Int) (name : String) (ldts : Fin 2 → Descriptor),
      (name = e.name ∨ name.length < nameSize) → P e →
        P { e with pParent := parent, name := name, ldts := ldts })
    (hcall : ∀ function i la k, s.pc.call = some (function, i) → (∀ p, P (k.procTable p)) →
      wp (sysSendrec function i la taskMm) (fun _ k' => ∀ p, P (k'.procTable p))
        (fun e k' => R e → ∀ p, P (k'.procTable p)) k) :
    wp (s.pc.run L) (fun _ t => ∀ p, P (t.kernel.procTable p))
      (fun e t => R e → ∀ p, P (t.kernel.procTable p)) s := by
  have setChild (c : Child) (f : Proc → Proc) (hf : P (f (s.kernel.procTable c.1))) (p : Pid) :
      P ((s.kernel.setProc c.1 f).procTable p) := by
    by_cases hp : p = c.1
    · subst hp
      rw [Kernel.setProc_self]
      exact hf
    · rw [Kernel.setProc_of_ne hp]
      exact h p
  have segment (c : Child) (idx : Fin 2) (base : BitVec 32) (pc : MmPc) : wp (do
      initSegment c idx base
      goto pc) (fun _ t => ∀ p, P (t.kernel.procTable p))
      (fun e t => R e → ∀ p, P (t.kernel.procTable p)) s := by
    rw [wp_bind, wp_initSegment, wp_goto]
    exact setChild c (fun p => { p with ldts := Function.update p.ldts idx (initDescriptor base
      (BitVec.ofNat 32 ((procImageSizeDefault - 1) >>> limit4kShift))
      (userSegment (if idx = indexLdtC then daC else daDrw))) }) (hmake _ _ _ _ (.inl rfl) (h c.1))
  cases hpc : s.pc with
  | receive =>
    rw [MmPc.run, wp_bind, wp_setFields]
    exact wp_mmSendrec_entries h fun k hk => hcall _ _ _ k (by rw [hpc]; rfl) hk
  | dispatch =>
    rw [MmPc.run, wp_bind, wp_get, wp_bind, wp_assert]
    exact ⟨fun _ => h, fun _ _ => h⟩
  | reply src retval =>
    rw [MmPc.run, wp_bind, wp_setFields, wp_bind, wp_setFields]
    exact wp_mmSendrec_entries h fun k hk => hcall _ _ _ k (by rw [hpc]; rfl) hk
  | fork src pc =>
    rw [hpc] at hfits
    change wp (pc.run L src) _ _ s
    cases pc with
    | search =>
      rw [ForkPc.run, wp_bind, wp_get]
      cases freeEntry s.kernel.procTable with
      | none => exact h
      | some c =>
        simp only []
        split
        · exact h
        · exact fun _ => h
    | copyEntry child =>
      rw [ForkPc.run, wp_bind, wp_get, wp_bind, procAt]
      cases pidOf (s.kernel.msgs L.mmMsg).source with
      | none => exact fun _ => h
      | some pid =>
        rw [wp_pure, wp_bind, wp_onKernel, wp_setProc, wp_goto]
        exact setChild child (fun _ => s.kernel.procTable pid) (h pid)
    | nameEntry child pid =>
      refine wp_nameEntry (L := L) hfits (setChild child (fun p => { p with
        pParent := pid.val
        name := childName (s.kernel.procTable pid).name child }) ?_)
      exact hmake _ _ _ _ (.inr hfits) (h child.1)
    | allocMem child pid =>
      simp only [ForkPc.run, wp_bind, wp_get, wp_assert]
      exact ⟨fun _ => wp_allocMem (fun _ _ => h) fun _ _ _ => h, fun _ _ => h⟩
    | copyImage child pid base callerBase done size =>
      rw [ForkPc.run, wp_ite]
      exact ⟨fun _ => h, fun _ => h⟩
    | initCode child pid base => exact segment _ _ _ _
    | initData child pid base => exact segment _ _ _ _
    | sendFs child =>
      rw [ForkPc.run, wp_bind, wp_setFields]
      exact wp_mmSendrec_entries h fun k hk => hcall _ _ _ k (by rw [hpc]; rfl) hk
    | receiveFs child => exact wp_mmSendrec_entries h fun k hk => hcall _ _ _ k (by rw [hpc]; rfl) hk
    | resume child =>
      rw [ForkPc.run, wp_bind, wp_setFields, wp_bind, wp_setFields]
      exact wp_mmSendrec_entries h fun k hk => hcall _ _ _ k (by rw [hpc]; rfl) hk

/-! ## Names -/

def Kernel.NamesFit (k : Kernel) : Prop := ∀ p, (k.procTable p).name.length < nameSize

theorem Kernel.NamesFit.of_marks (h : k.NamesFit) (hmarks : ∀ p, (k'.procTable p).mark = (k.procTable p).mark) :
    k'.NamesFit := by
  intro p
  rw [show (k'.procTable p).name = (k.procTable p).name from congrArg Mark.name (hmarks p)]
  exact h p

theorem wp_mmPc_namesFit (h : s.kernel.NamesFit) (hfits : s.pc.NameFits s.kernel) :
    wp (s.pc.run L) (fun _ t => t.kernel.NamesFit) (fun _ t => t.kernel.NamesFit) s := by
  refine (wp_mmPc_entries (P := fun e => e.name.length < nameSize) (R := fun _ => True) h hfits ?_ ?_).mono
    (fun _ _ h => h) fun _ _ h => h trivial
  · rintro e parent name ldts (rfl | hname) he
    · exact he
    · exact hname
  · intro function i la k _ hk
    exact marks_sysSendrec.mono (fun _ k' hk' => Kernel.NamesFit.of_marks hk hk')
      fun _ k' hk' _ => Kernel.NamesFit.of_marks hk hk'

/-! ## Runs -/

theorem MmState.Initial.namesFit (h : s.Initial) : s.kernel.NamesFit := by
  obtain ⟨⟨kBase, kLimit, hk⟩, -, -⟩ := h
  intro p
  have hname : (taskName p).length < nameSize := by
    revert p
    decide
  rw [hk.procTable, initProc]
  split
  · exact (by decide : "".length < nameSize)
  · exact hname

theorem reached_namesFit (hr : (mmMachine L).Reached FittingMm s o) : s.kernel.NamesFit := by
  refine hr.invariant (I := fun s _ => s.kernel.NamesFit) (fun s (h : s.Initial) => h.namesFit) ?_
  rintro s e - h ⟨-, hfits⟩
  refine exec_of_wp (P := fun (t : MmState) _ => t.kernel.NamesFit) ?_
  cases e with
  | kernel e =>
    rw [MmEvent.run, wp_onKernel]
    exact e.marks.mono (fun _ k hk => h.of_marks hk) fun _ k hk => h.of_marks hk
  | mm =>
    rw [MmEvent.run, wp_bind, wp_get]
    exact wp_mmPc_namesFit h hfits

/-- Where the bookkeeping is after a step, and what it has done. -/
def BookkeptSince (s : MmState) (child : Child) (pid : Pid) (t : MmState) : Prop :=
  t = s ∨ Bookkept child (s.kernel.procTable pid) s.kernel t.kernel ∧
    (t.pc.making = some child ∨ ∃ src, t.pc = .fork src (.sendFs child))

theorem reached_bookkeptSince (hpc : s.pc = .fork src (.copyEntry child))
    (hpid : pidOf (s.kernel.msgs L.mmMsg).source = some pid)
    (hr : (mmFrom L s).Reached (fun t e => e = .mm ∧ FittingMm t e ∧ t.Bookkeeping child) t o) :
    o = none → BookkeptSince s child pid t := by
  refine hr.invariant (I := fun t o => o = none → BookkeptSince s child pid t) (fun t h _ => .inl h) ?_
  rintro t e - h ⟨rfl, ⟨-, hfits⟩, hbook⟩
  refine exec_of_wp (P := fun u r => r = none → BookkeptSince s child pid u) ?_
  rw [MmEvent.run, wp_bind, wp_get]
  rcases h rfl with rfl | ⟨hkept, hat⟩
  · rw [hpc]
    refine (wp_copyEntry hpid).mono ?_ fun _ _ h => h.elim
    rintro _ u ⟨hu, hupc⟩ -
    refine .inr ⟨hu, .inl ?_⟩
    rw [hupc]
    rfl
  · rcases hbook with hmaking | ⟨src', hcopy⟩
    · refine (wp_making hmaking hfits).mono ?_ fun _ _ _ h => by cases h
      rintro _ u ⟨hu, hupc⟩ -
      exact .inr ⟨hkept.trans hu, hupc⟩
    · rw [hcopy] at hat
      rcases hat with hat | ⟨_, hat⟩
      · cases hat
      · cases hat

/-- The whole of `phys_copy`, when MM has come to it. -/
def MmState.physCopy (s : MmState) : MmState :=
  match s.pc with
  | .fork src (.copyImage child pid base callerBase 0 size) =>
    (s.copyBytes child base callerBase size).goto (.fork src (.initCode child pid base))
  | _ => s

/-- Runs with a `phys_copy` behind each of them. -/
def runForks (L : MmLayout) : List (List MmEvent) → MmState → Option MmState
  | [], s => some s
  | l :: ls, s => match (mmMachine L).run ValidMm l (s, none) with
    | some (t, none) => if t.kernel.pProcReady = taskMm then runForks L ls t.physCopy else none
    | _ => none

theorem reached_physCopy (hr : (mmMachine L).Reached ValidMm s none)
    (hready : s.kernel.pProcReady = taskMm) : (mmMachine L).Reached ValidMm s.physCopy none := by
  unfold MmState.physCopy
  split
  · exact reached_copied hr hready ‹_›
  · exact hr

theorem reached_runForks {l : List (List MmEvent)} (hr : (mmMachine L).Reached ValidMm s none)
    (hrun : runForks L l s = some t) : (mmMachine L).Reached ValidMm t none := by
  induction l generalizing s with
  | nil =>
    obtain rfl := Option.some.inj hrun
    exact hr
  | cons l ls ih =>
    rw [runForks] at hrun
    split at hrun
    · rename_i u hu
      split_ifs at hrun with hready
      exact ih (reached_physCopy (hr.of_run hu) hready) hrun
    · cases hrun

end

/-- MM finishes a fork, FS answers, and then the `n` running processes in front of the child wait. -/
def finishFork (n : Nat) : List MmEvent :=
  [.mm, .mm, .mm, .mm, .kernel (.sendrec send 4 0x9300), .kernel (.sendrec receive anyTask 0x9300),
    .mm, .mm, .mm] ++ List.replicate n (.kernel (.sendrec receive anyTask 0x9500))

/-- The child, whose message is at `la`, asks for a fork. -/
def childForks (la : Addr) : List MmEvent :=
  [.kernel (.write la { type := MsgType.fork }), .kernel (.sendrec send 4 0x9400),
    .kernel (.sendrec receive 4 0x9400), .mm, .mm, .mm, .mm, .mm]

/-- INIT forks, then its child, and so on. -/
def forkChain : List (List MmEvent) :=
  [awaitedFork, finishFork 4 ++ childForks 0xA09400, finishFork 1 ++ childForks 0xB09400,
    finishFork 1 ++ childForks 0xC09400, finishFork 1 ++ childForks 0xD09400]

end Dlos
