import Dlos.Kernel.Steady
import Dlos.Kernel.Table
import Dlos.Mm.ForkExit

/-!
# What a fork does to the queues

The child's entry is a copy of the parent's, with the head of the parent's queue and its place in
somebody's queue. The queues survive a fork exactly when there is nothing of that to copy and
nobody waits for the slot already.
-/

namespace Dlos

open Program Rendezvous

/-- `x` is in the chain that starts at `q_sending` of `d`. -/
def Kernel.InQueue (k : Kernel) (d x : Pid) : Prop :=
  ∃ l, Linked.Chain k.next (k.procTable d).qSending l ∧ x ∈ l

/-- Every queue holds the processes that send to its owner, each once. -/
structure QueueInvariant (k : Kernel) : Prop where
  queue : ∀ d, ∃ l, Linked.Chain k.next (k.procTable d).qSending l ∧ l.Nodup ∧
    ∀ x, x ∈ l ↔ (k.procTable x).pFlags = sending ∧ (k.procTable x).pSendto = d.val
  apart : ∀ d e x, k.InQueue d x → k.InQueue e x → d = e
  reachable : ∀ x, (k.procTable x).pFlags = sending → ∃ d, k.InQueue d x

/-- The parent is in no queue and nobody in its queue, and nobody waits for the slot. -/
structure Kernel.Forkable (k : Kernel) (pid child : Pid) : Prop where
  noQueue : (k.procTable pid).qSending = none
  notSending : (k.procTable pid).pFlags ≠ sending
  unawaited : ∀ x, ¬ ((k.procTable x).pFlags = sending ∧ (k.procTable x).pSendto = child.val)

/-- An entry is copied when that is harmless, and the child's name fits. -/
def ForkPc.Safe (L : MmLayout) (k : Kernel) : ForkPc → Prop
  | copyEntry child => ∀ pid, pidOf (k.msgs L.mmMsg).source = some pid → k.Forkable pid child
  | nameEntry child pid => (childName (k.procTable pid).name child).length < nameSize
  | _ => True

def MmPc.Safe (L : MmLayout) (k : Kernel) : MmPc → Prop
  | fork _ pc => pc.Safe L k
  | _ => True

def MmEvent.Safe (L : MmLayout) (s : MmState) : MmEvent → Prop
  | kernel _ => True
  | mm => s.pc.Safe L s.kernel

/-- A valid step, and if it is one of a fork, a harmless one. -/
def SafeEvent (L : MmLayout) (s : MmState) (e : MmEvent) : Prop := ValidMm s e ∧ e.Safe L s

section

variable {k k' : Kernel} {a a' : Ipc} {s t : MmState} {p d x pid : Pid} {child : Child} {m : Addr}
  {e : Event} {e' : MmEvent} {o : Ipc × Effect Pid Addr} {L : MmLayout} {f : Proc → Proc}

/-! ## MM's calls -/

theorem wp_mmSendrec {function i : Int} (hk : s.kernel.Steady none)
    (hready : s.kernel.pProcReady = taskMm) (hm : m ≠ 0)
    (hcall : function = send ∨ function = receive ∧ (i = anyTask ∨ i = taskFs.val)) :
    wp (mmSendrec function i m) (fun _ t => ∃ k', k'.Steady none ∧ t = { s with kernel := k' })
      (fun halt t => ∃ k', k'.Steady (some halt) ∧ t = { s with kernel := k' }) s := by
  rw [mmSendrec, wp_bind, wp_onKernel]
  rcases hcall with rfl | ⟨rfl, hi⟩
  · exact (wp_send hk hready hm).mono (fun _ k' h => ⟨k', h.1.steady, rfl⟩)
      fun _ k' h => ⟨k', h.1.steady, rfl⟩
  · have hfrom : i = anyTask ∨ ∃ q : Pid, q ≠ taskMm ∧ i = q.val :=
      hi.imp_right fun h => ⟨taskFs, by decide, h⟩
    exact (wp_receive hk hready hm hfrom).mono (fun _ k' h => ⟨k', h.steady, rfl⟩)
      fun _ k' h => ⟨k', h.steady, rfl⟩

/-! ## The copy -/

/-- The senders of the table are those of the abstract state. -/
theorem Kernel.Sound.sends_iff (hk : k.Sound a) : x ∈ a.queue d ↔
    (k.procTable x).pFlags = sending ∧ (k.procTable x).pSendto = d.val := by
  rw [hk.wellFormed.queued, hk.implements.waits_eq, (hk.implements.proc x).sendsTo]

theorem Kernel.Sound.queueInvariant (hk : k.Sound a) : QueueInvariant k := by
  have unique {d x} (h : k.InQueue d x) : x ∈ a.queue d := by
    obtain ⟨l, hl, hx⟩ := h
    rwa [hl.unique (hk.implements.queue d)] at hx
  refine ⟨fun d => ⟨a.queue d, hk.implements.queue d, hk.wellFormed.nodup d, fun x => hk.sends_iff⟩,
    fun d e x hd he => ?_, fun x hx => ?_⟩
  · have hd := (hk.wellFormed.queued x d).mp (unique hd)
    have he := (hk.wellFormed.queued x e).mp (unique he)
    exact Option.some.inj (hd.symm.trans he)
  · obtain ⟨d, b, hphase⟩ := (hk.implements.proc x).isSending.mp
      ((hk.implements.proc x).sendsTo.mpr hx)
    refine ⟨d, a.queue d, hk.implements.queue d, ?_⟩
    rw [hk.wellFormed.queued, State.waits, hphase]

/-- The kernel once the slot holds a copy of the parent's entry. -/
def Kernel.copied (k : Kernel) (pid child : Pid) : Kernel :=
  k.setProc child fun _ => k.procTable pid

theorem Kernel.next_copied (hx : x ≠ child.1) : (k.copied pid child).next x = k.next x := by
  simp [copied, next, hx]

/-- A harmless copy is one more process in the phase of the parent. -/
theorem Kernel.Sound.copied (hk : k.Sound a) (hfree : a.phase child.1 = .free)
    (h : k.Forkable pid child) : ∃ a', (k.copied pid child).Sound a' := by
  have hnone : a.waits child.1 = none := by simp [State.waits, hfree]
  have hmem (d : Pid) : child.1 ∉ a.queue d := hk.wellFormed.notMem hnone
  have hempty : a.queue child.1 = [] := by
    refine List.eq_nil_iff_forall_not_mem.mpr fun x hx => ?_
    exact h.unawaited x (hk.sends_iff.mp hx)
  have hwaits : ((a.setPhase child.1 (a.phase pid)).setPending child.1 (a.pending pid)).waits =
      a.waits := by
    funext x
    by_cases hx : x = child.1
    · subst hx
      have hparent : ∀ d b, a.phase pid ≠ .sending d b := fun d b hs =>
        h.notSending ((hk.implements.proc pid).sendsTo.mp
          ((hk.implements.proc pid).isSending.mpr ⟨d, b, hs⟩))
      cases hp : a.phase pid with
      | sending d b => exact absurd hp (hparent d b)
      | free => simp [State.waits, hfree]
      | idle => simp [State.waits, hfree]
      | receiving src b => simp [State.waits, hfree]
    · simp [State.waits, hx]
  refine ⟨(a.setPhase child.1 (a.phase pid)).setPending child.1 (a.pending pid), ⟨?_, ?_, ?_, ?_⟩,
    ⟨?_, hk.wellFormed.nodup, hwaits ▸ hk.wellFormed.acyclic, ?_, ?_⟩, hk.kReenter⟩
  · intro q
    by_cases hq : q = child.1
    · subst hq; simpa [Kernel.copied] using hk.implements.proc pid
    · simpa [Kernel.copied, hq] using hk.implements.proc q
  · intro d
    by_cases hd : d = child.1
    · subst hd
      simpa [Kernel.copied, hempty] using h.noQueue
    · have hsame (y : Pid) (hy : y ∈ a.queue d) : (k.copied pid child).next y = k.next y :=
        Kernel.next_copied fun hyc => hmem d (hyc ▸ hy)
      have hchain := (hk.implements.queue d).congr hsame
      simpa [Kernel.copied, hd] using hchain
  · intro q
    by_cases hq : q = child.1
    · subst hq; simpa [Kernel.copied] using hk.implements.pending pid
    · simpa [Kernel.copied, hq] using hk.implements.pending q
  · intro q hlt
    have hq : q ≠ child.1 := by
      rintro rfl
      exact absurd hlt (Nat.not_lt.mpr child.2)
    simpa [Kernel.copied, hq] using hk.implements.flat q hlt
  · intro x d
    rw [hwaits]
    exact hk.wellFormed.queued x d
  · intro d src b hd y hy
    by_cases hdc : d = child.1
    · subst hdc
      rw [State.queue_setPending, State.queue_setPhase, hempty] at hy
      simp at hy
    · exact hk.wellFormed.unmatched d src b (by simpa [hdc] using hd) y hy
  · intro d src b hd ht
    by_cases hdc : d = child.1
    · subst hdc
      simpa using hk.wellFormed.alert pid src b (by simpa using hd) ht
    · simpa [hdc] using hk.wellFormed.alert d src b (by simpa [hdc] using hd) ht

/-- No other copy leaves the queues right. -/
theorem Kernel.Sound.forkable (hk : k.Sound a) (hfree : a.phase child.1 = .free)
    (hpid : pid ≠ child.1) (h : QueueInvariant (k.copied pid child)) : k.Forkable pid child := by
  have hmem (d : Pid) : child.1 ∉ a.queue d := hk.wellFormed.notMem (by simp [State.waits, hfree])
  have hchild : (k.copied pid child).procTable child.1 = k.procTable pid := by
    simp [Kernel.copied]
  have hother {q : Pid} (hq : q ≠ child.1) :
      (k.copied pid child).procTable q = k.procTable q := by
    simp [Kernel.copied, hq]
  have hnone : (k.procTable pid).qSending = none := by
    by_contra hsome
    obtain ⟨x, hx⟩ := Option.ne_none_iff_exists'.mp hsome
    have first {d : Pid} (hd : (k.copied pid child).procTable d = k.procTable pid) :
        (k.copied pid child).InQueue d x := by
      obtain ⟨l, hl, -⟩ := h.queue d
      refine ⟨l, hl, ?_⟩
      rw [hd, hx] at hl
      obtain ⟨l', rfl, -⟩ := hl.eq_cons
      exact List.mem_cons_self
    exact hpid (h.apart _ _ x (first (hother hpid)) (first hchild))
  have hempty : ∀ x, ¬ (((k.copied pid child).procTable x).pFlags = sending ∧
      ((k.copied pid child).procTable x).pSendto = child.1.val) := by
    intro x hx
    obtain ⟨l, hl, -, hmem⟩ := h.queue child.1
    rw [hchild, hnone] at hl
    have := (hmem x).mpr hx
    rw [hl.eq_nil] at this
    simp at this
  refine ⟨hnone, fun hsending => ?_, fun x hx => ?_⟩
  · obtain ⟨d, b, hphase⟩ := (hk.implements.proc pid).isSending.mp
      ((hk.implements.proc pid).sendsTo.mpr hsending)
    have hto : (k.procTable pid).pSendto = d.val := by
      have := hk.implements.proc pid
      rw [hphase] at this
      exact this.2.2.2.2
    by_cases hd : d = child.1
    · subst hd
      exact hempty child.1 (by rw [hchild]; exact ⟨hsending, hto⟩)
    · obtain ⟨l, hl, -, hl'⟩ := h.queue d
      have hsame (y : Pid) (hy : y ∈ a.queue d) : (k.copied pid child).next y = k.next y :=
        Kernel.next_copied fun hyc => hmem d (hyc ▸ hy)
      have hchain := (hk.implements.queue d).congr hsame
      rw [hother hd] at hl
      have hin := (hl' child.1).mpr (by rw [hchild]; exact ⟨hsending, hto⟩)
      rw [hl.unique hchain] at hin
      exact hmem d hin
  · have hxc : x ≠ child.1 := by
      rintro rfl
      have hslot := hk.implements.proc child.1
      rw [hfree] at hslot
      exact absurd (hx.1.symm.trans hslot) (by decide)
    exact hempty x (by rw [hother hxc]; exact hx)

/-! ## Runs -/

/-- The kernel is sound, and the slot that MM is about to fill is free. -/
structure MmState.Queued (s : MmState) (o : Option Halt) : Prop where
  sound : ∃ a, s.kernel.Sound a ∧ ∀ child, s.pc.slot = some child → a.phase child.1 = .free
  runs : o ≠ some .diverge → s.kernel.Runs

variable {r : Option Halt}

theorem MmState.Queued.steady (h : s.Queued r) : s.kernel.Steady r := by
  obtain ⟨a, ha, -⟩ := h.sound
  exact ⟨⟨a, ha⟩, h.runs⟩

theorem Kernel.Steady.queued (h : s.kernel.Steady r) (hpc : s.pc.slot = none) : s.Queued r := by
  obtain ⟨⟨a, ha⟩, hr⟩ := h
  exact ⟨⟨a, ha, by simp [hpc]⟩, hr⟩

theorem Kernel.Steady.goto (h : s.kernel.Steady r) (pc : MmPc) (hpc : pc.slot = none) :
    (s.goto pc).Queued r := Kernel.Steady.queued (s := s.goto pc) h hpc

/-- A call of MM, before and after which it is not about to fill a slot. -/
theorem wp_mmSendrec_goto {function i : Int} {pc : MmPc} (hk : s.kernel.Steady none)
    (hready : s.kernel.pProcReady = taskMm) (hm : m ≠ 0)
    (hcall : function = send ∨ function = receive ∧ (i = anyTask ∨ i = taskFs.val))
    (hpc : s.pc.slot = none) (hpc' : pc.slot = none) :
    wp (do
      mmSendrec function i m
      goto pc) (fun _ t => t.Queued none) (fun e t => t.Queued (some e)) s := by
  rw [wp_bind]
  refine (wp_mmSendrec hk hready hm hcall).mono ?_ ?_
  · rintro _ t ⟨k', hk', rfl⟩
    exact Kernel.Steady.goto (s := { s with kernel := k' }) hk' pc hpc'
  · rintro halt t ⟨k', hk', rfl⟩
    exact Kernel.Steady.queued (s := { s with kernel := k' }) hk' hpc

/-- Names, parents and segments of a child are nothing to message passing. -/
theorem Kernel.Sound.relabel (hk : k.Sound a) {l : Fin 2 → Descriptor} {n : String} {i : Int}
    (hf : f (k.procTable child.1) = { k.procTable child.1 with ldts := l, name := n, pParent := i }) :
    (k.setProc child.1 f).Sound a where
  implements :=
    { proc := fun q => by
        by_cases hq : q = child.1
        · subst hq
          have := hk.implements.proc child.1
          rw [Kernel.setProc_self, hf]
          revert this
          cases a.phase child.1 <;> exact id
        · simpa [hq] using hk.implements.proc q
      queue := fun d => by
        rw [Kernel.next_setProc (by rw [hf])]
        by_cases hd : d = child.1
        · subst hd; simpa [hf] using hk.implements.queue child.1
        · simpa [hd] using hk.implements.queue d
      pending := fun q => by
        by_cases hq : q = child.1
        · subst hq; simpa [hf] using hk.implements.pending child.1
        · simpa [hq] using hk.implements.pending q
      flat := fun q hlt => by
        have hq : q ≠ child.1 := by
          rintro rfl
          exact absurd hlt (Nat.not_lt.mpr child.2)
        simpa [hq] using hk.implements.flat q hlt }
  wellFormed := hk.wellFormed
  kReenter := hk.kReenter

theorem Kernel.Steady.relabel (hk : k.Steady none) {l : Fin 2 → Descriptor} {n : String} {i : Int}
    (hf : f (k.procTable child.1) = { k.procTable child.1 with ldts := l, name := n, pParent := i }) :
    (k.setProc child.1 f).Steady none := by
  obtain ⟨⟨a, ha⟩, hr⟩ := hk
  have hset := ha.relabel hf
  exact ⟨⟨a, hset⟩, fun _ => hset.implements.runs (ha.implements.idle_of_runs (hr (by simp)))⟩

/-- A free slot is what the loop of `do_fork` finds. -/
theorem Kernel.Sound.freeEntry (hk : k.Sound a) (h : freeEntry k.procTable = some p) :
    a.phase p = .free := by
  have hflags : (k.procTable p).pFlags = freeSlot := by simpa using List.find?_some h
  have hproc := hk.implements.proc p
  cases hphase : a.phase p with
  | free => rfl
  | idle => simp [hphase, Proc.Implements, hflags] at hproc
  | sending d b => simp [hphase, Proc.Implements, hflags] at hproc
  | receiving src b => simp [hphase, Proc.Implements, hflags] at hproc

theorem wp_initSegment_goto {idx : Fin 2} {base : BitVec 32} {pc : MmPc} (hk : s.kernel.Steady none)
    (hpc : pc.slot = none) : wp (do
      initSegment child idx base
      goto pc) (fun _ t => t.Queued none) (fun e t => t.Queued (some e)) s := by
  rw [wp_bind, wp_initSegment, wp_goto]
  generalize hf : (fun p : Proc => { p with
      ldts := Function.update p.ldts idx (initDescriptor base
        (BitVec.ofNat 32 ((procImageSizeDefault - 1) >>> limit4kShift))
        (userSegment (if idx = indexLdtC then daC else daDrw))) }) = f
  have hset : (s.kernel.setProc child.1 f).Steady none := hk.relabel (by rw [← hf])
  exact Kernel.Steady.goto (s := { s with kernel := s.kernel.setProc child.1 f }) hset pc hpc

theorem wp_forkPc (h : s.Queued none) (hready : s.kernel.pProcReady = taskMm) {src : Int}
    {pc : ForkPc} (hpc : s.pc = .fork src pc) (hsafe : pc.Safe L s.kernel) :
    wp (pc.run L src) (fun _ t => t.Queued none) (fun e t => t.Queued (some e)) s := by
  have halted (e : Halt) : s.Queued (some e) := ⟨h.sound, fun _ => h.runs (by simp)⟩
  cases pc with
  | search =>
    rw [ForkPc.run, wp_bind, wp_get]
    cases hfree : freeEntry s.kernel.procTable with
    | none => exact h.steady.goto _ rfl
    | some c =>
      simp only []
      split
      · obtain ⟨a, ha, -⟩ := h.sound
        refine ⟨⟨a, ha, ?_⟩, h.runs⟩
        rintro child hchild
        obtain rfl := Option.some.inj hchild
        exact ha.freeEntry hfree
      · exact halted _
  | copyEntry child =>
    rw [ForkPc.run, wp_bind, wp_get, wp_bind, procAt]
    cases hpid : pidOf (s.kernel.msgs L.mmMsg).source with
    | none => exact halted _
    | some pid =>
      obtain ⟨a, ha, hslot⟩ := h.sound
      rw [wp_pure, wp_bind, wp_onKernel, wp_setProc, wp_goto]
      obtain ⟨a', ha'⟩ := ha.copied (hslot child (by rw [hpc]; rfl)) (hsafe pid hpid)
      have hne : taskMm ≠ child.1 := fun heq => absurd child.2 (by rw [← heq]; decide)
      have hruns : (s.kernel.copied pid child.1).Runs := by
        rw [Kernel.Runs, Kernel.copied, Kernel.setProc_pProcReady, hready, Kernel.setProc_of_ne hne,
          ← hready]
        exact h.runs (by simp)
      exact ⟨⟨a', ha', fun _ hx => by cases hx⟩, fun _ => hruns⟩
  | nameEntry child pid =>
    refine wp_nameEntry hsafe ?_
    have hnamed : (s.kernel.setProc child.1 fun p => { p with
        pParent := pid.val
        name := childName (s.kernel.procTable pid).name child }).Steady none := h.steady.relabel rfl
    exact Kernel.Steady.goto (s := { s with kernel := _ }) hnamed (.fork src (.allocMem child pid)) rfl
  | allocMem child pid =>
    simp only [ForkPc.run, wp_bind, wp_get, wp_assert]
    refine ⟨fun _ => wp_allocMem halted fun _ _ _ => ?_, fun _ => halted _⟩
    exact h.steady.goto _ rfl
  | copyImage child pid childBase callerBase done size =>
    rw [ForkPc.run, wp_ite]
    refine ⟨fun _ => h.steady.goto _ rfl, fun _ => ?_⟩
    exact Kernel.Steady.goto (s := s.copyByte child _ _) h.steady _ rfl
  | initCode child pid childBase => exact wp_initSegment_goto h.steady rfl
  | initData child pid childBase => exact wp_initSegment_goto h.steady rfl
  | sendFs child =>
    rw [ForkPc.run, wp_bind, wp_setFields]
    exact wp_mmSendrec_goto (h.steady.setMsg _ _) hready L.msg2fs_ne_zero (.inl rfl)
      (by rw [hpc]; rfl) rfl
  | receiveFs child =>
    exact wp_mmSendrec_goto h.steady hready L.msg2fs_ne_zero (.inr ⟨rfl, .inr rfl⟩)
      (by rw [hpc]; rfl) rfl
  | resume child =>
    rw [ForkPc.run, wp_bind, wp_setFields, wp_bind, wp_setFields]
    exact wp_mmSendrec_goto ((h.steady.setMsg _ _).setMsg _ _) hready L.m_ne_zero (.inl rfl)
      (by rw [hpc]; rfl) rfl

theorem wp_mmPc (h : s.Queued none) (hready : s.kernel.pProcReady = taskMm)
    (hsafe : s.pc.Safe L s.kernel) :
    wp (s.pc.run L) (fun _ t => t.Queued none) (fun e t => t.Queued (some e)) s := by
  have halted (e : Halt) : s.Queued (some e) := ⟨h.sound, fun _ => h.runs (by simp)⟩
  cases hpc : s.pc with
  | receive =>
    rw [MmPc.run, wp_bind, wp_setFields]
    exact wp_mmSendrec_goto (h.steady.setMsg _ _) hready L.mmMsg_ne_zero (.inr ⟨rfl, .inl rfl⟩)
      (by rw [hpc]; rfl) rfl
  | dispatch =>
    rw [MmPc.run, wp_bind, wp_get, wp_bind, wp_assert]
    exact ⟨fun _ => h.steady.goto _ rfl, fun _ => halted _⟩
  | fork src pc =>
    rw [hpc] at hsafe
    exact wp_forkPc h hready hpc hsafe
  | reply src retval =>
    rw [MmPc.run, wp_bind, wp_setFields, wp_bind, wp_setFields]
    exact wp_mmSendrec_goto ((h.steady.setMsg _ _).setMsg _ _) hready L.mmMsg_ne_zero (.inl rfl)
      (by rw [hpc]; rfl) rfl

theorem MmState.Initial.queued (h : s.Initial) : s.Queued none := by
  obtain ⟨⟨kBase, kLimit, hk⟩, hpc, -⟩ := h
  have hsound : s.kernel.Sound initialIpc := ⟨hk.implements, initialIpc_wellFormed, hk.kReenter⟩
  refine Kernel.Steady.queued ⟨⟨_, hsound⟩, fun _ => ?_⟩ (by rw [hpc]; rfl)
  rw [Kernel.Runs, hk.pProcReady, hk.procTable]
  exact (initProc_of_native _ _ (by decide)).1.1

theorem reached_queued {o : Option Halt} (hr : (mmMachine L).Reached (SafeEvent L) s o) :
    s.Queued o := by
  refine hr.invariant (I := MmState.Queued) (fun s (h : s.Initial) => h.queued) ?_
  rintro s e - hs ⟨hv, hsafe⟩
  refine exec_of_wp (P := MmState.Queued) ?_
  cases e with
  | kernel e =>
    obtain ⟨a, ha, hslot⟩ := hs.sound
    rw [MmEvent.run, wp_onKernel]
    have hfree {k' a'} (h : e.Led s.kernel a k' a') (child) (hc : s.pc.slot = some child) :=
      h.free ha.wellFormed (ha.implements.idle_of_runs (hs.runs (by simp))) (hslot child hc)
    refine wp_event ha (hs.runs (by simp)) hv.1 (fun k' a' h hr => ?_) fun k' a' halt h hr => ?_
    · exact ⟨⟨a', h.sound, hfree h⟩, fun _ => hr⟩
    · exact ⟨⟨a', h.sound, hfree h⟩, fun hne => hr fun heq => hne (by rw [heq])⟩
  | mm =>
    rw [MmEvent.run, wp_bind, wp_get]
    exact wp_mmPc hs hv hsafe

/-- In every run of harmless forks the queues are right in every state; and when MM is about to
copy the entry of a parent, they are right after the copy exactly if it is harmless. -/
theorem fork_keeps_queues {o : Option Halt} (hr : (mmMachine L).Reached (SafeEvent L) s o) :
    QueueInvariant s.kernel ∧
    ∀ src child pid, o = none → s.pc = .fork src (.copyEntry child) →
      pidOf (s.kernel.msgs L.mmMsg).source = some pid → (s.kernel.procTable pid).pFlags ≠ freeSlot →
      (QueueInvariant ((mmMachine L).step .mm s).1.kernel ↔ s.kernel.Forkable pid child) := by
  obtain ⟨a, ha, hslot⟩ := (reached_queued hr).sound
  refine ⟨ha.queueInvariant, fun src child pid _ hpc hpid hflags => ?_⟩
  have hfree := hslot child (by rw [hpc]; rfl)
  have hstep : ((mmMachine L).step .mm s).1.kernel = s.kernel.copied pid child := by
    refine exec_of_wp (P := fun (t : MmState) _ => t.kernel = s.kernel.copied pid child) ?_
    rw [MmEvent.run, wp_bind, wp_get, hpc, MmPc.run, ForkPc.run, wp_bind, wp_get, wp_bind, procAt,
      hpid, wp_pure, wp_bind, wp_onKernel, wp_setProc, wp_goto]
    rfl
  have hne : pid ≠ child.1 := by
    rintro rfl
    have hproc := ha.implements.proc child.1
    rw [hfree] at hproc
    exact hflags hproc
  rw [hstep]
  refine ⟨ha.forkable hfree hne, fun h => ?_⟩
  obtain ⟨a', ha'⟩ := ha.copied hfree h
  exact ha'.queueInvariant

/-! ## Two forks -/

instance : Decidable (k.Forkable p d) :=
  decidable_of_iff ((k.procTable p).qSending = none ∧ (k.procTable p).pFlags ≠ sending ∧
      ∀ x, ¬ ((k.procTable x).pFlags = sending ∧ (k.procTable x).pSendto = d.val))
    ⟨fun ⟨h₁, h₂, h₃⟩ => ⟨h₁, h₂, h₃⟩, fun ⟨h₁, h₂, h₃⟩ => ⟨h₁, h₂, h₃⟩⟩

instance : (pc : ForkPc) → Decidable (pc.Safe L k)
  | .copyEntry _ => inferInstanceAs (Decidable (∀ _, _ → _))
  | .nameEntry _ _ => inferInstanceAs (Decidable (_ < _))
  | .search | .allocMem _ _ | .copyImage _ _ _ _ _ _ | .initCode _ _ _ | .initData _ _ _
  | .sendFs _ | .receiveFs _ | .resume _ => isTrue trivial

instance : (pc : MmPc) → Decidable (pc.Safe L k)
  | .fork _ pc => inferInstanceAs (Decidable (pc.Safe L k))
  | .receive | .dispatch | .reply _ _ => isTrue trivial

instance : (e : MmEvent) → Decidable (e.Safe L s)
  | .kernel _ => isTrue trivial
  | .mm => inferInstanceAs (Decidable (s.pc.Safe L s.kernel))

instance : Decidable (SafeEvent L s e') := inferInstanceAs (Decidable (_ ∧ _))

end

/-- INIT waits for the answer, and MM finds a slot. -/
def waitingFork : List MmEvent := forkRequest ++ [.kernel (.sendrec receive 4 0x9400), .mm, .mm]

/-- MM has found a slot for the child of INIT, which waits for the answer. -/
def MmState.found : MmState × Option Halt :=
  ((mmMachine .low).run (SafeEvent .low) waitingFork
    (MmState.begin, none)).get (by decide +kernel)

theorem MmState.found_reached :
    (mmMachine .low).Reached (SafeEvent .low) MmState.found.1 MmState.found.2 :=
  .of_get (.start MmState.begin_initial) _

theorem fork_keeps_queues_found : QueueInvariant MmState.found.1.kernel ∧
    (QueueInvariant ((mmMachine .low).step .mm MmState.found.1).1.kernel ↔
      MmState.found.1.kernel.Forkable 5 9) :=
  have h := fork_keeps_queues MmState.found_reached
  ⟨h.1, h.2 5 ⟨9, by decide⟩ 5 (by decide +kernel) (by decide +kernel) (by decide +kernel)
    (by decide +kernel)⟩

/-- SYS sends to INIT, which waits for MM alone, before MM copies INIT's entry. -/
def queuedFork : List MmEvent := [.kernel (.sendrec receive anyTask 0x9000),
  .kernel (.sendrec send 5 0x9100), .kernel (.sendrec receive interrupt 0x9200),
  .kernel (.sendrec receive anyTask 0x9300), .mm,
  .kernel (.write 0x9400 { type := MsgType.fork }), .kernel (.sendrec send 4 0x9400),
  .kernel (.sendrec receive 4 0x9400), .mm, .mm, .mm]

theorem fork_breaks_queues :
    ¬ ∀ s o, (mmMachine .low).Reached ValidMm s o → QueueInvariant s.kernel := by
  intro hall
  have hrun : ((mmMachine .low).run ValidMm queuedFork (MmState.begin, none)).map
      (fun r => ((r.1.kernel.procTable 9).qSending, (r.1.kernel.procTable 1).pSendto)) =
      some (some 1, 5) := by decide +kernel
  obtain ⟨⟨s, o⟩, hr, hs⟩ := Option.map_eq_some_iff.mp hrun
  obtain ⟨hhead, hto⟩ := Prod.mk.inj hs
  obtain ⟨l, hl, -, hmem⟩ := (hall s o (.of_run (.start MmState.begin_initial) hr)).queue 9
  rw [hhead] at hl
  obtain ⟨l', rfl, -⟩ := hl.eq_cons
  have hnine := (hmem 1).mp List.mem_cons_self
  rw [hto] at hnine
  exact absurd hnine.2 (by decide)

end Dlos
