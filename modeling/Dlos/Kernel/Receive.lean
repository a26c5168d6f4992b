import Dlos.Kernel.History

/-!
# RECEIVE statement by statement

`sys_call` enables interrupts before it calls `sys_sendrec`, so the statements of `msg_receive`
are steps between which an interrupt may come. `Point` says where a RECEIVE from `ANY` or
`INTERRUPT` has got to; without interrupts the steps make up `msg_receive`. No interrupt is lost
as long as none comes between the decision to sleep and the end of the call.
-/

namespace Dlos

open Program Rendezvous

/-! ## The steps of a call -/

/-- A place in `msg_receive`, by what comes next. -/
inductive Point
  /-- The test of `has_int_msg`. -/
  | test
  | copy
  /-- `has_int_msg = 0` -/
  | clear
  | taken
  /-- The test of the queue. -/
  | queue
  | take (from_ : Pid) (prev : Option Pid)
  /-- `p_flags |= RECEIVING` -/
  | flags
  /-- `p_msg = m` -/
  | msg
  /-- `p_recvfrom = src` -/
  | recvfrom
  | sleep
  | closing
  deriving DecidableEq

/-- One step of `msg_receive`, to the next place or to the end. -/
def Point.run (who : Pid) (src : Int) (m : Addr) : Point → KM (Option Point)
  | test => do
    let k ← get
    if (k.procTable who).hasIntMsg ≠ 0 ∧ (src = anyTask ∨ src = interrupt) then pure (some copy)
    else pure (some queue)
  | copy => do
    assert "m" (m ≠ 0)
    let dst ← va2la who m
    modify fun k => k.put ⟨who, dst, interrupt, hardIntMessage⟩
    pure (some clear)
  | clear => do
    setProc who ({ · with hasIntMsg := 0 })
    pure (some taken)
  | taken => do
    let k ← get
    assert "p_who_wanna_recv->p_flags == 0" ((k.procTable who).pFlags = 0)
    assert "p_who_wanna_recv->p_msg == 0" ((k.procTable who).pMsg = 0)
    assert "p_who_wanna_recv->p_sendto == NO_TASK" ((k.procTable who).pSendto = noTask)
    assert "p_who_wanna_recv->has_int_msg == 0" ((k.procTable who).hasIntMsg = 0)
    pure none
  | queue => do
    match ← findSender who src with
    | some (from_, prev) => pure (some (take from_ prev))
    | none => pure (some flags)
  | take from_ prev => do
    takeFrom who from_ prev m
    pure none
  | flags => do
    setProc who fun p => { p with pFlags := p.pFlags ||| receiving }
    pure (some msg)
  | msg => do
    setProc who ({ · with pMsg := m })
    pure (some recvfrom)
  | recvfrom => do
    setProc who ({ · with pRecvfrom := src })
    pure (some sleep)
  | sleep => do
    block who
    pure (some closing)
  | closing => do
    let k ← get
    assert "p_who_wanna_recv->p_flags == RECEIVING" ((k.procTable who).pFlags = receiving)
    assert "p_who_wanna_recv->p_msg != 0" ((k.procTable who).pMsg ≠ 0)
    assert "p_who_wanna_recv->p_recvfrom != NO_TASK" ((k.procTable who).pRecvfrom ≠ noTask)
    assert "p_who_wanna_recv->p_sendto == NO_TASK" ((k.procTable who).pSendto = noTask)
    assert "p_who_wanna_recv->has_int_msg == 0" ((k.procTable who).hasIntMsg = 0)
    pure none

/-- Up to `n` steps without an interrupt. -/
def Point.follow (who : Pid) (src : Int) (m : Addr) : Nat → Point → KM Unit
  | 0, _ => pure ()
  | n + 1, at_ => do
    match ← at_.run who src m with
    | some next => next.follow who src m n
    | none => pure ()

section

variable {k : Kernel} {who : Pid} {src : Int} {m : Addr} {E : Halt → Kernel → Prop}
  {Q : Unit → Kernel → Prop}

theorem wp_follow_copy :
    wp (Point.follow who src m 6 .copy) Q E k ↔ wp (takeInterrupt who m) Q E k := by
  simp only [Point.follow, Point.run, takeInterrupt, wp_bind, wp_pure]

theorem wp_follow_flags :
    wp (Point.follow who src m 5 .flags) Q E k ↔ wp (awaitSender who src m) Q E k := by
  simp only [Point.follow, Point.run, awaitSender, wp_bind, wp_pure]

theorem wp_follow_queue :
    wp (Point.follow who src m 6 .queue) Q E k ↔ wp (do
      match ← findSender who src with
      | some (from_, prev) => takeFrom who from_ prev m
      | none => awaitSender who src m) Q E k := by
  rw [Point.follow, Point.run, wp_bind, wp_bind, wp_bind]
  refine iff_of_eq (congrFun (congrFun (congrArg _ (funext fun r => funext fun t => ?_)) _) _)
  cases r with
  | some found => simp only [wp_bind, wp_pure, Point.follow, Point.run]
  | none => simpa only [wp_pure] using propext wp_follow_flags

/-- Without interrupts the steps are those of `msg_receive`. -/
theorem wp_msgReceive_follow {Q : Int → Kernel → Prop} :
    wp (msgReceive who src m) Q E k ↔ wp (do
      assert "proc2pid(p_who_wanna_recv) != src" ((who.val : Int) ≠ src)
      Point.follow who src m 7 .test
      pure 0) Q E k := by
  rw [msgReceive, wp_bind, wp_get, wp_bind, wp_bind, wp_assert, wp_assert]
  refine and_congr (forall_congr' fun _ => ?_) Iff.rfl
  rw [wp_bind, Point.follow, wp_bind, Point.run, wp_bind, wp_get, wp_ite, wp_ite, wp_pure, wp_pure]
  refine and_congr (forall_congr' fun _ => ?_) (forall_congr' fun _ => ?_)
  · exact wp_bind.trans wp_follow_copy.symm
  · rw [wp_follow_queue, wp_bind, wp_bind]
    refine iff_of_eq (congrFun (congrFun (congrArg _ (funext fun r => funext fun t => ?_)) _) _)
    cases r with
    | some found => exact propext wp_bind
    | none => exact propext wp_bind

end

/-! ## Calls and interrupts -/

/-- A RECEIVE that is under way. -/
structure RecvCall where
  who : Pid
  src : Int
  m : Addr
  at_ : Point

/-- The kernel with the RECEIVE that is under way, if there is one. -/
structure Wake where
  kernel : Kernel
  call : Option RecvCall

/-- `sys_sendrec` up to the first test of `msg_receive`. -/
def enterReceive (src : Int) (m : Addr) (p : Pid) : KM Unit := do
  let k ← get
  assert "k_reenter == 0" (k.kReenter = 0)
  assert ("(src_dest >= 0 && src_dest < NR_TASKS + NR_PROCS) || " ++
      "src_dest == ANY || src_dest == INTERRUPT")
    ((0 ≤ src ∧ src < (nrTasks + nrProcs : Nat)) ∨ src = anyTask ∨ src = interrupt)
  let mla ← va2la p m
  modify fun k => k.setMsg mla { k.msgs mla with source := p.val }
  assert "mla->source != src_dest" ((p.val : Int) ≠ src)
  assert "proc2pid(p_who_wanna_recv) != src" ((p.val : Int) ≠ src)

/-- A call of `sys_sendrec` is its entry and the steps. -/
theorem wp_sysSendrec_follow {k : Kernel} {src : Int} {m : Addr} {p : Pid} {Q : Int → Kernel → Prop}
    {E : Halt → Kernel → Prop} : wp (sysSendrec receive src m p) Q E k ↔ wp (do
      enterReceive src m p
      Point.follow p src m 7 .test
      pure 0) Q E k := by
  have hne : receive ≠ send := by decide
  simp only [sysSendrec, enterReceive, if_neg hne, if_pos, wp_bind, wp_msgReceive_follow]

/-- The call has not found that it must sleep; nor is it between `has_int_msg = 0` and the
assertion that it is 0. -/
def RecvCall.Early (k : Kernel) (c : RecvCall) : Prop :=
  match c.at_ with
  | .test => True
  | .copy => True
  | .clear => True
  | .take _ _ => True
  | .queue => c.src = anyTask ∧ (k.procTable c.who).qSending ≠ none
  | _ => False

inductive WakeEvent
  /-- An event while no RECEIVE is under way. -/
  | kernel (e : Event)
  /-- The running process calls RECEIVE. -/
  | enter (src : Int) (m : Addr)
  /-- One step of the RECEIVE under way. -/
  | step
  /-- An interrupt for the process whose RECEIVE is under way. -/
  | interrupt

namespace WakeEvent

/-- What happens to the kernel, and where the RECEIVE under way has got to. -/
def run (w : Wake) : WakeEvent → KM (Option RecvCall)
  | kernel e => do
    e.run
    pure w.call
  | enter src m => do
    enterReceive src m w.kernel.pProcReady
    pure (some ⟨w.kernel.pProcReady, src, m, .test⟩)
  | step =>
    match w.call with
    | none => pure none
    | some c => do
      let next ← c.at_.run c.who c.src c.m
      pure (next.map fun at_ => { c with at_ })
  | interrupt => do
    (w.call.map (·.who)).forM informInt
    pure w.call

/-- Between calls any valid event; in a call of a task its steps and its interrupts. -/
def Valid (w : Wake) : WakeEvent → Prop
  | kernel e => w.call = none ∧ e.Valid w.kernel
  | enter src m => w.call = none ∧ (src = anyTask ∨ src = Dlos.interrupt) ∧ m ≠ 0
  | step => True
  | interrupt => ∀ c ∈ w.call, c.who.val < nrTasks

/-- No interrupt comes once a call has found none and no message. -/
def Timely (w : Wake) : WakeEvent → Prop
  | interrupt => ∀ c ∈ w.call, c.Early w.kernel
  | _ => True

end WakeEvent

def Wake.step (e : WakeEvent) (w : Wake) : Wake × Option Halt :=
  match e.run w w.kernel with
  | .ok call k => (⟨k, call⟩, none)
  | .error halt k => (⟨k, w.call⟩, some halt)

def wakeMachine : Machine Wake WakeEvent Halt where
  initial w := (∃ kBase kLimit, KernelMain kBase kLimit w.kernel) ∧ w.call = none
  step := Wake.step

/-! ## The invariant -/

/-- No process sleeps for an interrupt that is pending, and each that sleeps for interrupts has a
buffer. -/
structure NoInterruptLost (k : Kernel) : Prop where
  alert : ∀ p, (k.procTable p).isReceiving → (k.procTable p).pRecvfrom = interrupt ∨
    (k.procTable p).pRecvfrom = anyTask → (k.procTable p).hasIntMsg = 0
  buffer : ∀ p, (k.procTable p).isReceiving → (k.procTable p).pRecvfrom = interrupt ∨
    (k.procTable p).pRecvfrom = anyTask → (k.procTable p).pMsg ≠ 0

/-- The caller has not begun to fall asleep. -/
structure Awake (who : Pid) (s : Ipc) (k : Kernel) : Prop where
  implements : k.Implements s
  wellFormed : s.WellFormed
  idle : s.phase who = .idle
  ready : k.pProcReady = who
  kReenter : k.kReenter = 0

/-- The caller has found nothing to receive. -/
structure Empty (who : Pid) (src : Source Pid) (s : Ipc) (k : Kernel) : Prop
    extends Awake who s k where
  quiet : ¬ s.pending who
  nothing : s.offer who src = none

structure Asleep (who : Pid) (src : Source Pid) (m : Addr) (s : Ipc) (k : Kernel) : Prop where
  implements : k.Implements s
  wellFormed : s.WellFormed
  phase : s.phase who = .receiving src m
  quiet : ¬ s.pending who
  kReenter : k.kReenter = 0

/-- What holds at each place of a call. -/
def Point.Holds (who : Pid) (src : Source Pid) (m : Addr) (s : Ipc) (k : Kernel) : Point → Prop
  | test => Awake who s k
  | copy => Awake who s k
  | clear => Awake who s k
  | taken => Awake who s k ∧ ¬ s.pending who
  | queue => Awake who s k ∧ (s.pending who → s.offer who src ≠ none)
  | take x prev => Awake who s k ∧ ∃ b l₁ l₂, s.offer who src = some (x, b) ∧
      s.queue who = l₁ ++ x :: l₂ ∧ prev = l₁.getLast?
  | flags => Empty who src s k
  | msg => ∃ k₀, Empty who src s k₀ ∧
      k = k₀.setProc who fun p => { p with pFlags := p.pFlags ||| receiving }
  | recvfrom => ∃ k₀, Empty who src s k₀ ∧
      k = k₀.setProc who fun p => { p with pFlags := p.pFlags ||| receiving, pMsg := m }
  | sleep => Asleep who src m s k
  | closing => Asleep who src m s k ∧ k.Runs

/-- Between calls message passing is in order, in a call up to what the call has done. -/
def Wake.Inv (w : Wake) : Prop :=
  match w.call with
  | none => ∃ s, w.kernel.Implements s ∧ s.WellFormed ∧ w.kernel.Runs ∧ w.kernel.kReenter = 0
  | some c => c.m ≠ 0 ∧ ∃ src s, src.TakesInterrupt ∧ c.src = sourceCode src ∧
      c.at_.Holds c.who src c.m s w.kernel

section

variable {k k' k₀ : Kernel} {s : Ipc} {c : RecvCall} {src : Source Pid} {w : Wake} {e : WakeEvent}
  {x who : Pid} {prev : Option Pid} {o : Option Halt} {p : Pid} {m : Addr} {at_ : Point}

theorem Kernel.Implements.noInterruptLost (hk : k.Implements s) (hs : s.WellFormed) :
    NoInterruptLost k := by
  have key (p : Pid) (hr : (k.procTable p).isReceiving)
      (hfrom : (k.procTable p).pRecvfrom = interrupt ∨ (k.procTable p).pRecvfrom = anyTask) :
      (k.procTable p).hasIntMsg = 0 ∧ (k.procTable p).pMsg ≠ 0 := by
    have hp := hk.proc p
    obtain ⟨src, b, hphase⟩ := hp.isReceiving.mp hr
    rw [hphase] at hp
    obtain ⟨-, rfl, hb, hsrc, -⟩ := hp
    rw [hsrc, sourceCode_takesInterrupt] at hfrom
    have hquiet := hs.alert p src _ hphase hfrom
    rw [← hk.pending, not_not] at hquiet
    exact ⟨hquiet, hb⟩
  exact ⟨fun p hr hfrom => (key p hr hfrom).1, fun p hr hfrom => (key p hr hfrom).2⟩

theorem Awake.runs (h : Awake who s k) : k.Runs :=
  h.implements.runs (by rw [h.ready]; exact h.idle)

theorem Awake.noInterruptLost (h : Awake who s k) : NoInterruptLost k :=
  h.implements.noInterruptLost h.wellFormed

theorem Asleep.noInterruptLost (h : Asleep who src m s k) : NoInterruptLost k :=
  h.implements.noInterruptLost h.wellFormed

/-- A process that has become RECEIVING but not said from whom. -/
theorem Empty.noInterruptLost (h : Empty who src s k₀) {b : Addr} :
    NoInterruptLost (k₀.setProc who fun p =>
      { p with pFlags := p.pFlags ||| receiving, pMsg := b }) := by
  have hsafe := h.toAwake.noInterruptLost
  have hidle := h.implements.proc who
  rw [h.idle] at hidle
  have hnobody : ¬ (noTask = interrupt ∨ noTask = anyTask) := by decide
  constructor
  · intro p hr hfrom
    by_cases hp : p = who
    · subst hp
      rw [Kernel.setProc_self] at hfrom
      exact absurd (hidle.2.2.1 ▸ hfrom) hnobody
    · rw [Kernel.setProc_of_ne hp] at hr hfrom ⊢
      exact hsafe.alert p hr hfrom
  · intro p hr hfrom
    by_cases hp : p = who
    · subst hp
      rw [Kernel.setProc_self] at hfrom
      exact absurd (hidle.2.2.1 ▸ hfrom) hnobody
    · rw [Kernel.setProc_of_ne hp] at hr hfrom ⊢
      exact hsafe.buffer p hr hfrom

theorem Point.Holds.noInterruptLost (h : at_.Holds who src m s k) : NoInterruptLost k := by
  cases at_ with
  | test => exact Awake.noInterruptLost h
  | copy => exact Awake.noInterruptLost h
  | clear => exact Awake.noInterruptLost h
  | taken => exact h.1.noInterruptLost
  | queue => exact h.1.noInterruptLost
  | take x prev => exact h.1.noInterruptLost
  | flags => exact (Empty.toAwake h).noInterruptLost
  | msg =>
    obtain ⟨k₀, hempty, rfl⟩ := h
    exact hempty.noInterruptLost
  | recvfrom =>
    obtain ⟨k₀, hempty, rfl⟩ := h
    exact hempty.noInterruptLost
  | sleep => exact Asleep.noInterruptLost h
  | closing => exact h.1.noInterruptLost

theorem Wake.Inv.noInterruptLost (h : w.Inv) : NoInterruptLost w.kernel := by
  obtain ⟨k, call⟩ := w
  cases call with
  | none =>
    obtain ⟨s, hk, hs, -⟩ := h
    exact hk.noInterruptLost hs
  | some c =>
    obtain ⟨-, src, s, -, -, hat⟩ := h
    exact hat.noInterruptLost

/-- The caller has fallen asleep. -/
theorem Empty.asleep (h : Empty who src s k₀) (hm : m ≠ 0) :
    Asleep who src m (s.receive who src m).1 (k₀.setProc who fun p =>
      { p with pFlags := p.pFlags ||| receiving, pMsg := m, pRecvfrom := sourceCode src }) := by
  have hidle := h.implements.proc who
  rw [h.idle] at hidle
  have hreceive : (s.receive who src m).1 = s.setPhase who (.receiving src m) := by
    unfold State.receive
    simp [h.quiet, h.nothing]
  have hwf : (s.receive who src m).1.WellFormed := h.wellFormed.receive h.idle
  rw [hreceive] at hwf ⊢
  refine ⟨h.implements.setPhase ?_ ⟨rfl, rfl⟩ rfl rfl, hwf, by simp, h.quiet, h.kReenter⟩
  exact ⟨by simp [hidle.1], rfl, hm, rfl, hidle.2.2.2⟩

/-- Each step leads to what holds at the next place, or the scheduler finds nobody. -/
theorem Point.Holds.step (h : at_.Holds who src m s k) (ht : src.TakesInterrupt) (hm : m ≠ 0) :
    wp (at_.run who (sourceCode src) m)
      (fun next k' => Wake.Inv ⟨k', next.map fun at_ => ⟨who, sourceCode src, m, at_⟩⟩)
      (fun halt k' => halt = .diverge ∧ NoInterruptLost k') k := by
  have done (s' : Ipc) {k' : Kernel} (h : Awake who s' k') : Wake.Inv ⟨k', none⟩ :=
    ⟨s', h.implements, h.wellFormed, h.runs, h.kReenter⟩
  have goto (at_ : Point) (s' : Ipc) {k' : Kernel} (h : at_.Holds who src m s' k') :
      Wake.Inv ⟨k', some ⟨who, sourceCode src, m, at_⟩⟩ := ⟨hm, src, s', ht, rfl, h⟩
  have next (at_ : Point) {k' : Kernel} (h : at_.Holds who src m s k') := goto at_ s h
  have hcode : sourceCode src = anyTask ∨ sourceCode src = interrupt :=
    Or.comm.mp (sourceCode_takesInterrupt.mpr ht)
  cases at_ with
  | test =>
    have h : Awake who s k := h
    simp only [run, wp_bind, wp_get, wp_ite, wp_pure, Option.map_some, h.implements.pending, hcode,
      and_true]
    exact ⟨fun _ => next .copy h,
      fun hp => next .queue ⟨h, fun hp' => absurd hp' hp⟩⟩
  | copy =>
    have h : Awake who s k := h
    rw [run, wp_bind, wp_assert_of hm, wp_bind, h.implements.wp_va2la, wp_bind, wp_modify, wp_pure]
    exact next .clear ⟨h.implements.congr Kernel.put_procTable, h.wellFormed, h.idle,
      h.ready, h.kReenter⟩
  | clear =>
    have h : Awake who s k := h
    rw [run, wp_bind, wp_setProc, wp_pure]
    refine goto .taken (s.setPending who False)
      ⟨⟨?_, ?_, h.idle, h.ready, h.kReenter⟩, by simp⟩
    · exact h.implements.setPending (by simp)
    · exact h.wellFormed.setPending (by simp)
  | taken =>
    obtain ⟨h, hquiet⟩ := h
    have hp := h.implements.proc who
    rw [h.idle] at hp
    rw [← h.implements.pending, not_not] at hquiet
    simp only [run, wp_bind, wp_get, wp_assert_of, wp_pure, hp.1, hp.2.1, hp.2.2.2, hquiet]
    exact done s h
  | queue =>
    obtain ⟨h, hoffer⟩ := h
    rw [run, wp_bind]
    refine wp_findSender h.implements h.wellFormed h.idle (fun x b l₁ l₂ hx hq => ?_) fun hx => ?_
    · exact next (.take x l₁.getLast?) ⟨h, b, l₁, l₂, hx, hq, rfl⟩
    · exact next .flags ⟨h, fun hp => hoffer hp hx, hx⟩
  | take x prev =>
    obtain ⟨h, b, l₁, l₂, hx, hq, rfl⟩ := h
    obtain ⟨hsend, -⟩ := h.wellFormed.offer_eq_some hx
    rw [run, wp_bind]
    refine wp_takeFrom h.implements h.wellFormed h.idle hsend hq hm fun k' hpassed hready => ?_
    have hxw : who ≠ x := by
      rintro rfl
      simp [h.idle] at hsend
    refine done (s.dequeue x who) ⟨hpassed.implements, ?_, ?_, hready.trans h.ready,
      hpassed.frame.kReenter.trans h.kReenter⟩
    · exact h.wellFormed.dequeue (State.waits_eq_some.mpr ⟨_, hsend⟩)
    · simpa [State.dequeue, hxw] using h.idle
  | flags =>
    rw [run, wp_bind, wp_setProc, wp_pure]
    exact next .msg ⟨k, h, rfl⟩
  | msg =>
    obtain ⟨k₀, h, rfl⟩ := h
    rw [run, wp_bind, wp_setProc, wp_pure, Kernel.setProc_setProc]
    exact next .recvfrom ⟨k₀, h, rfl⟩
  | recvfrom =>
    obtain ⟨k₀, h, rfl⟩ := h
    rw [run, wp_bind, wp_setProc, wp_pure, Kernel.setProc_setProc]
    exact goto .sleep _ (h.asleep hm)
  | sleep =>
    have h : Asleep who src m s k := h
    have hp := h.implements.proc who
    rw [h.phase] at hp
    have asleep (t : Pid → Int) (q : Pid) : Asleep who src m s (k.retick t q) :=
      ⟨h.implements.retick t q, h.wellFormed, h.phase, h.quiet, h.kReenter⟩
    rw [run, wp_bind]
    refine wp_block (by simp [hp.1]) (fun t q hq => ?_) fun t => ⟨rfl, (asleep t _).noInterruptLost⟩
    exact next .closing ⟨asleep t q, hq⟩
  | closing =>
    obtain ⟨h, hruns⟩ := h
    have hp := h.implements.proc who
    rw [h.phase] at hp
    have hquiet := h.quiet
    rw [← h.implements.pending, not_not] at hquiet
    obtain ⟨hflags, hmsg, hne, hfrom, hto⟩ := hp
    simp only [run, wp_bind, wp_get, wp_assert_of, wp_pure, hflags, hmsg, hne, hfrom, hto, hquiet,
      sourceCode_ne_noTask, ne_eq, not_false_iff]
    exact ⟨s, h.implements, h.wellFormed, hruns, h.kReenter⟩

/-- An interrupt leaves an awake process awake, with an interrupt pending. -/
theorem Awake.informInt (h : Awake who s k) (htask : who.val < nrTasks) :
    wp (informInt who) (fun _ k' => Awake who (s.setPending who True) k') (fun _ _ => False) k := by
  have hflat : who.val < nrTasks + nrNativeProcs := Nat.lt_of_lt_of_le htask (by decide)
  have hnotify : s.notify who = (s.setPending who True, .noted) := by
    simp [State.notify, h.idle]
  have hwf := h.wellFormed.notify (a := who)
  refine wp_informInt h.implements hflat fun k' hpassed hready => ?_
  rw [hnotify] at hpassed hwf
  exact ⟨hpassed.implements, hwf, h.idle, hready.trans h.ready,
    hpassed.frame.kReenter.trans h.kReenter⟩

/-- A timely interrupt does not disturb a call. -/
theorem Point.Holds.interrupt (h : at_.Holds who src m s k) (htask : who.val < nrTasks)
    (htimely : WakeEvent.Timely ⟨k, some ⟨who, sourceCode src, m, at_⟩⟩ .interrupt) :
    wp (informInt who) (fun _ k' => ∃ s', at_.Holds who src m s' k') (fun _ _ => False) k := by
  have htimely := htimely _ rfl
  cases at_ with
  | test => exact (Awake.informInt h htask).mono (fun _ _ h => ⟨_, h⟩) fun _ _ h => h
  | copy => exact (Awake.informInt h htask).mono (fun _ _ h => ⟨_, h⟩) fun _ _ h => h
  | clear => exact (Awake.informInt h htask).mono (fun _ _ h => ⟨_, h⟩) fun _ _ h => h
  | take x prev =>
    obtain ⟨h, hx⟩ := h
    exact (h.informInt htask).mono (fun _ _ h => ⟨_, h, hx⟩) fun _ _ h => h
  | queue =>
    obtain ⟨h, -⟩ := h
    obtain ⟨hany, hqueue⟩ := htimely
    -- the call takes from anybody, so the first in the queue is offered
    have hoffer : s.offer who src ≠ none := by
      obtain rfl : src = .any := by
        cases src with
        | any => rfl
        | interrupt => exact absurd (show Dlos.interrupt = anyTask from hany) (by decide)
        | only p => exact absurd hany p.val_lt.1.ne
      intro hnone
      have hchain := h.implements.queue who
      cases hq : s.queue who with
      | nil => exact hqueue (by rwa [hq] at hchain)
      | cons y l => exact h.wellFormed.offer_eq_none hnone y (by simp [hq]) trivial
    exact (h.informInt htask).mono (fun _ _ h => ⟨_, h, fun _ => hoffer⟩) fun _ _ h => h
  | taken => exact htimely.elim
  | flags => exact htimely.elim
  | msg => exact htimely.elim
  | recvfrom => exact htimely.elim
  | sleep => exact htimely.elim
  | closing => exact htimely.elim

theorem wp_enterReceive {src : Source Pid} {Q : Unit → Kernel → Prop} {E : Halt → Kernel → Prop}
    (hk : k.Implements s) (hre : k.kReenter = 0) (ht : src.TakesInterrupt)
    (hok : Q () (k.stamp p m)) : wp (enterReceive (sourceCode src) m p) Q E k := by
  have hv : (Call.receive src).Valid p := by
    rintro rfl
    exact ht
  have hcases := (Call.receive src).srcDest_cases
  have hne := hv.ne_srcDest
  rw [Call.srcDest] at hcases hne
  simp only [enterReceive, wp_bind, wp_get, wp_assert_of hre, wp_assert_of hcases, hk.wp_va2la,
    wp_modify, wp_assert_of hne]
  exact hok

/-- The events of a run in which interrupts are timely. -/
def TimelyEvent (w : Wake) (e : WakeEvent) : Prop := e.Valid w ∧ e.Timely w

theorem Wake.step_of_wp {Q : Wake → Prop} {H : Halt → Wake → Prop}
    (h : wp (e.run w) (fun call k => Q ⟨k, call⟩) (fun halt k => H halt ⟨k, w.call⟩) w.kernel) :
    ((Wake.step e w).2 = none → Q (Wake.step e w).1) ∧
      ∀ halt, (Wake.step e w).2 = some halt → H halt (Wake.step e w).1 := by
  unfold Wake.step
  cases hrun : e.run w w.kernel with
  | ok call k => exact ⟨fun _ => (wp_of_ok hrun).mp h, nofun⟩
  | error halt k =>
    refine ⟨nofun, fun halt' hh => ?_⟩
    obtain rfl := Option.some.inj hh
    exact (wp_of_error hrun).mp h

/-- A timely event preserves the invariant; if it stops the machine no interrupt is lost either. -/
theorem Wake.Inv.step (h : w.Inv) (he : TimelyEvent w e) :
    wp (e.run w) (fun call k => Wake.Inv ⟨k, call⟩) (fun _ k => NoInterruptLost k) w.kernel := by
  obtain ⟨hv, htimely⟩ := he
  cases e with
  | kernel e =>
    obtain ⟨hnone, hv⟩ := hv
    rw [Wake.Inv, hnone] at h
    obtain ⟨s, hk, hs, hruns, hre⟩ := h
    obtain ⟨o, ho, hpassed, hr⟩ := e.run_spec hk hs hruns hre hv
    have hwf := ho.wellFormed hs (hk.idle_of_runs hruns)
    have hprep : (e.prepare w.kernel).kReenter = w.kernel.kReenter := by cases e <;> rfl
    rw [WakeEvent.run, wp_bind, hnone, wp_iff]
    refine ⟨fun a t hrun => ?_, fun halt t hrun => ?_⟩
    · have hexec : exec e.run w.kernel = (t, none) := by simp [exec, hrun]
      rw [hexec] at hpassed hr
      exact ⟨_, hpassed.implements, hwf, hr nofun, (hpassed.frame.kReenter.trans hprep).trans hre⟩
    · have hexec : exec e.run w.kernel = (t, some halt) := by simp [exec, hrun]
      rw [hexec] at hpassed
      exact hpassed.implements.noInterruptLost hwf
  | enter code m =>
    obtain ⟨hnone, hcode, hm⟩ := hv
    rw [Wake.Inv, hnone] at h
    obtain ⟨s, hk, hs, hruns, hre⟩ := h
    obtain ⟨src, ht, rfl⟩ : ∃ src : Source Pid, src.TakesInterrupt ∧ code = sourceCode src := by
      rcases hcode with rfl | rfl
      · exact ⟨.any, trivial, rfl⟩
      · exact ⟨.interrupt, trivial, rfl⟩
    rw [WakeEvent.run, wp_bind]
    refine wp_enterReceive hk hre ht ⟨hm, src, s, ht, rfl, ?_⟩
    exact ⟨hk.congr rfl, hs, hk.idle_of_runs hruns, rfl, hre⟩
  | step =>
    obtain ⟨k, call⟩ := w
    cases call with
    | none => exact h
    | some c =>
      obtain ⟨hm, src, s, ht, hsrc, hat⟩ := h
      obtain ⟨who, code, m, at_⟩ := c
      obtain rfl : code = sourceCode src := hsrc
      rw [WakeEvent.run, wp_bind]
      exact (hat.step ht hm).mono (fun _ _ h => h) fun _ _ h => h.2
  | interrupt =>
    obtain ⟨k, call⟩ := w
    cases call with
    | none => exact h
    | some c =>
      obtain ⟨hm, src, s, ht, hsrc, hat⟩ := h
      obtain ⟨who, code, m, at_⟩ := c
      obtain rfl : code = sourceCode src := hsrc
      rw [WakeEvent.run, wp_bind]
      refine (hat.interrupt (hv _ rfl) htimely).mono (fun _ k' h => ?_) fun _ _ h => h.elim
      obtain ⟨s', h⟩ := h
      exact ⟨hm, src, s', ht, rfl, h⟩

theorem KernelMain.wakeInv {kBase kLimit : BitVec 32} (h : KernelMain kBase kLimit k) :
    Wake.Inv ⟨k, none⟩ := by
  refine ⟨initialIpc, h.implements, initialIpc_wellFormed, ?_, h.kReenter⟩
  rw [Kernel.Runs, h.pProcReady, h.procTable]
  exact (initProc_of_native _ _ (by decide)).1.1

theorem reached_wakeInv (hr : wakeMachine.Reached TimelyEvent w o) :
    NoInterruptLost w.kernel ∧ (o = none → w.Inv) := by
  refine hr.invariant (I := fun w o => NoInterruptLost w.kernel ∧ (o = none → w.Inv)) ?_ ?_
  · rintro ⟨k, call⟩ ⟨⟨kBase, kLimit, hk⟩, hnone⟩
    obtain rfl : call = none := hnone
    exact ⟨hk.wakeInv.noInterruptLost, fun _ => hk.wakeInv⟩
  · rintro w e - ⟨-, hi⟩ he
    have hstep := Wake.step_of_wp (Q := Wake.Inv) (H := fun _ w => NoInterruptLost w.kernel)
      ((hi rfl).step he)
    change NoInterruptLost (Wake.step e w).1.kernel ∧ ((Wake.step e w).2 = none → _)
    cases ho : (Wake.step e w).2 with
    | none => exact ⟨(hstep.1 ho).noInterruptLost, fun _ => hstep.1 ho⟩
    | some halt => exact ⟨hstep.2 halt ho, nofun⟩

/-- In runs with timely interrupts no process sleeps for an interrupt that is pending, no interrupt
is written through a null pointer, and no assertion fails in a RECEIVE from `ANY` or `INTERRUPT`. -/
theorem no_interrupt_lost (hr : wakeMachine.Reached TimelyEvent w o) :
    NoInterruptLost w.kernel ∧
      (o = none → w.call ≠ none → ∀ exp, (Wake.step .step w).2 ≠ some (.assertion exp)) := by
  obtain ⟨hsafe, hi⟩ := reached_wakeInv hr
  refine ⟨hsafe, fun ho hcall exp => ?_⟩
  obtain ⟨k, call⟩ := w
  cases call with
  | none => exact absurd rfl hcall
  | some c =>
    obtain ⟨hm, src, s, ht, hsrc, hat⟩ := hi ho
    obtain ⟨who, code, m, at_⟩ := c
    obtain rfl : code = sourceCode src := hsrc
    have hrun : wp (WakeEvent.step.run ⟨k, some ⟨who, sourceCode src, m, at_⟩⟩) (fun _ _ => True)
        (fun halt _ => halt = .diverge) k := by
      rw [WakeEvent.run, wp_bind]
      exact (hat.step ht hm).mono (fun _ _ _ => trivial) fun _ _ h => h.1
    intro hfail
    have := (Wake.step_of_wp (Q := fun _ => True) (H := fun halt _ => halt = .diverge) hrun).2 _ hfail
    nomatch this

end

/-- `kernel_main` has just started the first process, TTY. -/
def Wake.begin : Wake := ⟨History.begin.kernel, none⟩

theorem Wake.begin_initial : wakeMachine.initial Wake.begin :=
  ⟨⟨0x1000, 0x1ffff, rfl, rfl, rfl, rfl, rfl⟩, rfl⟩

/-- TTY waits for anybody and an interrupt comes at once. -/
def earlyInterrupt : List WakeEvent :=
  [.enter anyTask 0x8000, .interrupt, .step, .step, .step, .step]

instance (k : Kernel) : (c : RecvCall) → Decidable (c.Early k)
  | ⟨_, _, _, .test⟩ => isTrue trivial
  | ⟨_, _, _, .copy⟩ => isTrue trivial
  | ⟨_, _, _, .clear⟩ => isTrue trivial
  | ⟨_, _, _, .take _ _⟩ => isTrue trivial
  | ⟨_, _, _, .queue⟩ => inferInstanceAs (Decidable (_ ∧ _ ≠ _))
  | ⟨_, _, _, .taken⟩ => isFalse id
  | ⟨_, _, _, .flags⟩ => isFalse id
  | ⟨_, _, _, .msg⟩ => isFalse id
  | ⟨_, _, _, .recvfrom⟩ => isFalse id
  | ⟨_, _, _, .sleep⟩ => isFalse id
  | ⟨_, _, _, .closing⟩ => isFalse id

instance (w : Wake) : (e : WakeEvent) → Decidable (TimelyEvent w e)
  | .kernel _ => inferInstanceAs (Decidable ((_ ∧ _) ∧ True))
  | .enter _ _ => inferInstanceAs (Decidable ((_ ∧ (_ ∨ _) ∧ _) ∧ True))
  | .step => inferInstanceAs (Decidable (True ∧ True))
  | .interrupt => inferInstanceAs (Decidable ((∀ c ∈ w.call, _) ∧ ∀ c ∈ w.call, c.Early w.kernel))

def Wake.early : Wake × Option Halt :=
  (wakeMachine.run TimelyEvent earlyInterrupt (Wake.begin, none)).get (by decide +kernel)

theorem Wake.early_reached : wakeMachine.Reached TimelyEvent Wake.early.1 Wake.early.2 :=
  have h : wakeMachine.run TimelyEvent earlyInterrupt (Wake.begin, none) = some Wake.early :=
    (Option.some_get _).symm
  Machine.Reached.of_run (.start Wake.begin_initial) h

theorem no_interrupt_lost_early : NoInterruptLost Wake.early.1.kernel ∧
    (Wake.early.2 = none → Wake.early.1.call ≠ none →
      ∀ exp, (Wake.step .step Wake.early.1).2 ≠ some (.assertion exp)) :=
  no_interrupt_lost Wake.early_reached

/-! ## An interrupt too late -/

/-- A valid event. -/
def WakeValid (w : Wake) (e : WakeEvent) : Prop := e.Valid w

instance (w : Wake) : (e : WakeEvent) → Decidable (WakeValid w e)
  | .kernel _ => inferInstanceAs (Decidable (_ ∧ _))
  | .enter _ _ => inferInstanceAs (Decidable (_ ∧ (_ ∨ _) ∧ _))
  | .step => isTrue trivial
  | .interrupt => inferInstanceAs (Decidable (∀ c ∈ w.call, _))

/-- TTY waits for anybody; the interrupt comes when it has found none pending. -/
def lateInterrupt : List WakeEvent :=
  [.enter anyTask 0x8000, .step, .interrupt, .step, .step, .step, .step]

/-- TTY sleeps with an interrupt pending, and the last assertion is about to fail. -/
theorem interrupt_lost : ¬ ∀ w o, wakeMachine.Reached WakeValid w o → NoInterruptLost w.kernel := by
  intro hall
  have hrun : (wakeMachine.run WakeValid lateInterrupt (Wake.begin, none)).map (fun r =>
      (decide (r.1.kernel.procTable taskTty).isReceiving,
        decide ((r.1.kernel.procTable taskTty).pRecvfrom = anyTask),
        (r.1.kernel.procTable taskTty).hasIntMsg)) = some (true, true, 1) := by decide +kernel
  obtain ⟨⟨w, o⟩, hr, hw⟩ := Option.map_eq_some_iff.mp hrun
  simp only [Prod.mk.injEq, decide_eq_true_eq] at hw
  obtain ⟨hreceiving, hfrom, hint⟩ := hw
  have := (hall w o (.of_run (.start Wake.begin_initial) hr)).alert taskTty hreceiving (.inr hfrom)
  rw [hint] at this
  exact absurd this (by decide)

end Dlos
