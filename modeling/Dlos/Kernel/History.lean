import Dlos.Library.StateMachine
import Dlos.Kernel.Main
import Dlos.Kernel.Refine

/-!
# Runs of the kernel

A run starts with the table of `kernel_main` and is made of events: the running process calls
`sys_sendrec` or writes to memory, a device interrupt informs a task, the clock ticks. A
`History` is the kernel together with a ledger of the calls made and the messages delivered so
far; the kernel's functions do not read the ledger.
-/

namespace Dlos

open Program Rendezvous

/-- A SEND call with the message it gives rise to. -/
structure SendCall where
  id : Nat
  sender : Pid
  dest : Int
  content : Message

structure ReceiveCall where
  id : Nat
  receiver : Pid
  src : Int
  buf : Addr

/-- A message put into a buffer: whose it was, `none` for an interrupt, and which call it was
put there for. -/
structure Delivery where
  msg : Option SendCall
  call : Option ReceiveCall
  copy : Copy

structure History where
  kernel : Kernel
  time : Nat
  /-- When a process last became SENDING. -/
  blockedAt : Pid → Nat
  /-- The latest SEND call of a process. -/
  sent : Pid → Option SendCall
  /-- The latest RECEIVE call of a process. -/
  asked : Pid → Option ReceiveCall
  deliveries : List Delivery

inductive Event
  | sendrec (function srcDest : Int) (m : Addr)
  | write (la : Addr) (content : Message)
  | informInt (task : Pid)
  | clock
  | key (pressed : Int)

namespace Event

def run : Event → KM Unit
  | sendrec function srcDest m => do
    let k ← get
    let _ ← sysSendrec function srcDest m k.pProcReady
    pure ()
  | write la content => modify (·.setMsg la content)
  | informInt task => Dlos.informInt task
  | clock => clockHandler
  | key pressed => modify ({ · with keyPressed := pressed })

/-- A SEND to or a RECEIVE from another process of the table, or a RECEIVE from `ANY` or
`INTERRUPT`, with a buffer; interrupts are for tasks. -/
def Valid (k : Kernel) : Event → Prop
  | sendrec function srcDest m =>
    m ≠ 0 ∧ srcDest ≠ k.pProcReady.val ∧
    (0 ≤ srcDest ∧ srcDest < (nrTasks + nrProcs : Nat) ∧ (function = send ∨ function = receive) ∨
      function = receive ∧ (srcDest = anyTask ∨ srcDest = interrupt))
  | informInt task => task.val < nrTasks
  | _ => True

instance (k : Kernel) : (e : Event) → Decidable (e.Valid k)
  | sendrec _ _ _ => inferInstanceAs (Decidable (_ ∧ _ ∧ (_ ∨ _)))
  | write _ _ => isTrue trivial
  | informInt _ => inferInstanceAs (Decidable (_ < _))
  | clock => isTrue trivial
  | key _ => isTrue trivial

/-- Done by the running process and not by an interrupt. -/
def ByProcess : Event → Prop
  | sendrec _ _ _ => True
  | write _ _ => True
  | informInt _ => False
  | clock => False
  | key _ => False

instance : (e : Event) → Decidable e.ByProcess
  | .sendrec _ _ _ => isTrue trivial
  | .write _ _ => isTrue trivial
  | .informInt _ => isFalse not_false
  | .clock => isFalse not_false
  | .key _ => isFalse not_false

end Event

namespace History

/-- Enter the call that an event makes into the ledger. -/
def note (h : History) : Event → History
  | .sendrec function srcDest m =>
    let p := h.kernel.pProcReady
    let la := h.kernel.la p m
    let content := { h.kernel.msgs la with source := p.val }
    if function = send then
      { h with sent := Function.update h.sent p (some ⟨h.time, p, srcDest, content⟩) }
    else
      { h with asked := Function.update h.asked p (some ⟨h.time, p, srcDest, la⟩) }
  | _ => h

/-- Look up whose message a copy was and for which call it was made. -/
def deliveryOf (h : History) (c : Copy) : Delivery where
  msg := (pidOf c.source).bind h.sent
  call := h.asked c.receiver
  copy := c

/-- The deliveries an event makes that leaves the kernel `k'`. -/
def delivered (h : History) (e : Event) (k' : Kernel) : List Delivery :=
  (k'.copies.take (k'.copies.length - h.kernel.copies.length)).map (h.note e).deliveryOf

def step (e : Event) (h : History) : History × Option Halt :=
  let k' := (exec e.run h.kernel).1
  ({ kernel := k'
     time := h.time + 1
     blockedAt := fun p =>
       if (k'.procTable p).isSending ∧ ¬ (h.kernel.procTable p).isSending then h.time
       else h.blockedAt p
     sent := (h.note e).sent
     asked := (h.note e).asked
     deliveries := h.delivered e k' ++ h.deliveries },
   (exec e.run h.kernel).2)

/-- Nothing has happened since `kernel_main`. -/
structure Initial (h : History) : Prop where
  kernel : ∃ kBase kLimit, KernelMain kBase kLimit h.kernel
  time : h.time = 0
  sent : h.sent = fun _ => none
  asked : h.asked = fun _ => none
  deliveries : h.deliveries = []

end History

def kernelMachine : Machine History Event Halt where
  initial := History.Initial
  step := History.step

/-- The events considered are valid calls and interrupts. -/
def ValidEvent (h : History) (e : Event) : Prop := e.Valid h.kernel

instance (h : History) (e : Event) : Decidable (ValidEvent h e) :=
  inferInstanceAs (Decidable (e.Valid h.kernel))

/-- One start, of a kernel image of 128 kB at 4 kB. -/
def History.begin : History where
  kernel :=
    { procTable := initProc 0x1000 0x1ffff
      pProcReady := 0
      ticks := 0
      keyPressed := 0
      kReenter := 0
      msgs := fun _ => {}
      copies := [] }
  time := 0
  blockedAt := fun _ => 0
  sent := fun _ => none
  asked := fun _ => none
  deliveries := []

theorem History.begin_initial : History.begin.Initial :=
  ⟨⟨0x1000, 0x1ffff, rfl, rfl, rfl, rfl, rfl⟩, rfl, rfl, rfl, rfl⟩

/-- TTY waits for anybody, and SYS, which runs next, sends to it. -/
def handover : List Event := [.sendrec receive anyTask 0x8000, .sendrec send 0 0x9000]

/-- The history of a handover. -/
def History.handover : History × Option Halt :=
  (kernelMachine.run ValidEvent Dlos.handover (History.begin, none)).get (by decide +kernel)

theorem History.handover_reached :
    kernelMachine.Reached ValidEvent History.handover.1 History.handover.2 :=
  have h : kernelMachine.run ValidEvent Dlos.handover (History.begin, none) = some History.handover :=
    (Option.some_get _).symm
  Machine.Reached.of_run (.start History.begin_initial) h

/-! ## One event on the abstract state -/

namespace Event

/-- The kernel from which the message passing of an event starts. -/
def prepare (k : Kernel) : Event → Kernel
  | sendrec _ _ m => k.stamp k.pProcReady m
  | write la content => k.setMsg la content
  | informInt _ => k
  | clock => k
  | key pressed => { k with keyPressed := pressed }

/-- What an event may do to the abstract state. -/
def Outcome (k : Kernel) (s : Ipc) : Event → Ipc × Effect Pid Addr → Prop
  | sendrec function srcDest m, o => ∃ call : Call, call.Valid k.pProcReady ∧ m ≠ 0 ∧
      function = call.function ∧ srcDest = call.srcDest ∧ o = call.run s k.pProcReady m
  | informInt task, o => task.val < nrTasks ∧ o = s.notify task
  | clock, o => o = (s, .noted) ∨ o = s.notify taskTty
  | write _ _, o => o = (s, .noted)
  | key _, o => o = (s, .noted)

variable {k : Kernel} {s : Ipc} {e : Event} {o : Ipc × Effect Pid Addr}

/-- The arguments of a valid call say what it asks for. -/
theorem Valid.exists_call {function srcDest : Int} {m : Addr}
    (h : (sendrec function srcDest m).Valid k) :
    ∃ call : Call, call.Valid k.pProcReady ∧ m ≠ 0 ∧ function = call.function ∧
      srcDest = call.srcDest := by
  obtain ⟨hm, hne, ⟨h₀, h₁, rfl | rfl⟩ | ⟨rfl, rfl | rfl⟩⟩ := h
  · obtain ⟨p, hp⟩ : ∃ p : Pid, srcDest = p.val :=
      ⟨⟨srcDest.toNat, by omega⟩, by simp only []; omega⟩
    exact ⟨.send p, fun h => hne (by rw [hp, h]), hm, rfl, hp⟩
  · obtain ⟨p, hp⟩ : ∃ p : Pid, srcDest = p.val :=
      ⟨⟨srcDest.toNat, by omega⟩, by simp only []; omega⟩
    refine ⟨.receive (.only p), fun h => hne ?_, hm, rfl, hp⟩
    obtain rfl := Source.only.inj h
    exact hp
  · exact ⟨.receive .any, nofun, hm, rfl, rfl⟩
  · exact ⟨.receive .interrupt, nofun, hm, rfl, rfl⟩

/-- A queue grows only when the running process falls asleep in it. -/
theorem Outcome.queues (h : e.Outcome k s o) :
    (∀ d, (o.1.queue d).Sublist (s.queue d)) ∨
      ∃ d b, o.1 = s.enqueue k.pProcReady d b := by
  have same {o : Ipc} (ho : o.queue = s.queue) (d : Pid) : (o.queue d).Sublist (s.queue d) := by
    rw [ho]
  cases e with
  | sendrec function srcDest m =>
    obtain ⟨call, -, -, -, -, rfl⟩ := h
    cases call with
    | send d =>
      rcases State.queue_send (s := s) (x := k.pProcReady) (d := d) (b := m) with hq | hq
      · exact .inl (same hq)
      · exact .inr ⟨d, m, hq⟩
    | receive src => exact .inl State.queue_receive
  | informInt task =>
    obtain ⟨-, rfl⟩ := h
    exact .inl (same State.queue_notify)
  | clock =>
    rcases h with rfl | rfl
    · exact .inl (same rfl)
    · exact .inl (same State.queue_notify)
  | write la content => obtain rfl := h; exact .inl (same rfl)
  | key pressed => obtain rfl := h; exact .inl (same rfl)

theorem Outcome.wellFormed (h : e.Outcome k s o) (hs : s.WellFormed)
    (hp : s.phase k.pProcReady = .idle) : o.1.WellFormed := by
  cases e with
  | sendrec function srcDest m =>
    obtain ⟨call, hv, -, -, -, rfl⟩ := h
    exact Call.run_wellFormed hs hp hv
  | informInt task =>
    obtain ⟨-, rfl⟩ := h
    exact hs.notify
  | clock =>
    rcases h with rfl | rfl
    · exact hs
    · exact hs.notify
  | write la content => obtain rfl := h; exact hs
  | key pressed => obtain rfl := h; exact hs

/-- Every valid event passes messages as the abstract operations do, and unless the scheduler
finds nobody the process that runs next is runnable. -/
theorem run_spec (hk : k.Implements s) (hs : s.WellFormed) (hrun : k.Runs) (hre : k.kReenter = 0)
    (hv : e.Valid k) :
    ∃ o, e.Outcome k s o ∧ (e.prepare k).Passed o (exec e.run k).1 ∧
      ((exec e.run k).2 ≠ some .diverge → (exec e.run k).1.Runs) := by
  have hidle := hk.idle_of_runs hrun
  apply exec_of_wp (P := fun k' r => ∃ o, e.Outcome k s o ∧ (e.prepare k).Passed o k' ∧
    (r ≠ some Halt.diverge → k'.Runs))
  cases e with
  | sendrec function srcDest m =>
    obtain ⟨call, hcall, hm, rfl, rfl⟩ := hv.exists_call
    have ho : (sendrec call.function call.srcDest m).Outcome k s (call.run s k.pProcReady m) :=
      ⟨call, hcall, hm, rfl, rfl, rfl⟩
    rw [run, wp_bind, wp_get, wp_bind]
    refine wp_sysSendrec hk hs hidle hcall hm rfl hre (fun k' h _ hr => ⟨_, ho, h, fun _ => hr⟩)
      (fun text hdead => ⟨_, ho, ?_, fun _ => hrun⟩) fun k' halt h _ hh => ⟨_, ho, h, ?_⟩
    · rw [Call.run_of_deadlock hdead]
      exact ⟨hk.congr rfl, ⟨rfl, rfl⟩, Kernel.Frame.refl _⟩
    · rcases hh with rfl | ⟨-, -, hr⟩
      · exact fun h => absurd rfl h
      · exact fun _ => hr
  | write la content =>
    rw [run, wp_modify]
    exact ⟨_, rfl, ⟨hk.congr rfl, ⟨rfl, rfl⟩, Kernel.Frame.refl _⟩, fun _ => hrun⟩
  | informInt task =>
    have hflat : task.val < nrTasks + nrNativeProcs := Nat.lt_of_lt_of_le hv (by decide)
    refine wp_informInt hk hflat fun k' h hready => ⟨_, ⟨hv, rfl⟩, h, fun _ => ?_⟩
    exact h.implements.runs (by rw [hready]; exact State.phase_notify_of_idle hidle)
  | clock =>
    exact wp_clockHandler hk hrun (fun o k' ho h hr => ⟨o, ho, h, fun _ => hr⟩)
      fun o k' ho h => ⟨o, ho, h, fun h => absurd rfl h⟩
  | key pressed =>
    rw [run, wp_modify]
    exact ⟨_, rfl, ⟨hk.congr rfl, ⟨rfl, rfl⟩, Kernel.Frame.refl _⟩, fun _ => hrun⟩

end Event

/-! ## What holds of every history -/

/-- The kernel implements a well-formed state whose queues are in the order of blocking. -/
structure History.Inv (h : History) (s : Ipc) : Prop where
  implements : h.kernel.Implements s
  wellFormed : s.WellFormed
  ordered : s.Ordered h.blockedAt
  past : ∀ d, ∀ x ∈ s.queue d, h.blockedAt x < h.time
  kReenter : h.kernel.kReenter = 0

section

variable {h : History} {s : Ipc} {e : Event} {k : Kernel} {o : Ipc × Effect Pid Addr} {r : Option Halt}

/-- The state of the process table of `kernel_main`: everybody is idle or free. -/
def initialIpc : Ipc where
  phase p := if p.val < nrTasks + nrNativeProcs then .idle else .free
  queue _ := []
  pending _ := False

theorem initialIpc_waits (x : Pid) : initialIpc.waits x = none := by
  unfold State.waits initialIpc
  by_cases hx : x.val < nrTasks + nrNativeProcs <;> simp [hx]

theorem initialIpc_wellFormed : initialIpc.WellFormed where
  queued x d := by
    rw [initialIpc_waits]
    simp [initialIpc]
  nodup _ := List.nodup_nil
  acyclic x := WaitGraph.not_reaches_of_none (initialIpc_waits x)
  unmatched _ _ _ _ x hx := by simp [initialIpc] at hx
  alert _ _ _ _ _ := id

theorem KernelMain.implements {kBase kLimit : BitVec 32} (h : KernelMain kBase kLimit k) :
    k.Implements initialIpc where
  proc p := by
    rw [h.procTable]
    by_cases hp : p.val < nrTasks + nrNativeProcs
    · have := initProc_of_native kBase kLimit hp
      simp only [initialIpc, hp, if_true]
      exact ⟨this.1.1, this.1.2, this.2.1, this.2.2⟩
    · simp only [initialIpc, hp, if_false]
      rw [initProc_of_free (Nat.not_lt.mp hp)]
      rfl
  queue d := by
    rw [h.procTable]
    exact initProc_queues.1
  pending p := by
    rw [h.procTable]
    by_cases hp : p.val < nrTasks + nrNativeProcs
    · simp [initialIpc, initProc, Nat.not_le.mpr hp]
    · rw [initProc_of_free (Nat.not_lt.mp hp)]
      simp [initialIpc]
  flat p hp := by
    rw [h.procTable]
    exact base_initProc hp _

theorem History.Initial.inv (h₀ : h.Initial) : h.Inv initialIpc := by
  obtain ⟨kBase, kLimit, hk⟩ := h₀.kernel
  exact ⟨hk.implements, initialIpc_wellFormed, fun d => List.Pairwise.nil,
    fun d x hx => by simp [initialIpc] at hx, hk.kReenter⟩

theorem History.Initial.runs (h₀ : h.Initial) : h.kernel.Runs := by
  obtain ⟨kBase, kLimit, hk⟩ := h₀.kernel
  rw [Kernel.Runs, hk.pProcReady, hk.procTable]
  exact (initProc_of_native _ _ (by decide)).1.1

/-- A step of a history, as a step of message passing. -/
theorem History.Inv.step_passed (hi : h.Inv s) (hrun : h.kernel.Runs) (hv : ValidEvent h e) :
    ∃ o, e.Outcome h.kernel s o ∧ (e.prepare h.kernel).Passed o (History.step e h).1.kernel ∧
      ((History.step e h).2 ≠ some .diverge → (History.step e h).1.kernel.Runs) :=
  e.run_spec hi.implements hi.wellFormed hrun hi.kReenter hv

theorem History.step_kernel : (History.step e h).1.kernel = (exec e.run h.kernel).1 := rfl

theorem History.step_time : (History.step e h).1.time = h.time + 1 := rfl

theorem History.step_blockedAt (p : Pid) : (History.step e h).1.blockedAt p =
    if ((History.step e h).1.kernel.procTable p).isSending ∧
      ¬ (h.kernel.procTable p).isSending then h.time else h.blockedAt p := rfl

/-- A process that was in a queue already keeps its time. -/
theorem History.Inv.blockedAt_of_mem (hi : h.Inv s) {x d : Pid} (hx : x ∈ s.queue d) :
    (History.step e h).1.blockedAt x = h.blockedAt x := by
  obtain ⟨hs, -⟩ := hi.implements.waits_eq.mp ((hi.wellFormed.queued x d).mp hx)
  rw [step_blockedAt, if_neg fun h => h.2 hs]

theorem History.Inv.step (hi : h.Inv s) (hrun : h.kernel.Runs) (ho : e.Outcome h.kernel s o)
    (hp : (e.prepare h.kernel).Passed o (History.step e h).1.kernel) :
    (History.step e h).1.Inv o.1 := by
  have hidle := hi.implements.idle_of_runs hrun
  have hwf := ho.wellFormed hi.wellFormed hidle
  have hkept : s.Ordered (History.step e h).1.blockedAt :=
    hi.ordered.congr fun d y hy => hi.blockedAt_of_mem hy
  have hpast (d y) (hy : y ∈ s.queue d) : (History.step e h).1.blockedAt y < h.time := by
    rw [hi.blockedAt_of_mem hy]
    exact hi.past d y hy
  have hnew {d b} (hd : o.1 = s.enqueue h.kernel.pProcReady d b) :
      (History.step e h).1.blockedAt h.kernel.pProcReady = h.time := by
    have hsends := (hp.implements.waits_eq (x := h.kernel.pProcReady) (d := d)).mp (by simp [hd])
    have hnot : ¬ (h.kernel.procTable h.kernel.pProcReady).isSending := by
      have := (hi.implements.proc h.kernel.pProcReady).isSending
      simp [this, hidle]
    rw [step_blockedAt, if_pos ⟨hsends.1, hnot⟩]
  have hre : (e.prepare h.kernel).kReenter = h.kernel.kReenter := by cases e <;> rfl
  refine ⟨hp.implements, hwf, ?_, ?_, (hp.frame.kReenter.trans hre).trans hi.kReenter⟩
  · rcases ho.queues with hsub | ⟨d, b, hd⟩
    · exact hkept.sublist hsub
    · rw [hd]
      refine hkept.enqueue fun y hy => ?_
      rw [hnew hd]
      exact hpast d y hy
  · intro d x hx
    rw [step_time]
    rcases ho.queues with hsub | ⟨d', b, hd⟩
    · exact Nat.lt_succ_of_lt (hpast d x ((hsub d).mem hx))
    · by_cases hxr : x = h.kernel.pProcReady
      · rw [hxr, hnew hd]
        exact Nat.lt_succ_self _
      · refine Nat.lt_succ_of_lt (hpast d x ?_)
        rw [hd] at hx
        by_cases hdd : d = d'
        · subst hdd
          simpa [State.enqueue, hxr] using hx
        · simpa [State.enqueue, hdd] using hx

/-- The invariant of all runs, stopped ones included. -/
theorem reached_inv {o : Option Halt} (hr : kernelMachine.Reached ValidEvent h o) :
    (∃ s, h.Inv s) ∧ (o ≠ some .diverge → h.kernel.Runs) := by
  refine hr.invariant (I := fun h o => (∃ s, h.Inv s) ∧ (o ≠ some Halt.diverge → h.kernel.Runs))
    (fun h (h₀ : h.Initial) => ⟨⟨_, h₀.inv⟩, fun _ => h₀.runs⟩) ?_
  rintro h e - ⟨⟨s, hi⟩, hruns⟩ he
  have hrun := hruns (by simp)
  obtain ⟨o, ho, hp, hr⟩ := hi.step_passed hrun he
  exact ⟨⟨_, hi.step hrun ho hp⟩, hr⟩

end

end Dlos
