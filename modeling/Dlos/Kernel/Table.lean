import Dlos.Kernel.History

/-!
# What the process table says in every run

The flags, the message fields and the queues of the table agree with each other in every state
of every run of valid calls and interrupts, and the senders never wait in a circle; so the walk
of `deadlock` ends and finds exactly the cycles that a send would close.
-/

namespace Dlos

open Program Rendezvous

/-- The table of a kernel whose processes blocked at the given times. -/
structure TableInvariant (k : Kernel) (blockedAt : Pid → Nat) : Prop where
  flags : ∀ p, (k.procTable p).pFlags ≠ freeSlot → (k.procTable p).pFlags = 0 ∨
    (k.procTable p).pFlags = sending ∨ (k.procTable p).pFlags = receiving
  queue : ∀ d, ∃ l, Linked.Chain k.next (k.procTable d).qSending l ∧ l.Nodup ∧
    (∀ x, x ∈ l ↔ (k.procTable x).pFlags = sending ∧ (k.procTable x).pSendto = d.val) ∧
    l.Pairwise (blockedAt · < blockedAt ·)
  msg : ∀ p, (k.procTable p).pFlags ≠ freeSlot → ((k.procTable p).pMsg ≠ 0 ↔
    (k.procTable p).pFlags = sending ∨ (k.procTable p).pFlags = receiving)
  sendto : ∀ p, (k.procTable p).pFlags ≠ freeSlot →
    ((k.procTable p).pSendto ≠ noTask ↔ (k.procTable p).pFlags = sending)
  recvfrom : ∀ p, (k.procTable p).pFlags ≠ freeSlot →
    ((k.procTable p).pRecvfrom ≠ noTask ↔ (k.procTable p).pFlags = receiving)

/-- The edge from a blocked sender to its destination. -/
def Kernel.SendsTo (k : Kernel) (x y : Pid) : Prop :=
  (k.procTable x).isSending ∧ (k.procTable x).pSendto = y.val

section

variable {k : Kernel} {s : Ipc} {h : History} {o : Option Halt} {proc : Proc}
  {ph : Phase Pid Addr}

theorem Proc.Implements.flags (hp : proc.Implements ph) (hfree : proc.pFlags ≠ freeSlot) :
    proc.pFlags = 0 ∨ proc.pFlags = sending ∨ proc.pFlags = receiving := by
  cases ph with
  | free => exact absurd hp hfree
  | idle => exact .inl hp.1
  | sending d b => exact .inr (.inl hp.1)
  | receiving src b => exact .inr (.inr hp.1)

theorem Proc.Implements.msg (hp : proc.Implements ph) (hfree : proc.pFlags ≠ freeSlot) :
    proc.pMsg ≠ 0 ↔ proc.pFlags = sending ∨ proc.pFlags = receiving := by
  cases ph with
  | free => exact absurd hp hfree
  | idle => simp [hp.1, hp.2.1]
  | sending d b => simpa [hp.1, hp.2.1] using hp.2.2.1
  | receiving src b => simpa [hp.1, hp.2.1] using hp.2.2.1

theorem Proc.Implements.sendto (hp : proc.Implements ph) (hfree : proc.pFlags ≠ freeSlot) :
    proc.pSendto ≠ noTask ↔ proc.pFlags = sending := by
  cases ph with
  | free => exact absurd hp hfree
  | idle => simp [hp.1, hp.2.2.2]
  | sending d b => simpa [hp.1, hp.2.2.2.2] using d.val_lt.2.1.ne
  | receiving src b => simp [hp.1, hp.2.2.2.2]

theorem Proc.Implements.recvfrom (hp : proc.Implements ph) (hfree : proc.pFlags ≠ freeSlot) :
    proc.pRecvfrom ≠ noTask ↔ proc.pFlags = receiving := by
  cases ph with
  | free => exact absurd hp hfree
  | idle => simp [hp.1, hp.2.2.1]
  | sending d b => simp [hp.1, hp.2.2.2.1]
  | receiving src b => simpa [hp.1, hp.2.2.2.1] using sourceCode_ne_noTask

theorem Proc.Implements.sendsTo (hp : proc.Implements ph) :
    proc.isSending ↔ proc.pFlags = sending := by
  cases ph <;> simp_all [Proc.Implements, Proc.isSending]

theorem History.Inv.table (hi : h.Inv s) : TableInvariant h.kernel h.blockedAt where
  flags p := (hi.implements.proc p).flags
  queue d := by
    refine ⟨s.queue d, hi.implements.queue d, hi.wellFormed.nodup d, fun x => ?_, hi.ordered d⟩
    rw [hi.wellFormed.queued, hi.implements.waits_eq, (hi.implements.proc x).sendsTo]
  msg p := (hi.implements.proc p).msg
  sendto p := (hi.implements.proc p).sendto
  recvfrom p := (hi.implements.proc p).recvfrom

/-- The table is consistent in every state of every run; and unless the scheduler was entered
with nobody to run, the process it picked is runnable. -/
theorem process_table_invariant (hr : kernelMachine.Reached ValidEvent h o) :
    TableInvariant h.kernel h.blockedAt ∧
      (o ≠ some .diverge → (h.kernel.procTable h.kernel.pProcReady).pFlags = 0) := by
  obtain ⟨⟨s, hi⟩, hruns⟩ := reached_inv hr
  exact ⟨hi.table, hruns⟩

theorem process_table_invariant_handover :
    TableInvariant History.handover.1.kernel History.handover.1.blockedAt ∧
      (History.handover.1.kernel.procTable History.handover.1.kernel.pProcReady).pFlags = 0 :=
  have h := process_table_invariant History.handover_reached
  ⟨h.1, h.2 (by decide +kernel)⟩

/-! ## Deadlock -/

theorem Kernel.Implements.sendsTo_eq (hk : k.Implements s) :
    k.SendsTo = WaitGraph.Edge s.waits := by
  funext x y
  exact propext hk.waits_eq.symm

/-- The edges once `src`, which waits for nobody, waits for `dest`. -/
theorem edge_update {src dest : Pid} (hsrc : s.waits src = none) :
    WaitGraph.Edge (Function.update s.waits src (some dest)) =
      fun x y => WaitGraph.Edge s.waits x y ∨ x = src ∧ y = dest := by
  funext x y
  by_cases hx : x = src
  · subst hx; simp [WaitGraph.Edge, hsrc, eq_comm]
  · simp [WaitGraph.Edge, hx]

/-- Senders never wait in a circle; `deadlock` ends within as many steps as there are table
entries, and answers 1 exactly when the destination waits for the sender, which is when the
send would close a circle. -/
theorem deadlock_exact (hr : kernelMachine.Reached ValidEvent h o) :
    (∀ x, ¬ Relation.TransGen h.kernel.SendsTo x x) ∧
    ∀ src dest, (h.kernel.procTable src).pFlags = 0 → dest ≠ src →
      ∃ r, (∀ fuel ≥ nrTasks + nrProcs,
          deadlockLoop src dest fuel dest h.kernel = .ok r h.kernel) ∧
        deadlock src dest h.kernel = .ok r h.kernel ∧ (r = 0 ∨ r = 1) ∧
        (r = 1 ↔ Relation.TransGen h.kernel.SendsTo dest src) ∧
        (r = 1 ↔ Relation.TransGen
          (fun x y => h.kernel.SendsTo x y ∨ x = src ∧ y = dest) src src) := by
  obtain ⟨⟨s, hi⟩, -⟩ := reached_inv hr
  have hacyclic := hi.wellFormed.acyclic
  rw [hi.implements.sendsTo_eq]
  refine ⟨hacyclic, fun src dest hsrc hne => ?_⟩
  have hwaits : s.waits src = none := by
    have hp := (hi.implements.proc src).isSending
    simp only [Proc.isSending, hsrc] at hp
    unfold State.waits
    cases hph : s.phase src <;> simp_all
  classical
  refine ⟨if WaitGraph.Reaches s.waits dest src then 1 else 0, fun fuel henough =>
    deadlockLoop_of_acyclic hi.implements hacyclic src dest henough,
    deadlock_eq hi.implements hacyclic src dest, ?_, ?_, ?_⟩
  · split <;> simp
  · rw [ite_eq_left_iff]
    simp [WaitGraph.Reaches]
  · have hclose : Relation.TransGen
        (fun x y => WaitGraph.Edge s.waits x y ∨ x = src ∧ y = dest) src src ↔
        WaitGraph.Reaches s.waits dest src := by
      rw [← edge_update hwaits]
      exact (WaitGraph.reaches_update_self hacyclic).trans (by simp [hne])
    rw [hclose, ite_eq_left_iff]
    simp

theorem deadlock_exact_handover :
    ∃ r, (∀ fuel ≥ nrTasks + nrProcs,
        deadlockLoop 0 1 fuel 1 History.handover.1.kernel = .ok r History.handover.1.kernel) ∧
      deadlock 0 1 History.handover.1.kernel = .ok r History.handover.1.kernel ∧
      (r = 0 ∨ r = 1) ∧
      (r = 1 ↔ Relation.TransGen History.handover.1.kernel.SendsTo 1 0) ∧
      (r = 1 ↔ Relation.TransGen
        (fun x y => History.handover.1.kernel.SendsTo x y ∨ x = 0 ∧ y = 1) 0 0) :=
  (deadlock_exact History.handover_reached).2 0 1 (by decide +kernel) (by decide)

end

end Dlos
