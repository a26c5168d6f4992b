import Dlos.Kernel.Senders
import Dlos.Mm.ForkNames

/-!
# Calls in runs with forks

A child's entry is a copy, so it sends to whom its parent sent. A name that goes over `p_flags` can make
the child SENDING to nobody; as long as names fit, the table is left only by a SEND to one of the two
indices that stand for no process.
-/

namespace Dlos

open Program

/-- MM answers whom it got the request from. -/
def MmPc.Addressed : MmPc → Prop
  | reply src _ => Dlos.Addressed send src
  | _ => True

/-- Every SEND has an address, and names fit. -/
def AddressedMm (s : MmState) : MmEvent → Prop
  | .kernel e => e.Addressed ∧ (e.ByProcess → s.kernel.pProcReady ≠ taskMm)
  | .mm => s.kernel.pProcReady = taskMm ∧ s.pc.Addressed ∧ s.pc.NameFits s.kernel

section

variable {s : MmState} {L : MmLayout} {o : Option Halt} {p d : Pid} {function i : Int} {m : Addr}

/-- MM's calls have an address. -/
theorem MmPc.Addressed.call {pc : MmPc} (h : pc.Addressed) (hcall : pc.call = some (function, i)) :
    Dlos.Addressed function i := by
  have table (f : Int) (p : Pid) : Dlos.Addressed f p.val := by
    rintro ⟨-, hany | hint⟩
    · exact absurd hany p.val_lt.1.ne
    · exact absurd hint p.val_lt.2.2.ne'
  cases pc with
  | receive =>
    cases hcall
    exact fun h => absurd h.1 (by decide)
  | dispatch => cases hcall
  | reply src retval =>
    cases hcall
    exact h
  | fork src pc =>
    cases pc with
    | sendFs child =>
      cases hcall
      exact table _ taskFs
    | receiveFs child =>
      cases hcall
      exact table _ taskFs
    | resume child =>
      cases hcall
      exact table _ child.1
    | _ => cases hcall

theorem wp_mmPc_senders (h : s.kernel.SendersInRange) (ha : s.pc.Addressed) (hfits : s.pc.NameFits s.kernel) :
    wp (s.pc.run L) (fun _ t => t.kernel.SendersInRange) (fun _ _ => True) s := by
  refine (wp_mmPc_entries (P := fun e => e.isSending → ∃ d : Pid, e.pSendto = d.val) (R := fun _ => False)
    h hfits (fun _ _ _ _ _ he => he) fun function i la k hcall hk => ?_).mono (fun _ _ h => h)
      fun _ _ _ => trivial
  exact (tame_sysSendrec (ha.call hcall) k hk).mono (fun _ _ h => h) fun _ _ _ h => h.elim

theorem MmState.Initial.senders (h : s.Initial) : s.kernel.SendersInRange := by
  obtain ⟨⟨kBase, kLimit, hk⟩, -, -⟩ := h
  intro p hp
  rw [hk.procTable] at hp
  refine absurd ?_ hp
  rw [initProc]
  split
  · exact (by decide : freeSlot &&& sending = 0)
  · exact (by decide : (0 : BitVec 32) &&& sending = 0)

theorem reached_senders (hr : (mmMachine L).Reached AddressedMm s o) :
    o = none → s.kernel.SendersInRange := by
  refine hr.invariant (I := fun s o => o = none → s.kernel.SendersInRange)
    (fun s (h : s.Initial) _ => h.senders) ?_
  rintro s e - h he
  refine exec_of_wp (P := fun (t : MmState) o => o = none → t.kernel.SendersInRange) ?_
  cases e with
  | kernel e =>
    rw [MmEvent.run, wp_onKernel]
    exact (Event.tame he.1 s.kernel (h rfl)).mono (fun _ _ hk _ => hk) fun _ _ _ => by simp
  | mm =>
    rw [MmEvent.run, wp_bind, wp_get]
    exact (wp_mmPc_senders (h rfl) he.2.1 he.2.2).mono (fun _ _ hk _ => hk) fun _ _ _ => by simp

/-- In every run of calls with addresses, a call that passes the assertions at its entry stays in the
table exactly if it has an address. -/
theorem sendrec_inRange_iff (hr : (mmMachine L).Reached AddressedMm s none)
    (h : Enters s.kernel i m p) :
    (exec (sysSendrec function i m p) s.kernel).2 ≠ some .wildIndex ↔ Addressed function i := by
  constructor
  · intro hin
    by_contra ha
    exact hin (exec_of_wp (P := fun _ o => o = some .wildIndex)
      ((wp_sysSendrec_wild h ha).mono (fun _ _ h => h.elim) fun _ _ h => congrArg some h))
  · intro ha
    exact exec_of_wp (P := fun _ o => o ≠ some .wildIndex)
      ((tame_sysSendrec ha s.kernel (reached_senders hr rfl)).mono (fun _ _ _ => by simp)
        fun _ _ h heq => h (Option.some.inj heq))

theorem begin_enters : Enters MmState.begin.kernel anyTask 0x9000 0 := by
  refine ⟨rfl, .inr (.inl rfl), fun _ => ?_, by decide⟩
  decide +kernel

theorem sendrec_inRange_begin :
    (exec (sysSendrec send anyTask 0x9000 0) MmState.begin.kernel).2 ≠ some .wildIndex ↔
      Addressed send anyTask :=
  sendrec_inRange_iff (L := .low) (.start MmState.begin_initial) begin_enters

/-- TTY sends to `ANY`. -/
theorem not_sendrec_inRange : ¬ ∀ (s : MmState) (function i : Int) (m : Addr) (p : Pid),
    (mmMachine .low).Reached AddressedMm s none → Enters s.kernel i m p →
    (exec (sysSendrec function i m p) s.kernel).2 ≠ some .wildIndex := by
  intro hall
  refine hall MmState.begin send anyTask 0x9000 0 (.start MmState.begin_initial) begin_enters ?_
  decide +kernel

end

end Dlos
