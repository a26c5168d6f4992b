import Dlos.Kernel.History

/-!
# The assertions of message passing

One assertion of `proc.c` can fail: the last one of `msg_receive`, that no interrupt is pending.
It fails for a process that has one pending and goes to sleep in a RECEIVE from one process. In
runs without such a call no assertion fails.
-/

namespace Dlos

open Program Rendezvous

abbrev noIntMsg : String := "p_who_wanna_recv->has_int_msg == 0"

/-- A message of process number `src` waits to be received by `p`. -/
def Kernel.Offers (k : Kernel) (p : Pid) (src : Int) : Prop :=
  ∃ x, pidOf src = some x ∧ (k.procTable x).isSending ∧ (k.procTable x).pSendto = p.val

/-- A process does not wait for one process while an interrupt is pending for it. -/
def Event.Attentive (k : Kernel) : Event → Prop
  | sendrec function srcDest _ => function = receive → (k.procTable k.pProcReady).hasIntMsg ≠ 0 →
      srcDest = anyTask ∨ srcDest = interrupt ∨ k.Offers k.pProcReady srcDest
  | _ => True

def AttentiveEvent (h : History) (e : Event) : Prop := ValidEvent h e ∧ e.Attentive h.kernel

instance (k : Kernel) (p : Pid) (src : Int) : Decidable (k.Offers p src) :=
  inferInstanceAs (Decidable (∃ _, _))

instance (h : History) : (e : Event) → Decidable (AttentiveEvent h e)
  | .sendrec _ _ _ => inferInstanceAs (Decidable (_ ∧ (_ → _ → _)))
  | .write _ _ => inferInstanceAs (Decidable (_ ∧ True))
  | .informInt _ => inferInstanceAs (Decidable (_ ∧ True))
  | .clock => inferInstanceAs (Decidable (_ ∧ True))
  | .key _ => inferInstanceAs (Decidable (_ ∧ True))

/-- The history of a handover between attentive processes. -/
def History.attentive : History × Option Halt :=
  (kernelMachine.run AttentiveEvent Dlos.handover (History.begin, none)).get (by decide +kernel)

theorem History.attentive_reached :
    kernelMachine.Reached AttentiveEvent History.attentive.1 History.attentive.2 :=
  have h : kernelMachine.run AttentiveEvent Dlos.handover (History.begin, none) =
      some History.attentive := (Option.some_get _).symm
  Machine.Reached.of_run (.start History.begin_initial) h

section

variable {k : Kernel} {s : Ipc} {p x : Pid} {m : Addr} {src : Source Pid} {e : Event}
  {h : History} {o : Option Halt}

/-- In a well-formed state a waiting message is offered. -/
theorem Kernel.Implements.offers (hk : k.Implements s) (hs : s.WellFormed)
    (ho : k.Offers p (sourceCode (.only x))) : s.offer p (.only x) ≠ none := by
  obtain ⟨y, hy, hsend, hto⟩ := ho
  obtain rfl : x = y := Fin.ext (by simpa [sourceCode] using pidOf_eq_some.mp hy)
  have hwaits : s.waits x = some p := hk.waits_eq.mpr ⟨hsend, hto⟩
  intro hnone
  exact hs.offer_eq_none hnone x ((hs.queued x p).mpr hwaits) rfl

/-- An attentive process that falls asleep has no interrupt pending. -/
theorem Kernel.Implements.not_pending (hk : k.Implements s) (hs : s.WellFormed)
    (ha : (Event.sendrec receive (sourceCode src) m).Attentive k)
    (hblocked : (s.receive k.pProcReady src m).2 = .blocked) : ¬ s.pending k.pProcReady := by
  intro hpending
  unfold State.receive at hblocked
  cases src with
  | any => simp [hpending, Source.TakesInterrupt] at hblocked
  | interrupt => simp [hpending, Source.TakesInterrupt] at hblocked
  | only y =>
    have hcode := ha rfl ((hk.pending _).mpr hpending)
    rcases hcode with hany | hint | hoffer
    · exact absurd hany y.val_lt.1.ne
    · exact absurd hint y.val_lt.2.2.ne'
    · cases hy : s.offer k.pProcReady (.only y) with
      | none => exact hk.offers hs hoffer hy
      | some xc => simp [hy, Source.TakesInterrupt] at hblocked

/-- No assertion fails in an attentive event. -/
theorem Event.Valid.no_assertion (hv : e.Valid k) (hk : k.Implements s) (hs : s.WellFormed) (hrun : k.Runs)
    (hre : k.kReenter = 0) (ha : e.Attentive k) (exp : String) :
    (exec e.run k).2 ≠ some (.assertion exp) := by
  have hidle := hk.idle_of_runs hrun
  apply exec_of_wp (P := fun _ r => r ≠ some (Halt.assertion exp))
  cases e with
  | sendrec function srcDest m =>
    obtain ⟨call, hcall, hm, rfl, rfl⟩ := hv.exists_call
    have hk₁ : (k.stamp k.pProcReady m).Implements s := hk.congr rfl
    rw [run, wp_bind, wp_get, wp_bind, wp_sysSendrec_body hk hcall hre]
    cases call with
    | send d =>
      exact wp_msgSend hk₁ hs hidle hcall hm rfl (fun _ _ _ _ => by simp) (fun _ => by simp)
        fun _ _ _ => by simp
    | receive src =>
      refine wp_msgReceive hk₁ hs hidle hcall hm rfl (fun _ _ _ _ => by simp) ?_
      rintro _ halt - hblocked (rfl | ⟨-, hpending, -⟩)
      · simp
      · exact absurd hpending (hk.not_pending hs ha hblocked)
  | write la content => exact (Option.some_ne_none _).symm
  | informInt task =>
    have hflat : task.val < nrTasks + nrNativeProcs := Nat.lt_of_lt_of_le hv (by decide)
    exact wp_informInt hk hflat fun _ _ _ => by simp
  | clock => exact wp_clockHandler hk hrun (fun _ _ _ _ _ => by simp) fun _ _ _ _ => by simp
  | key pressed => exact (Option.some_ne_none _).symm

/-- A call that is not attentive ends in the failing assertion, unless nobody is left to run. -/
theorem Event.Valid.assertion (hv : e.Valid k) (hk : k.Implements s) (hs : s.WellFormed) (hrun : k.Runs)
    (hre : k.kReenter = 0) (ha : ¬ e.Attentive k) :
    (exec e.run k).2 = some (.assertion noIntMsg) ∨ (exec e.run k).2 = some .diverge := by
  have hidle := hk.idle_of_runs hrun
  apply exec_of_wp (P := fun _ r => r = some (Halt.assertion noIntMsg) ∨ r = some .diverge)
  cases e with
  | sendrec function srcDest m =>
    obtain ⟨call, hcall, hm, rfl, rfl⟩ := hv.exists_call
    have hk₁ : (k.stamp k.pProcReady m).Implements s := hk.congr rfl
    simp only [Attentive, not_forall, not_or] at ha
    obtain ⟨hfun, hint, hany, hinterrupt, hoffer⟩ := ha
    rw [run, wp_bind, wp_get, wp_bind, wp_sysSendrec_body hk hcall hre]
    cases call with
    | send d => simp [Call.function] at hfun
    | receive src =>
      have hpending : s.pending k.pProcReady := (hk.pending _).mp hint
      -- the call goes to sleep, as it takes no interrupt and nothing is offered
      have hblocked : (s.receive k.pProcReady src m).2 = .blocked := by
        cases src with
        | any => exact absurd rfl hany
        | interrupt => exact absurd rfl hinterrupt
        | only x =>
          unfold State.receive
          cases hx : s.offer k.pProcReady (.only x) with
          | none => simp [Source.TakesInterrupt]
          | some xc =>
            obtain ⟨hphase, rfl, -⟩ := hs.offer_eq_some (x := xc.1) (c := xc.2) hx
            obtain ⟨hsend, hto⟩ := hk.waits_eq.mp (State.waits_eq_some.mpr ⟨_, hphase⟩)
            exact absurd ⟨_, pidOf_val, hsend, hto⟩ hoffer
      refine wp_msgReceive hk₁ hs hidle hcall hm rfl (fun _ _ h _ => absurd hpending (h hblocked)) ?_
      rintro _ halt - - (rfl | ⟨rfl, -⟩)
      · exact .inr rfl
      · exact .inl rfl
  | write la content => exact absurd trivial ha
  | informInt task => exact absurd trivial ha
  | clock => exact absurd trivial ha
  | key pressed => exact absurd trivial ha

/-- No assertion fails in a run of attentive events, and any other valid event would make one
fail or leave nobody to run. -/
theorem assertions_hold (hr : kernelMachine.Reached AttentiveEvent h o) :
    (∀ exp, o ≠ some (.assertion exp)) ∧
    (o = none → ∀ e, ValidEvent h e → ¬ e.Attentive h.kernel →
      (History.step e h).2 = some (.assertion noIntMsg) ∨ (History.step e h).2 = some .diverge) := by
  constructor
  · intro exp
    cases hr with
    | start _ => nofun
    | step hr he =>
      obtain ⟨⟨s, hi⟩, hruns⟩ := reached_inv (hr.mono fun _ _ h => h.1)
      exact he.1.no_assertion hi.implements hi.wellFormed (hruns nofun) hi.kReenter he.2 exp
  · rintro rfl e hv ha
    obtain ⟨⟨s, hi⟩, hruns⟩ := reached_inv (hr.mono fun _ _ h => h.1)
    exact hv.assertion hi.implements hi.wellFormed (hruns nofun) hi.kReenter ha

theorem assertions_hold_handover :
    (∀ exp, History.attentive.2 ≠ some (.assertion exp)) ∧
    (History.attentive.2 = none → ∀ e, ValidEvent History.attentive.1 e →
      ¬ e.Attentive History.attentive.1.kernel →
      (History.step e History.attentive.1).2 = some (.assertion noIntMsg) ∨
        (History.step e History.attentive.1).2 = some .diverge) :=
  assertions_hold History.attentive_reached

/-- The system calls and the interrupts of the two drivers. -/
def CallEvent (h : History) : Event → Prop
  | .sendrec function srcDest m => ValidEvent h (.sendrec function srcDest m)
  | .informInt task => task = taskHd ∨ task = taskTty
  | _ => False

instance (h : History) : (e : Event) → Decidable (CallEvent h e)
  | .sendrec _ _ _ => inferInstanceAs (Decidable (ValidEvent _ _))
  | .write _ _ => isFalse not_false
  | .informInt _ => inferInstanceAs (Decidable (_ ∨ _))
  | .clock => isFalse not_false
  | .key _ => isFalse not_false

/-- An interrupt comes for TTY, which then waits for SYS. -/
def deafCall : List Event := [.informInt taskTty, .sendrec receive taskSys.val 0x8000]

theorem assertion_fails :
    ¬ ∀ h o, kernelMachine.Reached CallEvent h o → ∀ exp, o ≠ some (.assertion exp) := by
  intro hall
  have hrun : (kernelMachine.run CallEvent deafCall (History.begin, none)).map (·.2) =
      some (some (.assertion noIntMsg)) := by decide +kernel
  obtain ⟨⟨h, o⟩, hr, ho⟩ := Option.map_eq_some_iff.mp hrun
  exact hall h o (.of_run (.start History.begin_initial) hr) noIntMsg ho

end

end Dlos
