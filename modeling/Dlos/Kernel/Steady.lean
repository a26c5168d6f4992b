import Dlos.Kernel.History

/-!
# What the kernel's steps keep

A step of the kernel takes a sound kernel to a sound one. Nobody but the running process falls
asleep in it, and no slot is freed or filled.
-/

namespace Dlos

open Program Rendezvous

/-- The kernel implements a well-formed state. -/
structure Kernel.Sound (k : Kernel) (a : Ipc) : Prop where
  implements : k.Implements a
  wellFormed : a.WellFormed
  kReenter : k.kReenter = 0

/-- What holds of the kernel between the steps of a run, or after the last one. -/
def Kernel.Steady (k : Kernel) (o : Option Halt) : Prop :=
  (∃ a, k.Sound a) ∧ (o ≠ some .diverge → k.Runs)

/-- The event led from `k`, which implements `a`, to `k'`, which implements `a'`. -/
structure Event.Led (e : Event) (k : Kernel) (a : Ipc) (k' : Kernel) (a' : Ipc) : Prop where
  sound : k'.Sound a'
  outcome : ∃ effect, e.Outcome k a (a', effect)
  keyPressed : k'.keyPressed = (e.prepare k).keyPressed

section

variable {k k' : Kernel} {a a' : Ipc} {p x : Pid} {m : Addr} {e : Event} {i : Int}
  {o : Ipc × Effect Pid Addr} {r : Option Halt}

theorem Kernel.Sound.congr (h : k.Sound a) (table : k'.procTable = k.procTable)
    (reenter : k'.kReenter = k.kReenter) : k'.Sound a :=
  ⟨h.implements.congr table, h.wellFormed, reenter.trans h.kReenter⟩

theorem Kernel.Sound.setMsg (h : k.Sound a) (la : Addr) (content : Message) :
    (k.setMsg la content).Sound a := h.congr rfl rfl

theorem Kernel.Steady.congr (h : k.Steady r) (table : k'.procTable = k.procTable)
    (ready : k'.pProcReady = k.pProcReady) (reenter : k'.kReenter = k.kReenter) : k'.Steady r := by
  obtain ⟨⟨a, ha⟩, hr⟩ := h
  refine ⟨⟨a, ha.congr table reenter⟩, fun hne => ?_⟩
  rw [Kernel.Runs, ready, table]
  exact hr hne

theorem Kernel.Steady.setMsg (h : k.Steady r) (la : Addr) (content : Message) :
    (k.setMsg la content).Steady r := h.congr rfl rfl rfl

/-- A running kernel that stops where it is. -/
theorem Kernel.Steady.halt (h : k.Steady none) (r : Option Halt) : k.Steady r :=
  ⟨h.1, fun _ => h.2 (by simp)⟩

/-- The running process does not wait. -/
theorem Kernel.Steady.not_isReceiving (h : k.Steady none) :
    ¬ (k.procTable k.pProcReady).isReceiving := by
  rw [Proc.isReceiving, h.2 (by simp)]
  decide

/-! ## The phases of the processes -/

/-- An interrupt changes a phase only by waking its task. -/
theorem notify_phase (a : Ipc) (task x : Pid) : (a.notify task).1.phase x = a.phase x ∨
    a.phase x ≠ .free ∧ (a.notify task).1.phase x = .idle := by
  rcases a.notify_cases task with ⟨src, c, htask, -, hn⟩ | hn
  · by_cases hx : x = task
    · subst hx
      exact .inr ⟨by simp [htask], by simp [hn]⟩
    · exact .inl (by simp [hn, hx])
  · exact .inl (by simp [hn])

/-- A step changes the phase of a process other than the one that makes it only by waking it. -/
theorem Event.Outcome.phase (h : e.Outcome k a o) (ha : a.WellFormed)
    (hx : e.ByProcess → x ≠ k.pProcReady) :
    o.1.phase x = a.phase x ∨ a.phase x ≠ .free ∧ o.1.phase x = .idle := by
  cases e with
  | sendrec function srcDest m =>
    have hx : x ≠ k.pProcReady := hx trivial
    obtain ⟨call, -, -, -, -, rfl⟩ := h
    cases call with
    | send d =>
      rcases a.send_cases k.pProcReady d m with ⟨-, hn⟩ | ⟨src, c, hd, -, hn⟩ | ⟨-, -, hn⟩
      · exact .inl (by simp [Call.run, hn])
      · by_cases hxd : x = d
        · subst hxd
          exact .inr ⟨by simp [hd], by simp [Call.run, hn]⟩
        · exact .inl (by simp [Call.run, hn, hxd])
      · exact .inl (by simp [Call.run, hn, State.enqueue, hx])
    | receive src =>
      rcases a.receive_cases k.pProcReady src m with
        ⟨-, -, hn⟩ | ⟨-, y, c, ho, hn⟩ | ⟨-, -, hn⟩
      · exact .inl (by simp [Call.run, hn])
      · by_cases hxy : x = y
        · subst hxy
          exact .inr ⟨by simp [(ha.offer_eq_some ho).1], by simp [Call.run, hn, State.dequeue]⟩
        · exact .inl (by simp [Call.run, hn, State.dequeue, hxy])
      · exact .inl (by simp [Call.run, hn, hx])
  | informInt task =>
    obtain ⟨-, rfl⟩ := h
    exact notify_phase a task x
  | clock =>
    rcases h with rfl | rfl
    · exact .inl rfl
    · exact notify_phase a taskTty x
  | write la content => obtain rfl := h; exact .inl rfl
  | key pressed => obtain rfl := h; exact .inl rfl

/-- Message passing leaves free slots free. -/
theorem Event.Led.free (h : e.Led k a k' a') (ha : a.WellFormed)
    (hp : a.phase k.pProcReady = .idle) (hx : a.phase x = .free) : a'.phase x = .free := by
  obtain ⟨effect, ho⟩ := h.outcome
  have hne : x ≠ k.pProcReady := by
    rintro rfl
    simp [hp] at hx
  rcases ho.phase ha fun _ => hne with hsame | ⟨hfree, -⟩
  · exact hsame.trans hx
  · exact absurd hx hfree

/-- A process that does not wait for a message waits for none after the step of another one. -/
theorem Event.Led.not_isReceiving (h : e.Led k a k' a') (hk : k.Sound a)
    (hx : e.ByProcess → x ≠ k.pProcReady)
    (hn : ¬ (k.procTable x).isReceiving) : ¬ (k'.procTable x).isReceiving := by
  obtain ⟨effect, ho⟩ := h.outcome
  rw [(hk.implements.proc x).isReceiving] at hn
  rw [(h.sound.implements.proc x).isReceiving]
  rcases ho.phase hk.wellFormed hx with hsame | ⟨-, hidle⟩
  · rwa [hsame]
  · rw [hidle]
    nofun

/-- A process that sends does not wait for a message. -/
theorem Event.Led.not_isReceiving_of_send (h : (sendrec send i m).Led k a k' a')
    (hp : a.phase k.pProcReady = .idle) :
    ¬ (k'.procTable k.pProcReady).isReceiving := by
  obtain ⟨effect, call, -, -, hcall, -, ho⟩ := h.outcome
  rw [(h.sound.implements.proc _).isReceiving]
  rintro ⟨src, b, hphase⟩
  cases call with
  | receive src => exact absurd (show send = receive from hcall) (by decide)
  | send d =>
    rw [(Prod.mk.inj ho).1] at hphase
    change (a.send k.pProcReady d m).1.phase k.pProcReady = _ at hphase
    rcases a.send_cases k.pProcReady d m with ⟨-, hn⟩ | ⟨src, c, hd, -, hn⟩ | ⟨-, -, hn⟩
    · simp [hn, hp] at hphase
    · by_cases hpd : k.pProcReady = d
      · rw [← hpd, hp] at hd
        exact absurd hd nofun
      · simp [hn, hpd, hp] at hphase
    · simp [hn, State.enqueue] at hphase

/-! ## One step -/

/-- A step of the kernel keeps it sound. -/
theorem wp_event (hk : k.Sound a) (hrun : k.Runs) (hv : e.Valid k) {Q : Unit → Kernel → Prop}
    {E : Halt → Kernel → Prop} (hok : ∀ k' a', e.Led k a k' a' → k'.Runs → Q () k')
    (herr : ∀ k' a' halt, e.Led k a k' a' → (halt ≠ .diverge → k'.Runs) → E halt k') :
    wp e.run Q E k := by
  obtain ⟨o, ho, hp, hr⟩ := e.run_spec hk.implements hk.wellFormed hrun hk.kReenter hv
  have hre : (e.prepare k).kReenter = k.kReenter := by cases e <;> rfl
  have hled : e.Led k a (exec e.run k).1 o.1 :=
    ⟨⟨hp.implements, ho.wellFormed hk.wellFormed (hk.implements.idle_of_runs hrun),
      (hp.frame.kReenter.trans hre).trans hk.kReenter⟩, ⟨o.2, ho⟩, hp.frame.keyPressed⟩
  refine (wp_of_exec (P := fun k' r => e.Led k a k' o.1 ∧ (r ≠ some .diverge → k'.Runs))
    ⟨hled, hr⟩).mono (fun _ k' h => ?_) fun halt k' h => ?_
  · exact hok k' _ h.1 (h.2 (by simp))
  · exact herr k' _ halt h.1 fun hne => h.2 fun heq => hne (Option.some.inj heq)

/-! ## The calls of one process -/

/-- What a call of process `p` leaves. -/
structure Kernel.Called (k : Kernel) (k' : Kernel) (r : Option Halt) : Prop where
  steady : k'.Steady r
  keyPressed : k'.keyPressed = k.keyPressed

/-- A valid call is one of the kernel's events. -/
theorem wp_sysSendrec_event {function : Int} (hk : k.Steady none) (hready : k.pProcReady = p)
    (hv : (Event.sendrec function i m).Valid k) {Q : Kernel → Option Halt → Prop}
    (hQ : ∀ a k' a' r, k.Sound a → (Event.sendrec function i m).Led k a k' a' →
      k.Called k' r → Q k' r) :
    wp (sysSendrec function i m p) (fun _ k' => Q k' none) (fun e k' => Q k' (some e)) k := by
  obtain ⟨⟨a, ha⟩, hr⟩ := hk
  have hwp := wp_event ha (hr (by simp)) hv (Q := fun _ k' => Q k' none)
    (E := fun e k' => Q k' (some e))
    (fun k' a' h hr => hQ a k' a' _ ha h ⟨⟨⟨a', h.sound⟩, fun _ => hr⟩, h.keyPressed⟩)
    fun k' a' halt h hr => hQ a k' a' _ ha h
      ⟨⟨⟨a', h.sound⟩, fun hne => hr fun heq => hne (by rw [heq])⟩, h.keyPressed⟩
  rwa [Event.run, wp_bind, wp_get, wp_bind, hready] at hwp

/-- A SEND to nobody or to oneself fails before it changes the table. -/
theorem wp_sysSendrec_nobody (hk : k.Steady none) (hi : i = p.val ∨ pidOf i = none)
    {Q : Kernel → Option Halt → Prop}
    (hQ : ∀ k' e, k'.procTable = k.procTable → k.Called k' (some e) → Q k' (some e)) :
    wp (sysSendrec send i m p) (fun _ k' => Q k' none) (fun e k' => Q k' (some e)) k := by
  obtain ⟨⟨a, ha⟩, hr⟩ := hk
  have hhere (e) : Q k (some e) := hQ k e rfl ⟨⟨⟨a, ha⟩, fun _ => hr (by simp)⟩, rfl⟩
  have hstamp (e) : Q (k.stamp p m) (some e) :=
    hQ _ e rfl ⟨⟨⟨a, ha.congr rfl rfl⟩, fun _ => hr (by simp)⟩, rfl⟩
  simp only [sysSendrec, wp_bind, wp_get, wp_assert, ha.implements.wp_va2la, wp_modify]
  refine ⟨fun _ => ⟨fun _ => ⟨fun hne => ?_, fun _ => hstamp _⟩, fun _ => hhere _⟩,
    fun _ => hhere _⟩
  have hnone : pidOf i = none := hi.resolve_left fun h => hne h.symm
  rw [if_pos trivial, msgSend, wp_bind, procAt, hnone, wp_throw]
  exact hstamp _

/-- A SEND by the running process, to whatever number it has been given. -/
theorem wp_send (hk : k.Steady none) (hready : k.pProcReady = p) (hm : m ≠ 0) :
    wp (sysSendrec send i m p)
      (fun _ k' => k.Called k' none ∧ ¬ (k'.procTable p).isReceiving)
      (fun e k' => k.Called k' (some e) ∧ ¬ (k'.procTable p).isReceiving) k := by
  have hnobody (hi : i = p.val ∨ pidOf i = none) :=
    wp_sysSendrec_nobody (m := m) hk hi
      (Q := fun k' r => k.Called k' r ∧ ¬ (k'.procTable p).isReceiving)
      fun k' e htable h => ⟨h, by rw [htable, ← hready]; exact hk.not_isReceiving⟩
  cases hi : pidOf i with
  | none => exact hnobody (.inr hi)
  | some q =>
    obtain rfl := pidOf_eq_some.mp hi
    by_cases hq : q = p
    · exact hnobody (.inl (by rw [hq]))
    · refine wp_sysSendrec_event hk hready
        (Q := fun k' r => k.Called k' r ∧ ¬ (k'.procTable p).isReceiving) ?_ ?_
      · exact ⟨hm, fun h => hq (Fin.ext (by rw [hready] at h; exact_mod_cast h)),
          .inl ⟨by omega, by omega, .inl rfl⟩⟩
      · intro a k' a' r ha hled hcalled
        exact ⟨hcalled, hready ▸ hled.not_isReceiving_of_send
          (ha.implements.idle_of_runs (hk.2 (by simp)))⟩

/-- A RECEIVE by the running process, from anybody or from another one. -/
theorem wp_receive (hk : k.Steady none) (hready : k.pProcReady = p) (hm : m ≠ 0)
    (hi : i = anyTask ∨ ∃ q : Pid, q ≠ p ∧ i = q.val) :
    wp (sysSendrec receive i m p) (fun _ k' => k.Called k' none)
      (fun e k' => k.Called k' (some e)) k := by
  refine wp_sysSendrec_event hk hready ?_ fun _ _ _ _ _ _ h => h
  rcases hi with rfl | ⟨q, hq, rfl⟩
  · exact ⟨hm, k.pProcReady.val_lt.1.ne', .inr ⟨rfl, .inl rfl⟩⟩
  · exact ⟨hm, fun h => hq (Fin.ext (by rw [hready] at h; exact_mod_cast h)),
      .inl ⟨by omega, by omega, .inr rfl⟩⟩

end

end Dlos
